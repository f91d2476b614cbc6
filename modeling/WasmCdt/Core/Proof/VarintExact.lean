import WasmCdt.Core.Proof.RoundTrip

/-!
# What the variable-length integers denote

A group of bytes denotes a number, `Leb128.value`; for a `signed_int` the number is the zig-zag code
of the integer that is meant.

* `readVarint_exact_iff`: exactly when extraction gives what the group it takes denotes, or refuses.
* `varint_minimal`: what is written reads back, and no group that denotes the value is shorter.
-/

namespace Wasmlib

open Leb128

/-- The integer with the zig-zag code `n`. -/
def zigzagInt (n : Nat) : Int := if n % 2 = 0 then (n / 2 : Nat) else -(n / 2 : Nat) - 1

theorem unzigzag_toInt (w : BitVec 32) : (unzigzag w).toInt = zigzagInt w.toNat := by
  have hlow : w[0] = decide (w.toNat % 2 = 1) := by
    rw [BitVec.getElem_eq_testBit_toNat, Nat.testBit_zero]
  have hhalf : (w >>> 1).toNat = w.toNat / 2 := by
    rw [BitVec.toNat_ushiftRight, Nat.shiftRight_eq_div_pow, Nat.pow_one]
  have hlt := w.isLt
  rw [unzigzag_eq, hlow, zigzagInt]
  rcases Nat.mod_two_eq_zero_or_one w.toNat with h | h
  · have hxor : (w >>> 1) ^^^ (if decide (w.toNat % 2 = 1) then BitVec.allOnes 32 else 0) =
        w >>> 1 := by
      rw [h]
      simp
    rw [hxor, if_pos h, BitVec.toInt_eq_toNat_of_lt (by omega), hhalf]
  · have hxor : (w >>> 1) ^^^ (if decide (w.toNat % 2 = 1) then BitVec.allOnes 32 else 0) =
        ~~~(w >>> 1) := by
      rw [h, decide_eq_true rfl, if_pos rfl, BitVec.xor_allOnes]
    have hnot : (~~~(w >>> 1)).toNat = 2 ^ 32 - 1 - w.toNat / 2 := by
      rw [BitVec.toNat_not, hhalf]
    rw [hxor, if_neg (by omega), BitVec.toInt_eq_toNat_bmod, hnot, Int.bmod_def]
    omega

theorem zigzagInt_inj {m n : Nat} (h : zigzagInt m = zigzagInt n) : m = n := by
  rw [zigzagInt, zigzagInt] at h
  split_ifs at h <;> omega

/-! ## Reading any bytes -/

/-- Without the last byte of a group the reading loop runs out of the stream, while the shifts are
defined. -/
theorem readGroups_more {bytes : List UInt8} {v shift : Nat} (done : List UInt8)
    (h : ∀ b ∈ bytes, 128 ≤ b.toNat) (hshift : shift + 7 * bytes.length ≤ 35) :
    readGroups bytes.length v shift ⟨done, bytes⟩ = .error (.abort "get") := by
  induction bytes generalizing v shift done with
  | nil => rfl
  | cons b bs ih =>
    obtain ⟨hb, hbs⟩ := List.forall_mem_cons.1 h
    rw [List.length_cons] at hshift ⊢
    rw [readGroups_cons (by omega), if_neg (by omega)]
    exact ih _ hbs (by omega)

/-- Behind five bytes of a group a sixth one is shifted by more than a word has. -/
theorem readGroups_fault {pre tail : List UInt8} {n v shift : Nat} (done : List UInt8)
    (h : ∀ b ∈ pre, 128 ≤ b.toNat) (htail : tail ≠ []) (hshift : 32 ≤ shift + 7 * pre.length)
    (hn : pre.length < n) : readGroups n v shift ⟨done, pre ++ tail⟩ = .error .fault := by
  induction pre generalizing n v shift done with
  | nil =>
    obtain ⟨n, rfl⟩ : ∃ k, n = k + 1 := ⟨n - 1, by rw [List.length_nil] at hn; omega⟩
    obtain ⟨c, tail, rfl⟩ := List.exists_cons_of_ne_nil htail
    rw [List.length_nil, Nat.mul_zero, Nat.add_zero] at hshift
    simp only [List.nil_append, readGroups, Datastream.get_cons, ok_bind, hshift, if_true]
  | cons b bs ih =>
    obtain ⟨hb, hbs⟩ := List.forall_mem_cons.1 h
    rw [List.length_cons] at hshift hn
    obtain ⟨n, rfl⟩ : ∃ k, n = k + 1 := ⟨n - 1, by omega⟩
    rcases Nat.lt_or_ge shift 32 with hlt | hge
    · rw [List.cons_append, readGroups_cons hlt, if_neg (by omega)]
      exact ih _ hbs (by omega) (by omega)
    · simp only [List.cons_append, readGroups, Datastream.get_cons, ok_bind, hge, if_true]

/-- The bytes end within five of a group, or start with a group of at most five bytes that denotes a
number of 32 bits. -/
def ShortGroup (bytes : List UInt8) : Prop :=
  (∀ b ∈ bytes, 128 ≤ b.toNat) ∧ bytes.length ≤ 5 ∨
    ∃ g rest, bytes = g ++ rest ∧ IsGroup g ∧ g.length ≤ 5 ∧ value g < 2 ^ 32

/-- A reading is refused, or takes a group from the front of the bytes and gives a value for the
number that the group denotes. -/
def TakesGroup {α : Type} (denotes : α → Nat → Prop) (done bytes : List UInt8)
    (r : Exec (α × Datastream)) : Prop :=
  (∃ msg, r = .error (.abort msg)) ∨
    ∃ v g rest, r = .ok (v, ⟨done ++ g, rest⟩) ∧ bytes = g ++ rest ∧ IsGroup g ∧
      denotes v (value g)

theorem readUnsigned_more {bytes : List UInt8} (h : ∀ b ∈ bytes, 128 ≤ b.toNat)
    (hlen : bytes.length ≤ 5) (done : List UInt8) :
    readUnsigned ⟨done, bytes⟩ = .error (.abort "get") := by
  rw [readUnsigned, readGroups_more done h (by omega)]
  rfl

theorem readUnsigned_fault {pre tail : List UInt8} (h : ∀ b ∈ pre, 128 ≤ b.toNat)
    (hlen : pre.length = 5) (htail : tail ≠ []) (done : List UInt8) :
    readUnsigned ⟨done, pre ++ tail⟩ = .error .fault := by
  have hpos : 0 < tail.length := List.length_pos_iff.2 htail
  rw [readUnsigned, readGroups_fault done h htail (by omega) (by rw [List.length_append]; omega)]
  rfl

/-- Bytes hold a short group, or one of at most five bytes that denotes more than a word holds, or
more than five bytes of one. -/
theorem group_cases (bytes : List UInt8) : ShortGroup bytes ∨
    (∃ g rest, bytes = g ++ rest ∧ IsGroup g ∧ g.length ≤ 5 ∧ 2 ^ 32 ≤ value g) ∨
    ∃ pre tail, bytes = pre ++ tail ∧ (∀ b ∈ pre, 128 ≤ b.toNat) ∧ pre.length = 5 ∧ tail ≠ [] := by
  rcases exists_group bytes with ⟨g, rest, rfl, hg⟩ | hall
  · rcases Nat.lt_or_ge 5 g.length with hlen | hlen
    · refine .inr (.inr ⟨g.take 5, g.drop 5 ++ rest, ?_, hg.take hlen, ?_, ?_⟩)
      · rw [← List.append_assoc, List.take_append_drop]
      · rw [List.length_take]
        omega
      · rw [← List.length_pos_iff, List.length_append, List.length_drop]
        omega
    · rcases Nat.lt_or_ge (value g) (2 ^ 32) with hv | hv
      · exact .inl (.inr ⟨g, rest, rfl, hg, hlen, hv⟩)
      · exact .inr (.inl ⟨g, rest, rfl, hg, hlen, hv⟩)
  · rcases Nat.lt_or_ge 5 bytes.length with hlen | hlen
    · refine .inr (.inr ⟨bytes.take 5, bytes.drop 5, (List.take_append_drop 5 bytes).symm, ?_, ?_, ?_⟩)
      · exact fun b hb => hall b (List.mem_of_mem_take hb)
      · rw [List.length_take]
        omega
      · rw [← List.length_pos_iff, List.length_drop]
        omega
    · exact .inl (.inl ⟨hall, hlen⟩)

/-- A reader that takes a word off the stream and gives `f` of it is exact on the short groups, if
`f` tells the words apart as what they denote. -/
theorem takesGroup_iff {α : Type} {denotes : α → Nat → Prop} (f : BitVec 32 → α)
    (hf : ∀ w n, denotes (f w) n ↔ w.toNat = n) (done bytes : List UInt8) :
    TakesGroup denotes done bytes (readUnsigned ⟨done, bytes⟩ >>= fun p => .ok (f p.1, p.2)) ↔
      ShortGroup bytes := by
  constructor
  · intro h
    rcases group_cases bytes with hshort | ⟨g, rest, rfl, hg, hlen, hv⟩ |
      ⟨pre, tail, rfl, hpre, hlen, htail⟩
    · exact hshort
    · rw [readUnsigned_group hg hlen, ok_bind] at h
      rcases h with ⟨msg, hmsg⟩ | ⟨v, g', rest', hok, hbytes, hg', hdenotes⟩
      · cases hmsg
      · obtain ⟨rfl, rfl⟩ := hg.append_inj hg' hbytes
        obtain ⟨rfl, -⟩ := Prod.mk.inj (Except.ok.inj hok)
        rw [hf, BitVec.toNat_ofNat] at hdenotes
        omega
    · rw [readUnsigned_fault hpre hlen htail] at h
      rcases h with ⟨msg, hmsg⟩ | ⟨v, g', rest', hok, -⟩
      · cases hmsg
      · cases hok
  · rintro (⟨hall, hlen⟩ | ⟨g, rest, rfl, hg, hlen, hv⟩)
    · exact .inl ⟨"get", by rw [readUnsigned_more hall hlen]; rfl⟩
    · refine .inr ⟨f (BitVec.ofNat 32 (value g)), g, rest, ?_, rfl, hg, ?_⟩
      · rw [readUnsigned_group hg hlen, ok_bind]
      · rw [hf, BitVec.toNat_ofNat, Nat.mod_eq_of_lt hv]

/-- **When extraction is exact.** An `unsigned_int` and a `signed_int` are refused, or what the group
of bytes that is taken denotes, if the bytes start with a group of at most five bytes for a number of
32 bits, or end within five bytes of a group. -/
theorem readVarint_exact_iff (t : BitVec 32) (done bytes : List UInt8) :
    (TakesGroup (fun v n => v.toNat = n) done bytes (Serial.unsignedInt.read t ⟨done, bytes⟩) ↔
      ShortGroup bytes) ∧
    (TakesGroup (fun v n => v.toInt = zigzagInt n) done bytes
      (Serial.signedInt.read t ⟨done, bytes⟩) ↔ ShortGroup bytes) := by
  constructor
  · have h : TakesGroup (fun v n => v.toNat = n) done bytes
        (readUnsigned ⟨done, bytes⟩ >>= fun p => .ok (p.1, p.2)) ↔ ShortGroup bytes :=
      takesGroup_iff id (fun v n => show v.toNat = n ↔ v.toNat = n from Iff.rfl) done bytes
    rwa [bind_ok] at h
  · refine takesGroup_iff unzigzag (fun w n => ?_) done bytes
    rw [unzigzag_toInt]
    exact ⟨zigzagInt_inj, congrArg zigzagInt⟩

/-- Five bytes that denote `2 ^ 32` are read as 0, and a sixth byte is shifted by 35. -/
theorem readVarint_drops_bits :
    (Serial.unsignedInt.read 0 (.start [0x80, 0x80, 0x80, 0x80, 0x10]) =
        .ok (0, ⟨[0x80, 0x80, 0x80, 0x80, 0x10], []⟩) ∧
      value [0x80, 0x80, 0x80, 0x80, 0x10] = 2 ^ 32 ∧
      ¬TakesGroup (fun v n => v.toNat = n) [] [0x80, 0x80, 0x80, 0x80, 0x10]
        (Serial.unsignedInt.read 0 (.start [0x80, 0x80, 0x80, 0x80, 0x10]))) ∧
    (Serial.signedInt.read 0 (.start [0x80, 0x80, 0x80, 0x80, 0x80, 0]) = .error .fault ∧
      ¬TakesGroup (fun v n => v.toInt = zigzagInt n) [] [0x80, 0x80, 0x80, 0x80, 0x80, 0]
        (Serial.signedInt.read 0 (.start [0x80, 0x80, 0x80, 0x80, 0x80, 0]))) := by
  have hzero : Serial.unsignedInt.read 0 (.start [0x80, 0x80, 0x80, 0x80, 0x10]) =
      .ok (0, ⟨[0x80, 0x80, 0x80, 0x80, 0x10], []⟩) := rfl
  have hvalue : value [0x80, 0x80, 0x80, 0x80, 0x10] = 2 ^ 32 := rfl
  have hfault : Serial.signedInt.read 0 (.start [0x80, 0x80, 0x80, 0x80, 0x80, 0]) =
      .error .fault := rfl
  refine ⟨⟨hzero, hvalue, ?_⟩, hfault, ?_⟩
  · rw [hzero]
    rintro (⟨msg, hmsg⟩ | ⟨v, g, rest, hok, hbytes, hg, hdenotes⟩)
    · cases hmsg
    · have hgroup : IsGroup [0x80, 0x80, 0x80, 0x80, 0x10] := rfl
      rw [← List.append_nil [0x80, 0x80, 0x80, 0x80, 0x10]] at hbytes
      obtain ⟨rfl, -⟩ := hgroup.append_inj hg hbytes
      obtain ⟨rfl, -⟩ := Prod.mk.inj (Except.ok.inj hok)
      rw [hvalue] at hdenotes
      exact absurd hdenotes (by decide)
  · rw [hfault]
    rintro (⟨msg, hmsg⟩ | ⟨v, g, rest, hok, -⟩)
    · cases hmsg
    · cases hok

/-! ## Writing -/

/-- The bytes are a group that denotes `n`, of one to five bytes, and no group that denotes `n` is
shorter. -/
structure LeastGroup (bytes : List UInt8) (n : Nat) : Prop where
  group : IsGroup bytes
  denotes : value bytes = n
  pos : 1 ≤ bytes.length
  le_five : bytes.length ≤ 5
  least : ∀ {g : List UInt8}, IsGroup g → value g = n → bytes.length ≤ g.length

theorem encodeU_least {n : Nat} (h : n < 2 ^ 32) : LeastGroup (encodeU n) n where
  group := (encodeU_group n).1
  denotes := (encodeU_group n).2
  pos := (encodeU_group n).1.length_pos
  le_five := encodeU_length (Nat.lt_of_lt_of_le h (by decide)) (by decide)
  least hg hn := by
    rw [← hn]
    exact encodeU_value_length hg

theorem zigzagInt_zigzag (v : BitVec 32) : zigzagInt (zigzag v).toNat = v.toInt := by
  rw [← unzigzag_toInt, unzigzag_zigzag]

/-- A 32-bit value comes back from its packed bytes, over any object, and they are the least group
for its number. -/
def ReadsBack (t : Ty (BitVec 32)) (v : BitVec 32) (n : Nat) : Prop :=
  ∃ bytes, t.pack v = .ok bytes ∧ LeastGroup bytes n ∧ ∀ (object : BitVec 32) (done r : List UInt8),
    t.serial.read object ⟨done, bytes ++ r⟩ = .ok (v, ⟨done ++ bytes, r⟩)

theorem readsBack {t : Ty (BitVec 32)} {v : BitVec 32} {n : Nat} (hn : n < 2 ^ 32)
    (hbytes : t.format.bytes v = encodeU n) (hb : t.format.Bounded v)
    (hfit : ∀ object, t.format.Fits object v) : ReadsBack t v n := by
  have hleast := encodeU_least hn
  have hlen : (t.format.bytes v).length < 2 ^ 31 := by
    rw [hbytes]
    exact Nat.lt_of_le_of_lt hleast.le_five (by decide)
  refine ⟨encodeU n, ?_, hleast, ?_⟩
  · rw [t.pack_eq v hb hlen, hbytes]
  · intro object done r
    rw [← hbytes, t.implements.read hb (hfit object)]

/-- **Round trip and minimality.** Every value of 32 bits comes back, whatever follows its bytes, and
no group of bytes that denotes it is shorter; a signed value is denoted by its one zig-zag code. -/
theorem varint_minimal (v : BitVec 32) :
    ReadsBack .unsignedInt v v.toNat ∧
      ∃ n, zigzagInt n = v.toInt ∧ (∀ m, zigzagInt m = v.toInt → m = n) ∧
        ReadsBack .signedInt v n := by
  have hcode := zigzagInt_zigzag v
  refine ⟨readsBack v.isLt rfl trivial fun _ => trivial, (zigzag v).toNat, hcode, ?_,
    readsBack (zigzag v).isLt rfl trivial fun _ => trivial⟩
  intro m hm
  exact zigzagInt_inj (hm.trans hcode.symm)

end Wasmlib
