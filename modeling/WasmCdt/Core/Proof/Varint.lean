import WasmCdt.Core.Datastream

/-!
# Writing in pieces, and the variable-length integers

* `Sink.write_bind`: for a stream, two pieces one after the other are one piece.
* `writeUnsigned_eq`, `readUnsigned_encode`: an `unsigned_int` is written as its LEB128 form and
  reads back, whatever follows it.
* `unzigzag_zigzag`: so does a `signed_int`.
-/

namespace Wasmlib

/-! ## Streams -/

/-- A stream that does not see where one piece ends and the next begins. -/
class LawfulSink (S : Type) [Sink S] : Prop where
  write_nil : ∀ s : S, Sink.write [] s = .ok s
  write_bind : ∀ (a b : List UInt8) (s : S), (a ++ b).length < 2 ^ 31 →
    (Sink.write a s >>= fun s => Sink.write b s) = Sink.write (a ++ b) s

instance : LawfulSink SizeStream where
  write_nil s := by simp [Sink.write]
  write_bind a b s _ := by simp [Sink.write, UInt32.ofNat_add, UInt32.add_assoc]

theorem int32_size {n : Nat} (h : n < 2 ^ 31) : Text.int32 n = n := by
  rw [Text.int32_eq]
  omega

theorem Datastream.write_eq {d : List UInt8} (hd : d.length < 2 ^ 31) (ds : Datastream) :
    Sink.write d ds = if d.length ≤ ds.rest.length
      then .ok ⟨ds.done ++ d, ds.rest.drop d.length⟩ else .error (.abort "write") := by
  simp only [Sink.write, int32_size hd, check_bind, Nat.cast_le, decide_eq_true_eq, pure_eq_ok]
  split_ifs <;> rfl

instance : LawfulSink Datastream where
  write_nil s := by simp [Datastream.write_eq]
  write_bind a b s h := by
    have ha : a.length < 2 ^ 31 := by simp at h; omega
    have hb : b.length < 2 ^ 31 := by simp at h; omega
    rw [Datastream.write_eq ha, Datastream.write_eq h]
    by_cases hsa : a.length ≤ s.rest.length
    · simp only [hsa, ↓reduceIte, ok_bind, Datastream.write_eq hb, List.length_drop,
        List.length_append]
      by_cases hsb : a.length + b.length ≤ s.rest.length
      · have hsb' : b.length ≤ s.rest.length - a.length := by omega
        simp [hsb, hsb', List.drop_drop]
      · have hsb' : ¬b.length ≤ s.rest.length - a.length := by omega
        simp [hsb, hsb']
    · have hsb : ¬a.length + b.length ≤ s.rest.length := by omega
      simp only [hsa, ↓reduceIte, error_bind, List.length_append, hsb]

namespace Datastream

theorem read_append {d : List UInt8} {n : Nat} (h : d.length = n) (done rest : List UInt8) :
    read n ⟨done, d ++ rest⟩ = .ok (d, ⟨done ++ d, rest⟩) := by
  subst h
  simp [read, check_bind]

theorem get_cons (c : UInt8) (done rest : List UInt8) :
    get ⟨done, c :: rest⟩ = .ok (c, ⟨done ++ [c], rest⟩) := rfl

end Datastream

/-! ## Groups of seven bits -/

theorem low7_toNat (x : Nat) : (UInt8.ofNat x &&& 0x7f).toNat = x % 128 := by
  have h : (127 : Nat) = 2 ^ 7 - 1 := rfl
  simp only [UInt8.toNat_and, UInt8.toNat_ofNat', UInt8.reduceToNat, h,
    Nat.and_two_pow_sub_one_eq_mod]
  omega

theorem top_zero : ∀ {x : Nat}, x < 128 → UInt8.ofNat x &&& 0x80 = 0 := by
  decide

theorem top_one : ∀ {x : Nat}, x < 128 → UInt8.ofNat (x + 128) &&& 0x80 ≠ 0 := by
  decide

theorem group_last {val : Nat} (h : val < 128) : UInt8.ofNat val &&& 0x7f ||| 0 = .ofNat val := by
  rw [UInt8.or_zero, ← UInt8.toNat_inj, low7_toNat, UInt8.toNat_ofNat']
  omega

theorem group_more (val : Nat) :
    UInt8.ofNat val &&& 0x7f ||| 0x80 = .ofNat (val % 128 + 128) := by
  have h := Nat.two_pow_add_eq_or_of_lt (show val % 128 < 2 ^ 7 by omega) 1
  have h80 : (0x80 : UInt8).toNat = 2 ^ 7 * 1 := rfl
  rw [← UInt8.toNat_inj, UInt8.toNat_or, low7_toNat, UInt8.toNat_ofNat', h80, Nat.or_comm, ← h]
  omega

theorem writeGroups_eq {S : Type} [Sink S] [LawfulSink S] : ∀ {n val : Nat} (s : S),
    val < 2 ^ (7 * n) → 0 < n → n < 2 ^ 31 →
    writeGroups n val s = Sink.write (Leb128.encodeU val) s
  | n + 1, val, s, h, _, hn31 => by
    simp only [writeGroups, Nat.shiftRight_eq_div_pow, show 2 ^ 7 = 128 from rfl]
    rcases Nat.lt_or_ge val 128 with hv | hv
    · have h0 : val / 128 = 0 := Nat.div_eq_of_lt hv
      simp only [h0, Nat.lt_irrefl, ↓reduceIte, ne_eq, not_true_eq_false, group_last hv,
        Leb128.encodeU_lt hv, Leb128.byte]
      cases Sink.write [UInt8.ofNat val] s <;> rfl
    · have h0 : val / 128 ≠ 0 := by omega
      have hn : 0 < n := by
        rcases Nat.eq_zero_or_pos n with rfl | hn
        · omega
        · exact hn
      have hval : val / 128 < 2 ^ (7 * n) := by
        rw [Nat.div_lt_iff_lt_mul (by decide)]
        calc val < 2 ^ (7 * (n + 1)) := h
          _ = 2 ^ (7 * n) * 128 := by rw [Nat.mul_add, Nat.pow_add]
      have hlen := Leb128.encodeU_length hval hn
      simp only [h0, Nat.pos_of_ne_zero h0, ↓reduceIte, ne_eq, not_false_eq_true, group_more,
        Leb128.encodeU_ge hv, Leb128.byte]
      have hrest : ∀ s : S, writeGroups n (val / 128) s =
          Sink.write (Leb128.encodeU (val / 128)) s :=
        fun s => writeGroups_eq s hval hn (by omega)
      simp only [hrest]
      exact LawfulSink.write_bind [_] _ s (by simp; omega)

theorem writeUnsigned_eq {S : Type} [Sink S] [LawfulSink S] (value : BitVec 32) (s : S) :
    writeUnsigned value s = Sink.write (Leb128.encodeU value.toNat) s :=
  writeGroups_eq s (Nat.lt_of_lt_of_le value.isLt (by decide)) (by decide) (by decide)

theorem top_eq_zero (b : UInt8) : b &&& 0x80 = 0 ↔ b.toNat < 128 := by
  rw [← UInt8.ofNat_toNat (x := b)]
  rcases Nat.lt_or_ge b.toNat 128 with h | h
  · exact iff_of_true (top_zero h) (by rwa [UInt8.ofNat_toNat])
  · refine iff_of_false ?_ (by rw [UInt8.ofNat_toNat]; omega)
    have hlt := b.toNat_lt
    have hsplit : b.toNat = b.toNat - 128 + 128 := by omega
    rw [hsplit]
    exact top_one (by omega)

theorem low7 (b : UInt8) : (b &&& 0x7f).toNat = b.toNat % 128 := by
  have h := low7_toNat b.toNat
  rwa [UInt8.ofNat_toNat] at h

/-- Seven bits above those that are there, as far as the word goes. -/
theorem or_group {v m shift : Nat} (hv : v < 2 ^ shift) (hs : shift ≤ 32) :
    v ||| (m <<< shift) % 2 ^ 32 = v + m * 2 ^ shift % 2 ^ 32 := by
  have hword : 2 ^ 32 = 2 ^ shift * 2 ^ (32 - shift) := by
    rw [← Nat.pow_add, Nat.add_sub_cancel' hs]
  have hmod : (m <<< shift) % 2 ^ 32 = 2 ^ shift * (m % 2 ^ (32 - shift)) := by
    rw [Nat.shiftLeft_eq, Nat.mul_comm, hword, Nat.mul_mod_mul_left]
  rw [hmod, Nat.or_comm, ← Nat.two_pow_add_eq_or_of_lt hv, ← hmod, Nat.shiftLeft_eq, Nat.add_comm]

/-- One round of the reading loop. -/
theorem readGroups_cons {n v shift : Nat} (hshift : shift < 32) (b : UInt8) (done bytes : List UInt8) :
    readGroups (n + 1) v shift ⟨done, b :: bytes⟩ =
      if b.toNat < 128 then
        .ok (v ||| ((b.toNat % 128) <<< shift) % 2 ^ 32, ⟨done ++ [b], bytes⟩)
      else readGroups n (v ||| ((b.toNat % 128) <<< shift) % 2 ^ 32) (shift + 7)
        ⟨done ++ [b], bytes⟩ := by
  have hle : ¬32 ≤ shift := by omega
  simp only [readGroups, Datastream.get_cons, ok_bind, hle, if_false, low7, ne_eq, top_eq_zero,
    pure_eq_ok, ite_not]

/-- What the reading loop makes of a group of at most five bytes: its value modulo the word. -/
theorem readGroups_group : ∀ {g : List UInt8} {n v shift : Nat} (done rest : List UInt8),
    Leb128.IsGroup g → v < 2 ^ shift → shift + 7 * g.length ≤ 35 → g.length ≤ n →
    ∃ w, readGroups n v shift ⟨done, g ++ rest⟩ = .ok (w, ⟨done ++ g, rest⟩) ∧
      w % 2 ^ 32 = (v + Leb128.value g * 2 ^ shift) % 2 ^ 32
  | b :: bs, n + 1, v, shift, done, rest, hg, hv, hshift, hn => by
    rw [List.length_cons] at hshift hn
    have hor := or_group (m := b.toNat % 128) hv (by omega)
    rw [List.cons_append, readGroups_cons (by omega), Leb128.value]
    rw [Leb128.IsGroup] at hg
    split_ifs at hg ⊢ with hb
    · subst hg
      refine ⟨_, rfl, ?_⟩
      rw [hor, Leb128.value, Nat.mul_zero, Nat.add_zero, Nat.add_mod_mod]
    · have hpos := hg.length_pos
      have hpow : 2 ^ (shift + 7) = 128 * 2 ^ shift := by rw [Nat.pow_add, Nat.mul_comm]
      have hword : 2 ^ (shift + 7) ≤ 2 ^ 32 := Nat.pow_le_pow_right (by decide) (by omega)
      have hbits : b.toNat % 128 * 2 ^ shift + 2 ^ shift ≤ 128 * 2 ^ shift := by
        rw [← Nat.succ_mul]
        exact Nat.mul_le_mul_right _ (Nat.mod_lt _ (by decide))
      -- only the last byte can leave the word
      rw [hor, Nat.mod_eq_of_lt (show b.toNat % 128 * 2 ^ shift < 2 ^ 32 by omega)]
      have hlow : v + b.toNat % 128 * 2 ^ shift < 2 ^ (shift + 7) := by omega
      have hlen : bs.length ≤ n := by omega
      obtain ⟨w, hw, hmod⟩ := readGroups_group (done ++ [b]) rest hg hlow (by omega) hlen
      refine ⟨w, by rw [hw, List.append_assoc]; rfl, ?_⟩
      rw [hmod, hpow]
      ring_nf

/-- The reading of a group of at most five bytes. -/
theorem readUnsigned_group {g : List UInt8} (hg : Leb128.IsGroup g) (h : g.length ≤ 5)
    (done rest : List UInt8) : readUnsigned ⟨done, g ++ rest⟩ =
      .ok (BitVec.ofNat 32 (Leb128.value g), ⟨done ++ g, rest⟩) := by
  have hzero : 0 < 2 ^ 0 := Nat.one_pos
  have hlen : g.length ≤ (g ++ rest).length := by simp
  obtain ⟨w, hw, hmod⟩ := readGroups_group done rest hg hzero (by omega) hlen
  simp only [readUnsigned, hw, ok_bind, pure_eq_ok]
  refine congrArg (fun x => Except.ok (x, _)) (BitVec.eq_of_toNat_eq ?_)
  rw [BitVec.toNat_ofNat, BitVec.toNat_ofNat, hmod, Nat.zero_add, Nat.pow_zero, Nat.mul_one]

/-- **An `unsigned_int` reads back**, whatever follows it. -/
theorem readUnsigned_encode {value : Nat} (h : value < 2 ^ 32) (done rest : List UInt8) :
    readUnsigned ⟨done, Leb128.encodeU value ++ rest⟩ =
      .ok (BitVec.ofNat 32 value, ⟨done ++ Leb128.encodeU value, rest⟩) := by
  obtain ⟨hg, hv⟩ := Leb128.encodeU_group value
  have hlen := Leb128.encodeU_length (n := 5) (Nat.lt_of_lt_of_le h (by decide)) (by decide)
  rw [readUnsigned_group hg hlen, hv]

/-! ## Signed integers -/

theorem sshiftRight_sign (v : BitVec 32) :
    v.sshiftRight 31 = if v.msb then BitVec.allOnes 32 else 0 := by
  ext i hi
  have hsign : (if h : 31 + i < 32 then v[31 + i] else v.msb) = v.msb := by
    split_ifs with h
    · obtain rfl : i = 0 := by omega
      simp [BitVec.msb_eq_getLsbD_last]
    · rfl
  rw [BitVec.getElem_sshiftRight, hsign]
  cases v.msb <;> simp [-BitVec.reduceAllOnes]

/-- Bit 0 of the code is the sign: it flips the other bits. -/
theorem unzigzag_eq (w : BitVec 32) : unzigzag w =
    (w >>> 1) ^^^ (if w[0] then BitVec.allOnes 32 else 0) := by
  have hlow : w &&& (1 : BitVec 32) = if w[0] then 1 else 0 := by
    ext i hi
    cases i with
    | zero => cases hw : w[0] <;> simp [hw]
    | succ i => cases w[0] <;> simp
  have hmask : ((~~~(w &&& (1 : BitVec 32))).setWidth 64 + 1).setWidth 32 =
      if w[0] then BitVec.allOnes 32 else 0 := by
    rw [hlow]
    cases w[0] <;> decide
  have hwidth : ((w >>> 1).setWidth 64).setWidth 32 = w >>> 1 := by
    rw [BitVec.setWidth_setWidth_of_le _ (by decide), BitVec.setWidth_eq]
  rw [unzigzag, BitVec.setWidth_xor, hmask, hwidth]

/-- **A `signed_int` comes back from its code.** -/
theorem unzigzag_zigzag (v : BitVec 32) : unzigzag (zigzag v) = v := by
  have h0 : (zigzag v)[0] = v.msb := by
    rw [zigzag, sshiftRight_sign]
    cases v.msb <;> simp
  rw [unzigzag_eq, h0, zigzag, sshiftRight_sign]
  ext i hi
  by_cases hlast : i = 31
  · subst hlast
    have hmsb : v[31] = v.msb := by simp [BitVec.msb_eq_getLsbD_last]
    rw [hmsb]
    cases v.msb <;> simp
  · have h1 : 1 + i < 32 := by omega
    cases v.msb <;> simp [-BitVec.reduceAllOnes, h1]
end Wasmlib
