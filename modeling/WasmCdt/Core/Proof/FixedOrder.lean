import WasmCdt.Core.Proof.FixedWords

/-!
# Fixed bytes and the bytes they stand for

An object made of an array of bytes against the array: its words are big-endian and their padding is
zero, so that the words have the order of the bytes.

* `dataBytes_ofByteArray`: the bytes of the words are those of the array, and zeros.
* `extract_ofByteArray`: the bytes are extracted again.
* `lexicographicalCompare_iff`: words are compared as their bytes are.
* `lt_iff`, `eq_iff`: **the comparisons**, as those of the arrays.
* `write_read`: what is written is read back.
* `fixedBytes_represents`: all of it.
-/

namespace Wasmlib

open BigEndian FixedBytes

namespace FixedBytes

variable {size : Nat}

/-! ## The words of an array -/

theorem nats_byteWord (arr : List UInt8) : nats (arr.map byteWord) = arr.map UInt8.toNat := by
  unfold nats
  rw [List.map_map]
  rfl

theorem flatMap_bytes_one (arr : List UInt8) : (arr.map UInt8.toNat).flatMap (bytes 1) = arr := by
  induction arr with
  | nil => rfl
  | cons b arr ih =>
    have hb : bytes 1 b.toNat = [b] := by
      change [UInt8.ofNat b.toNat] = [b]
      rw [UInt8.ofNat_toNat]
    rw [List.map_cons, List.flatMap_cons, ih, hb]
    rfl

/-- The bytes of the words that are stored for a sequence of bytes. -/
theorem stored_uint8 {ws : List Nat} (h : ∀ x ∈ ws, x < 256) :
    (stored .uint8 (ws.length / 16) ws).flatMap (bytes 16)
      = ws.flatMap (bytes 1) ++ List.replicate (paddedBytes ws.length) 0 := by
  have hper : SubWord.uint8.perWord = 16 := rfl
  have hbytes : SubWord.uint8.bytes = 1 := rfl
  have hq : ws.length / 16 * SubWord.uint8.perWord ≤ ws.length := Nat.div_mul_le_self _ _
  have hrest : (ws.drop (ws.length / 16 * SubWord.uint8.perWord)).length < SubWord.uint8.perWord := by
    rw [List.length_drop, hper]
    omega
  have hlast := stored_of_justified hrest (fun x hx => h x (List.mem_of_mem_drop hx)) (.inl rfl)
  have hcount : 16 * (stored .uint8 0 (ws.drop (ws.length / 16 * SubWord.uint8.perWord))).length
      - SubWord.uint8.bytes * (ws.drop (ws.length / 16 * SubWord.uint8.perWord)).length
        = paddedBytes ws.length := by
    have hlength := stored_length hq
    have hlimbs : (stored .uint8 (ws.length / 16) ws).length = numWords ws.length := stored_limbs ws
    rw [hlimbs] at hlength
    rw [hbytes, paddedBytes, hlength, List.length_drop, hper]
    omega
  rw [stored_bytes h hq, hlast, hcount, ← List.append_assoc, ← List.flatMap_append,
    List.take_append_drop, hbytes]

/-- **The bytes of the words**: the array, and a padding of zeros. -/
theorem dataBytes_ofByteArray {arr : List UInt8} (h : arr.length = size) :
    dataBytes (ofByteArray size arr).toList = arr ++ List.replicate (paddedBytes size) 0 := by
  have hlen : (arr.map byteWord).length = size / 16 * SubWord.uint8.perWord + size % 16 := by
    rw [List.length_map, h]
    exact (Nat.div_add_mod' _ _).symm
  have hlimbs : (stored .uint8 (size / 16) (arr.map UInt8.toNat)).length = numWords size := by
    have hstored := stored_limbs (t := .uint8) (arr.map UInt8.toNat)
    rw [List.length_map, h] at hstored
    exact hstored
  have hfit : 0 + (stored .uint8 (size / 16) (nats (arr.map byteWord))).length ≤ numWords size := by
    rw [nats_byteWord, hlimbs, Nat.zero_add]
  obtain ⟨d, hd, hlist⟩ := setFromWords_stores (Nat.mod_lt size (by decide)) hlen hfit
    (.replicate (numWords size) 0)
  have hobject : d = ofByteArray size arr :=
    Except.ok.inj (hd.symm.trans (ofStdArray_bytes (.replicate (numWords size) 0) h))
  rw [nats_byteWord, List.take_zero, List.nil_append, Nat.zero_add, List.length_map, hlimbs,
    List.drop_of_length_le (by rw [List.Vector.toList_length]), List.append_nil] at hlist
  have hbytes : ∀ x ∈ arr.map UInt8.toNat, x < 256 := by
    intro x hx
    obtain ⟨b, -, rfl⟩ := List.mem_map.1 hx
    exact b.toNat_lt
  have hwords := stored_uint8 hbytes
  rw [List.length_map, h, flatMap_bytes_one] at hwords
  rw [← hobject, hlist, dataBytes_ofNat, hwords]

theorem extract_ofByteArray {arr : List UInt8} (h : arr.length = size) :
    (ofByteArray size arr).extractAsByteArray = arr := by
  rw [extract_eq, dataBytes_ofByteArray h, List.take_left' h]

/-! ## Order -/

theorem lexicographicalCompare_iff {xs ys : List Word} (h : xs.length = ys.length) :
    lexicographicalCompare xs ys = true ↔ dataBytes xs < dataBytes ys := by
  induction xs generalizing ys with
  | nil =>
    obtain rfl := List.length_eq_zero_iff.1 h.symm
    exact iff_of_false Bool.false_ne_true (List.not_lt_nil _)
  | cons x xs ih =>
    cases ys with
    | nil => cases h
    | cons y ys =>
      have hpow : 2 ^ 128 = 256 ^ 16 := (pow_bytes 16).symm
      have hx : x.toNat % 256 ^ 16 = x.toNat := Nat.mod_eq_of_lt (hpow ▸ x.isLt)
      have hy : y.toNat % 256 ^ 16 = y.toNat := Nat.mod_eq_of_lt (hpow ▸ y.isLt)
      rw [dataBytes_cons, dataBytes_cons,
        append_lt_append_iff (by rw [bytes_length, bytes_length]), bytes_lt, bytes_inj, hx, hy,
        ← ih (Nat.succ.inj h), lexicographicalCompare]
      simp only [BitVec.lt_def]
      rcases Nat.lt_trichotomy x.toNat y.toNat with hlt | heq | hgt
      · simp [hlt]
      · simp [heq]
      · simp [hgt, hgt.not_gt, hgt.ne']

theorem lt_append_same {α : Type} [LT α] [Std.Irrefl (· < · : α → α → Prop)] {x y z : List α}
    (h : x.length = y.length) : x ++ z < y ++ z ↔ x < y := by
  rw [append_lt_append_iff h, or_iff_left fun hz => List.lt_irrefl z hz.2]

variable {a b : List UInt8}

/-- **The order of the objects** is that of the arrays. -/
theorem lt_iff (ha : a.length = size) (hb : b.length = size) :
    lt (ofByteArray size a) (ofByteArray size b) = true ↔ a < b := by
  rw [lt, lexicographicalCompare_iff (by rw [List.Vector.toList_length, List.Vector.toList_length]),
    dataBytes_ofByteArray ha, dataBytes_ofByteArray hb, lt_append_same (ha.trans hb.symm)]

theorem eq_iff (ha : a.length = size) (hb : b.length = size) :
    eq (ofByteArray size a) (ofByteArray size b) = true ↔ a = b := by
  rw [eq, beq_iff_eq]
  constructor
  · intro h
    have hbytes := congrArg dataBytes h
    rw [dataBytes_ofByteArray ha, dataBytes_ofByteArray hb] at hbytes
    exact List.append_cancel_right hbytes
  · intro h
    rw [h]

theorem ne_iff (ha : a.length = size) (hb : b.length = size) :
    ne (ofByteArray size a) (ofByteArray size b) = true ↔ a ≠ b := by
  rw [ne, Bool.not_eq_true', Bool.eq_false_iff, Ne, eq_iff ha hb]

theorem le_iff (ha : a.length = size) (hb : b.length = size) :
    le (ofByteArray size a) (ofByteArray size b) = true ↔ a ≤ b := by
  rw [le, Bool.not_eq_true', Bool.eq_false_iff, Ne, lt_iff hb ha, List.not_lt]

theorem ge_iff (ha : a.length = size) (hb : b.length = size) :
    ge (ofByteArray size a) (ofByteArray size b) = true ↔ b ≤ a := by
  rw [ge, Bool.not_eq_true', Bool.eq_false_iff, Ne, lt_iff ha hb, List.not_lt]

/-! ## Streams -/

theorem write_eq {arr : List UInt8} (h : arr.length = size) {ds : Datastream}
    (hroom : size ≤ ds.rest.length) :
    (Serial.fixedBytes size).write (ofByteArray size arr) ds
      = .ok ⟨ds.done ++ arr, ds.rest.drop size⟩ := by
  have hint : Text.int32 arr.length ≤ ds.rest.length := by
    rw [Text.int32_eq]
    omega
  have hfit : arr.length ≤ ds.rest.length := h.trans_le hroom
  change Sink.write (ofByteArray size arr).extractAsByteArray ds = _
  rw [extract_ofByteArray h]
  change (check _ _ >>= _) = _
  rw [check_bind, if_pos (decide_eq_true hint), if_pos hfit, h]
  rfl

/-- What is written over the stream's bytes is read from where it was written. -/
theorem write_read {arr : List UInt8} (h : arr.length = size) {ds ds' : Datastream}
    (hroom : size ≤ ds.rest.length)
    (hwrite : (Serial.fixedBytes size).write (ofByteArray size arr) ds = .ok ds') (d : FixedBytes size) :
    (Serial.fixedBytes size).read d ⟨ds.done, (ds'.done ++ ds'.rest).drop ds.done.length⟩
      = .ok (ofByteArray size arr, ds') := by
  rw [write_eq h hroom] at hwrite
  obtain rfl := Except.ok.inj hwrite
  rw [List.append_assoc, List.drop_left]
  have hread := Datastream.read_append h ds.done (ds.rest.drop size)
  simp only [Serial.fixedBytes, hread, ok_bind, pure_eq_ok]

end FixedBytes

/-- An object made of an array of bytes stands for the array: in what is extracted, in the
comparisons, and on a stream. -/
theorem fixedBytes_represents (size : Nat) (a b : List.Vector UInt8 size) :
    (∀ memory : FixedBytes size, FixedBytes.ofStdArray memory .uint8 (a.toList.map byteWord)
      = .ok (.ofByteArray size a.toList)) ∧
    (FixedBytes.ofByteArray size a.toList).extractAsByteArray = a.toList ∧
    (FixedBytes.eq (.ofByteArray size a.toList) (.ofByteArray size b.toList) = true ↔ a = b) ∧
    (FixedBytes.ne (.ofByteArray size a.toList) (.ofByteArray size b.toList) = true ↔ a ≠ b) ∧
    (FixedBytes.lt (.ofByteArray size a.toList) (.ofByteArray size b.toList) = true
      ↔ a.toList < b.toList) ∧
    (FixedBytes.gt (.ofByteArray size a.toList) (.ofByteArray size b.toList) = true
      ↔ b.toList < a.toList) ∧
    (FixedBytes.le (.ofByteArray size a.toList) (.ofByteArray size b.toList) = true
      ↔ a.toList < b.toList ∨ a = b) ∧
    (FixedBytes.ge (.ofByteArray size a.toList) (.ofByteArray size b.toList) = true
      ↔ b.toList < a.toList ∨ a = b) ∧
    ∀ ds : Datastream, size ≤ ds.rest.length →
      ∃ ds', (Serial.fixedBytes size).write (.ofByteArray size a.toList) ds = .ok ds' ∧
        (Serial.fixedBytes size).read (Serial.fixedBytes size).make
            ⟨ds.done, (ds'.done ++ ds'.rest).drop ds.done.length⟩
          = .ok (.ofByteArray size a.toList, ds') := by
  have ha := a.toList_length
  have hb := b.toList_length
  have hab : a = b ↔ a.toList = b.toList := List.Vector.toList_injective.eq_iff.symm
  refine ⟨fun memory => ofStdArray_bytes memory ha, extract_ofByteArray ha, ?_, ?_, lt_iff ha hb,
    lt_iff hb ha, ?_, ?_, fun ds hroom => ?_⟩
  · rw [eq_iff ha hb, hab]
  · rw [ne_iff ha hb, Ne, Ne, hab]
  · rw [le_iff ha hb, List.le_iff_lt_or_eq, hab]
  · rw [ge_iff ha hb, List.le_iff_lt_or_eq, hab, eq_comm]
  · exact ⟨_, write_eq ha hroom, write_read ha hroom (write_eq ha hroom) _⟩

end Wasmlib
