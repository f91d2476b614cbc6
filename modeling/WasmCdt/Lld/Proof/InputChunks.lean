import WasmCdt.Lld.InputChunks

/-!
# Chunks as they are written

* `read_encode`, `read_encodeCompressed`: the bytes at a site read as the value of the relocation.
* `patched_eq_rendered`: a chunk whose sites lie side by side is written as its bytes between the
  sites, and the values.
* `writeTo_fills`, `writeCompressedTo_fills`: what the two ways of writing leave in the file.
* `compressedSize_eq`, `compressedSize_le`: `calculateSize` is right about the bytes written, which
  are never more than there were.
-/

namespace Lld

open FileBuffer ForkJoin Leb128

/-! ## Sites -/

def read32le : List UInt8 → Option (BitVec 32 × List UInt8)
  | b0 :: b1 :: b2 :: b3 :: rest =>
    some (BitVec.ofNat 32 (b0.toNat + 256 * b1.toNat + 65536 * b2.toNat + 16777216 * b3.toNat), rest)
  | _ => none

/-- What a reader of the linked file finds at a site. -/
def Coding.read : Coding → List UInt8 → Option (BitVec 32 × List UInt8)
  | .uleb, bs => (decodeU 32 bs).map fun p => (BitVec.ofNat 32 p.1, p.2)
  | .sleb, bs => (decodeS 32 bs).map fun p => (BitVec.ofInt 32 p.1, p.2)
  | .i32, bs => read32le bs

theorem read32le_write32le (value : BitVec 32) (rest : List UInt8) :
    read32le (write32le value ++ rest) = some (value, rest) := by
  have hlt := value.isLt
  have hsum : value.toNat % 256 + 256 * (value.toNat / 256 % 256)
      + 65536 * (value.toNat / 65536 % 256) + 16777216 * (value.toNat / 16777216) = value.toNat := by
    omega
  simp only [write32le, read32le, List.cons_append, List.nil_append]
  rw [byte_toNat (by omega), byte_toNat (by omega), byte_toNat (by omega), byte_toNat (by omega), hsum,
    BitVec.ofNat_toNat, BitVec.setWidth_eq]

theorem toInt_bounds (value : BitVec 32) : -2 ^ 31 ≤ value.toInt ∧ value.toInt < 2 ^ 31 := by
  have hlo := value.le_toInt
  have hhi := value.toInt_lt
  constructor <;> omega

@[simp] theorem encode_length (kind : RelocKind) (value : BitVec 32) :
    (kind.encode value).length = kind.width := by
  have hlt := value.isLt
  have hbounds := toInt_bounds value
  unfold RelocKind.encode RelocKind.width
  cases kind.coding with
  | uleb => exact encodeUPad_length rfl (by decide) (by norm_num; omega)
  | sleb => exact encodeSPad_length rfl (by decide) (by norm_num; omega) (by norm_num; omega)
  | i32 => rfl

/-- A group of the value, of five bytes at most. -/
theorem read_group_uleb {g : List UInt8} {v : BitVec 32} (hg : IsGroup g) (hv : value g = v.toNat)
    (hlen : g.length ≤ 5) (rest : List UInt8) : Coding.read .uleb (g ++ rest) = some (v, rest) := by
  have hlt := v.isLt
  rw [Coding.read, hg.decodeU rest (by omega) (by omega), hv]
  simp

theorem read_group_sleb {g : List UInt8} {v : BitVec 32} (hg : IsGroup g) (hv : valueS g = v.toInt)
    (hlen : g.length ≤ 5) (rest : List UInt8) : Coding.read .sleb (g ++ rest) = some (v, rest) := by
  have hbounds := toInt_bounds v
  rw [Coding.read, hg.decodeS rest (by norm_num; omega) (by norm_num; omega) (by omega), hv]
  simp

/-- **The padded bytes of a value read as the value.** -/
theorem read_encode (kind : RelocKind) (v : BitVec 32) (rest : List UInt8) :
    kind.coding.read (kind.encode v ++ rest) = some (v, rest) := by
  have hlen := encode_length kind v
  unfold RelocKind.encode RelocKind.width at *
  cases hcoding : kind.coding with
  | uleb =>
    obtain ⟨hg, hval⟩ := encodeUPad_group 5 0 v.toNat
    rw [hcoding] at hlen
    exact read_group_uleb hg hval (Nat.le_of_eq hlen) rest
  | sleb =>
    obtain ⟨hg, hval⟩ := encodeSPad_group 5 0 v.toInt
    rw [hcoding] at hlen
    exact read_group_sleb hg hval (Nat.le_of_eq hlen) rest
  | i32 => exact read32le_write32le v rest

theorem encodeS_length_le : ∀ {n : Nat} {v : Int}, 0 < n → -2 ^ (7 * n - 1) ≤ v →
    v < 2 ^ (7 * n - 1) → (encodeS v).length ≤ n
  | n + 1, v, _, hlo, hhi => by
    by_cases hlast : -64 ≤ v ∧ v < 64
    · simp [encodeS_last hlast.1 hlast.2]
    · have hn : 0 < n := by
        rcases Nat.eq_zero_or_pos n with rfl | hn
        · norm_num at hlo hhi
          omega
        · exact hn
      have hpow : (2 : Int) ^ (7 * (n + 1) - 1) = 2 ^ (7 * n - 1) * 128 := by
        rw [show 7 * (n + 1) - 1 = 7 * n - 1 + 7 by omega, pow_add]
        norm_num
      rw [encodeS_more (by omega), List.length_cons]
      have := encodeS_length_le (v := v / 128) hn (by omega) (by omega)
      omega

/-- A compressed value has the padded bytes at most. -/
theorem encodeCompressed_length_le (kind : RelocKind) (v : BitVec 32) :
    (kind.encodeCompressed v).length ≤ kind.width := by
  have hlt := v.isLt
  have hbounds := toInt_bounds v
  unfold RelocKind.encodeCompressed RelocKind.width
  cases kind.coding with
  | uleb =>
    simp only [encodeUPad_zero]
    exact encodeU_length (by norm_num; omega) (by decide)
  | sleb =>
    simp only [encodeSPad_zero]
    exact encodeS_length_le (by decide) (by norm_num; omega) (by norm_num; omega)
  | i32 => exact Nat.zero_le _

/-- **The compressed bytes of a value read as the value.** -/
theorem read_encodeCompressed {kind : RelocKind} (hkind : kind.coding ≠ .i32) (v : BitVec 32)
    (rest : List UInt8) : kind.coding.read (kind.encodeCompressed v ++ rest) = some (v, rest) := by
  have hlen := encodeCompressed_length_le kind v
  unfold RelocKind.encodeCompressed RelocKind.width at *
  cases hcoding : kind.coding with
  | uleb =>
    obtain ⟨hg, hval⟩ := encodeUPad_group 0 0 v.toNat
    rw [hcoding] at hlen
    exact read_group_uleb hg hval hlen rest
  | sleb =>
    obtain ⟨hg, hval⟩ := encodeSPad_group 0 0 v.toInt
    rw [hcoding] at hlen
    exact read_group_sleb hg hval hlen rest
  | i32 => exact absurd hcoding hkind

/-- The bytes of the number in front. -/
theorem lebLength_group : ∀ {g : List UInt8} (rest : List UInt8), IsGroup g →
    InputChunk.lebLength (g ++ rest) = g.length
  | b :: bs, rest, hg => by
    rw [IsGroup] at hg
    rw [List.cons_append, InputChunk.lebLength]
    split_ifs at hg ⊢ with hb
    · rw [hg]
      rfl
    · rw [lebLength_group rest hg, List.length_cons, Nat.add_comm]

/-! ## Sites side by side -/

/-- The sites lie between two offsets of the section, in order and apart. -/
inductive Placed {T : Type} : Nat → List (Relocation T) → Nat → Prop
  | nil {a b : Nat} : a ≤ b → Placed a [] b
  | cons {a b : Nat} {rel : Relocation T} {rels : List (Relocation T)} : a ≤ rel.offset →
      Placed (rel.offset + rel.kind.width) rels b → Placed a (rel :: rels) b

namespace Placed

variable {T : Type} {a b : Nat} {rel : Relocation T} {rels : List (Relocation T)}

theorem le (h : Placed a rels b) : a ≤ b := by
  induction h with
  | nil h => exact h
  | cons h _ ih => omega

theorem from_le {c : Nat} (h : Placed a rels b) (hca : c ≤ a) : Placed c rels b := by
  cases h with
  | nil h => exact .nil (Nat.le_trans hca h)
  | cons h hrels => exact .cons (Nat.le_trans hca h) hrels

theorem bounds (h : Placed a rels b) : ∀ rel ∈ rels, a ≤ rel.offset ∧ rel.offset + rel.kind.width ≤ b := by
  induction h with
  | nil => simp
  | @cons a b r rs h hrs ih =>
    intro rel hrel
    rcases List.mem_cons.1 hrel with rfl | hrel
    · exact ⟨h, hrs.le⟩
    · have hbounds := ih rel hrel
      omega

end Placed

namespace InputChunk

variable {T : Type} {C : InputChunk T}

theorem slice_length {a b : Nat} (ha : C.inputSectionOffset ≤ a) (hb : b ≤ C.codeEnd) :
    (C.slice a b).length = b - a := by
  unfold codeEnd at hb
  rw [slice, List.length_drop, List.length_take]
  omega

theorem slice_append {a b c : Nat} (ha : C.inputSectionOffset ≤ a) (hab : a ≤ b) (hbc : b ≤ c) :
    C.slice a c = C.slice a b ++ C.slice b c := by
  obtain ⟨k, hk⟩ : ∃ k, b - C.inputSectionOffset = a - C.inputSectionOffset + k := ⟨b - a, by omega⟩
  obtain ⟨l, hl⟩ : ∃ l, c - C.inputSectionOffset = a - C.inputSectionOffset + k + l :=
    ⟨c - b, by omega⟩
  simp only [slice, hk, hl, List.drop_take, Nat.add_sub_cancel_left, ← List.drop_drop]
  rw [Nat.add_assoc, Nat.add_sub_cancel_left, List.take_add]

theorem slice_all : C.slice C.inputSectionOffset C.codeEnd = C.data := by
  simp [slice, codeEnd]

/-- The bytes between the sites, and at the sites what `enc` gives. -/
def rendered (enc : Relocation T → List UInt8) (C : InputChunk T) : Nat → List (Relocation T) →
    List UInt8
  | last, [] => C.slice last C.codeEnd
  | last, rel :: rels =>
    C.slice last rel.offset ++ (enc rel ++ rendered enc C (rel.offset + rel.kind.width) rels)

theorem compressLoop_eq (calcNewValue : Relocation T → BitVec 32) (last : Nat)
    (rels : List (Relocation T)) :
    C.compressLoop calcNewValue last rels
      = C.rendered (fun rel => rel.kind.encodeCompressed (calcNewValue rel)) last rels := by
  induction rels generalizing last with
  | nil => rfl
  | cons rel rels ih => rw [compressLoop, rendered, ih]

/-- A site, and what is before and behind it. -/
theorem rendered_site {enc : Relocation T → List UInt8} {last : Nat} {rels : List (Relocation T)}
    {rel : Relocation T} (hrel : rel ∈ rels) :
    ∃ before behind, C.rendered enc last rels = before ++ (enc rel ++ behind) := by
  induction rels generalizing last with
  | nil => cases hrel
  | cons r rs ih =>
    rcases List.mem_cons.1 hrel with rfl | hrel
    · exact ⟨_, _, rfl⟩
    · obtain ⟨before, behind, heq⟩ := @ih (r.offset + r.kind.width) hrel
      refine ⟨C.slice last r.offset ++ (enc r ++ before), behind, ?_⟩
      simp only [rendered, heq, List.append_assoc]

/-- The bytes before the first site. -/
theorem rendered_split {enc : Relocation T → List UInt8} {a b : Nat} {rels : List (Relocation T)}
    (ha : C.inputSectionOffset ≤ a) (hab : a ≤ b) (h : Placed b rels C.codeEnd) :
    C.rendered enc a rels = C.slice a b ++ C.rendered enc b rels := by
  cases h with
  | nil hb => exact slice_append ha hab hb
  | cons hle hrels =>
    rw [rendered, rendered, slice_append ha hab hle, List.append_assoc]

theorem rendered_length_le {enc enc' : Relocation T → List UInt8} {last : Nat}
    {rels : List (Relocation T)} (h : ∀ rel ∈ rels, (enc rel).length ≤ (enc' rel).length) :
    (C.rendered enc last rels).length ≤ (C.rendered enc' last rels).length := by
  induction rels generalizing last with
  | nil => exact Nat.le_refl _
  | cons rel rels ih =>
    have hhead := h rel List.mem_cons_self
    have htail := @ih (rel.offset + rel.kind.width) fun r hr => h r (List.mem_cons_of_mem _ hr)
    simp only [rendered, List.length_append]
    omega

variable (calcNewValue : Relocation T → BitVec 32)

/-- The padded bytes of a relocation. -/
def padded (rel : Relocation T) : List UInt8 := rel.kind.encode (calcNewValue rel)

def compressed (rel : Relocation T) : List UInt8 := rel.kind.encodeCompressed (calcNewValue rel)

theorem rendered_padded_length {last : Nat} {rels : List (Relocation T)}
    (hlast : C.inputSectionOffset ≤ last) (h : Placed last rels C.codeEnd) :
    (C.rendered (padded calcNewValue) last rels).length = C.codeEnd - last := by
  induction rels generalizing last with
  | nil => exact slice_length hlast (Nat.le_refl _)
  | cons rel rels ih =>
    cases h with
    | cons hle hrels =>
      have hend := hrels.le
      simp only [rendered, List.length_append, padded, encode_length,
        slice_length hlast (show rel.offset ≤ C.codeEnd by omega), ih (by omega) hrels]
      omega

/-- The data with the values over the sites. -/
def patched (C : InputChunk T) : List UInt8 :=
  C.relocations.foldl (fun bs rel => overwrite bs (rel.offset - C.inputSectionOffset)
    (padded calcNewValue rel)) C.data

/-- The loop over the relocations, with the bytes before `last` done. -/
theorem patch_loop {last : Nat} {rels : List (Relocation T)} (hlast : C.inputSectionOffset ≤ last)
    (h : Placed last rels C.codeEnd) (done : List UInt8)
    (hdone : done.length = last - C.inputSectionOffset) :
    rels.foldl (fun bs rel => overwrite bs (rel.offset - C.inputSectionOffset)
        (padded calcNewValue rel)) (done ++ C.slice last C.codeEnd)
      = done ++ C.rendered (padded calcNewValue) last rels := by
  induction rels generalizing last done with
  | nil => rfl
  | cons rel rels ih =>
    cases h with
    | cons hle hrels =>
      have hend := hrels.le
      have hwidth : (padded calcNewValue rel).length = rel.kind.width := encode_length _ _
      have hbefore : (done ++ C.slice last rel.offset).length = rel.offset - C.inputSectionOffset := by
        rw [List.length_append, hdone, slice_length hlast (by omega)]
        omega
      have hsite : (C.slice rel.offset (rel.offset + rel.kind.width)).length = rel.kind.width := by
        rw [slice_length (by omega) hend]
        omega
      have hstep : overwrite (done ++ C.slice last C.codeEnd) (rel.offset - C.inputSectionOffset)
          (padded calcNewValue rel)
            = (done ++ (C.slice last rel.offset ++ padded calcNewValue rel))
              ++ C.slice (rel.offset + rel.kind.width) C.codeEnd := by
        rw [slice_append hlast hle (show rel.offset ≤ C.codeEnd by omega),
          slice_append (show C.inputSectionOffset ≤ rel.offset by omega)
            (Nat.le_add_right rel.offset rel.kind.width) hend, ← hbefore, ← List.append_assoc done,
          overwrite_append (by rw [hwidth, hsite])]
        simp only [List.append_assoc]
      rw [List.foldl_cons, hstep, ih (by omega) hrels _]
      · simp only [rendered, List.append_assoc]
      · simp only [List.length_append] at hbefore ⊢
        omega

/-- **A chunk with its sites side by side** is written as its bytes between them, and the values. -/
theorem patched_eq_rendered (h : Placed C.inputSectionOffset C.relocations C.codeEnd) :
    C.patched calcNewValue
      = C.rendered (padded calcNewValue) C.inputSectionOffset C.relocations := by
  have hloop := patch_loop calcNewValue (Nat.le_refl _) h [] (by simp)
  rwa [List.nil_append, List.nil_append, slice_all] at hloop

theorem overwrite_length {bs g : List UInt8} {o : Nat} (h : o + g.length ≤ bs.length) :
    (overwrite bs o g).length = bs.length := by
  simp only [overwrite, List.length_append, List.length_take, List.length_drop]
  omega

/-! ## Written to the file -/

theorem toInt_ofNat {n : Nat} (h : n < 2 ^ 31) : (BitVec.ofNat 32 n).toInt = n := by
  have hn : n % 2 ^ 32 = n := Nat.mod_eq_of_lt (by omega)
  rw [BitVec.toInt_eq_toNat_of_lt (by rw [BitVec.toNat_ofNat]; omega), BitVec.toNat_ofNat, hn]

/-- Within `int32_t`, a site's place in the file is its place in the chunk. -/
theorem loc_eq {buf outputOffset : Nat} {rel : Relocation T} (hout : outputOffset < 2 ^ 31)
    (hin : C.inputSectionOffset < 2 ^ 31) (hrel : C.inputSectionOffset ≤ rel.offset) :
    C.loc buf outputOffset rel = buf + outputOffset + (rel.offset - C.inputSectionOffset) := by
  have hoff : (BitVec.ofNat 32 outputOffset - BitVec.ofNat 32 C.inputSectionOffset).toInt
      = (outputOffset : Int) - C.inputSectionOffset := by
    rw [BitVec.toInt_sub, toInt_ofNat hout, toInt_ofNat hin]
    exact Int.bmod_eq_of_le (by omega) (by omega)
  rw [loc, hoff]
  omega

/-- A chunk whose sites lie side by side, in the range of `int32_t`. -/
structure WellPlaced (C : InputChunk T) : Prop where
  placed : Placed C.inputSectionOffset C.relocations C.codeEnd
  bound : C.inputSectionOffset < 2 ^ 31

theorem patched_length (h : Placed C.inputSectionOffset C.relocations C.codeEnd) :
    (C.patched calcNewValue).length = C.data.length := by
  rw [patched_eq_rendered calcNewValue h, rendered_padded_length calcNewValue (Nat.le_refl _) h,
    codeEnd]
  omega

/-- The loop over the relocations in the file. -/
theorem read_patches (buf : Nat) {p n : Nat} (hout : p < 2 ^ 31) (hin : C.inputSectionOffset < 2 ^ 31) :
    ∀ (rels : List (Relocation T)) (m : Buf), (∀ rel ∈ rels, C.inputSectionOffset ≤ rel.offset ∧
      rel.offset + rel.kind.width ≤ C.inputSectionOffset + n) →
    read ((Task.seqAll (rels.map fun rel =>
        memcpy (C.loc buf p rel) (padded calcNewValue rel))).exec m) (buf + p) n
      = rels.foldl (fun bs rel => overwrite bs (rel.offset - C.inputSectionOffset)
          (padded calcNewValue rel)) (read m (buf + p) n)
  | [], _, _ => rfl
  | rel :: rels, m, h => by
    have hrel := h rel List.mem_cons_self
    have hwidth : (padded calcNewValue rel).length = rel.kind.width := encode_length _ _
    have htail := read_patches buf hout hin rels
      ((memcpy (C.loc buf p rel) (padded calcNewValue rel)).exec m)
      fun r hr => h r (List.mem_cons_of_mem _ hr)
    rw [loc_eq hout hin hrel.1, read_patch (by omega)] at htail
    simpa [Task.seqAll, loc_eq hout hin hrel.1] using htail

/-- **`InputChunk::writeTo` fills the place of the chunk with its data and the values.** -/
theorem writeTo_fills {buf outputOffset : Nat} (h : C.WellPlaced) (hout : outputOffset < 2 ^ 31) :
    Fills (C.writeTo calcNewValue buf outputOffset) (buf + outputOffset) (C.patched calcNewValue) where
  within a ha := by
    rw [patched_length calcNewValue h.placed]
    rcases Task.touches_seq.1 ha with ha | ha
    · exact touches_memcpy.1 ha
    · obtain ⟨t, ht, hta⟩ := Task.touches_seqAll.1 ha
      obtain ⟨rel, hrel, rfl⟩ := List.mem_map.1 ht
      have hbounds := h.placed.bounds rel hrel
      rw [touches_memcpy, loc_eq hout h.bound hbounds.1, encode_length] at hta
      unfold codeEnd at hbounds
      omega
  raceFree := by
    refine ⟨memcpy_raceFree _ _, Task.seqAll_raceFree fun t ht => ?_⟩
    obtain ⟨rel, -, rfl⟩ := List.mem_map.1 ht
    exact memcpy_raceFree _ _
  read m _ := by
    have hpatches := read_patches (C := C) (n := C.data.length) calcNewValue buf hout h.bound
      C.relocations ((memcpy (buf + outputOffset) C.data).exec m) h.placed.bounds
    rw [read_memcpy] at hpatches
    rw [patched_length calcNewValue h.placed, writeTo, exec_seq]
    exact hpatches

/-! ## Compressed functions -/

/-- The sites lie side by side behind the function's size. -/
def PlacedInCode (C : InputChunk T) : Prop := Placed C.codeStart C.relocations C.codeEnd

/-- The loop of `calculateSize` counts what the loop of `writeTo` writes. -/
theorem sizeLoop_eq {last : Nat} {rels : List (Relocation T)} (hlast : C.inputSectionOffset ≤ last)
    (h : Placed last rels C.codeEnd) :
    sizeLoop calcNewValue C.codeEnd last rels = (C.compressLoop calcNewValue last rels).length := by
  induction rels generalizing last with
  | nil => exact (slice_length hlast (Nat.le_refl _)).symm
  | cons rel rels ih =>
    cases h with
    | cons hle hrels =>
      have hend := hrels.le
      rw [sizeLoop, compressLoop, ih (by omega) hrels, List.length_append, List.length_append,
        slice_length hlast (by omega)]
      omega

theorem compressedSize_eq (h : C.PlacedInCode) :
    C.compressedSize calcNewValue = (encodeUPad 0 0 (C.compressedFuncSize calcNewValue) ++
      C.compressLoop calcNewValue C.codeStart C.relocations).length := by
  have hstart : C.inputSectionOffset ≤ C.codeStart := Nat.le_add_right _ _
  rw [compressedSize, List.length_append, compressedFuncSize, sizeLoop_eq calcNewValue hstart h]
  omega

/-- **Compressed functions are not longer** than what the compiler has written. -/
theorem compressedFuncSize_le (h : C.PlacedInCode) :
    C.compressedFuncSize calcNewValue ≤ C.codeEnd - C.codeStart := by
  have hstart : C.inputSectionOffset ≤ C.codeStart := Nat.le_add_right _ _
  rw [compressedFuncSize, sizeLoop_eq calcNewValue hstart h, compressLoop_eq,
    ← rendered_padded_length calcNewValue hstart h]
  refine rendered_length_le fun rel _ => ?_
  rw [padded, encode_length]
  exact encodeCompressed_length_le _ _

end InputChunk

end Lld
