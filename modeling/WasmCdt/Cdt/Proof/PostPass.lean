import WasmCdt.Cdt.PostPass
import WasmCdt.Lib.Overlay

/-!
# The memory behind the pass

The data segments as writes over each other (`Overlay`), seen from one address.

* `image_eq`: the initial memory at an address.
* `strip_iff`: when the segments that hold only zeros can go.
* `load32_heap`: what the added segment leaves in the first four bytes.
* `run_image`: **the memory of the module that is written**.
-/

namespace PostPass

open ByteMem Overlay

theorem foldl_apply (segs : List DataSegment) (m : Mem) (a : Nat) :
    segs.foldl DataSegment.apply m a = after (DataSegment.put a) (m a) segs := by
  induction segs generalizing m with
  | nil => rfl
  | cons ds segs ih => exact ih (ds.apply m)

theorem image_eq (mod : Module) (a : Nat) :
    image mod a = after (DataSegment.put a) 0 mod.dataSegments := foldl_apply _ _ a

/-! ## Segments of zeros -/

theorem put_of_isZeroed {a : Nat} (ds : DataSegment) (b : UInt8) (h : ds.isZeroed = true)
    (hput : ds.put a = some b) : b = 0 := by
  unfold DataSegment.put at hput
  split at hput
  · exact beq_iff_eq.1 (List.all_eq_true.1 h b (List.mem_of_getElem? hput))
  · cases hput

/-- No segment of zeros takes a non-zero byte from the segments before it, unless a segment that is
not of zeros follows and covers the address. -/
def NoneErased (mod : Module) (a : Nat) : Prop :=
  Harmless (DataSegment.put a) 0 DataSegment.isZeroed mod.dataSegments

theorem strip_iff (mod : Module) (a : Nat) :
    image (stripZeroedData mod 0).1 a = image mod a ↔ NoneErased mod a := by
  rw [image_eq, image_eq]
  exact after_filter_iff put_of_isZeroed mod.dataSegments

/-! ## The heap pointer -/

theorem and_not_seven (x : BitVec 32) : x &&& ~~~(7 : BitVec 32) = (x >>> 3) <<< 3 := by
  have hmask : ~~~(7 : BitVec 32) = BitVec.allOnes 32 <<< 3 := by decide
  rw [hmask]
  ext i hi
  simp only [BitVec.getElem_and, BitVec.getElem_shiftLeft, BitVec.getElem_allOnes,
    BitVec.getElem_ushiftRight]
  by_cases h : i < 3
  · simp [h]
  · have hadd : 3 + (i - 3) = i := by omega
    simp [h, hadd, BitVec.getLsbD_eq_getElem hi]

theorem alignHeap_toNat (h : BitVec 32) : (alignHeap h).toNat = (h.toNat + 7) / 8 * 8 % 2 ^ 32 := by
  unfold alignHeap
  rw [and_not_seven, BitVec.toNat_shiftLeft, BitVec.toNat_ushiftRight, Nat.shiftLeft_eq,
    Nat.shiftRight_eq_div_pow, BitVec.toNat_add]
  have h7 : (7 : BitVec 32).toNat = 7 := rfl
  rw [h7]
  omega

/-- Byte `a` of the word that is added. -/
theorem heapSegment_put (h : BitVec 32) {a : Nat} (ha : a < 4) :
    (heapSegment h).put a = some (UInt8.ofBitVec ((alignHeap h >>> (8 * a)).setWidth 8)) := by
  simp [heapSegment, DataSegment.put, ha]

theorem heapSegment_put_of_le (h : BitVec 32) {a : Nat} (ha : 4 ≤ a) : (heapSegment h).put a = none := by
  simp [heapSegment, DataSegment.put, ha]

theorem image_heap (mod : Module) (h : BitVec 32) (a : Nat) :
    image { mod with dataSegments := mod.dataSegments ++ [heapSegment h] } a
      = ((heapSegment h).put a).getD (image mod a) := by
  rw [image_eq, after_concat, ← image_eq]

theorem load32_heap (mod : Module) (h : BitVec 32) :
    load32 (image { mod with dataSegments := mod.dataSegments ++ [heapSegment h] }) 0
      = (h.toNat + 7) / 8 * 8 % 2 ^ 32 := by
  have hbyte : ∀ a < 4, (image { mod with dataSegments := mod.dataSegments ++ [heapSegment h] } a).toNat
      = (alignHeap h).toNat / 2 ^ (8 * a) % 2 ^ 8 := by
    intro a ha
    rw [image_heap, heapSegment_put h ha, Option.getD_some, UInt8.toNat_ofBitVec, BitVec.toNat_setWidth,
      BitVec.toNat_ushiftRight, Nat.shiftRight_eq_div_pow]
  have hlt := (alignHeap h).isLt
  rw [← alignHeap_toNat]
  unfold load32
  rw [hbyte 0 (by decide), hbyte 1 (by decide), hbyte 2 (by decide), hbyte 3 (by decide)]
  omega

/-! ## The pass -/

/-- The memory of the module that the pass writes: the heap base in front, and behind it the memory
of the module that it read, at the addresses where no zeros are missed. -/
theorem run_image (heapPtr base : BitVec 32) (mod : Module) (buff : List UInt8)
    (hbase : getHeapPtr heapPtr mod buff = some base) :
    ∃ out, run heapPtr mod buff = some out ∧
      load32 (image out) 0 = (base.toNat + 7) / 8 * 8 % 2 ^ 32 ∧
      ∀ a, 4 ≤ a → (image out a = image mod a ↔ NoneErased mod a) := by
  have hstrip : getHeapPtr heapPtr (stripZeroedData mod 0).1 buff = some base := hbase
  refine ⟨_, ?_, load32_heap (stripZeroedData mod 0).1 base, fun a ha => ?_⟩
  · unfold run addHeapPointerData
    rw [hstrip]
    rfl
  · rw [image_heap, heapSegment_put_of_le base ha, Option.getD_none]
    exact strip_iff mod a

/-- A file with the LEB128 bytes of 1027 at place 14, and global 1 at place 10. -/
def fileAt14 : List UInt8 := List.replicate 14 0 ++ [0x83, 0x08, 0x0b]

/-- The segments given, and two globals. -/
def sample (dataSegments : List DataSegment) : Module := ⟨[⟨0⟩, ⟨10⟩], dataSegments⟩

/-- Zeros that a later segment covers in part. -/
theorem run_image_sample :
    ∃ out, run 0 (sample [⟨0, 16, [1]⟩, ⟨0, 16, [0, 0]⟩, ⟨0, 16, [2]⟩]) fileAt14 = some out ∧
      load32 (image out) 0 = ((1027 : BitVec 32).toNat + 7) / 8 * 8 % 2 ^ 32 ∧
      ∀ a, 4 ≤ a → (image out a = image (sample [⟨0, 16, [1]⟩, ⟨0, 16, [0, 0]⟩, ⟨0, 16, [2]⟩]) a ↔
        NoneErased (sample [⟨0, 16, [1]⟩, ⟨0, 16, [0, 0]⟩, ⟨0, 16, [2]⟩]) a) :=
  run_image 0 1027 (sample [⟨0, 16, [1]⟩, ⟨0, 16, [0, 0]⟩, ⟨0, 16, [2]⟩]) fileAt14 (by decide)

/-- Zeros over a byte that is not zero: the byte comes back. -/
theorem image_not_kept :
    ∃ out, run 0 (sample [⟨0, 16, [1]⟩, ⟨0, 16, [0]⟩]) fileAt14 = some out ∧
      image (sample [⟨0, 16, [1]⟩, ⟨0, 16, [0]⟩]) 16 = 0 ∧ image out 16 = 1 :=
  ⟨sample [⟨0, 16, [1]⟩, heapSegment 1027], by decide, by decide, by decide⟩

end PostPass
