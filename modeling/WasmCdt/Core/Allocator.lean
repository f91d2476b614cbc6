import WasmCdt.Core.Malloc
import Mathlib.Data.List.Basic

/-!
# A program and its blocks

The blocks that a program holds, its calls to the memory manager, and its writes into its blocks. The
blocks are sound if they are apart and each is inside a heap; `Fine` is what a call must observe for
that, since a resized block can run past the cursor and sizes can wrap.
-/

namespace Wasmlib

open ByteMem

/-- A block that the program holds, with the size it asked for, rounded up. -/
structure Block where
  ptr : Nat
  size : Nat
  deriving DecidableEq

namespace Block

/-- The two blocks have no byte in common, of their headers and payloads. -/
def Apart (b c : Block) : Prop :=
  b.ptr + b.size + sizeMarker ≤ c.ptr ∨ c.ptr + c.size + sizeMarker ≤ b.ptr

/-- `b` is now the block of `n` bytes at `q`: the bytes that fit are those it had, and no other block has
changed. -/
structure Resized (m m' : Mem) (blocks : List Block) (b : Block) (q n : Nat) : Prop where
  moved : ∀ i < min b.size n, m' (q + i) = m (b.ptr + i)
  others : ∀ c ∈ blocks, c ≠ b → ∀ i < c.size, m' (c.ptr + i) = m (c.ptr + i)

/-- Header and payload are in the heap, below its size. -/
def InHeap (b : Block) (h : Memory) : Prop :=
  h.isInit ∧ h.heap + sizeMarker ≤ b.ptr ∧ b.ptr + b.size ≤ h.heap + h.heapSize

instance (b c : Block) : Decidable (b.Apart c) := inferInstanceAs (Decidable (_ ∨ _))

instance (b : Block) (h : Memory) : Decidable (b.InHeap h) := inferInstanceAs (Decidable (_ ∧ _))

end Block

inductive Call
  | malloc (size : Nat)
  | free (ptr : Option Nat)
  | realloc (ptr : Option Nat) (size : Nat)
  /-- A write to byte `i` of a block. -/
  | write (ptr i : Nat) (v : UInt8)

structure World where
  manager : MemoryManager
  live : List Block

namespace World

def start (initialHeap currentMemory : Nat) : World := ⟨.start initialHeap currentMemory, []⟩

/-- The blocks other than the one at `ptr`. -/
def without (ptr : Option Nat) (live : List Block) : List Block :=
  live.filter fun b => some b.ptr ≠ ptr

def step (w : World) : Call → Exec World
  | .malloc size => do
    let (buffer, σ) ← w.manager.malloc size
    pure ⟨σ, (buffer.map fun ptr => ⟨ptr, adjustToMemBlock size⟩).toList ++ w.live⟩
  | .free ptr => pure ⟨w.manager.free ptr, without ptr w.live⟩
  | .realloc ptr size => do
    let (buffer, σ) ← w.manager.realloc ptr size
    match buffer with
    | some new => pure ⟨σ, ⟨new, adjustToMemBlock size⟩ :: without ptr w.live⟩
    -- with size 0, `realloc` has freed the block; otherwise the program still holds it
    | none => pure ⟨σ, if size = 0 then without ptr w.live else w.live⟩
  | .write ptr i v => pure { w with manager.mem := store8 (ptr + i) v w.manager.mem }

def run : List Call → World → Exec World
  | [], w => pure w
  | call :: calls, w => do
    let w ← w.step call
    run calls w

/-- The blocks are pairwise apart, and each is in an initialised heap. -/
def Sound (w : World) : Prop :=
  w.live.Pairwise Block.Apart ∧
    ∀ b ∈ w.live, ∃ i < w.manager.heapsActualSize, b.InHeap (w.manager.availableHeaps i)

instance (w : World) : Decidable w.Sound := inferInstanceAs (Decidable (_ ∧ _))

/-! ## Calls -/

/-- A null pointer, or a block of the program. -/
def Owns (w : World) (ptr : Option Nat) : Prop := ∀ p ∈ ptr, ∃ b ∈ w.live, b.ptr = p

/-- The pointers are the program's own, and sizes do not wrap when they are rounded up. -/
def Valid (w : World) : Call → Prop
  | .malloc size => size ≤ 2 ^ 32 - sizeMarker
  | .free ptr => w.Owns ptr
  | .realloc ptr size => w.Owns ptr ∧ size ≤ 2 ^ 32 - sizeMarker
  | .write ptr i _ => ∃ b ∈ w.live, b.ptr = ptr ∧ i < b.size

/-- A size without the flag's bit, for which the end of a block behind the cursor does not wrap. -/
def SizeFits (σ : MemoryManager) (size : Nat) : Prop :=
  size < 2 ^ 31 ∧ (σ.availableHeaps σ.activeHeap).offset + size + sizeMarker < 2 ^ 32

/-- The size in the block's header, which a block keeps that was made smaller. -/
def recordedSize (w : World) (ptr : Nat) : Nat := (BufferPtr.ofHeader ptr 0 w.manager.mem).size

/-- The last block of its heap grows to no more than the address of the heap's end; another one has a
block of the program behind it, or ends before the cursor, or does not fit. -/
def GrowthFits (w : World) (ptr size : Nat) (h : Memory) : Prop :=
  if ptr + w.recordedSize ptr = h.heap + h.offset then size ≤ h.heapEnd
  else (∃ b ∈ w.live, ptr < b.ptr ∧ b.ptr < h.heap + h.offset) ∨
    ptr + size ≤ h.heap + h.offset ∨ h.heapEnd < ptr + size

/-- The sizes fit, and a block that grows does not run past the cursor. -/
def Fine (w : World) : Call → Prop
  | .malloc size => size = 0 ∨ SizeFits w.manager (adjustToMemBlock size)
  | .realloc ptr size =>
      size = 0 ∨ (∃ p ∈ ptr, adjustToMemBlock size ≤ w.recordedSize p) ∨
      SizeFits w.manager (adjustToMemBlock size) ∧
        ∀ p ∈ ptr, ∀ i ∈ w.manager.findHeap p w.manager.heapsActualSize 0,
          w.GrowthFits p (adjustToMemBlock size) (w.manager.availableHeaps i)
  | _ => True

/-- A property of all calls of a run, each in the world that it finds. -/
def Along (P : World → Call → Prop) : List Call → World → Prop
  | [], _ => True
  | call :: calls, w => P w call ∧ ∀ w', w.step call = .ok w' → Along P calls w'

instance (w : World) (ptr : Option Nat) : Decidable (w.Owns ptr) :=
  inferInstanceAs (Decidable (∀ p ∈ ptr, _))

instance (w : World) : ∀ call, Decidable (w.Valid call)
  | .malloc _ => inferInstanceAs (Decidable (_ ≤ _))
  | .free ptr => inferInstanceAs (Decidable (w.Owns ptr))
  | .realloc _ _ => inferInstanceAs (Decidable (_ ∧ _))
  | .write _ _ _ => inferInstanceAs (Decidable (∃ b ∈ w.live, _))

instance (σ : MemoryManager) (size : Nat) : Decidable (SizeFits σ size) :=
  inferInstanceAs (Decidable (_ ∧ _))

instance (w : World) (ptr size : Nat) (h : Memory) : Decidable (w.GrowthFits ptr size h) :=
  inferInstanceAs (Decidable (if ptr + w.recordedSize ptr = h.heap + h.offset then size ≤ h.heapEnd
    else _ ∨ _ ∨ _))

instance (w : World) : ∀ call, Decidable (w.Fine call)
  | .malloc _ => inferInstanceAs (Decidable (_ ∨ _))
  | .free _ => inferInstanceAs (Decidable True)
  | .realloc _ _ => inferInstanceAs (Decidable (_ ∨ _ ∨ _ ∧ _))
  | .write _ _ _ => inferInstanceAs (Decidable True)

instance Along.decide (P : World → Call → Prop) [∀ w call, Decidable (P w call)] :
    ∀ calls w, Decidable (Along P calls w)
  | [], _ => .isTrue trivial
  | call :: calls, w =>
    have : Decidable (∀ w', w.step call = .ok w' → Along P calls w') :=
      match h : w.step call with
      | .ok w₁ =>
        have := Along.decide P calls w₁
        decidable_of_iff (Along P calls w₁) ⟨fun hp w' heq => by cases heq; exact hp, fun hp => hp w₁ rfl⟩
      | .error _ => .isTrue fun _ heq => by cases heq
    inferInstanceAs (Decidable (P w call ∧ _))

/-- The addresses that the linker gives to the manager, and the pages the program starts with. -/
structure Layout (initialHeap currentMemory : Nat) : Prop where
  heap_pos : 0 < initialHeap
  heap_le : initialHeap + initialHeapSize ≤ currentMemory * MemoryManager.pageSize
  pages_lt : currentMemory * MemoryManager.pageSize < 2 ^ 32

end World

end Wasmlib
