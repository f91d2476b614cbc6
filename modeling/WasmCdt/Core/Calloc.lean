import WasmCdt.Core.SimpleMalloc

/-!
# `calloc`, and what a request for a size is for

`calloc` of `malloc.cpp`, in programs that call it beside the rest, and the three functions that take
a size and return a block.
-/

namespace Wasmlib

/-- `calloc`. The product is a `size_t`, and a null pointer is not looked for. -/
def MemoryManager.calloc (count size : Nat) (σ : MemoryManager) : Exec (Option Nat × MemoryManager) := do
  let n := count * size % 2 ^ 32
  let (ptr, σ) ← σ.malloc n
  pure (ptr, { σ with mem := Dsmalloc.zero (ptr.getD 0) n σ.mem })

/-- The functions that return a block. -/
inductive Allocation
  | malloc (size : Nat)
  | realloc (ptr : Option Nat) (size : Nat)
  | calloc (count size : Nat)

namespace Allocation

/-- The bytes that are asked for. -/
def size : Allocation → Nat
  | .malloc size => size
  | .realloc _ size => size
  | .calloc count size => count * size

/-- The block that is resized. -/
def old : Allocation → Option Nat
  | .realloc ptr _ => ptr
  | _ => none

def exec (σ : MemoryManager) : Allocation → Exec (Option Nat × MemoryManager)
  | .malloc size => σ.malloc size
  | .realloc ptr size => σ.realloc ptr size
  | .calloc count size => σ.calloc count size

end Allocation

/-- A call of a program that may use `calloc`. -/
inductive AllocCall
  | call (call : Call)
  | calloc (count size : Nat)

def Allocation.call : Allocation → AllocCall
  | .malloc size => .call (.malloc size)
  | .realloc ptr size => .call (.realloc ptr size)
  | .calloc count size => .calloc count size

namespace World

def allocStep (w : World) : AllocCall → Exec World
  | .call call => w.step call
  | .calloc count size => do
    let (buffer, σ) ← w.manager.calloc count size
    pure ⟨σ, (buffer.map fun ptr => ⟨ptr, adjustToMemBlock (count * size)⟩).toList ++ w.live⟩

def allocRun (calls : List AllocCall) (w : World) : Exec World := calls.foldlM allocStep w

/-- A call that is valid and fine; of `calloc` the product must be a size. -/
def Allows (w : World) : AllocCall → Prop
  | .call call => w.Valid call ∧ w.Fine call
  | .calloc count size => w.Valid (.malloc (count * size)) ∧ w.Fine (.malloc (count * size))

/-- Every call of the run is allowed, in the world that it finds. -/
def AllowsAll (w : World) : List AllocCall → Prop
  | [] => True
  | call :: calls => w.Allows call ∧ ∀ w', w.allocStep call = .ok w' → w'.AllowsAll calls

/-- The block at `ptr` has a payload of `n` bytes or more, which is in heap `i`. -/
def HasPayload (σ : MemoryManager) (ptr n i : Nat) : Prop :=
  n ≤ (BufferPtr.ofHeader ptr 0 σ.mem).size ∧ i < σ.heapsActualSize ∧
    Block.InHeap ⟨ptr, (BufferPtr.ofHeader ptr 0 σ.mem).size⟩ (σ.availableHeaps i)

/-- No cursor moves back. What is returned is null or has the bytes that were asked for, and the cursor
of its heap has moved up if the block was not there before. -/
structure Honours (σ : MemoryManager) (a : Allocation) (new : Option Nat) (σ' : MemoryManager) :
    Prop where
  cursors : ∀ i, (σ.availableHeaps i).offset ≤ (σ'.availableHeaps i).offset
  block : ∀ p ∈ new, ∃ i, HasPayload σ' p a.size i ∧
    (some p ≠ a.old → (σ.availableHeaps i).offset < (σ'.availableHeaps i).offset)

end World

end Wasmlib
