import WasmCdt.Core.Allocator

/-!
# The default allocator

`simple_malloc.cpp`: a cursor that only moves up, and a count of the pages it has asked for. Sizes,
pointers and the page counter are 32-bit, and their arithmetic wraps.
-/

namespace Wasmlib

open ByteMem

/-- `_dsmalloc`, with the memory of the program. -/
structure Dsmalloc where
  mem : Mem
  /-- `CURRENT_MEMORY`, in pages. -/
  currentMemory : Nat
  /-- The pages that `GROW_MEMORY` grants in all. -/
  limit : Nat
  lastPtr : Nat
  nextPage : Nat

namespace Dsmalloc

/-- `align`, of a pointer. -/
def align (ptr alignAmt : Nat) : Nat := subSize (addSize ptr alignAmt) 1 &&& (2 ^ 32 - alignAmt)

/-- The constructor; `heapBase` is what the linker has placed at address 0. -/
def start (mem : Mem) (heapBase currentMemory limit : Nat) : Dsmalloc where
  mem := mem
  currentMemory := currentMemory
  limit := limit
  lastPtr := align heapBase 8
  nextPage := currentMemory

/-- `operator()` with its default alignment; the pointer 0 is `NULL`. -/
def alloc (sz : Nat) (σ : Dsmalloc) : Exec (Nat × Dsmalloc) :=
  if sz = 0 then pure (0, σ)
  else do
    let ret := σ.lastPtr
    let lastPtr := align (addSize σ.lastPtr sz) 8
    let pagesToAlloc := sz >>> 16
    let nextPage := addSize σ.nextPage pagesToAlloc
    let (nextPage, pagesToAlloc) :=
      if (nextPage <<< 16) % 2 ^ 32 ≤ lastPtr then (addSize nextPage 1, addSize pagesToAlloc 1)
      else (nextPage, pagesToAlloc)
    check (σ.currentMemory + pagesToAlloc ≤ σ.limit) "failed to allocate pages"
    pure (ret, { σ with
      lastPtr := lastPtr
      nextPage := nextPage
      currentMemory := σ.currentMemory + pagesToAlloc })

def malloc (size : Nat) (σ : Dsmalloc) : Exec (Nat × Dsmalloc) := σ.alloc size

/-- `memset(ptr, 0, n)`. -/
def zero (ptr n : Nat) (m : Mem) : Mem := fun x => if ptr ≤ x ∧ x < ptr + n then 0 else m x

def calloc (count size : Nat) (σ : Dsmalloc) : Exec (Nat × Dsmalloc) := do
  let n := count * size % 2 ^ 32
  let (ptr, σ) ← σ.alloc n
  if ptr ≠ 0 then pure (ptr, { σ with mem := zero ptr n σ.mem }) else pure (0, σ)

/-- `realloc`; the block is not looked at. -/
def realloc (_ptr size : Nat) (σ : Dsmalloc) : Exec (Nat × Dsmalloc) := σ.alloc size

def free (_ptr : Nat) (σ : Dsmalloc) : Dsmalloc := σ

end Dsmalloc

/-! ## A program and its blocks -/

inductive Request
  | malloc (size : Nat)
  | calloc (count size : Nat)
  | realloc (ptr size : Nat)
  | free (ptr : Nat)
  /-- A write to byte `i` of a block. -/
  | write (ptr i : Nat) (v : UInt8)

/-- The bytes that are asked for. -/
def Request.size : Request → Nat
  | .malloc size => size
  | .calloc count size => count * size
  | .realloc _ size => size
  | .free _ => 0
  | .write _ _ _ => 0

structure SimpleWorld where
  allocator : Dsmalloc
  /-- The blocks returned so far, with the size asked for. -/
  blocks : List Block

namespace SimpleWorld

def start (mem : Mem) (heapBase currentMemory limit : Nat) : SimpleWorld :=
  ⟨.start mem heapBase currentMemory limit, []⟩

/-- The program with a block that a request returns, unless it is null. -/
def take (w : SimpleWorld) (size : Nat) (r : Nat × Dsmalloc) : SimpleWorld :=
  ⟨r.2, if r.1 = 0 then w.blocks else ⟨r.1, size⟩ :: w.blocks⟩

def step (w : SimpleWorld) : Request → Exec SimpleWorld
  | .malloc size => do
    let r ← w.allocator.malloc size
    pure (w.take size r)
  | .calloc count size => do
    let r ← w.allocator.calloc count size
    pure (w.take (count * size) r)
  | .realloc ptr size => do
    let r ← w.allocator.realloc ptr size
    pure (w.take size r)
  | .free ptr => pure { w with allocator := w.allocator.free ptr }
  | .write ptr i v =>
    pure { w with allocator.mem := store8 (ptr + i) v w.allocator.mem }

def run (requests : List Request) (w : SimpleWorld) : Exec SimpleWorld := requests.foldlM step w

/-- The request is for a 32-bit size. -/
def InWord (r : Request) : Prop := r.size < 2 ^ 32

/-! ## What the allocator promises -/

/-- The two blocks have no byte in common. -/
def Disjoint (b c : Block) : Prop := b.ptr + b.size ≤ c.ptr ∨ c.ptr + c.size ≤ b.ptr

instance (b c : Block) : Decidable (Disjoint b c) := inferInstanceAs (Decidable (_ ∨ _))

/-- The blocks are aligned, at or above the heap base, inside the memory, and disjoint. -/
def Sound (heapBase : Nat) (w : SimpleWorld) : Prop :=
  (∀ b ∈ w.blocks, b.ptr % 8 = 0 ∧ heapBase ≤ b.ptr ∧
    b.ptr + b.size ≤ w.allocator.currentMemory * MemoryManager.pageSize) ∧
  w.blocks.Pairwise Disjoint

instance (heapBase : Nat) (w : SimpleWorld) : Decidable (w.Sound heapBase) :=
  inferInstanceAs (Decidable (_ ∧ _))

/-- The end of the next block of `n` bytes, rounded up. -/
def roundedEnd (σ : Dsmalloc) (n : Nat) : Nat := (σ.lastPtr + n + 7) / 8 * 8

/-- There is no room for `n` bytes, in the pages or in the address space. -/
def Unsatisfiable (σ : Dsmalloc) (n : Nat) : Prop :=
  σ.limit * MemoryManager.pageSize < roundedEnd σ n ∨ 2 ^ 32 ≤ roundedEnd σ n

def noPages : Stop := .abort "failed to allocate pages"

/-- Every run of requests of 32-bit sizes runs out of pages, or leaves the blocks sound; and a request
without room then aborts. -/
def Safe (heapBase currentMemory limit : Nat) : Prop :=
  ∀ (mem : Mem) (requests : List Request), (∀ r ∈ requests, InWord r) →
    run requests (start mem heapBase currentMemory limit) = .error noPages ∨
    ∃ w, run requests (start mem heapBase currentMemory limit) = .ok w ∧ w.Sound heapBase ∧
      ∀ n, 0 < n → n < 2 ^ 32 → Unsatisfiable w.allocator n → w.allocator.alloc n = .error noPages

/-- The heap base is in the memory that the program starts with, which has the page that the base is
read from, and the memory is within its limit. -/
structure Config (heapBase currentMemory limit : Nat) : Prop where
  pages_pos : 0 < currentMemory
  heap_le : heapBase ≤ currentMemory * MemoryManager.pageSize
  pages_le : currentMemory ≤ limit
  limit_le : limit ≤ 65536

/-- The first block would start exactly at the end of the memory, and the memory may still grow to one
page less than the address space. -/
def StartsAtEnd (heapBase currentMemory limit : Nat) : Prop :=
  (heapBase + 7) / 8 * 8 = currentMemory * MemoryManager.pageSize ∧ currentMemory ≤ 65535 ∧
    65535 ≤ limit

end SimpleWorld

end Wasmlib
