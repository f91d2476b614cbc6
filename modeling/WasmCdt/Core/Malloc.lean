import WasmCdt.Core.Exec
import WasmCdt.Lib.ByteMem
import Mathlib.Logic.Function.Basic

/-!
# The memory manager

`malloc.cpp`: a heap hands out blocks behind a cursor, each with a header word of its size and a flag
in the top bit; `free` clears the flag, and `realloc` may take over the freed blocks behind a block.
The manager works with a static heap first and with memory from `sbrk` then. `size_t` and pointers
are 32-bit, and their arithmetic wraps.
-/

namespace Wasmlib

open ByteMem

/-! ## Machine arithmetic -/

/-- `a + b` for `size_t` or a pointer. -/
def addSize (a b : Nat) : Nat := (a + b) % 2 ^ 32

/-- `a - b` for `size_t` or a pointer. -/
def subSize (a b : Nat) : Nat := (a + 2 ^ 32 - b) % 2 ^ 32

def sizeMarker : Nat := 4

def memBlock : Nat := 8

def remMemBlockMask : Nat := memBlock - 1

/-- `_alloc_memory_mask`. -/
def allocMemoryMask : Nat := 2 ^ 31

/-- `~_alloc_memory_mask`. -/
def sizeMask : Nat := 2 ^ 31 - 1

def initialHeapSize : Nat := 8192

def heapsSize : Nat := 16

def adjustToMemBlock (size : Nat) : Nat :=
  let remainder := addSize size sizeMarker &&& remMemBlockMask
  if 0 < remainder then addSize size (memBlock - remainder) else size

/-! ## Blocks -/

/-- `buffer_ptr`. -/
structure BufferPtr where
  ptr : Nat
  size : Nat
  heapEnd : Nat

namespace BufferPtr

/-- The constructor that reads the size from the header. -/
def ofHeader (ptr heapEnd : Nat) (m : Mem) : BufferPtr :=
  ⟨ptr, load32 m (ptr - sizeMarker) &&& sizeMask, heapEnd⟩

/-- `size(val)`: the header keeps its flag. -/
def setSize (val : Nat) (b : BufferPtr) (m : Mem) : BufferPtr × Mem :=
  let memoryState := load32 m (b.ptr - sizeMarker) &&& allocMemoryMask
  ({ b with size := val }, store32 (b.ptr - sizeMarker) (val ||| memoryState) m)

/-- The constructor that writes the size to the header. -/
def create (ptr buffSize heapEnd : Nat) (m : Mem) : BufferPtr × Mem :=
  setSize buffSize ⟨ptr, 0, heapEnd⟩ m

/-- `end`. -/
def finish (b : BufferPtr) : Nat := addSize b.ptr b.size

def nextPtr (b : BufferPtr) : Option Nat :=
  let next := addSize b.finish sizeMarker
  if b.heapEnd ≤ next then none else some next

def markAlloc (b : BufferPtr) (m : Mem) : Mem :=
  store32 (b.ptr - sizeMarker) (load32 m (b.ptr - sizeMarker) ||| allocMemoryMask) m

def markFree (b : BufferPtr) (m : Mem) : Mem :=
  store32 (b.ptr - sizeMarker) (load32 m (b.ptr - sizeMarker) &&& sizeMask) m

def isAlloc (b : BufferPtr) (m : Mem) : Bool :=
  load32 m (b.ptr - sizeMarker) &&& allocMemoryMask != 0

/-- The loop of `merge_contiguous`. Each round adds at least 4 to `possibleSize`, so that
`neededSize` bounds the rounds as long as the sum does not wrap. -/
def mergeLoop (b : BufferPtr) (neededSize : Nat) (m : Mem) : Nat → Nat → Exec Nat
  | 0, _ => .error .fault
  | n + 1, possibleSize =>
    if possibleSize < neededSize ∧ addSize b.ptr possibleSize < b.heapEnd then
      let nextMemFlagSize := load32 m (addSize b.ptr possibleSize)
      -- allocated: done with contiguous free memory
      if nextMemFlagSize &&& allocMemoryMask ≠ 0 then pure possibleSize
      else mergeLoop b neededSize m n
        (addSize possibleSize (addSize (nextMemFlagSize &&& sizeMask) sizeMarker))
    else pure possibleSize

/-- `merge_contiguous`. -/
def mergeContiguous (neededSize : Nat) (allOrNothing : Bool) (b : BufferPtr) (m : Mem) :
    Exec (Bool × BufferPtr × Mem) :=
  if allOrNothing ∧ subSize b.heapEnd b.ptr < neededSize then pure (false, b, m)
  else do
    let possibleSize ← mergeLoop b neededSize m (neededSize + 1) b.size
    if allOrNothing ∧ possibleSize < neededSize then pure (false, b, m)
    else
      let newSize := if possibleSize < neededSize then possibleSize else neededSize
      let (b, m) := b.setSize newSize m
      let m :=
        if neededSize < possibleSize then
          let freedSize := subSize (subSize possibleSize neededSize) sizeMarker
          let (freedRemainder, m) :=
            create (addSize (addSize b.ptr neededSize) sizeMarker) freedSize b.heapEnd m
          freedRemainder.markFree m
        else m
      pure (newSize == neededSize, b, m)

end BufferPtr

/-! ## Heaps -/

/-- `memory_manager::memory`. -/
structure Memory where
  heapSize : Nat
  heap : Nat
  offset : Nat
  deriving DecidableEq

namespace Memory

def init (memHeap size : Nat) (h : Memory) : Memory :=
  { h with heapSize := size, heap := memHeap }

def isInit (h : Memory) : Bool := h.heap != 0

/-- `_heap + _heap_size`. -/
def heapEnd (h : Memory) : Nat := addSize h.heap h.heapSize

def isInHeap (ptr : Nat) (h : Memory) : Bool :=
  addSize h.heap sizeMarker ≤ ptr && ptr < h.heapEnd

def malloc (size : Nat) (h : Memory) (m : Mem) : Option Nat × Memory × Mem :=
  let usedUpSize := addSize (addSize h.offset size) sizeMarker
  if h.heapSize < usedUpSize then (none, h, m)
  else
    let (newBuff, m) :=
      BufferPtr.create (addSize (addSize h.heap h.offset) sizeMarker) size h.heapEnd m
    (some newBuff.ptr, { h with offset := addSize h.offset (addSize size sizeMarker) },
      newBuff.markAlloc m)

/-- The loop of `malloc_from_freed`; a round passes a block. -/
def freedLoop (size : Nat) (h : Memory) : Nat → Nat → Mem → Exec (Option Nat × Mem)
  | 0, _, _ => .error .fault
  | n + 1, current, m => do
    let currentBuffer := BufferPtr.ofHeader current h.heapEnd m
    let (found, currentBuffer, m) ←
      if !currentBuffer.isAlloc m then currentBuffer.mergeContiguous size false m
      else pure (false, currentBuffer, m)
    if found then pure (some current, currentBuffer.markAlloc m)
    else
      match currentBuffer.nextPtr with
      | none => pure (none, m)
      | some next => freedLoop size h n next m

def mallocFromFreed (size : Nat) (h : Memory) (m : Mem) : Exec (Option Nat × Mem) := do
  check (h.offset == h.heapSize)
    "malloc_from_freed was designed to only be called after _heap was completely allocated"
  freedLoop size h (h.heapSize + 1) (addSize h.heap sizeMarker) m

/-- `realloc_in_place`: the pointer, `*orig_ptr_size`, and the heap. -/
def reallocInPlace (ptr size : Nat) (h : Memory) (m : Mem) :
    Exec (Option Nat × Nat × Memory × Mem) :=
  let origBuffer := BufferPtr.ofHeader ptr h.heapEnd m
  let origPtrSize := origBuffer.size
  let origBufferEnd := origBuffer.finish
  -- is the passed in pointer valid
  if h.heapEnd < origBufferEnd then pure (none, 0, h, m)
  else if subSize h.heapEnd size < ptr then pure (none, origPtrSize, h, m)
  else if size < origPtrSize then
    let newPtr := addSize (addSize ptr size) sizeMarker
    let (excessToFree, m) := BufferPtr.create newPtr (subSize origPtrSize size) h.heapEnd m
    pure (some ptr, origPtrSize, h, excessToFree.markFree m)
  else if origBufferEnd = addSize h.heap h.offset then
    -- the last allocated buffer expands
    let (_, m) := origBuffer.setSize size m
    pure (some ptr, origPtrSize, { h with offset := addSize h.offset (subSize size origPtrSize) }, m)
  else if size = origPtrSize then pure (some ptr, origPtrSize, h, m)
  else do
    let (merged, origBuffer, m) ← origBuffer.mergeContiguous size true m
    if !merged then pure (none, origPtrSize, h, m)
    else pure (some ptr, origPtrSize, h, origBuffer.markAlloc m)

def free (ptr : Nat) (h : Memory) (m : Mem) : Mem :=
  (BufferPtr.ofHeader ptr h.heapEnd m).markFree m

def cleanupRemaining (h : Memory) (m : Mem) : Memory × Mem :=
  if h.offset = h.heapSize then (h, m)
  else
    let size := subSize (subSize h.heapSize h.offset) sizeMarker
    let (newBuff, m) :=
      BufferPtr.create (addSize (addSize h.heap h.offset) sizeMarker) size h.heapEnd m
    ({ h with offset := h.heapSize }, newBuff.markFree m)

/-- `expand_memory`; `none` is `false`. -/
def expandMemory (expMem size : Nat) (h : Memory) : Option Memory :=
  if h.heapEnd ≠ expMem then none else some { h with heapSize := addSize h.heapSize size }

end Memory

/-! ## The manager -/

/-- `memory_manager`, with the memory of the program and the static variables of `sbrk`. -/
structure MemoryManager where
  mem : Mem
  /-- The address of `_initial_heap`. -/
  initialHeap : Nat
  availableHeaps : Nat → Memory
  heapsActualSize : Nat
  activeHeap : Nat
  activeFreeHeap : Nat
  /-- `CURRENT_MEMORY`, in pages. -/
  currentMemory : Nat
  initialized : Bool
  sbrkBytes : Nat

namespace MemoryManager

def pageSize : Nat := 65536

/-- The pages of a 32-bit address space. -/
def addressPages : Nat := 2 ^ 16

/-- The next page would end past the last address: no memory that `sbrk` could return is fresh. -/
def noMemory : Stop := .abort "no memory"

/-- `sbrk`. `GROW_MEMORY` grants every page below the end of the address space. -/
def sbrk (numBytes : Nat) (σ : MemoryManager) : Exec (Nat × MemoryManager) :=
  let σ := if σ.initialized then σ else
    { σ with sbrkBytes := σ.currentMemory * pageSize, initialized := true }
  if 2 ^ 31 - 1 < numBytes then pure (2 ^ 32 - 1, σ)
  else
    let prevNumBytes := σ.sbrkBytes
    let numBytes := (numBytes + 7) / 8 * 8
    if 2 ^ 32 ≤ σ.sbrkBytes + numBytes + pageSize - 1 then .error noMemory
    else
      let numDesiredPages := (σ.sbrkBytes + numBytes + pageSize - 1) / pageSize
      let σ := if σ.currentMemory < numDesiredPages then
        { σ with currentMemory := numDesiredPages } else σ
      pure (prevNumBytes, { σ with sbrkBytes := σ.sbrkBytes + numBytes })

def setHeap (i : Nat) (h : Memory) (σ : MemoryManager) : MemoryManager :=
  { σ with availableHeaps := Function.update σ.availableHeaps i h }

/-- To the end of the current page if it has 1 KiB left, otherwise to the end of the next. -/
def heapAdj (currentMemorySize : Nat) : Nat :=
  if currentMemorySize % pageSize ≤ pageSize - 1024 then
    currentMemorySize + pageSize - currentMemorySize % pageSize - currentMemorySize
  else
    currentMemorySize + pageSize * 2 - currentMemorySize % (pageSize * 2) - currentMemorySize

/-- `next_active_heap`: the index of the heap, or a null pointer. -/
def nextActiveHeap (σ : MemoryManager) : Exec (Option Nat × MemoryManager) := do
  let (currentMemorySize, σ) ← σ.sbrk 0
  let adj := heapAdj currentMemorySize
  let (newMemoryStart, σ) ← σ.sbrk adj
  let current := σ.availableHeaps σ.activeHeap
  -- neither a `size_t` nor a pointer is negative as an `int64_t`
  if (newMemoryStart : Int) = -1 then
    let (current, m) := current.cleanupRemaining σ.mem
    let σ := { σ.setHeap σ.activeHeap current with mem := m }
    pure (none, { σ with activeHeap := σ.activeHeap + 1, heapsActualSize := σ.activeHeap + 1 })
  else
    match current.expandMemory newMemoryStart adj with
    | some current => pure (some σ.activeHeap, σ.setHeap σ.activeHeap current)
    | none =>
      let (current, m) := current.cleanupRemaining σ.mem
      let σ := { σ.setHeap σ.activeHeap current with mem := m }
      let next := (σ.availableHeaps (σ.activeHeap + 1)).init newMemoryStart adj
      pure (some (σ.activeHeap + 1),
        { σ.setHeap (σ.activeHeap + 1) next with activeHeap := σ.activeHeap + 1 })

/-- The `while` loop of `malloc`. A round takes a page, so that there are no more
rounds than pages. -/
def mallocLoop (size : Nat) : Nat → Option Nat → MemoryManager → Exec (Option Nat × MemoryManager)
  | _, none, σ => pure (none, σ)
  | 0, some _, _ => .error .fault
  | n + 1, some current, σ =>
    match (σ.availableHeaps current).malloc size σ.mem with
    | (some buffer, h, m) => pure (some buffer, { σ.setHeap current h with mem := m })
    | (none, _, _) => do
      let (current, σ) ← σ.nextActiveHeap
      mallocLoop size n current σ

/-- The `do` loop of `malloc` over the heaps; a round passes one. -/
def mallocFreedLoop (size endFreeHeap : Nat) :
    Nat → MemoryManager → Exec (Option Nat × MemoryManager)
  | 0, _ => .error .fault
  | n + 1, σ => do
    let (buffer, m) ← (σ.availableHeaps σ.activeFreeHeap).mallocFromFreed size σ.mem
    let σ := { σ with mem := m }
    if buffer.isSome then pure (buffer, σ)
    else
      let σ := { σ with activeFreeHeap :=
        if σ.activeFreeHeap + 1 = σ.heapsActualSize then 0 else σ.activeFreeHeap + 1 }
      if σ.activeFreeHeap ≠ endFreeHeap then mallocFreedLoop size endFreeHeap n σ
      else pure (none, σ)

/-- What `malloc` prepares on its first call: the number of heaps, and heap 0. -/
def prepare (σ : MemoryManager) : MemoryManager :=
  let σ := if σ.heapsActualSize = 0 then { σ with heapsActualSize := heapsSize } else σ
  if σ.activeHeap < σ.heapsActualSize ∧ σ.activeHeap = 0 ∧ !(σ.availableHeaps 0).isInit then
    σ.setHeap 0 ((σ.availableHeaps 0).init σ.initialHeap initialHeapSize)
  else σ

/-- `malloc`; `none` is a null pointer. -/
def malloc (size : Nat) (σ : MemoryManager) : Exec (Option Nat × MemoryManager) :=
  if size = 0 then pure (none, σ)
  else do
    let σ := σ.prepare
    let size := adjustToMemBlock size
    let current := if σ.activeHeap < σ.heapsActualSize then some σ.activeHeap else none
    let (buffer, σ) ← mallocLoop size addressPages current σ
    if buffer.isSome then pure (buffer, σ)
    else mallocFreedLoop size σ.activeFreeHeap (heapsSize + 1) σ

/-- The loop of `free` and `realloc` over the initialised heaps, `n` heaps to go. -/
def findHeap (ptr : Nat) (σ : MemoryManager) : Nat → Nat → Option Nat
  | 0, _ => none
  | n + 1, i =>
    if !(σ.availableHeaps i).isInit then none
    else if (σ.availableHeaps i).isInHeap ptr then some i
    else findHeap ptr σ n (i + 1)

/-- `free`. -/
def free (ptr : Option Nat) (σ : MemoryManager) : MemoryManager :=
  match ptr with
  | none => σ
  | some ptr =>
    match σ.findHeap ptr σ.heapsActualSize 0 with
    | none => σ
    | some i => { σ with mem := (σ.availableHeaps i).free ptr σ.mem }

/-- The part of `realloc` that asks the block's heap. -/
def reallocInPlace (ptr : Option Nat) (size : Nat) (σ : MemoryManager) :
    Exec (Option Nat × Nat × MemoryManager) :=
  match ptr with
  | none => pure (none, 0, σ)
  | some ptr =>
    match σ.findHeap ptr σ.heapsActualSize 0 with
    | none => pure (none, 0, σ)
    | some i => do
      let (reallocPtr, origPtrSize, h, m) ← (σ.availableHeaps i).reallocInPlace ptr size σ.mem
      pure (reallocPtr, origPtrSize, { σ.setHeap i h with mem := m })

/-- `realloc`. -/
def realloc (ptr : Option Nat) (size : Nat) (σ : MemoryManager) :
    Exec (Option Nat × MemoryManager) :=
  if size = 0 then pure (none, σ.free ptr)
  else do
    let size := adjustToMemBlock size
    let (reallocPtr, origPtrSize, σ) ← σ.reallocInPlace ptr size
    if reallocPtr.isSome then pure (reallocPtr, σ)
    else do
      let (newAlloc, σ) ← σ.malloc size
      match newAlloc with
      | none => pure (none, σ)
      | some newAlloc =>
        let copySize := if size < origPtrSize then size else origPtrSize
        if 0 < copySize then
          let σ := { σ with mem := copy newAlloc (ptr.getD 0) copySize σ.mem }
          pure (some newAlloc, σ.free ptr)
        else pure (some newAlloc, σ)

/-- The manager when the program starts, with its static data below the pages it starts with. -/
def start (initialHeap currentMemory : Nat) : MemoryManager where
  mem _ := 0
  initialHeap := initialHeap
  availableHeaps _ := ⟨0, 0, 0⟩
  heapsActualSize := 0
  activeHeap := 0
  activeFreeHeap := 0
  currentMemory := currentMemory
  initialized := false
  sbrkBytes := 0

end MemoryManager

end Wasmlib
