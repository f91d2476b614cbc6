import WasmCdt.Core.Calloc

/-!
# A machine that may refuse to grow

`sbrk` asks the machine for pages, and here the machine answers: `grow k` is its answer to request `k`.
The size of the memory is a `size_t` too, and a header that is not within the pages of the program ends
it. Otherwise `malloc`, `realloc` and `calloc` are those of the memory manager.
-/

namespace Wasmlib

open MemoryManager (pageSize addressPages heapAdj)

/-- A program, and the number of its requests for pages. -/
structure Guest extends World where
  requests : Nat

namespace Guest

/-- `reinterpret_cast<void*>(-1)`. -/
def refusal : Nat := 2 ^ 32 - 1

/-- A load or a store is not within the memory. -/
def outOfBounds : Stop := .abort "out of bounds memory access"

def start (initialHeap currentMemory : Nat) : Guest := ⟨.start initialHeap currentMemory, 0⟩

/-- The static variables of `sbrk`, on its first call. -/
def initSbrk (σ : MemoryManager) : MemoryManager :=
  if σ.initialized then σ
  else { σ with sbrkBytes := σ.currentMemory * pageSize % 2 ^ 32, initialized := true }

/-- `sbrk`. The pages that it needs are counted from a sum that may wrap. -/
def sbrk (grow : Nat → Bool) (numBytes : Nat) (s : Guest) : Nat × Guest :=
  let σ := initSbrk s.manager
  if 2 ^ 31 - 1 < numBytes then (refusal, { s with manager := σ })
  else
    let prevNumBytes := σ.sbrkBytes
    let numBytes := (numBytes + 7) / 8 * 8
    let numDesiredPages := addSize (addSize σ.sbrkBytes numBytes) (pageSize - 1) / pageSize
    let sbrkBytes := addSize σ.sbrkBytes numBytes
    if σ.currentMemory < numDesiredPages then
      if grow s.requests then
        (prevNumBytes,
          { s with
            manager := { σ with currentMemory := numDesiredPages, sbrkBytes := sbrkBytes }
            requests := s.requests + 1 })
      else (refusal, { s with manager := σ, requests := s.requests + 1 })
    else (prevNumBytes, { s with manager := { σ with sbrkBytes := sbrkBytes } })

/-- A header at `a` is within the memory. -/
def InBounds (a : Nat) (s : Guest) : Prop := a + sizeMarker ≤ s.manager.currentMemory * pageSize

instance (a : Nat) (s : Guest) : Decidable (s.InBounds a) := inferInstanceAs (Decidable (_ ≤ _))

/-- `cleanup_remaining` of the active heap. -/
def cleanupRemaining (s : Guest) : Exec Guest :=
  let current := s.manager.availableHeaps s.manager.activeHeap
  if current.offset ≠ current.heapSize ∧ ¬s.InBounds (addSize current.heap current.offset) then
    .error outOfBounds
  else
    let (current, m) := current.cleanupRemaining s.manager.mem
    pure { s with manager := { s.manager.setHeap s.manager.activeHeap current with mem := m } }

/-- `next_active_heap` with memory that it takes for its own. -/
def useMemory (newMemoryStart adj : Nat) (s : Guest) : Exec (Option Nat × Guest) :=
  let active := s.manager.activeHeap
  match (s.manager.availableHeaps active).expandMemory newMemoryStart adj with
  | some current => pure (some active, { s with manager := s.manager.setHeap active current })
  | none => do
    let s ← s.cleanupRemaining
    let next := (s.manager.availableHeaps (active + 1)).init newMemoryStart adj
    pure (some (active + 1), { s with
      manager := { s.manager.setHeap (active + 1) next with activeHeap := active + 1 } })

/-- `next_active_heap`. -/
def nextActiveHeap (grow : Nat → Bool) (s : Guest) : Exec (Option Nat × Guest) :=
  let currentMemorySize := s.sbrk grow 0
  let s := currentMemorySize.2
  -- neither a `size_t` nor a pointer is negative as an `int64_t`
  if (currentMemorySize.1 : Int) < 0 then pure (none, s)
  else
    let adj := heapAdj currentMemorySize.1
    let newMemoryStart := s.sbrk grow adj
    let s := newMemoryStart.2
    if (newMemoryStart.1 : Int) = -1 then do
      let active := s.manager.activeHeap
      let s ← s.cleanupRemaining
      pure (none, { s with
        manager := { s.manager with activeHeap := active + 1, heapsActualSize := active + 1 } })
    else s.useMemory newMemoryStart.1 adj

/-- The `while` loop of `malloc`. -/
def mallocLoop (grow : Nat → Bool) (size : Nat) :
    Nat → Option Nat → Guest → Exec (Option Nat × Guest)
  | _, none, s => pure (none, s)
  | 0, some _, _ => .error .fault
  | n + 1, some current, s =>
    let heap := s.manager.availableHeaps current
    match heap.malloc size s.manager.mem with
    | (some buffer, h, m) =>
      if s.InBounds (addSize heap.heap heap.offset) then
        pure (some buffer, { s with manager := { s.manager.setHeap current h with mem := m } })
      else .error outOfBounds
    | (none, _, _) => do
      let (current, s) ← s.nextActiveHeap grow
      mallocLoop grow size n current s

/-- What `malloc` prepares on its first call. -/
def prepare (s : Guest) : Guest := { s with manager := s.manager.prepare }

/-- `malloc`. -/
def malloc (grow : Nat → Bool) (size : Nat) (s : Guest) : Exec (Option Nat × Guest) :=
  if size = 0 then pure (none, s)
  else do
    let s := s.prepare
    let size := adjustToMemBlock size
    let current :=
      if s.manager.activeHeap < s.manager.heapsActualSize then some s.manager.activeHeap else none
    let (buffer, s) ← mallocLoop grow size addressPages current s
    if buffer.isSome then pure (buffer, s)
    else do
      let (buffer, σ) ←
        s.manager.mallocFreedLoop size s.manager.activeFreeHeap (heapsSize + 1)
      pure (buffer, { s with manager := σ })

/-- `realloc`. -/
def realloc (grow : Nat → Bool) (ptr : Option Nat) (size : Nat) (s : Guest) :
    Exec (Option Nat × Guest) :=
  if size = 0 then pure (none, { s with manager := s.manager.free ptr })
  else do
    let size := adjustToMemBlock size
    let (reallocPtr, origPtrSize, σ) ← s.manager.reallocInPlace ptr size
    let s := { s with manager := σ }
    if reallocPtr.isSome then pure (reallocPtr, s)
    else do
      let (newAlloc, s) ← s.malloc grow size
      match newAlloc with
      | none => pure (none, s)
      | some newAlloc =>
        let copySize := if size < origPtrSize then size else origPtrSize
        if 0 < copySize then
          let σ := { s.manager with mem := ByteMem.copy newAlloc (ptr.getD 0) copySize s.manager.mem }
          pure (some newAlloc, { s with manager := σ.free ptr })
        else pure (some newAlloc, s)

/-- `calloc`. -/
def calloc (grow : Nat → Bool) (count size : Nat) (s : Guest) : Exec (Option Nat × Guest) := do
  let n := count * size % 2 ^ 32
  let (ptr, s) ← s.malloc grow n
  pure (ptr, { s with
    manager := { s.manager with mem := Dsmalloc.zero (ptr.getD 0) n s.manager.mem } })

def step (grow : Nat → Bool) (s : Guest) : AllocCall → Exec Guest
  | .call (.malloc size) => do
    let (buffer, s) ← s.malloc grow size
    pure { s with live := (buffer.map fun ptr => ⟨ptr, adjustToMemBlock size⟩).toList ++ s.live }
  | .call (.free ptr) =>
    pure { s with manager := s.manager.free ptr, live := World.without ptr s.live }
  | .call (.realloc ptr size) => do
    let (buffer, s) ← s.realloc grow ptr size
    match buffer with
    | some new => pure { s with live := ⟨new, adjustToMemBlock size⟩ :: World.without ptr s.live }
    | none => pure { s with live := if size = 0 then World.without ptr s.live else s.live }
  | .call (.write ptr i v) =>
    pure { s with manager.mem := ByteMem.store8 (ptr + i) v s.manager.mem }
  | .calloc count size => do
    let (buffer, s) ← s.calloc grow count size
    pure { s with
      live := (buffer.map fun ptr => ⟨ptr, adjustToMemBlock (count * size)⟩).toList ++ s.live }

def run (grow : Nat → Bool) (calls : List AllocCall) (s : Guest) : Exec Guest := calls.foldlM (step grow) s

/-- A state of some program. -/
def Reachable (grow : Nat → Bool) (s : Guest) : Prop :=
  ∃ initialHeap currentMemory calls, World.Layout initialHeap currentMemory ∧
    run grow calls (start initialHeap currentMemory) = .ok s

/-! ## A refused request -/

/-- What `sbrk` returns to `next_active_heap` for its pages is the refusal. -/
def Refused (grow : Nat → Bool) (s : Guest) : Prop :=
  ((s.sbrk grow 0).2.sbrk grow (heapAdj (s.sbrk grow 0).1)).1 = refusal

instance (grow : Nat → Bool) (s : Guest) : Decidable (s.Refused grow) :=
  inferInstanceAs (Decidable (_ = refusal))

/-- The loop of `malloc` comes to a request that is refused. -/
inductive LoopRefused (grow : Nat → Bool) (size : Nat) : Nat → Guest → Prop
  | here {current : Nat} {s : Guest} :
      ((s.manager.availableHeaps current).malloc size s.manager.mem).1 = none → s.Refused grow →
      LoopRefused grow size current s
  | later {current next : Nat} {s s' : Guest} :
      ((s.manager.availableHeaps current).malloc size s.manager.mem).1 = none →
      s.nextActiveHeap grow = .ok (some next, s') → LoopRefused grow size next s' →
      LoopRefused grow size current s

/-- A request that a call of `malloc` makes is refused. -/
def MallocRefused (grow : Nat → Bool) (size : Nat) (s : Guest) : Prop :=
  size ≠ 0 ∧ s.prepare.manager.activeHeap < s.prepare.manager.heapsActualSize ∧
    LoopRefused grow (adjustToMemBlock size) s.prepare.manager.activeHeap s.prepare

/-- A call of `malloc` reports what the machine refuses: it returns a null pointer or a block in a heap
within the pages that were granted; no heap is where a refusal points, the index is one of the array,
and the program's blocks are as they were. -/
def Reports (grow : Nat → Bool) (size : Nat) (s : Guest) : Prop :=
  ∃ r s', s.malloc grow size = .ok (r, s') ∧
    (∀ p ∈ r, ∃ i < heapsSize, Block.InHeap ⟨p, adjustToMemBlock size⟩ (s'.manager.availableHeaps i) ∧
      (s'.manager.availableHeaps i).heap + (s'.manager.availableHeaps i).heapSize ≤
        s'.manager.currentMemory * pageSize) ∧
    (∀ i, (s'.manager.availableHeaps i).heap ≠ refusal) ∧ s'.manager.activeHeap ≤ heapsSize ∧
    ∀ b ∈ s.live, ∀ k < sizeMarker + b.size,
      s'.manager.mem (b.ptr - sizeMarker + k) = s.manager.mem (b.ptr - sizeMarker + k)

end Guest

end Wasmlib
