import WasmCdt.Core.Growth
import WasmCdt.Core.Proof.Manager

/-!
# A refused request

`sbrk` returns a pointer of 32 bits, and `next_active_heap` looks for `-1` in one of 64: it takes the
refusal for memory. The heap that it makes there has no header within the memory, so that the next use
of it ends the program.

* `Pages`, `Steady`: what `sbrk` and the heaps are like as long as no request was refused.
* `nextActiveHeap_refused`, `nextActiveHeap_granted`: the two outcomes of a request.
* `Reachable.steady`: every program, up to its first refusal.
* `malloc_refused`: **a call of `malloc` for which a request is refused never reports it.**
* `malloc_manager`: where every request is granted, `malloc` is that of the memory manager.
-/

namespace Wasmlib

open ByteMem
open MemoryManager (pageSize addressPages heapAdj)

namespace Guest

/-! ## Pages -/

/-- The pages of the program, up to the last one, are those that `sbrk` has counted. -/
structure Pages (σ : MemoryManager) : Prop where
  lt : σ.currentMemory < addressPages
  counted : σ.initialized = true → ∃ k < addressPages, σ.sbrkBytes = k * pageSize ∧
    (k = σ.currentMemory ∨ σ.currentMemory + 1 = addressPages)

/-- The manager with `c` pages, the last of which `sbrk` has just counted. -/
def taken (c : Nat) (σ : MemoryManager) : MemoryManager :=
  { σ with currentMemory := c, sbrkBytes := addSize σ.sbrkBytes pageSize }

/-- The pages before and after: one more, unless there are no more. -/
def Takes (σ : MemoryManager) (c : Nat) : Prop :=
  c = σ.currentMemory + 1 ∧ c < addressPages ∨ c = σ.currentMemory ∧ σ.currentMemory + 1 = addressPages

section

variable {grow : Nat → Bool} {s s₁ s' : Guest} {σ : MemoryManager} {start c k : Nat}

theorem initialized_initSbrk (σ : MemoryManager) : (initSbrk σ).initialized = true := by
  unfold initSbrk
  split_ifs with hinit
  · exact hinit
  · rfl

theorem currentMemory_initSbrk (σ : MemoryManager) : (initSbrk σ).currentMemory = σ.currentMemory := by
  unfold initSbrk
  split_ifs <;> rfl

theorem Pages.initSbrk (h : Pages σ) : Pages (initSbrk σ) where
  lt := by
    rw [currentMemory_initSbrk]
    exact h.lt
  counted _ := by
    unfold Guest.initSbrk
    split_ifs with hinit
    · exact h.counted hinit
    · have hlt := h.lt
      refine ⟨σ.currentMemory, hlt, ?_, .inl rfl⟩
      simp only [addressPages, pageSize] at hlt ⊢
      omega

/-- The page behind `k` others, in an address space that wraps. -/
def nextPage (k : Nat) : Nat := if k + 1 = addressPages then 0 else k + 1

theorem addSize_page (hk : k < addressPages) : addSize (k * pageSize) pageSize = nextPage k * pageSize := by
  unfold nextPage
  rcases Nat.lt_or_ge (k + 1) addressPages with hlt | hge
  · rw [if_neg (Nat.ne_of_lt hlt)]
    simp only [addressPages, pageSize] at hlt ⊢
    rw [addSize_eq (by omega)]
    omega
  · have hlast : k = addressPages - 1 := by omega
    rw [hlast]
    rfl

theorem nextPage_lt (hk : k < addressPages) : nextPage k < addressPages := by
  unfold nextPage
  split_ifs <;> omega

theorem pages_round (hk : k < addressPages) : addSize (k * pageSize) (pageSize - 1) / pageSize = k := by
  simp only [addressPages, pageSize] at hk ⊢
  rw [addSize_eq (by omega)]
  omega

theorem addSize_assoc (a b c : Nat) : addSize a (addSize b c) = addSize (addSize a b) c := by
  unfold addSize
  omega

theorem page_lt (hk : k < addressPages) : k * pageSize < 2 ^ 32 := by
  simp only [addressPages, pageSize] at hk ⊢
  omega

theorem page_ne_refusal (k : Nat) : k * pageSize ≠ refusal := by
  simp only [pageSize, refusal]
  omega

theorem sbrk_zero (h : Pages s.manager) :
    s.sbrk grow 0 = ((initSbrk s.manager).sbrkBytes, { s with manager := initSbrk s.manager }) := by
  have hp := h.initSbrk
  obtain ⟨k, hk, hbytes, hcounted⟩ := hp.counted (initialized_initSbrk _)
  have hlimit : ¬2 ^ 31 - 1 < 0 := by decide
  have hround : (0 + 7) / 8 * 8 = 0 := rfl
  have hzero : addSize (initSbrk s.manager).sbrkBytes 0 = (initSbrk s.manager).sbrkBytes := by
    have hlt := page_lt hk
    rw [← Nat.add_zero (k * pageSize)] at hlt
    rw [hbytes, addSize_eq hlt, Nat.add_zero]
  have hpages : ¬(initSbrk s.manager).currentMemory <
      addSize (initSbrk s.manager).sbrkBytes (pageSize - 1) / pageSize := by
    rw [hbytes, pages_round hk]
    omega
  simp only [sbrk, hlimit, if_false, hround, hzero, hpages]

theorem sbrk_page (grow : Nat → Bool) (h : Pages s.manager) (hinit : s.manager.initialized = true) :
    (s.manager.currentMemory + 1 < addressPages ∧ grow s.requests = false ∧
      s.sbrk grow pageSize = (refusal, { s with requests := s.requests + 1 })) ∨
    ∃ c r, Takes s.manager c ∧ s.sbrk grow pageSize =
      (s.manager.sbrkBytes, { s with manager := taken c s.manager, requests := r }) := by
  have hself : initSbrk s.manager = s.manager := if_pos hinit
  have hlimit : ¬2 ^ 31 - 1 < pageSize := by decide
  have hround : (pageSize + 7) / 8 * 8 = pageSize := rfl
  obtain ⟨k, hk, hbytes, hcounted⟩ := h.counted hinit
  have hlt := h.lt
  have hdesired : addSize (addSize s.manager.sbrkBytes pageSize) (pageSize - 1) / pageSize =
      nextPage k := by
    rw [hbytes, addSize_page hk, pages_round (nextPage_lt hk)]
  simp only [sbrk, hself, hlimit, if_false, hround, hdesired]
  by_cases hasks : s.manager.currentMemory < nextPage k
  · have hnext : nextPage k = s.manager.currentMemory + 1 ∧ s.manager.currentMemory + 1 < addressPages := by
      unfold nextPage at hasks ⊢
      split_ifs at hasks ⊢ <;> omega
    simp only [hasks, if_true]
    cases hgrow : grow s.requests with
    | true =>
      refine .inr ⟨s.manager.currentMemory + 1, s.requests + 1, .inl ⟨rfl, hnext.2⟩, ?_⟩
      simp only [hnext.1, if_true, taken]
    | false => exact .inl ⟨hnext.2, rfl, by simp only [Bool.false_eq_true, if_false]⟩
  · have hlast : s.manager.currentMemory + 1 = addressPages := by
      unfold nextPage at hasks
      split_ifs at hasks <;> omega
    simp only [hasks, if_false]
    exact .inr ⟨s.manager.currentMemory, s.requests, .inr ⟨rfl, hlast⟩, rfl⟩

theorem Pages.taken (h : Pages σ) (hinit : σ.initialized = true) (hc : Takes σ c) :
    Pages (taken c σ) where
  lt := by
    have hlt := h.lt
    change c < addressPages
    rcases hc with ⟨-, hc⟩ | ⟨rfl, -⟩
    · exact hc
    · exact hlt
  counted _ := by
    obtain ⟨k, hk, hbytes, hcounted⟩ := h.counted hinit
    refine ⟨nextPage k, nextPage_lt hk, by simp only [Guest.taken, hbytes, addSize_page hk], ?_⟩
    change nextPage k = c ∨ c + 1 = addressPages
    unfold nextPage
    rcases hc with ⟨rfl, hc⟩ | ⟨rfl, hlast⟩
    · left
      rw [if_neg (by omega)]
      omega
    · exact .inr hlast

end

/-! ## Heaps -/

/-- No heap ends where a refusal points, the last one ends at the pages that `sbrk` has counted, and the
others wait. -/
structure Steady (σ : MemoryManager) : Prop extends Pages σ where
  actual : σ.heapsActualSize = 0 ∨ σ.heapsActualSize = heapsSize
  ends : ∀ i, (σ.availableHeaps i).heapEnd ≠ refusal
  initial : addSize σ.initialHeap initialHeapSize ≠ refusal
  last : σ.activeHeap = 0 ∨
    σ.activeHeap = 1 ∧ σ.initialized = true ∧ (σ.availableHeaps 1).heapEnd = σ.sbrkBytes
  waiting : ∀ i, σ.activeHeap < i → σ.availableHeaps i = ⟨0, 0, 0⟩

/-- The active heap is where a refusal points. -/
structure Misplaced (σ : MemoryManager) : Prop extends Pages σ where
  active : σ.activeHeap < heapsSize
  heap : σ.availableHeaps σ.activeHeap = ⟨pageSize, refusal, 0⟩

section

variable {grow : Nat → Bool} {s s₁ s' : Guest} {σ : MemoryManager} {start c i j size : Nat} {h h' : Memory}

theorem initSbrk_eq (σ : MemoryManager) : ∃ bytes,
    initSbrk σ = { σ with sbrkBytes := bytes, initialized := true } ∧
    (σ.initialized = true → bytes = σ.sbrkBytes) := by
  unfold initSbrk
  split_ifs with hinit
  · exact ⟨σ.sbrkBytes, by rw [← hinit], fun _ => rfl⟩
  · exact ⟨_, rfl, fun hcon => absurd hcon hinit⟩

theorem Steady.initSbrk (hs : Steady σ) : Steady (initSbrk σ) := by
  have hpages := hs.toPages.initSbrk
  obtain ⟨bytes, heq, hbytes⟩ := initSbrk_eq σ
  rw [heq] at hpages ⊢
  refine { hs with toPages := hpages, last := hs.last.imp_right ?_ }
  rintro ⟨hactive, hinit, hend⟩
  exact ⟨hactive, rfl, by rw [hend, hbytes hinit]⟩

theorem cleanupRemaining_frame (h : Memory) (m : Mem) : (h.cleanupRemaining m).1.heap = h.heap ∧
    (h.cleanupRemaining m).1.heapSize = h.heapSize := by
  unfold Memory.cleanupRemaining
  split_ifs <;> exact ⟨rfl, rfl⟩

theorem malloc_frame (size : Nat) (h : Memory) (m : Mem) : (h.malloc size m).2.1.heap = h.heap ∧
    (h.malloc size m).2.1.heapSize = h.heapSize := by
  simp only [Memory.malloc]
  split_ifs <;> exact ⟨rfl, rfl⟩

/-- A heap that is changed where it is. -/
theorem Steady.setHeap (hs : Steady σ) (hi : i ≤ σ.activeHeap)
    (hheap : h'.heap = (σ.availableHeaps i).heap) (hsize : h'.heapSize = (σ.availableHeaps i).heapSize)
    (m : Mem) : Steady { σ.setHeap i h' with mem := m } := by
  have hend : ∀ j, (Function.update σ.availableHeaps i h' j).heapEnd = (σ.availableHeaps j).heapEnd := by
    intro j
    rcases eq_or_ne j i with rfl | hne
    · rw [Function.update_self, Memory.heapEnd, Memory.heapEnd, hheap, hsize]
    · rw [Function.update_of_ne hne]
  refine { hs with ends := ?_, last := hs.last.imp_right ?_, waiting := ?_ }
  · intro j
    change (Function.update σ.availableHeaps i h' j).heapEnd ≠ refusal
    rw [hend]
    exact hs.ends j
  · rintro ⟨hactive, hinit, hlast⟩
    exact ⟨hactive, hinit, (hend 1).trans hlast⟩
  · intro j hj
    have hj' : σ.activeHeap < j := hj
    exact (Function.update_of_ne (by omega) _ _).trans (hs.waiting j hj)

theorem cleanup_eq (s : Guest) : s.cleanupRemaining = .error outOfBounds ∨
    ∃ h' m, h'.heap = (s.manager.availableHeaps s.manager.activeHeap).heap ∧
      h'.heapSize = (s.manager.availableHeaps s.manager.activeHeap).heapSize ∧
      s.cleanupRemaining =
        .ok { s with manager := { s.manager.setHeap s.manager.activeHeap h' with mem := m } } := by
  have hframe := cleanupRemaining_frame (s.manager.availableHeaps s.manager.activeHeap) s.manager.mem
  simp only [cleanupRemaining]
  split_ifs
  · exact .inl rfl
  · exact .inr ⟨_, _, hframe.1, hframe.2, rfl⟩

theorem heapAdj_page (h : Pages σ) : heapAdj (initSbrk σ).sbrkBytes = pageSize := by
  obtain ⟨k, -, hbytes, -⟩ := h.initSbrk.counted (initialized_initSbrk σ)
  rw [hbytes, ManagerOk.heapAdj_eq]

theorem nextActiveHeap_eq (h : Pages s.manager)
    (hpage : sbrk grow pageSize { s with manager := initSbrk s.manager } = (start, s₁)) :
    s.nextActiveHeap grow = s₁.useMemory start pageSize := by
  have hpos : ∀ n : Nat, ¬(n : Int) < 0 := fun n => by omega
  have hpos' : ∀ n : Nat, ¬(n : Int) = -1 := fun n => by omega
  rw [nextActiveHeap, sbrk_zero h]
  simp only
  rw [if_neg (hpos _), heapAdj_page h, hpage]
  exact if_neg (hpos' _)

theorem refused_iff (h : Pages s.manager) : s.Refused grow ↔
    (sbrk grow pageSize { s with manager := initSbrk s.manager }).1 = refusal := by
  simp only [Refused, sbrk_zero h, heapAdj_page h]

/-- The active heap is left for one at `start`. -/
def leaveFor (start : Nat) (h' : Memory) (m : Mem) (σ : MemoryManager) : MemoryManager :=
  { ({ σ.setHeap σ.activeHeap h' with mem := m } : MemoryManager).setHeap (σ.activeHeap + 1)
      ⟨pageSize, start, 0⟩ with
    activeHeap := σ.activeHeap + 1 }

theorem useMemory_leave (hend : (s.manager.availableHeaps s.manager.activeHeap).heapEnd ≠ start)
    (hwaiting : s.manager.availableHeaps (s.manager.activeHeap + 1) = ⟨0, 0, 0⟩) :
    s.useMemory start pageSize = .error outOfBounds ∨
    ∃ s', s.useMemory start pageSize = .ok (some s'.manager.activeHeap, s') ∧
      ∃ h' m, h'.heap = (s.manager.availableHeaps s.manager.activeHeap).heap ∧
        h'.heapSize = (s.manager.availableHeaps s.manager.activeHeap).heapSize ∧
        s'.manager = leaveFor start h' m s.manager := by
  have hexpand : (s.manager.availableHeaps s.manager.activeHeap).expandMemory start pageSize = none :=
    if_pos hend
  have hne : s.manager.activeHeap + 1 ≠ s.manager.activeHeap := Nat.succ_ne_self _
  rcases cleanup_eq s with hstop | ⟨h', m, hheap, hsize, hok⟩
  · left
    simp only [useMemory, hexpand, hstop, error_bind]
  · refine .inr ⟨{ s with manager := leaveFor start h' m s.manager }, ?_, h', m, hheap, hsize, rfl⟩
    simp only [useMemory, hexpand, hok, ok_bind, MemoryManager.setHeap, Function.update_of_ne hne,
      hwaiting, Memory.init, pure_eq_ok, leaveFor]

/-- **A refusal is taken for memory**, if the active heap can be left. -/
theorem nextActiveHeap_refused (hs : Steady s.manager) (hr : s.Refused grow) :
    s.manager.currentMemory + 1 < addressPages ∧
    (s.nextActiveHeap grow = .error outOfBounds ∨
      ∃ s', s.nextActiveHeap grow = .ok (some s'.manager.activeHeap, s') ∧ Misplaced s'.manager) := by
  have hs₁ := hs.initSbrk
  have hinit := initialized_initSbrk s.manager
  obtain ⟨k, hk, hbytes, -⟩ := hs₁.counted hinit
  rw [refused_iff hs.toPages] at hr
  rcases sbrk_page grow (s := { s with manager := initSbrk s.manager }) hs₁.toPages hinit with
    ⟨hlt, -, hpage⟩ | ⟨c, r, -, hpage⟩
  · refine ⟨by rwa [currentMemory_initSbrk] at hlt, ?_⟩
    rw [nextActiveHeap_eq hs.toPages hpage]
    rcases useMemory_leave (s := { s with manager := initSbrk s.manager, requests := s.requests + 1 })
      (hs₁.ends _) (hs₁.waiting _ (Nat.lt_succ_self _)) with hstop | ⟨s', hok, h', m, hheap, hsize, hs'⟩
    · exact .inl hstop
    · refine .inr ⟨s', hok, ?_⟩
      rw [hs']
      refine { lt := hs₁.lt, counted := hs₁.counted, active := ?_, heap := ?_ }
      · have hlast := hs₁.last
        simp only [heapsSize, leaveFor]
        omega
      · exact Function.update_self _ _ _
  · rw [hpage, hbytes] at hr
    exact absurd hr (page_ne_refusal k)

/-- The active heap takes the page behind it. -/
theorem Steady.expand (hs : Steady σ) (hinit : σ.initialized = true) (hc : Takes σ c)
    (hend : (σ.availableHeaps σ.activeHeap).heapEnd = σ.sbrkBytes) :
    Steady ((taken c σ).setHeap σ.activeHeap { σ.availableHeaps σ.activeHeap with
      heapSize := addSize (σ.availableHeaps σ.activeHeap).heapSize pageSize }) := by
  obtain ⟨k, hk, hbytes, -⟩ := hs.counted hinit
  have hpages := hs.toPages.taken hinit hc
  have hown : Memory.heapEnd { σ.availableHeaps σ.activeHeap with
      heapSize := addSize (σ.availableHeaps σ.activeHeap).heapSize pageSize } =
      addSize σ.sbrkBytes pageSize := by
    rw [← hend, Memory.heapEnd, Memory.heapEnd, addSize_assoc]
  refine { hpages, hs with ends := ?_, last := ?_, waiting := ?_ }
  · intro j
    rcases eq_or_ne j σ.activeHeap with rfl | hne
    · simp only [MemoryManager.setHeap, Function.update_self, hown, hbytes, addSize_page hk]
      exact page_ne_refusal _
    · simp only [MemoryManager.setHeap, taken, Function.update_of_ne hne]
      exact hs.ends j
  · refine hs.last.imp_right ?_
    rintro ⟨hactive, -, -⟩
    refine ⟨hactive, hinit, ?_⟩
    rw [hactive] at hown
    simp only [MemoryManager.setHeap, hactive, Function.update_self, hown, taken]
  · intro j hj
    have hj' : σ.activeHeap < j := hj
    exact (Function.update_of_ne (by omega) _ _).trans (hs.waiting j hj)

/-- The static heap is left for the page. -/
theorem Steady.leave (hs : Steady σ) (hinit : σ.initialized = true) (hc : Takes σ c)
    (hend : (σ.availableHeaps σ.activeHeap).heapEnd ≠ σ.sbrkBytes)
    (hheap : h'.heap = (σ.availableHeaps σ.activeHeap).heap)
    (hsize : h'.heapSize = (σ.availableHeaps σ.activeHeap).heapSize) (m : Mem) :
    Steady (leaveFor σ.sbrkBytes h' m (taken c σ)) := by
  obtain ⟨k, hk, hbytes, -⟩ := hs.counted hinit
  have hpages := hs.toPages.taken hinit hc
  have hzero : σ.activeHeap = 0 := hs.last.resolve_right fun ⟨hone, _, hlast⟩ =>
    hend (by rw [hone, hlast])
  have hown : Memory.heapEnd ⟨pageSize, σ.sbrkBytes, 0⟩ = addSize σ.sbrkBytes pageSize := rfl
  have hleft : h'.heapEnd = (σ.availableHeaps 0).heapEnd := by
    rw [Memory.heapEnd, Memory.heapEnd, hheap, hsize, hzero]
  refine { hpages, hs with ends := ?_, last := .inr ⟨?_, hinit, ?_⟩, waiting := ?_ }
  · intro j
    simp only [leaveFor, MemoryManager.setHeap, taken, hzero]
    rcases eq_or_ne j 1 with rfl | hone
    · rw [Function.update_self, hown, hbytes, addSize_page hk]
      exact page_ne_refusal _
    · rw [Function.update_of_ne hone]
      rcases eq_or_ne j 0 with rfl | hne
      · rw [Function.update_self, hleft]
        exact hs.ends 0
      · rw [Function.update_of_ne hne]
        exact hs.ends j
  · simp only [leaveFor, taken, hzero]
  · simp only [leaveFor, MemoryManager.setHeap, taken, hzero, Nat.zero_add, Function.update_self, hown]
  · intro j hj
    have hj' : σ.activeHeap + 1 < j := hj
    simp only [leaveFor, MemoryManager.setHeap, taken]
    rw [Function.update_of_ne (by omega), Function.update_of_ne (by omega)]
    exact hs.waiting j (by omega)

/-- A page that was granted is the active heap's, or that of the one behind the static heap. -/
theorem nextActiveHeap_granted (hs : Steady s.manager) (hr : ¬s.Refused grow) :
    s.nextActiveHeap grow = .error outOfBounds ∨
    ∃ s', s.nextActiveHeap grow = .ok (some s'.manager.activeHeap, s') ∧ Steady s'.manager ∧
      Takes s.manager s'.manager.currentMemory := by
  have hs₁ := hs.initSbrk
  have hinit := initialized_initSbrk s.manager
  rw [refused_iff hs.toPages] at hr
  rcases sbrk_page grow (s := { s with manager := initSbrk s.manager }) hs₁.toPages hinit with
    ⟨-, -, hpage⟩ | ⟨c, r, hc, hpage⟩
  · rw [hpage] at hr
    exact absurd rfl hr
  · have htakes : Takes s.manager c := by
      simpa only [Takes, currentMemory_initSbrk] using hc
    rw [nextActiveHeap_eq hs.toPages hpage]
    by_cases hend : ((initSbrk s.manager).availableHeaps (initSbrk s.manager).activeHeap).heapEnd =
        (initSbrk s.manager).sbrkBytes
    · have hexpand := hs₁.expand hinit hc hend
      refine .inr ⟨{ s with manager := _, requests := r }, ?_, hexpand, htakes⟩
      have hsome : Memory.expandMemory (initSbrk s.manager).sbrkBytes pageSize
          ((initSbrk s.manager).availableHeaps (initSbrk s.manager).activeHeap) = some _ :=
        if_neg (not_not.2 hend)
      simp only [useMemory, taken, hsome, pure_eq_ok, MemoryManager.setHeap]
    · rcases useMemory_leave (s := { s with manager := taken c (initSbrk s.manager), requests := r })
        hend (hs₁.waiting _ (Nat.lt_succ_self _)) with hstop | ⟨s', hok, h', m, hheap, hsize, hs'⟩
      · exact .inl hstop
      · have hsteady := hs₁.leave hinit hc hend hheap hsize m
        refine .inr ⟨s', hok, ?_, ?_⟩
        · rw [hs']
          exact hsteady
        · rw [hs']
          exact htakes

end

/-! ## The loop of `malloc` -/

section

variable {grow : Nat → Bool} {s s' : Guest} {σ : MemoryManager} {current fuel size : Nat}
  {r : Option Nat} {h' : Memory} {m : Mem}

theorem mallocLoop_none
    (hnone : ((s.manager.availableHeaps current).malloc size s.manager.mem).1 = none) :
    mallocLoop grow size (fuel + 1) (some current) s =
      (do let (current, s) ← s.nextActiveHeap grow; mallocLoop grow size fuel current s) := by
  rw [mallocLoop]
  split
  · rename_i heq
    rw [heq] at hnone
    cases hnone
  · rfl

theorem mallocLoop_some {buffer : Nat}
    (hsome : (s.manager.availableHeaps current).malloc size s.manager.mem = (some buffer, h', m)) :
    mallocLoop grow size (fuel + 1) (some current) s =
      if s.InBounds (addSize (s.manager.availableHeaps current).heap
          (s.manager.availableHeaps current).offset) then
        .ok (some buffer, { s with manager := { s.manager.setHeap current h' with mem := m } })
      else .error outOfBounds := by
  simp only [mallocLoop, hsome, pure_eq_ok]

/-- **No header of a misplaced heap is within the memory.** -/
theorem not_inBounds (hlt : s.manager.currentMemory < addressPages) : ¬s.InBounds (addSize refusal 0) := by
  have hbytes := page_lt hlt
  have hrefusal : addSize refusal 0 = 2 ^ 32 - 1 := rfl
  rw [InBounds, hrefusal, sizeMarker]
  omega

theorem useMemory_misplaced {start : Nat} (hlt : s.manager.currentMemory < addressPages)
    (hheap : s.manager.availableHeaps s.manager.activeHeap = ⟨pageSize, refusal, 0⟩)
    (hstart : start = refusal ∨ ∃ k, start = k * pageSize) :
    s.useMemory start pageSize = .error outOfBounds := by
  have hend : Memory.heapEnd ⟨pageSize, refusal, 0⟩ ≠ start := by
    have heq : Memory.heapEnd ⟨pageSize, refusal, 0⟩ = pageSize - 1 := rfl
    rw [heq]
    rcases hstart with rfl | ⟨k, rfl⟩
    · decide
    · simp only [pageSize]
      omega
  have hexpand : Memory.expandMemory start pageSize ⟨pageSize, refusal, 0⟩ = none := if_pos hend
  have hcleanup : s.cleanupRemaining = .error outOfBounds := by
    simp only [cleanupRemaining, hheap]
    exact if_pos ⟨by decide, not_inBounds hlt⟩
  simp only [useMemory, hheap, hexpand, hcleanup, error_bind]

theorem Misplaced.nextActiveHeap (hm : Misplaced s.manager) :
    s.nextActiveHeap grow = .error outOfBounds := by
  have hpages := hm.toPages.initSbrk
  have hinit := initialized_initSbrk s.manager
  obtain ⟨k, -, hbytes, -⟩ := hpages.counted hinit
  have hheap : (initSbrk s.manager).availableHeaps (initSbrk s.manager).activeHeap =
      ⟨pageSize, refusal, 0⟩ := by
    obtain ⟨bytes, heq, -⟩ := initSbrk_eq s.manager
    rw [heq]
    exact hm.heap
  rcases sbrk_page grow (s := { s with manager := initSbrk s.manager }) hpages hinit with
    ⟨-, -, hpage⟩ | ⟨c, r, hc, hpage⟩
  · rw [nextActiveHeap_eq hm.toPages hpage]
    exact useMemory_misplaced hpages.lt hheap (.inl rfl)
  · rw [nextActiveHeap_eq hm.toPages hpage]
    exact useMemory_misplaced (hpages.taken hinit hc).lt hheap (.inr ⟨k, hbytes⟩)

theorem Misplaced.mallocLoop (hm : Misplaced s.manager) (grow : Nat → Bool) (size fuel : Nat) :
    mallocLoop grow size (fuel + 1) (some s.manager.activeHeap) s = .error outOfBounds := by
  rcases hmalloc : (s.manager.availableHeaps s.manager.activeHeap).malloc size s.manager.mem with
    ⟨_ | buffer, h', m⟩
  · rw [mallocLoop_none (by rw [hmalloc]), hm.nextActiveHeap, error_bind]
  · rw [mallocLoop_some hmalloc, hm.heap, if_neg (not_inBounds hm.lt)]

/-- **A loop that comes to a refused request ends the program.** -/
theorem LoopRefused.traps (hr : LoopRefused grow size current s) : current = s.manager.activeHeap →
    Steady s.manager → s.manager.currentMemory + 1 < addressPages ∧
    ∀ fuel, addressPages ≤ fuel + s.manager.currentMemory →
      mallocLoop grow size fuel (some current) s = .error outOfBounds := by
  have hmisplaced : ∀ {s : Guest} {fuel : Nat},
      ((s.manager.availableHeaps s.manager.activeHeap).malloc size s.manager.mem).1 = none →
      Steady s.manager → s.Refused grow → addressPages ≤ fuel + s.manager.currentMemory →
      mallocLoop grow size fuel (some s.manager.activeHeap) s = .error outOfBounds := by
    intro s fuel hnone hs hrefused hfuel
    obtain ⟨hlt, hnext⟩ := nextActiveHeap_refused hs hrefused
    obtain ⟨n, rfl⟩ : ∃ n, fuel = n + 2 := ⟨fuel - 2, by omega⟩
    rw [mallocLoop_none hnone]
    rcases hnext with hstop | ⟨s', hok, hm⟩
    · rw [hstop, error_bind]
    · rw [hok, ok_bind]
      exact hm.mallocLoop grow size n
  induction hr with
  | here hnone hrefused =>
    rintro rfl hs
    exact ⟨(nextActiveHeap_refused hs hrefused).1, fun fuel => hmisplaced hnone hs hrefused⟩
  | @later current next s s' hnone hnext _ ih =>
    rintro rfl hs
    by_cases hrefused : s.Refused grow
    · exact ⟨(nextActiveHeap_refused hs hrefused).1, fun fuel => hmisplaced hnone hs hrefused⟩
    · rcases nextActiveHeap_granted hs hrefused with hstop | ⟨s₁, hok, hs₁, htakes⟩
      · rw [hstop] at hnext
        cases hnext
      · rw [hok, Except.ok.injEq, Prod.mk.injEq, Option.some.injEq] at hnext
        obtain ⟨rfl, rfl⟩ := hnext
        obtain ⟨hlt, hloop⟩ := ih rfl hs₁
        have hpage : s₁.manager.currentMemory = s.manager.currentMemory + 1 := by
          rcases htakes with ⟨heq, -⟩ | ⟨heq, hlast⟩
          · exact heq
          · omega
        refine ⟨by omega, fun fuel hfuel => ?_⟩
        obtain ⟨n, rfl⟩ : ∃ n, fuel = n + 1 := ⟨fuel - 1, by omega⟩
        rw [mallocLoop_none hnone, hok, ok_bind]
        exact hloop n (by omega)

theorem Steady.mem (hs : Steady σ) (m : Mem) : Steady { σ with mem := m } := { hs with }

/-- The static heap is where the program has it. -/
theorem Steady.initFirst (hs : Steady σ) (hactive : σ.activeHeap = 0) :
    Steady (σ.setHeap 0 ((σ.availableHeaps 0).init σ.initialHeap initialHeapSize)) := by
  refine { hs with ends := ?_, last := .inl hactive, waiting := ?_ }
  · intro j
    rcases eq_or_ne j 0 with rfl | hne
    · simp only [MemoryManager.setHeap, Function.update_self]
      exact hs.initial
    · simp only [MemoryManager.setHeap, Function.update_of_ne hne]
      exact hs.ends j
  · intro j hj
    have hj' : σ.activeHeap < j := hj
    exact (Function.update_of_ne (by omega) _ _).trans (hs.waiting j hj)

theorem Steady.prepare (hs : Steady σ) :
    Steady σ.prepare ∧ σ.prepare.activeHeap < σ.prepare.heapsActualSize := by
  have hle : σ.activeHeap < heapsSize := by
    have hlast := hs.last
    rw [heapsSize]
    omega
  have hs' : Steady { σ with heapsActualSize := heapsSize } := { hs with actual := .inr rfl }
  have hcount : (if σ.heapsActualSize = 0 then { σ with heapsActualSize := heapsSize } else σ) =
      { σ with heapsActualSize := heapsSize } := by
    split_ifs with hzero
    · rfl
    · rw [← hs.actual.resolve_left hzero]
  simp only [MemoryManager.prepare, hcount]
  split_ifs with hfirst
  · exact ⟨hs'.initFirst hfirst.2.1, hle⟩
  · exact ⟨hs', hle⟩

/-- A loop that ends has found room, in heaps that are steady. -/
theorem Steady.mallocLoop : ∀ {fuel : Nat} {s : Guest}, Steady s.manager →
    mallocLoop grow size fuel (some s.manager.activeHeap) s = .ok (r, s') →
    r.isSome = true ∧ Steady s'.manager
  | 0, s, _, hloop => by cases hloop
  | fuel + 1, s, hs, hloop => by
    rcases hmalloc : (s.manager.availableHeaps s.manager.activeHeap).malloc size s.manager.mem with
      ⟨_ | buffer, h', m⟩
    · rw [mallocLoop_none (by rw [hmalloc])] at hloop
      by_cases hrefused : s.Refused grow
      · rcases (nextActiveHeap_refused hs hrefused).2 with hstop | ⟨s₁, hok, hm⟩
        · rw [hstop, error_bind] at hloop
          cases hloop
        · rw [hok, ok_bind] at hloop
          cases fuel with
          | zero => cases hloop
          | succ fuel =>
            cases (hm.mallocLoop grow size fuel).symm.trans hloop
      · rcases nextActiveHeap_granted hs hrefused with hstop | ⟨s₁, hok, hs₁, -⟩
        · rw [hstop, error_bind] at hloop
          cases hloop
        · rw [hok, ok_bind] at hloop
          exact Steady.mallocLoop hs₁ hloop
    · have hframe := malloc_frame size (s.manager.availableHeaps s.manager.activeHeap) s.manager.mem
      rw [hmalloc] at hframe
      rw [mallocLoop_some hmalloc] at hloop
      split_ifs at hloop
      cases hloop
      exact ⟨rfl, hs.setHeap (Nat.le_refl _) hframe.1 hframe.2 m⟩

/-! ## Calls -/

theorem malloc_eq (hs : Steady s.manager) (hsize : size ≠ 0) : s.malloc grow size =
    (do
      let (buffer, s) ← Guest.mallocLoop grow (adjustToMemBlock size) addressPages
        (some s.prepare.manager.activeHeap) s.prepare
      if buffer.isSome then pure (buffer, s)
      else do
        let (buffer, σ) ← s.manager.mallocFreedLoop (adjustToMemBlock size) s.manager.activeFreeHeap
          (heapsSize + 1)
        pure (buffer, { s with manager := σ })) := by
  have hlt : s.prepare.manager.activeHeap < s.prepare.manager.heapsActualSize := hs.prepare.2
  simp only [malloc, hsize, if_false, hlt, if_true]

/-- **A refused request ends the program.** -/
theorem MallocRefused.traps (hs : Steady s.manager) (hr : MallocRefused grow size s) :
    s.malloc grow size = .error outOfBounds := by
  obtain ⟨hsize, -, hloop⟩ := hr
  rw [malloc_eq hs hsize, (hloop.traps rfl hs.prepare.1).2 addressPages (Nat.le_add_right _ _),
    error_bind]

theorem Steady.malloc (hs : Steady s.manager) (hok : s.malloc grow size = .ok (r, s')) :
    Steady s'.manager := by
  rcases eq_or_ne size 0 with rfl | hsize
  · cases hok
    exact hs
  · rw [malloc_eq hs hsize] at hok
    obtain ⟨⟨buffer, s₁⟩, hloop, hrest⟩ := bind_eq_ok hok
    obtain ⟨hsome, hs₁⟩ := Steady.mallocLoop (s := s.prepare) hs.prepare.1 hloop
    simp only [hsome, if_true] at hrest
    cases hrest
    exact hs₁

theorem Steady.free (hs : Steady σ) (ptr : Option Nat) : Steady (σ.free ptr) := by
  unfold MemoryManager.free
  split
  · exact hs
  · split
    · exact hs
    · exact hs.mem _

theorem isInit_findHeap {ptr i n j : Nat} (hfind : σ.findHeap ptr n j = some i) :
    (σ.availableHeaps i).isInit = true := by
  induction n generalizing j with
  | zero => cases hfind
  | succ n ih =>
    unfold MemoryManager.findHeap at hfind
    split_ifs at hfind with hinit hin
    · cases hfind
      simpa using hinit
    · exact ih hfind

theorem reallocInPlace_frame {h : Memory} {ptr n : Nat} {m' : Mem}
    (hok : h.reallocInPlace ptr size m = .ok (r, n, h', m')) :
    h'.heap = h.heap ∧ h'.heapSize = h.heapSize := by
  simp only [Memory.reallocInPlace] at hok
  split_ifs at hok
  · cases hok
    exact ⟨rfl, rfl⟩
  · cases hok
    exact ⟨rfl, rfl⟩
  · cases hok
    exact ⟨rfl, rfl⟩
  · cases hok
    exact ⟨rfl, rfl⟩
  · cases hok
    exact ⟨rfl, rfl⟩
  · obtain ⟨⟨merged, origBuffer, m₁⟩, -, hrest⟩ := bind_eq_ok hok
    simp only at hrest
    split_ifs at hrest <;> cases hrest <;> exact ⟨rfl, rfl⟩

theorem Steady.reallocInPlace (hs : Steady σ) {ptr : Option Nat} {n : Nat} {σ' : MemoryManager}
    (hok : σ.reallocInPlace ptr size = .ok (r, n, σ')) : Steady σ' := by
  unfold MemoryManager.reallocInPlace at hok
  split at hok
  · cases hok
    exact hs
  · split at hok
    · cases hok
      exact hs
    · rename_i i hfind
      obtain ⟨⟨r₁, n₁, h', m'⟩, hplace, hrest⟩ := bind_eq_ok hok
      cases hrest
      obtain ⟨hheap, hsize⟩ := reallocInPlace_frame hplace
      have hi : i ≤ σ.activeHeap := by
        by_contra hlt
        have hinit := isInit_findHeap hfind
        rw [hs.waiting i (by omega)] at hinit
        cases hinit
      exact hs.setHeap hi hheap hsize m'

theorem Steady.realloc (hs : Steady s.manager) {ptr : Option Nat}
    (hok : s.realloc grow ptr size = .ok (r, s')) : Steady s'.manager := by
  simp only [Guest.realloc] at hok
  split_ifs at hok
  · cases hok
    exact hs.free ptr
  · obtain ⟨⟨r₁, n, σ⟩, hplace, hrest⟩ := bind_eq_ok hok
    have hs₁ := hs.reallocInPlace hplace
    by_cases hsome : r₁.isSome = true
    · simp only [hsome, if_true] at hrest
      cases hrest
      exact hs₁
    · simp only [hsome, Bool.false_eq_true, if_false] at hrest
      obtain ⟨⟨new, s₂⟩, hmalloc, hrest⟩ := bind_eq_ok hrest
      have hs₂ : Steady s₂.manager := Steady.malloc (s := { s with manager := σ }) hs₁ hmalloc
      cases new with
      | none =>
        cases hrest
        exact hs₂
      | some new =>
        by_cases hcopy : 0 < if adjustToMemBlock size < n then adjustToMemBlock size else n
        · simp only [hcopy, if_true] at hrest
          cases hrest
          exact (hs₂.mem _).free ptr
        · simp only [hcopy, if_false] at hrest
          cases hrest
          exact hs₂

theorem Steady.calloc (hs : Steady s.manager) {count : Nat}
    (hok : s.calloc grow count size = .ok (r, s')) : Steady s'.manager := by
  obtain ⟨⟨ptr, s₁⟩, hmalloc, hrest⟩ := bind_eq_ok hok
  cases hrest
  exact (hs.malloc hmalloc).mem _

/-- **One call** of a program, which no refusal has ended. -/
theorem Steady.step (hs : Steady s.manager) : ∀ {call : AllocCall}, s.step grow call = .ok s' →
    Steady s'.manager
  | .call (.malloc size), hok => by
    obtain ⟨⟨buffer, s₁⟩, hmalloc, hrest⟩ := bind_eq_ok hok
    have hs₁ := hs.malloc hmalloc
    cases hrest
    exact hs₁
  | .call (.free ptr), hok => by
    cases hok
    exact hs.free ptr
  | .call (.realloc ptr size), hok => by
    obtain ⟨⟨buffer, s₁⟩, hrealloc, hrest⟩ := bind_eq_ok hok
    have hs₁ := hs.realloc hrealloc
    cases buffer with
    | none =>
      cases hrest
      exact hs₁
    | some new =>
      cases hrest
      exact hs₁
  | .call (.write ptr i v), hok => by
    cases hok
    exact hs.mem _
  | .calloc count size, hok => by
    obtain ⟨⟨buffer, s₁⟩, hcalloc, hrest⟩ := bind_eq_ok hok
    have hs₁ := hs.calloc hcalloc
    cases hrest
    exact hs₁

theorem Steady.run {calls : List AllocCall} (hs : Steady s.manager)
    (hok : run grow calls s = .ok s') : Steady s'.manager := by
  induction calls generalizing s with
  | nil =>
    cases hok
    exact hs
  | cons call calls ih =>
    obtain ⟨s₁, hstep, hrest⟩ := bind_eq_ok hok
    exact ih (hs.step hstep) hrest

theorem Steady.start {initialHeap currentMemory : Nat}
    (h : World.Layout initialHeap currentMemory) :
    Steady (start initialHeap currentMemory).manager where
  lt := by
    have hlt := h.pages_lt
    change currentMemory < addressPages
    simp only [addressPages, pageSize] at hlt ⊢
    omega
  counted hinit := by cases hinit
  actual := .inl rfl
  ends _ := by
    change addSize 0 0 ≠ refusal
    decide
  initial := by
    have hle := h.heap_le
    have hlt := h.pages_lt
    change addSize initialHeap initialHeapSize ≠ refusal
    rw [addSize_eq (by omega), refusal]
    simp only [pageSize] at hle hlt
    omega
  last := .inl rfl
  waiting _ _ := rfl

/-- **The state of every program is steady**, and the index of its heap is 0 or 1. -/
theorem Reachable.steady (hs : Reachable grow s) : Steady s.manager ∧ s.manager.activeHeap ≤ 1 := by
  obtain ⟨initialHeap, currentMemory, calls, hlayout, hrun⟩ := hs
  have hsteady := (Steady.start hlayout).run hrun
  have hlast := hsteady.last
  exact ⟨hsteady, by omega⟩

/-- **A refused request is never reported**, in whatever state of a program, and however often requests
were granted before. -/
theorem malloc_refused (hs : Reachable grow s) (hr : MallocRefused grow size s) :
    ¬s.Reports grow size := by
  rintro ⟨r, s', hok, -⟩
  rw [hr.traps hs.steady.1] at hok
  cases hok

theorem malloc_refused_sample : ¬(start 1024 1).Reports (fun _ => false) 8192 :=
  malloc_refused ⟨1024, 1, [], ⟨by decide, by decide, by decide⟩, rfl⟩
    ⟨by decide, by decide, .here (by decide) (by decide +kernel)⟩

/-- The first request of a program: the heap that is made for it is where the refusal points. -/
theorem refusal_taken_for_memory :
    Reachable (fun _ => false) (start 1024 1) ∧ MallocRefused (fun _ => false) 8192 (start 1024 1) ∧
    ¬(start 1024 1).Reports (fun _ => false) 8192 ∧
    ((start 1024 1).prepare.nextActiveHeap fun _ => false).toOption.map (fun r =>
      (r.1, r.2.manager.availableHeaps 1)) = some (some 1, ⟨pageSize, refusal, 0⟩) := by
  have hreach : Reachable (fun _ => false) (start 1024 1) :=
    ⟨1024, 1, [], ⟨by decide, by decide, by decide⟩, rfl⟩
  have hrefused : MallocRefused (fun _ => false) 8192 (start 1024 1) :=
    ⟨by decide, by decide, .here (by decide) (by decide +kernel)⟩
  refine ⟨hreach, hrefused, ?_, by decide +kernel⟩
  rintro ⟨r, s', hok, -⟩
  rw [hrefused.traps hreach.steady.1] at hok
  cases hok

end

/-! ## Where every request is granted -/

section

variable {grow : Nat → Bool} {s : Guest} {σ σ' : MemoryManager} {ts : Nat → List Tile} {i size : Nat}
  {r : Option Nat}

theorem Pages.of_managerOk (hσ : ManagerOk σ ts) : Pages σ where
  lt := by
    have hlt := hσ.pages_lt
    simp only [addressPages, pageSize] at hlt ⊢
    omega
  counted hinit := by
    have hlt := hσ.pages_lt
    refine ⟨σ.currentMemory, ?_, hσ.sbrk hinit, .inl rfl⟩
    simp only [addressPages, pageSize] at hlt ⊢
    omega

theorem initSbrk_ready (hσ : ManagerOk σ ts) : initSbrk σ = ManagerOk.ready σ := by
  unfold initSbrk ManagerOk.ready
  split_ifs with hinit
  · rw [← hσ.sbrk hinit, ← hinit]
  · rw [Nat.mod_eq_of_lt hσ.pages_lt]

theorem taken_paged (hlt : (σ.currentMemory + 1) * pageSize < 2 ^ 32) :
    taken (σ.currentMemory + 1) (ManagerOk.ready σ) = ManagerOk.paged σ := by
  have hsucc := ManagerOk.page_succ σ.currentMemory
  simp only [taken, ManagerOk.ready, ManagerOk.paged]
  rw [addSize_eq (by omega), hsucc]

/-- What is left of a heap has its header within the memory. -/
theorem inBounds_rest (hσ : ManagerOk s.manager ts) (hi : i ≤ s.manager.activeHeap)
    (hrest : (s.manager.availableHeaps i).offset ≠ (s.manager.availableHeaps i).heapSize) :
    s.InBounds (addSize (s.manager.availableHeaps i).heap (s.manager.availableHeaps i).offset) := by
  have hheap := hσ.heaps i hi
  have hbelow := hσ.below i hi
  have hle := hheap.offset_le
  have hmod := hheap.offset_mod
  have hmod' := hheap.size_mod
  have hbound := hheap.bound
  rw [InBounds, addSize_eq (by omega), sizeMarker]
  omega

/-- What the memory manager does with memory that it takes for its own. -/
theorem useMemory_manager {start adj : Nat}
    (hin : (s.manager.availableHeaps s.manager.activeHeap).offset ≠
        (s.manager.availableHeaps s.manager.activeHeap).heapSize →
      s.InBounds (addSize (s.manager.availableHeaps s.manager.activeHeap).heap
        (s.manager.availableHeaps s.manager.activeHeap).offset))
    (hok : (match (s.manager.availableHeaps s.manager.activeHeap).expandMemory start adj with
      | some current =>
        pure (some s.manager.activeHeap, s.manager.setHeap s.manager.activeHeap current)
      | none =>
        let (current, m) :=
          (s.manager.availableHeaps s.manager.activeHeap).cleanupRemaining s.manager.mem
        let σ := { s.manager.setHeap s.manager.activeHeap current with mem := m }
        let next := (σ.availableHeaps (s.manager.activeHeap + 1)).init start adj
        pure (some (s.manager.activeHeap + 1),
          { σ.setHeap (s.manager.activeHeap + 1) next with
            activeHeap := s.manager.activeHeap + 1 }) : Exec (Option Nat × MemoryManager)) = .ok (r, σ')) :
    ∃ s', s.useMemory start adj = .ok (r, s') ∧ s'.manager = σ' ∧ s'.live = s.live := by
  simp only [useMemory]
  cases hexpand : (s.manager.availableHeaps s.manager.activeHeap).expandMemory start adj with
  | some h =>
    simp only [hexpand] at hok ⊢
    cases hok
    exact ⟨{ s with manager := _ }, rfl, rfl, rfl⟩
  | none =>
    have hcleanup : s.cleanupRemaining = .ok { s with manager :=
        { s.manager.setHeap s.manager.activeHeap
            ((s.manager.availableHeaps s.manager.activeHeap).cleanupRemaining s.manager.mem).1 with
          mem := ((s.manager.availableHeaps s.manager.activeHeap).cleanupRemaining s.manager.mem).2 } } :=
      if_neg fun hout => hout.2 (hin hout.1)
    simp only [hexpand] at hok ⊢
    cases hok
    rw [hcleanup, ok_bind]
    exact ⟨{ s with manager := _ }, rfl, rfl, rfl⟩

/-- `next_active_heap` is that of the memory manager. -/
theorem nextActiveHeap_manager (hgrow : ∀ k, grow k = true) (hσ : ManagerOk s.manager ts)
    (hok : s.manager.nextActiveHeap = .ok (r, σ')) :
    ∃ s', s.nextActiveHeap grow = .ok (r, s') ∧ s'.manager = σ' ∧ s'.live = s.live := by
  have hpages := Pages.of_managerOk hσ
  have hpos : ∀ n : Nat, ¬(n : Int) = -1 := fun n => by omega
  rcases ManagerOk.sbrk_page s.manager with hstop | ⟨hlt, hpage⟩
  · simp only [MemoryManager.nextActiveHeap, hσ.sbrk_zero, ok_bind, ManagerOk.heapAdj_eq, hstop,
      error_bind] at hok
    cases hok
  · simp only [MemoryManager.nextActiveHeap, hσ.sbrk_zero, ok_bind, ManagerOk.heapAdj_eq, hpage, hpos,
      if_false] at hok
    have hready : Pages (ManagerOk.ready s.manager) := initSbrk_ready hσ ▸ hpages.initSbrk
    rcases sbrk_page grow (s := { s with manager := ManagerOk.ready s.manager }) hready rfl with
      ⟨-, hfalse, -⟩ | ⟨c, n, hc, hnew⟩
    · rw [hgrow] at hfalse
      cases hfalse
    · obtain rfl : c = s.manager.currentMemory + 1 := by
        have hc' : Takes s.manager c := hc
        simp only [Takes, addressPages, pageSize] at hc' hlt
        omega
      have hpaged : taken (s.manager.currentMemory + 1) (ManagerOk.ready s.manager) =
          ManagerOk.paged s.manager := taken_paged hlt
      simp only [hpaged] at hnew
      rw [← initSbrk_ready hσ] at hnew
      rw [nextActiveHeap_eq hpages hnew, initSbrk_ready hσ]
      refine useMemory_manager (s := { s with manager := ManagerOk.paged s.manager, requests := n })
        (fun hrest => ?_) hok
      have hin := inBounds_rest hσ (Nat.le_refl _) hrest
      have hsucc := ManagerOk.page_succ s.manager.currentMemory
      simp only [InBounds, ManagerOk.paged] at hin ⊢
      omega

/-- **The loop of `malloc` is that of the memory manager.** -/
theorem mallocLoop_manager (hgrow : ∀ k, grow k = true) : ∀ {n : Nat} {s : Guest} {ts : Nat → List Tile},
    ManagerOk s.manager ts → ManagerOk.Fits s.manager size →
    MemoryManager.mallocLoop size n (some s.manager.activeHeap) s.manager = .ok (r, σ') →
    ∃ s', mallocLoop grow size n (some s.manager.activeHeap) s = .ok (r, s') ∧ s'.manager = σ' ∧
      s'.live = s.live
  | 0, s, ts, _, _, hloop => by cases hloop
  | n + 1, s, ts, hσ, hfits, hloop => by
    have hheap := hσ.heaps s.manager.activeHeap (Nat.le_refl _)
    rw [MemoryManager.mallocLoop] at hloop
    rcases hheap.malloc hfits.block hfits.end_lt with ⟨-, hnone⟩ | ⟨m', hsome, hch⟩
    · simp only [hnone] at hloop
      obtain ⟨⟨c, σ₁⟩, hnext, hrest⟩ := bind_eq_ok hloop
      obtain ⟨s₁, hnext', rfl, hlive⟩ := nextActiveHeap_manager hgrow hσ hnext
      rcases hσ.nextActiveHeap with hstop | ⟨σ₂, ts₂, hnext₂, hev, -, hoff, -⟩
      · rw [hstop] at hnext
        cases hnext
      · rw [hnext₂, Except.ok.injEq, Prod.mk.injEq] at hnext
        obtain ⟨rfl, rfl⟩ := hnext
        have hfits₁ : ManagerOk.Fits s₁.manager size :=
          ⟨hfits.block, by have hend := hfits.end_lt; omega⟩
        obtain ⟨s', hloop', hmanager, hlive'⟩ := mallocLoop_manager hgrow hev.ok hfits₁ hrest
        refine ⟨s', ?_, hmanager, hlive'.trans hlive⟩
        rw [mallocLoop_none (by rw [hnone]), hnext', ok_bind]
        exact hloop'
    · have hroom := hch.ok.offset_le
      have hmod := hfits.block.mod
      have hin := inBounds_rest hσ (Nat.le_refl _) (by simp only at hroom; omega)
      simp only [hsome] at hloop
      cases hloop
      refine ⟨{ s with manager := _ }, ?_, rfl, rfl⟩
      rw [mallocLoop_some hsome, if_pos hin]

/-- **Where every request is granted, `malloc` is that of the memory manager.** -/
theorem malloc_manager (hgrow : ∀ k, grow k = true) (hσ : ManagerOk s.manager.prepare ts)
    (hsize : size ≠ 0) (hfits : ManagerOk.Fits s.manager.prepare (adjustToMemBlock size))
    (hok : s.manager.malloc size = .ok (r, σ')) :
    ∃ s', s.malloc grow size = .ok (r, s') ∧ s'.manager = σ' ∧ s'.live = s.live := by
  have hactive : s.manager.prepare.activeHeap < s.manager.prepare.heapsActualSize := by
    rw [hσ.actual]
    exact Nat.lt_of_le_of_lt hσ.active (by decide)
  have hactive' : s.prepare.manager.activeHeap < s.prepare.manager.heapsActualSize := hactive
  simp only [MemoryManager.malloc, hsize, if_false, hactive, if_true] at hok
  obtain ⟨⟨buffer, σ₁⟩, hloop, hrest⟩ := bind_eq_ok hok
  obtain ⟨s₁, hloop', rfl, hlive⟩ := mallocLoop_manager hgrow (s := s.prepare) hσ hfits hloop
  simp only [malloc, hsize, if_false, hactive', if_true, hloop', ok_bind]
  by_cases hsome : buffer.isSome = true
  · simp only [hsome, if_true] at hrest ⊢
    cases hrest
    exact ⟨s₁, rfl, rfl, hlive⟩
  · simp only [hsome, Bool.false_eq_true, if_false] at hrest ⊢
    simp only [hrest, ok_bind]
    exact ⟨_, rfl, rfl, hlive⟩

end

end Guest

end Wasmlib
