import WasmCdt.Core.Proof.MallocHeap

/-!
# The manager's heaps

At most two heaps are in use: the static one, and one that grows with `sbrk` for as long as nothing
else calls it. Every operation of the manager changes one heap, and the others do not notice.

* `ManagerOk.exchange`: a change of one heap is a change of the manager.
* `ManagerOk.nextActiveHeap`, `mallocLoop_spec`: `malloc` finds room, or runs out of pages.
* `malloc_spec`, `ManagerOk.free`, `ManagerOk.reallocInPlace`, `ManagerOk.realloc`.
-/

namespace Wasmlib

open ByteMem

/-- The heaps below the active one are tiled, apart and below the pages in use; the others wait. -/
structure ManagerOk (σ : MemoryManager) (ts : Nat → List Tile) : Prop where
  actual : σ.heapsActualSize = heapsSize
  active : σ.activeHeap ≤ 1
  heaps : ∀ i ≤ σ.activeHeap, HeapOk (σ.availableHeaps i) σ.mem (ts i)
  waiting : ∀ i, σ.activeHeap < i → σ.availableHeaps i = ⟨0, 0, 0⟩
  below : ∀ i ≤ σ.activeHeap, (σ.availableHeaps i).heap + (σ.availableHeaps i).heapSize ≤
    σ.currentMemory * MemoryManager.pageSize
  apart : σ.activeHeap = 1 → (σ.availableHeaps 0).heap + (σ.availableHeaps 0).heapSize ≤
    (σ.availableHeaps 1).heap
  /-- A heap that is not static ends where the next page starts. -/
  last : (σ.activeHeap = 0 ∧ (σ.availableHeaps 0).heapSize = initialHeapSize) ∨
    (σ.availableHeaps σ.activeHeap).heap + (σ.availableHeaps σ.activeHeap).heapSize =
      σ.currentMemory * MemoryManager.pageSize
  pages_lt : σ.currentMemory * MemoryManager.pageSize < 2 ^ 32
  sbrk : σ.initialized = true → σ.sbrkBytes = σ.currentMemory * MemoryManager.pageSize

/-- Some heap has an allocated tile with room for `size` bytes at `ptr`. -/
def Holds (σ : MemoryManager) (ts : Nat → List Tile) (ptr size : Nat) : Prop :=
  ∃ i ≤ σ.activeHeap, Occupied (ts i) ptr size

/-- The manager before and after: every block stays, but for the one at `ptr`. -/
structure Evolves (σ : MemoryManager) (ts : Nat → List Tile) (ptr : Option Nat)
    (σ' : MemoryManager) (ts' : Nat → List Tile) : Prop where
  ok : ManagerOk σ' ts'
  keeps : ∀ {p size}, some p ≠ ptr → Holds σ ts p size → Holds σ' ts' p size

/-- And every block keeps its bytes. -/
structure Carries (σ : MemoryManager) (ts : Nat → List Tile) (ptr : Option Nat)
    (σ' : MemoryManager) (ts' : Nat → List Tile) : Prop extends Evolves σ ts ptr σ' ts' where
  bytes : ∀ {p size}, some p ≠ ptr → Holds σ ts p size → ∀ i < size, σ'.mem (p + i) = σ.mem (p + i)

theorem Evolves.trans {σ σ' σ'' : MemoryManager} {ts ts' ts'' : Nat → List Tile} {ptr : Option Nat}
    (h : Evolves σ ts none σ' ts') (h' : Evolves σ' ts' ptr σ'' ts'') :
    Evolves σ ts ptr σ'' ts'' :=
  ⟨h'.ok, fun hne hholds => h'.keeps hne (h.keeps (by simp) hholds)⟩

theorem Carries.trans {σ σ' σ'' : MemoryManager} {ts ts' ts'' : Nat → List Tile} {ptr : Option Nat}
    (h : Carries σ ts none σ' ts') (h' : Carries σ' ts' ptr σ'' ts'') :
    Carries σ ts ptr σ'' ts'' where
  __ := h.toEvolves.trans h'.toEvolves
  bytes hne hholds i hi := (h'.bytes hne (h.keeps (by simp) hholds) i hi).trans
    (h.bytes (by simp) hholds i hi)

/-- A pointer that no block had before. -/
def Fresh (σ : MemoryManager) (ts : Nat → List Tile) (ptr : Nat) : Prop :=
  ∀ size, ¬Holds σ ts ptr size

theorem Evolves.fresh {σ σ' : MemoryManager} {ts ts' : Nat → List Tile} {ptr : Nat}
    (h : Evolves σ ts none σ' ts') (hfresh : Fresh σ' ts' ptr) : Fresh σ ts ptr :=
  fun size hholds => hfresh size (h.keeps (by simp) hholds)

/-- No cursor is moved back. -/
def Advances (σ σ' : MemoryManager) : Prop :=
  ∀ i, (σ.availableHeaps i).offset ≤ (σ'.availableHeaps i).offset

/-- A cursor has passed `ptr`. -/
def Passed (σ σ' : MemoryManager) (ptr : Nat) : Prop :=
  ∃ i ≤ σ'.activeHeap, (σ.availableHeaps i).offset < (σ'.availableHeaps i).offset ∧
    (σ'.availableHeaps i).heap ≤ ptr ∧
    ptr < (σ'.availableHeaps i).heap + (σ'.availableHeaps i).offset

theorem Advances.trans {σ σ' σ'' : MemoryManager} (h : Advances σ σ') (h' : Advances σ' σ'') :
    Advances σ σ'' := fun i => (h i).trans (h' i)

theorem Advances.passed {σ σ' σ'' : MemoryManager} {ptr : Nat} (h : Advances σ σ')
    (hp : Passed σ' σ'' ptr) : Passed σ σ'' ptr := by
  obtain ⟨i, hi, hup, hbounds⟩ := hp
  exact ⟨i, hi, Nat.lt_of_le_of_lt (h i) hup, hbounds⟩

theorem advances_update {σ σ' : MemoryManager} {i : Nat} {h : Memory}
    (hle : (σ.availableHeaps i).offset ≤ h.offset)
    (hσ' : σ'.availableHeaps = Function.update σ.availableHeaps i h) : Advances σ σ' := by
  intro j
  rw [hσ']
  rcases eq_or_ne j i with rfl | hne
  · rwa [Function.update_self]
  · rw [Function.update_of_ne hne]

theorem MemoryManager.free_heaps (ptr : Option Nat) (σ : MemoryManager) :
    (σ.free ptr).availableHeaps = σ.availableHeaps := by
  unfold MemoryManager.free
  split
  · rfl
  · split <;> rfl

theorem MemoryManager.free_active (ptr : Option Nat) (σ : MemoryManager) :
    (σ.free ptr).activeHeap = σ.activeHeap := by
  unfold MemoryManager.free
  split
  · rfl
  · split <;> rfl

/-- A heap may take more memory at its end. -/
theorem HeapOk.expand {h : Memory} {m : Mem} {ts : List Tile} {size : Nat} (hh : HeapOk h m ts)
    (hbound : h.heap + h.heapSize + size < 2 ^ 32) (hmod : size % 8 = 0) :
    HeapOk { h with heapSize := h.heapSize + size } m ts where
  heap_pos := hh.heap_pos
  bound := by simpa only [← Nat.add_assoc] using hbound
  offset_le := Nat.le_trans hh.offset_le (Nat.le_add_right _ _)
  offset_mod := hh.offset_mod
  size_mod := by
    have := hh.size_mod
    simp only
    omega
  tiles := hh.tiles
  ok := hh.ok

/-- A heap without blocks. -/
theorem HeapOk.empty {heap heapSize : Nat} (hpos : 0 < heap) (hbound : heap + heapSize < 2 ^ 32)
    (hmod : heapSize % 8 = 0) (m : Mem) : HeapOk ⟨heapSize, heap, 0⟩ m [] where
  heap_pos := hpos
  bound := hbound
  offset_le := Nat.zero_le _
  offset_mod := rfl
  size_mod := hmod
  tiles := rfl
  ok := by simp

namespace ManagerOk

variable {σ σ' : MemoryManager} {ts ts' : Nat → List Tile} {i ptr size : Nat} {p : Option Nat}
  {h' : Memory} {m' : Mem} {ts₁ : List Tile}

/-- The regions of two heaps are apart. -/
theorem heap_apart (hσ : ManagerOk σ ts) {j : Nat} (hi : i ≤ σ.activeHeap) (hj : j ≤ σ.activeHeap)
    (hne : i ≠ j) :
    (σ.availableHeaps i).heap + (σ.availableHeaps i).heapSize ≤ (σ.availableHeaps j).heap ∨
    (σ.availableHeaps j).heap + (σ.availableHeaps j).heapSize ≤ (σ.availableHeaps i).heap := by
  have hactive := hσ.active
  have hone : σ.activeHeap = 1 := by omega
  have hapart := hσ.apart hone
  rcases (show i = 0 ∧ j = 1 ∨ i = 1 ∧ j = 0 by omega) with ⟨rfl, rfl⟩ | ⟨rfl, rfl⟩
  · exact .inl hapart
  · exact .inr hapart

/-- **A change of one heap is a change of the manager.** -/
theorem exchange (hσ : ManagerOk σ ts) (hi : i ≤ σ.activeHeap)
    (hch : Changed (σ.availableHeaps i) σ.mem (ts i) p h' m' ts₁) :
    Evolves σ ts p { σ.setHeap i h' with mem := m' } (Function.update ts i ts₁) where
  ok := by
    have hother : ∀ j, j ≠ i → Function.update σ.availableHeaps i h' j = σ.availableHeaps j :=
      fun j hj => Function.update_of_ne hj _ _
    have hheap : ∀ j, (Function.update σ.availableHeaps i h' j).heap = (σ.availableHeaps j).heap ∧
        (Function.update σ.availableHeaps i h' j).heapSize = (σ.availableHeaps j).heapSize := by
      intro j
      rcases eq_or_ne j i with rfl | hj
      · rw [Function.update_self]
        exact ⟨hch.heap_eq, hch.heapSize_eq⟩
      · rw [hother j hj]
        exact ⟨rfl, rfl⟩
    refine { hσ with heaps := ?_, waiting := ?_, below := ?_, apart := ?_, last := ?_ }
    · intro j hj
      rcases eq_or_ne j i with rfl | hne
      · simpa only [MemoryManager.setHeap, Function.update_self] using hch.ok
      · simp only [MemoryManager.setHeap, hother j hne, Function.update_of_ne hne]
        exact (hσ.heaps j hj).frame hch.agree (hσ.heap_apart hi hj hne.symm)
    · intro j hj
      have hj' : σ.activeHeap < j := hj
      exact (hother j (by omega)).trans (hσ.waiting j hj)
    · intro j hj
      simp only [MemoryManager.setHeap, hheap]
      exact hσ.below j hj
    · intro hone
      simp only [MemoryManager.setHeap, hheap]
      exact hσ.apart hone
    · simp only [MemoryManager.setHeap, hheap]
      exact hσ.last
  keeps := by
    rintro q size hne ⟨j, hj, hocc⟩
    refine ⟨j, hj, ?_⟩
    rcases eq_or_ne j i with rfl | hji
    · rw [Function.update_self]
      exact hch.keeps hne hocc
    · rwa [Function.update_of_ne hji]

/-- What is written in one heap is not in a block of another. -/
theorem carry (hσ : ManagerOk σ ts) (hi : i ≤ σ.activeHeap)
    (hch : Rewritten (σ.availableHeaps i) σ.mem (ts i) p h' m' ts₁) :
    Carries σ ts p { σ.setHeap i h' with mem := m' } (Function.update ts i ts₁) where
  __ := hσ.exchange hi hch.toChanged
  bytes := by
    rintro q size hne ⟨j, hj, hocc⟩ k hk
    rcases eq_or_ne j i with rfl | hji
    · exact hch.bytes hne hocc k hk
    · obtain ⟨t, ht, -, hptr, hsize⟩ := hocc
      have hbounds := (hσ.heaps j hj).bounds ht
      have hoff := (hσ.heaps j hj).offset_le
      have hapart := hσ.heap_apart hj hi hji
      exact hch.agree _ (by omega)

/-! ## Pages from `sbrk` -/

/-- The manager once `sbrk` was called. -/
def ready (σ : MemoryManager) : MemoryManager :=
  { σ with sbrkBytes := σ.currentMemory * MemoryManager.pageSize, initialized := true }

/-- The manager with one more page. -/
def paged (σ : MemoryManager) : MemoryManager :=
  { σ with
    currentMemory := σ.currentMemory + 1
    sbrkBytes := (σ.currentMemory + 1) * MemoryManager.pageSize
    initialized := true }

theorem sbrk_ready (hσ : ManagerOk σ ts) (numBytes : Nat) :
    σ.sbrk numBytes = (ready σ).sbrk numBytes := by
  cases hinit : σ.initialized with
  | true =>
    have hself : ready σ = σ := by
      simp only [ready, ← hσ.sbrk hinit, ← hinit]
    rw [hself]
  | false => simp only [MemoryManager.sbrk, ready, hinit, Bool.false_eq_true, ↓reduceIte]

theorem sbrk_zero (hσ : ManagerOk σ ts) :
    σ.sbrk 0 = .ok (σ.currentMemory * MemoryManager.pageSize, ready σ) := by
  have hlt := hσ.pages_lt
  have hroom : ¬2 ^ 32 ≤ σ.currentMemory * MemoryManager.pageSize + MemoryManager.pageSize - 1 := by
    simp only [MemoryManager.pageSize] at hlt ⊢
    omega
  have hpages : ¬σ.currentMemory < (σ.currentMemory * MemoryManager.pageSize +
      MemoryManager.pageSize - 1) / MemoryManager.pageSize := by
    simp only [MemoryManager.pageSize]
    omega
  have hround : (0 + 7) / 8 * 8 = 0 := rfl
  have hlimit : ¬2 ^ 31 - 1 < 0 := by decide
  rw [hσ.sbrk_ready]
  simp only [MemoryManager.sbrk, ready, ↓reduceIte, hlimit, hround, hroom, hpages, pure_eq_ok,
    Nat.add_zero]

theorem sbrk_page (σ : MemoryManager) :
    ((ready σ).sbrk MemoryManager.pageSize = .error MemoryManager.noMemory) ∨
    (σ.currentMemory + 1) * MemoryManager.pageSize < 2 ^ 32 ∧
      (ready σ).sbrk MemoryManager.pageSize =
        .ok (σ.currentMemory * MemoryManager.pageSize, paged σ) := by
  have hround : (MemoryManager.pageSize + 7) / 8 * 8 = MemoryManager.pageSize := rfl
  have hlimit : ¬2 ^ 31 - 1 < MemoryManager.pageSize := by decide
  by_cases hroom : 2 ^ 32 ≤ σ.currentMemory * MemoryManager.pageSize + MemoryManager.pageSize +
      MemoryManager.pageSize - 1
  · left
    simp only [MemoryManager.sbrk, ready, ↓reduceIte, hlimit, hround, hroom]
  · right
    have hpages : (σ.currentMemory * MemoryManager.pageSize + MemoryManager.pageSize +
        MemoryManager.pageSize - 1) / MemoryManager.pageSize = σ.currentMemory + 1 := by
      simp only [MemoryManager.pageSize]
      omega
    refine ⟨by simp only [MemoryManager.pageSize] at hroom ⊢; omega, ?_⟩
    simp only [MemoryManager.sbrk, ready, paged, ↓reduceIte, hlimit, hround, hroom, hpages,
      Nat.lt_succ_self, Nat.succ_mul, pure_eq_ok]

theorem page_succ (pages : Nat) : (pages + 1) * MemoryManager.pageSize =
    pages * MemoryManager.pageSize + MemoryManager.pageSize := Nat.succ_mul _ _

theorem heapAdj_eq (pages : Nat) :
    MemoryManager.heapAdj (pages * MemoryManager.pageSize) = MemoryManager.pageSize := by
  rw [MemoryManager.heapAdj, Nat.mul_mod_left, if_pos (Nat.zero_le _)]
  omega

/-- The cursor of the active heap. -/
def activeOffset (σ : MemoryManager) : Nat := (σ.availableHeaps σ.activeHeap).offset

/-- The active heap ends where the new page starts: it takes the page. -/
theorem expand (hσ : ManagerOk σ ts)
    (hend : (σ.availableHeaps σ.activeHeap).heap + (σ.availableHeaps σ.activeHeap).heapSize =
      σ.currentMemory * MemoryManager.pageSize)
    (hlt : (σ.currentMemory + 1) * MemoryManager.pageSize < 2 ^ 32)
    (hh : h' = { σ.availableHeaps σ.activeHeap with
      heapSize := (σ.availableHeaps σ.activeHeap).heapSize + MemoryManager.pageSize }) :
    ManagerOk ((paged σ).setHeap σ.activeHeap h') ts := by
  have hsucc := page_succ σ.currentMemory
  have hactive := hσ.active
  have hother : ∀ j, j ≠ σ.activeHeap →
      Function.update σ.availableHeaps σ.activeHeap h' j = σ.availableHeaps j :=
    fun j hj => Function.update_of_ne hj _ _
  refine { hσ with heaps := ?_, waiting := ?_, below := ?_, apart := ?_, last := ?_, pages_lt := hlt,
                   sbrk := fun _ => rfl }
  · intro j hj
    rcases eq_or_ne j σ.activeHeap with rfl | hne
    · simp only [MemoryManager.setHeap, paged, Function.update_self, hh]
      exact (hσ.heaps _ hj).expand (by omega) rfl
    · simp only [MemoryManager.setHeap, paged, hother j hne]
      exact hσ.heaps j hj
  · intro j hj
    have hj' : σ.activeHeap < j := hj
    exact (hother j (by omega)).trans (hσ.waiting j hj)
  · intro j hj
    rcases eq_or_ne j σ.activeHeap with rfl | hne
    · simp only [MemoryManager.setHeap, paged, Function.update_self, hh]
      omega
    · have hbelow := hσ.below j hj
      simp only [MemoryManager.setHeap, paged, hother j hne]
      omega
  · intro hone
    have hone' : σ.activeHeap = 1 := hone
    have hapart := hσ.apart hone'
    simp only [MemoryManager.setHeap, paged, hother 0 (by omega)]
    rw [hone', Function.update_self, hh, hone']
    exact hapart
  · right
    simp only [MemoryManager.setHeap, paged, Function.update_self, hh]
    omega

/-- The static heap is left for one on the new page. -/
theorem leave (hσ : ManagerOk σ ts) (hzero : σ.activeHeap = 0)
    (hlt : (σ.currentMemory + 1) * MemoryManager.pageSize < 2 ^ 32)
    (hch : Changed (σ.availableHeaps 0) σ.mem (ts 0) none h' m' ts₁) :
    ManagerOk { ({ (paged σ).setHeap 0 h' with mem := m' } : MemoryManager).setHeap 1
        ⟨MemoryManager.pageSize, σ.currentMemory * MemoryManager.pageSize, 0⟩ with activeHeap := 1 }
      (Function.update (fun _ => []) 0 ts₁) := by
  have hsucc := page_succ σ.currentMemory
  have hpage : 0 < MemoryManager.pageSize := by decide
  have hbelow := hσ.below 0 (Nat.zero_le _)
  have hpos := (hσ.heaps 0 (Nat.zero_le _)).heap_pos
  have hheap := hch.heap_eq
  have hsize := hch.heapSize_eq
  have hheaps : ∀ (h₁ : Memory) j, j ≤ 1 →
      Function.update (Function.update σ.availableHeaps 0 h') 1 h₁ j = if j = 0 then h' else h₁ := by
    intro h₁ j hj
    rcases (show j = 0 ∨ j = 1 by omega) with rfl | rfl
    · rw [Function.update_of_ne (by decide), Function.update_self, if_pos rfl]
    · rw [Function.update_self, if_neg (by decide)]
  refine { hσ with active := Nat.le_refl _, heaps := ?_, waiting := ?_, below := ?_, apart := ?_,
                   last := ?_, pages_lt := hlt, sbrk := fun _ => rfl }
  · intro j hj
    simp only [MemoryManager.setHeap, paged, hheaps _ j hj]
    rcases (show j = 0 ∨ j = 1 by have : j ≤ 1 := hj; omega) with rfl | rfl
    · simpa using hch.ok
    · simpa using HeapOk.empty (by omega) (by omega) rfl m'
  · intro j hj
    have hj' : 1 < j := hj
    simp only [MemoryManager.setHeap, paged]
    rw [Function.update_of_ne (by omega), Function.update_of_ne (by omega)]
    exact hσ.waiting j (by omega)
  · intro j hj
    simp only [MemoryManager.setHeap, paged, hheaps _ j hj]
    split_ifs
    · omega
    · simp only
      omega
  · intro _
    simp only [MemoryManager.setHeap, paged, hheaps _ 0 (by decide), hheaps _ 1 (by decide), ↓reduceIte,
      Nat.one_ne_zero]
    omega
  · right
    simp only [MemoryManager.setHeap, paged, hheaps _ 1 (by decide), Nat.one_ne_zero, ↓reduceIte]
    omega

/-- **`next_active_heap` gives the program one more page**, if there is one. -/
theorem nextActiveHeap (hσ : ManagerOk σ ts) :
    σ.nextActiveHeap = .error MemoryManager.noMemory ∨
    ∃ σ' ts', σ.nextActiveHeap = .ok (some σ'.activeHeap, σ') ∧ Carries σ ts none σ' ts' ∧
      σ'.currentMemory = σ.currentMemory + 1 ∧ activeOffset σ' ≤ activeOffset σ ∧ Advances σ σ' := by
  rcases sbrk_page σ with hpage | ⟨hlt, hpage⟩
  · left
    simp only [MemoryManager.nextActiveHeap, hσ.sbrk_zero, ok_bind, heapAdj_eq, hpage, error_bind]
  · right
    have hcurrent := hσ.heaps σ.activeHeap (Nat.le_refl _)
    have hsucc := page_succ σ.currentMemory
    have hpos : ¬((σ.currentMemory * MemoryManager.pageSize : Nat) : Int) = -1 := by omega
    by_cases hend : (σ.availableHeaps σ.activeHeap).heap + (σ.availableHeaps σ.activeHeap).heapSize =
        σ.currentMemory * MemoryManager.pageSize
    · have hexpand : (σ.availableHeaps σ.activeHeap).expandMemory
          (σ.currentMemory * MemoryManager.pageSize) MemoryManager.pageSize =
          some { σ.availableHeaps σ.activeHeap with
            heapSize := (σ.availableHeaps σ.activeHeap).heapSize + MemoryManager.pageSize } := by
        simp only [Memory.expandMemory, hcurrent.heapEnd_eq, hend, ne_eq, not_true_eq_false,
          ↓reduceIte]
        rw [addSize_eq (by omega)]
      refine ⟨_, ts, ?_, ⟨⟨hσ.expand hend hlt rfl, fun _ hholds => hholds⟩, fun _ _ _ _ => rfl⟩,
        rfl, ?_, ?_⟩
      · simp only [MemoryManager.nextActiveHeap, hσ.sbrk_zero, ok_bind, heapAdj_eq, hpage, hpos,
          ↓reduceIte, paged, hexpand, pure_eq_ok, MemoryManager.setHeap]
      · simp only [activeOffset, MemoryManager.setHeap, paged, Function.update_self, Nat.le_refl]
      · exact advances_update (i := σ.activeHeap)
          (h := { σ.availableHeaps σ.activeHeap with
            heapSize := (σ.availableHeaps σ.activeHeap).heapSize + MemoryManager.pageSize })
          (Nat.le_refl _) rfl
    · obtain ⟨hzero, hinitial⟩ := hσ.last.resolve_right hend
      rw [hzero] at hcurrent hend
      have hexpand : (σ.availableHeaps 0).expandMemory
          (σ.currentMemory * MemoryManager.pageSize) MemoryManager.pageSize = none := by
        simp only [Memory.expandMemory, hcurrent.heapEnd_eq, ne_eq, hend, not_false_eq_true,
          ↓reduceIte]
      have hrest : (σ.availableHeaps 0).heapSize - (σ.availableHeaps 0).offset < 2 ^ 31 := by
        rw [hinitial, initialHeapSize]
        omega
      obtain ⟨ts₁, m', hcleanup, hch⟩ := hcurrent.cleanup hrest
      refine ⟨_, _, ?_, ⟨⟨hσ.leave hzero hlt hch.toChanged, ?_⟩, ?_⟩, rfl, ?_, ?_⟩
      · simp only [MemoryManager.nextActiveHeap, hσ.sbrk_zero, ok_bind, heapAdj_eq, hpage, hpos,
          ↓reduceIte, paged, hzero, hexpand, hcleanup, pure_eq_ok, MemoryManager.setHeap, Memory.init,
          Nat.zero_add, Function.update_of_ne Nat.one_ne_zero, hσ.waiting 1 (by omega)]
      · rintro q size hne ⟨j, hj, hocc⟩
        obtain rfl : j = 0 := by omega
        refine ⟨0, Nat.zero_le _, ?_⟩
        rw [Function.update_self]
        exact hch.keeps hne hocc
      · rintro q size hne ⟨j, hj, hocc⟩ k hk
        obtain rfl : j = 0 := by omega
        exact hch.bytes hne hocc k hk
      · simp only [activeOffset, MemoryManager.setHeap, Function.update_self, Nat.zero_le]
      · have hwaiting := hσ.waiting 1 (by omega)
        have hleft : Advances σ (σ.setHeap 0
            { σ.availableHeaps 0 with offset := (σ.availableHeaps 0).heapSize }) :=
          advances_update hcurrent.offset_le rfl
        have hnew : (σ.setHeap 0 { σ.availableHeaps 0 with
            offset := (σ.availableHeaps 0).heapSize }).availableHeaps 1 = ⟨0, 0, 0⟩ := by
          simp only [MemoryManager.setHeap, Function.update_of_ne Nat.one_ne_zero, hwaiting]
        exact hleft.trans (advances_update (by rw [hnew]) rfl)

/-! ## Operations -/

/-- A payload that `malloc` can place without wrapping. -/
structure Fits (σ : MemoryManager) (size : Nat) : Prop where
  block : BlockSize size
  end_lt : activeOffset σ + size + 4 < 2 ^ 32

/-- A block is behind the start of its heap and before the cursor. -/
theorem holds_bounds (hσ : ManagerOk σ ts) (hi : i ≤ σ.activeHeap) (hocc : Occupied (ts i) ptr size) :
    (σ.availableHeaps i).heap + 4 ≤ ptr ∧
      ptr < (σ.availableHeaps i).heap + (σ.availableHeaps i).offset ∧
      ptr + size ≤ (σ.availableHeaps i).heap + (σ.availableHeaps i).offset := by
  obtain ⟨t, ht, -, hptr, hsize⟩ := hocc
  have hbounds := (hσ.heaps i hi).bounds ht
  have hmod := ((hσ.heaps i hi).ok t ht).size.mod
  omega

/-- A block between the start and the cursor of a heap is in this heap. -/
theorem occupied_of_between (hσ : ManagerOk σ ts) (hholds : Holds σ ts ptr size)
    (hi : i ≤ σ.activeHeap) (hlo : (σ.availableHeaps i).heap ≤ ptr)
    (hhi : ptr < (σ.availableHeaps i).heap + (σ.availableHeaps i).offset) :
    Occupied (ts i) ptr size := by
  obtain ⟨j, hj, hocc⟩ := hholds
  obtain ⟨hstart, hlt, -⟩ := hσ.holds_bounds hj hocc
  rcases eq_or_ne i j with rfl | hne
  · exact hocc
  · have hoff := (hσ.heaps i hi).offset_le
    have hoff' := (hσ.heaps j hj).offset_le
    have hapart := hσ.heap_apart hi hj hne
    omega

/-- The address behind a cursor is no block's. -/
theorem cursor_fresh (hσ : ManagerOk σ ts) (hi : i ≤ σ.activeHeap)
    (hroom : (σ.availableHeaps i).offset < (σ.availableHeaps i).heapSize) :
    Fresh σ ts ((σ.availableHeaps i).heap + (σ.availableHeaps i).offset + 4) := by
  rintro size ⟨j, hj, hocc⟩
  have hoffj := (hσ.heaps j hj).offset_le
  obtain ⟨t, ht, -, hptr, -⟩ := hocc
  have hbounds := (hσ.heaps j hj).bounds ht
  rcases eq_or_ne i j with rfl | hne
  · omega
  · have hapart := hσ.heap_apart hi hj hne
    omega

/-- **The loop of `malloc`** finds room behind a cursor, or runs out of pages. -/
theorem mallocLoop_spec : ∀ {n : Nat} {σ : MemoryManager} {ts : Nat → List Tile}, ManagerOk σ ts →
    Fits σ size → MemoryManager.addressPages ≤ n + σ.currentMemory →
    MemoryManager.mallocLoop size n (some σ.activeHeap) σ = .error MemoryManager.noMemory ∨
    ∃ ptr σ' ts', MemoryManager.mallocLoop size n (some σ.activeHeap) σ = .ok (some ptr, σ') ∧
      Carries σ ts none σ' ts' ∧ Holds σ' ts' ptr size ∧ Fresh σ ts ptr ∧ Advances σ σ' ∧
      Passed σ σ' ptr
  | 0, σ, ts, hσ, _, hfuel => by
    have hlt := hσ.pages_lt
    simp only [MemoryManager.addressPages, MemoryManager.pageSize] at hfuel hlt
    omega
  | n + 1, σ, ts, hσ, hfits, hfuel => by
    have hheap := hσ.heaps σ.activeHeap (Nat.le_refl _)
    rcases hheap.malloc hfits.block hfits.end_lt with ⟨-, hnone⟩ | ⟨m', hsome, hch⟩
    · rcases hσ.nextActiveHeap with hstop | ⟨σ₁, ts₁, hnext, hev, hpages, hoff, hadv⟩
      · left
        simp only [MemoryManager.mallocLoop, hnone, hstop, error_bind]
      · have hfits₁ : Fits σ₁ size := ⟨hfits.block, by have := hfits.end_lt; omega⟩
        have hstep : MemoryManager.mallocLoop size (n + 1) (some σ.activeHeap) σ =
            MemoryManager.mallocLoop size n (some σ₁.activeHeap) σ₁ := by
          simp only [MemoryManager.mallocLoop, hnone, hnext, ok_bind]
        rw [hstep]
        rcases mallocLoop_spec hev.ok hfits₁ (n := n) (by omega) with hstop |
            ⟨ptr, σ₂, ts₂, hloop, hev₂, hholds, hfresh, hadv₂, hpassed⟩
        · exact .inl hstop
        · exact .inr ⟨ptr, σ₂, ts₂, hloop, hev.trans hev₂, hholds, hev.fresh hfresh, hadv.trans hadv₂,
            hadv.passed hpassed⟩
    · right
      have hroom := hch.ok.offset_le
      have hmod := hfits.block.mod
      refine ⟨_, _, _, ?_, hσ.carry (Nat.le_refl _) hch, ⟨σ.activeHeap, Nat.le_refl _, ?_⟩,
        hσ.cursor_fresh (Nat.le_refl _) (by simp only at hroom; omega), ?_,
        ⟨σ.activeHeap, Nat.le_refl _, ?_⟩⟩
      · simp only [MemoryManager.mallocLoop, hsome, pure_eq_ok]
      · rw [Function.update_self]
        exact ⟨_, List.mem_append_right _ List.mem_cons_self, rfl, rfl, Nat.le_refl _⟩
      · exact advances_update (by simp only; omega) rfl
      · simp only [MemoryManager.setHeap, Function.update_self]
        omega

theorem prepare_eq (hσ : ManagerOk σ ts) : σ.prepare = σ := by
  have hactual : ¬σ.heapsActualSize = 0 := by
    rw [hσ.actual]
    decide
  have hinit : (σ.availableHeaps 0).isInit = true := by
    have hpos := (hσ.heaps 0 (Nat.zero_le _)).heap_pos
    simp only [Memory.isInit, bne_iff_ne]
    omega
  simp only [MemoryManager.prepare, hactual, ↓reduceIte, hinit, Bool.not_true, Bool.false_eq_true,
    and_false]

/-- **`malloc` gives the program a block that it did not have**, or runs out of pages. -/
theorem malloc_spec (hσ : ManagerOk σ.prepare ts) (hsize : size ≠ 0)
    (hfits : Fits σ.prepare (adjustToMemBlock size)) :
    σ.malloc size = .error MemoryManager.noMemory ∨
    ∃ ptr σ' ts', σ.malloc size = .ok (some ptr, σ') ∧ Carries σ.prepare ts none σ' ts' ∧
      Holds σ' ts' ptr (adjustToMemBlock size) ∧ Fresh σ.prepare ts ptr ∧ Advances σ.prepare σ' ∧
      Passed σ.prepare σ' ptr := by
  have hactive : σ.prepare.activeHeap < σ.prepare.heapsActualSize := by
    rw [hσ.actual]
    exact Nat.lt_of_le_of_lt hσ.active (by decide)
  rcases mallocLoop_spec hσ hfits (Nat.le_add_right _ _) with hstop | ⟨ptr, σ', ts', hloop, hrest⟩
  · left
    simp only [MemoryManager.malloc, hsize, ↓reduceIte, hactive, hstop, error_bind]
  · right
    refine ⟨ptr, σ', ts', ?_, hrest⟩
    simp only [MemoryManager.malloc, hsize, ↓reduceIte, hactive, hloop, ok_bind, Option.isSome_some,
      pure_eq_ok]

/-- The search for a block's heap finds it. -/
theorem findHeap_eq (hσ : ManagerOk σ ts) (hi : i ≤ σ.activeHeap) (hocc : Occupied (ts i) ptr size) :
    σ.findHeap ptr σ.heapsActualSize 0 = some i := by
  have hinit : ∀ j ≤ σ.activeHeap, (σ.availableHeaps j).isInit = true := by
    intro j hj
    have hpos := (hσ.heaps j hj).heap_pos
    simp only [Memory.isInit, bne_iff_ne]
    omega
  obtain ⟨hstart, hlt, -⟩ := hσ.holds_bounds hi hocc
  have hheap := hσ.heaps i hi
  have hbound := hheap.bound
  have hoff := hheap.offset_le
  have hin : (σ.availableHeaps i).isInHeap ptr = true := by
    rw [Memory.isInHeap, hheap.heapEnd_eq, addSize_marker (by omega)]
    simp only [Bool.and_eq_true, decide_eq_true_eq]
    omega
  have hactive := hσ.active
  rw [hσ.actual]
  rcases (show i = 0 ∨ i = 1 by omega) with rfl | rfl
  · simp only [heapsSize, MemoryManager.findHeap, hinit 0 hi, hin, Bool.not_true, Bool.false_eq_true,
      ↓reduceIte]
  · have hnotin : (σ.availableHeaps 0).isInHeap ptr = false := by
      have hapart := hσ.apart (by omega)
      rw [Memory.isInHeap, (hσ.heaps 0 (Nat.zero_le _)).heapEnd_eq]
      simp only [Bool.and_eq_false_iff, decide_eq_false_iff_not]
      omega
    simp only [heapsSize, MemoryManager.findHeap, hinit 0 (Nat.zero_le _), hinit 1 hi, hin, hnotin,
      Bool.not_true, Bool.false_eq_true, ↓reduceIte, Nat.zero_add]

/-- A write into the payload of a block. -/
theorem write (hσ : ManagerOk σ ts) {a b : Nat} (hholds : Holds σ ts ptr size) (ha : ptr ≤ a)
    (hb : b ≤ ptr + size) (hm : AgreeOff a b σ.mem m') : Evolves σ ts p { σ with mem := m' } ts := by
  obtain ⟨i, hi, t, ht, -, hptr, hsize⟩ := hholds
  have hev := hσ.exchange (p := p) hi ((hσ.heaps i hi).written ht (a := a) (b := b) (by omega)
    (by omega) hm)
  simpa only [MemoryManager.setHeap, Function.update_eq_self] using hev

/-- Two blocks, with their headers, are apart. -/
theorem holds_apart (hσ : ManagerOk σ ts) {q n : Nat} (hp : Holds σ ts ptr size)
    (hq : Holds σ ts q n) (hne : ptr ≠ q) :
    ptr + size + 4 ≤ q ∨ q + n + 4 ≤ ptr := by
  obtain ⟨i, hi, t, ht, -, hptr, hsize⟩ := hp
  obtain ⟨j, hj, t', ht', -, hptr', hsize'⟩ := hq
  have hbounds := (hσ.heaps i hi).bounds ht
  have hbounds' := (hσ.heaps j hj).bounds ht'
  rcases eq_or_ne i j with rfl | hij
  · rcases (hσ.heaps i hi).tiles.eq_or_apart t ht t' ht' with rfl | hapart | hapart
    · omega
    · have hstop : t.start + 4 + t.size ≤ t'.start := hapart
      omega
    · have hstop : t'.start + 4 + t'.size ≤ t.start := hapart
      omega
  · have hoff := (hσ.heaps i hi).offset_le
    have hoff' := (hσ.heaps j hj).offset_le
    have hapart := hσ.heap_apart hi hj hij
    omega

/-- It is in no other block. -/
theorem overwrite (hσ : ManagerOk σ ts) {a b : Nat} (hholds : Holds σ ts ptr size) (ha : ptr ≤ a)
    (hb : b ≤ ptr + size) (hm : AgreeOff a b σ.mem m') :
    Carries σ ts (some ptr) { σ with mem := m' } ts where
  __ := hσ.write hholds ha hb hm
  bytes := by
    intro q n hne hq k hk
    have hapart := hσ.holds_apart hholds hq fun he => hne (congrArg some he.symm)
    exact hm _ (by omega)

/-- `free` gives up a block. -/
theorem free (hσ : ManagerOk σ ts) (hholds : Holds σ ts ptr size) :
    ∃ ts', Carries σ ts (some ptr) (σ.free (some ptr)) ts' := by
  obtain ⟨i, hi, hocc⟩ := hholds
  have hfind := hσ.findHeap_eq hi hocc
  obtain ⟨t, ht, -, rfl, -⟩ := hocc
  obtain ⟨ts₁, hch⟩ := (hσ.heaps i hi).free ht
  have hev := hσ.carry hi hch
  rw [MemoryManager.setHeap, Function.update_eq_self] at hev
  refine ⟨Function.update ts i ts₁, ?_⟩
  simp only [MemoryManager.free, hfind]
  exact hev

/-- `realloc_in_place`, once the heap is found. -/
theorem reallocInPlace {t : Tile} (hσ : ManagerOk σ ts) (hi : i ≤ σ.activeHeap) (ht : t ∈ ts i)
    (halloc : t.alloc = true) (hs : BlockSize size)
    (hsafe : Resizable (σ.availableHeaps i) (ts i) t size) :
    (t.size < size ∧ σ.reallocInPlace (some (t.start + 4)) size = .ok (none, t.size, σ)) ∨
    ∃ σ' ts', σ.reallocInPlace (some (t.start + 4)) size = .ok (some (t.start + 4), t.size, σ') ∧
      Carries σ ts (some (t.start + 4)) σ' ts' ∧ Holds σ' ts' (t.start + 4) size ∧ Advances σ σ' ∧
      ∀ k < min t.size size, σ'.mem (t.start + 4 + k) = σ.mem (t.start + 4 + k) := by
  have hfind := hσ.findHeap_eq hi ⟨t, ht, halloc, rfl, Nat.le_refl _⟩
  rcases (hσ.heaps i hi).reallocInPlace ht halloc hs hsafe with ⟨hlt, hnone⟩ |
      ⟨h', m', ts₁, hsome, hch, hocc, hadv, hown⟩
  · left
    refine ⟨hlt, ?_⟩
    simp only [MemoryManager.reallocInPlace, hfind, hnone, ok_bind, pure_eq_ok,
      MemoryManager.setHeap, Function.update_eq_self]
  · right
    refine ⟨_, _, ?_, hσ.carry hi hch, ⟨i, hi, by rwa [Function.update_self]⟩,
      advances_update hadv rfl, hown⟩
    simp only [MemoryManager.reallocInPlace, hfind, hsome, ok_bind, pure_eq_ok]

/-- **`realloc` moves the block or leaves it**, or runs out of pages. -/
theorem realloc {t : Tile} (hσ : ManagerOk σ ts) (hi : i ≤ σ.activeHeap) (ht : t ∈ ts i)
    (halloc : t.alloc = true) (hsize : size ≠ 0) (hs : BlockSize (adjustToMemBlock size))
    (hsafe : Resizable (σ.availableHeaps i) (ts i) t (adjustToMemBlock size))
    (hfits : t.size < adjustToMemBlock size → Fits σ (adjustToMemBlock size)) :
    σ.realloc (some (t.start + 4)) size = .error MemoryManager.noMemory ∨
    ∃ new σ' ts', σ.realloc (some (t.start + 4)) size = .ok (some new, σ') ∧
      Carries σ ts (some (t.start + 4)) σ' ts' ∧ Holds σ' ts' new (adjustToMemBlock size) ∧
      (new = t.start + 4 ∨ Fresh σ ts new ∧ Passed σ σ' new) ∧ Advances σ σ' ∧
      ∀ k < min t.size (adjustToMemBlock size), σ'.mem (new + k) = σ.mem (t.start + 4 + k) := by
  have hadjust := hs.adjust
  rcases hσ.reallocInPlace hi ht halloc hs hsafe with ⟨hlt, hnone⟩ |
      ⟨σ', ts', hsome, hev, hholds, hadv, hown⟩
  · have hne : adjustToMemBlock size ≠ 0 := by omega
    have hprepare := hσ.prepare_eq
    have hσ' : ManagerOk σ.prepare ts := by rwa [hprepare]
    have hmalloc := hσ'.malloc_spec hne
      (by rw [hadjust, hprepare]; exact hfits hlt)
    rw [hadjust, hprepare] at hmalloc
    rcases hmalloc with hstop | ⟨new, σ₁, ts₁, hmalloc, hev₁, hholds₁, hfresh, hadv, hpassed⟩
    · left
      simp only [MemoryManager.realloc, hsize, ↓reduceIte, hnone, ok_bind, Option.isSome_none,
        Bool.false_eq_true, hstop, error_bind]
    · right
      have hheld : Holds σ ts (t.start + 4) t.size :=
        ⟨i, hi, t, ht, halloc, rfl, Nat.le_refl _⟩
      have hnew : ∀ {q n}, Holds σ ts q n → some q ≠ some new := by
        rintro q n hholds ⟨⟩
        exact hfresh _ hholds
      have htsize := ((hσ.heaps i hi).ok t ht).size.mod
      -- the copy: to the manager it is a write into the new block
      have hroom := Nat.add_le_add_left (Nat.le_of_lt hlt) new
      have hagree := agreeOff_copy new (t.start + 4) t.size σ₁.mem
      have hev₂ := hev₁.ok.write (p := none) hholds₁ (Nat.le_refl new) hroom hagree
      have hcopied := hev₁.ok.overwrite hholds₁ (Nat.le_refl new) hroom hagree
      have hkept : ∀ {q n}, Holds σ ts q n → Holds _ ts₁ q n := fun hholds =>
        hev₂.keeps (by simp) (hev₁.keeps (by simp) hholds)
      have hholds₂ := hev₂.keeps (by simp) hholds₁
      obtain ⟨ts₃, hev₃⟩ := hev₂.ok.free (hkept hheld)
      refine ⟨new, _, ts₃, ?_, ⟨(hev₁.toEvolves.trans hev₂).trans hev₃.toEvolves, ?_⟩,
        hev₃.keeps (hnew hheld).symm hholds₂, .inr ⟨hfresh, ?_⟩, ?_, fun k hk => ?_⟩
      · simp only [MemoryManager.realloc, hsize, ↓reduceIte, hnone, ok_bind, Option.isSome_none,
          Bool.false_eq_true, hmalloc, Nat.not_lt.2 (Nat.le_of_lt hlt), Option.getD_some,
          show 0 < t.size by omega, pure_eq_ok]
      · intro q n hne hholds k hk
        rw [hev₃.bytes hne (hkept hholds) k hk,
          hcopied.bytes (hnew hholds) (hev₁.keeps (by simp) hholds) k hk,
          hev₁.bytes (by simp) hholds k hk]
      · rw [Passed, MemoryManager.free_heaps, MemoryManager.free_active]
        exact hpassed
      · rw [Advances, MemoryManager.free_heaps]
        exact hadv
      · have hcopy : ByteMem.copy new (t.start + 4) t.size σ₁.mem (new + k) =
            σ₁.mem (t.start + 4 + k) := by
          rw [ByteMem.copy, if_pos ⟨Nat.le_add_right _ _, by omega⟩, Nat.add_sub_cancel_left]
        exact (hev₃.bytes (hnew hheld).symm hholds₂ k (by omega)).trans
          (hcopy.trans (hev₁.bytes (by simp) hheld k (by omega)))
  · right
    refine ⟨_, σ', ts', ?_, hev, hholds, .inl rfl, hadv, hown⟩
    simp only [MemoryManager.realloc, hsize, ↓reduceIte, hsome, ok_bind, Option.isSome_some, pure_eq_ok]

end ManagerOk

/-- With a null pointer, `realloc` is `malloc`. -/
theorem realloc_null {size : Nat} (hsize : size ≠ 0) (σ : MemoryManager) :
    σ.realloc none size = σ.malloc (adjustToMemBlock size) := by
  have hnone : σ.reallocInPlace none (adjustToMemBlock size) = .ok (none, 0, σ) := rfl
  simp only [MemoryManager.realloc, hsize, ↓reduceIte, hnone, ok_bind, Option.isSome_none,
    Bool.false_eq_true]
  cases σ.malloc (adjustToMemBlock size) with
  | error e => rfl
  | ok r =>
    obtain ⟨new, σ'⟩ := r
    cases new <;> simp

end Wasmlib
