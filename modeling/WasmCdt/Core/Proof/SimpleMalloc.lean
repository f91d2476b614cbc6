import WasmCdt.Core.SimpleMalloc

/-!
# The default allocator's blocks are sound

The cursor stays at or below the end of the memory, so a request that is granted has taken enough
pages for its block, and one that would wrap asks for a page beyond the limit.

* `alloc_cases`: a request is refused for want of pages, or hands out the memory at the cursor.
* `run_spec`: a run keeps `CursorOk` and the blocks.
* `safe_iff`: **every run is safe, unless the first block starts exactly at the end of the memory.**
-/

namespace Wasmlib

namespace Dsmalloc

/-! ## Rounding -/

theorem and_mask {x : Nat} (h : x < 2 ^ 32) : x &&& (2 ^ 32 - 8) = x / 8 * 8 := by
  have hmask : 2 ^ 32 - 8 = (2 ^ 29 - 1) <<< 3 := rfl
  rw [hmask, show x / 8 * 8 = (x >>> 3) <<< 3 by rw [Nat.shiftLeft_eq, Nat.shiftRight_eq_div_pow]]
  apply Nat.eq_of_testBit_eq
  intro i
  rw [Nat.testBit_and, Nat.testBit_shiftLeft, Nat.testBit_shiftLeft, Nat.testBit_shiftRight,
    Nat.testBit_two_pow_sub_one]
  by_cases h3 : 3 ≤ i
  · have hi : 3 + (i - 3) = i := by omega
    rw [hi]
    by_cases h32 : i - 3 < 29
    · simp [h3, h32]
    · have hbig : x < 2 ^ i := h.trans_le (Nat.pow_le_pow_right (by decide) (by omega))
      simp [h32, Nat.testBit_lt_two_pow hbig]
  · simp [h3]

theorem align_eq (ptr : Nat) : align ptr 8 = (ptr + 7) % 2 ^ 32 / 8 * 8 := by
  have hsub : subSize (addSize ptr 8) 1 = (ptr + 7) % 2 ^ 32 := by
    simp only [subSize, addSize]
    omega
  rw [align, hsub, and_mask (Nat.mod_lt _ (by decide))]

/-! ## One request -/

/-- The cursor is in the memory, which is within its limit; it is at the very end only if the memory
cannot grow to the last page but one. -/
structure CursorOk (heapBase : Nat) (σ : Dsmalloc) : Prop where
  pages : σ.nextPage = σ.currentMemory
  pages_le : σ.currentMemory ≤ σ.limit
  limit_le : σ.limit ≤ 65536
  aligned : σ.lastPtr % 8 = 0
  inside : σ.lastPtr < σ.currentMemory * 65536 ∨
    (σ.lastPtr = σ.currentMemory * 65536 ∧ σ.limit < 65535)
  /-- At the last address the heap base rounds to 0, but no page is left then. -/
  base : heapBase ≤ σ.lastPtr ∨ σ.currentMemory = 65536

/-- A granted request: the block is the memory between the two cursors. -/
structure Granted (σ : Dsmalloc) (n : Nat) (σ' : Dsmalloc) : Prop where
  mem : σ'.mem = σ.mem
  limit : σ'.limit = σ.limit
  grows : σ.currentMemory ≤ σ'.currentMemory
  cursor : σ'.lastPtr = SimpleWorld.roundedEnd σ n
  fits : SimpleWorld.roundedEnd σ n ≤ σ'.currentMemory * 65536
  lt : SimpleWorld.roundedEnd σ n < 2 ^ 32

variable {heapBase : Nat} {σ : Dsmalloc} {n : Nat}

/-- The pages that a request of `n` bytes asks for, from the new cursor. -/
def pagesFor (pages n cursor : Nat) : Nat :=
  if (pages + n / 65536) % 2 ^ 32 * 65536 % 2 ^ 32 ≤ cursor then n / 65536 + 1 else n / 65536

theorem alloc_eq (hpages : σ.nextPage = σ.currentMemory) (hle : σ.currentMemory ≤ 65536)
    (hn : 0 < n) (hlt : n < 2 ^ 32) {cursor more : Nat}
    (hcursor : align (addSize σ.lastPtr n) 8 = cursor)
    (hmore : pagesFor σ.currentMemory n cursor = more) : σ.alloc n =
    if σ.currentMemory + more ≤ σ.limit then
      .ok (σ.lastPtr, { σ with
        lastPtr := cursor
        nextPage := σ.currentMemory + more
        currentMemory := σ.currentMemory + more })
    else .error SimpleWorld.noPages := by
  have hq : n / 65536 < 65536 := by omega
  have h1 : addSize σ.currentMemory (n / 65536) = σ.currentMemory + n / 65536 := by
    rw [addSize]
    omega
  have h2 : addSize (σ.currentMemory + n / 65536) 1 = σ.currentMemory + (n / 65536 + 1) := by
    rw [addSize]
    omega
  have h3 : addSize (n / 65536) 1 = n / 65536 + 1 := by
    rw [addSize]
    omega
  have h4 : (σ.currentMemory + n / 65536) % 2 ^ 32 = σ.currentMemory + n / 65536 := by omega
  subst hmore
  unfold alloc pagesFor
  rw [if_neg (by omega), show n >>> 16 = n / 65536 from Nat.shiftRight_eq_div_pow n 16, hcursor,
    hpages]
  simp only [h1, h2, h3, h4, Nat.shiftLeft_eq, show 2 ^ 16 = 65536 from rfl, check_bind,
    decide_eq_true_eq, pure_eq_ok]
  split_ifs <;> rfl

/-- No page is left above a cursor that wraps: if the pages are granted, the cursor is exact, and in
the memory. -/
theorem cursor_arith {pages limit ptr cursor : Nat} (hlim : limit ≤ 65536) (haligned : ptr % 8 = 0)
    (hinside : ptr < pages * 65536 ∨ (ptr = pages * 65536 ∧ limit < 65535)) (hlt : n < 2 ^ 32)
    (hcursor : cursor = (addSize ptr n + 7) % 2 ^ 32 / 8 * 8)
    (hgrow : pages + pagesFor pages n cursor ≤ limit) :
    cursor = (ptr + n + 7) / 8 * 8 ∧ cursor < 2 ^ 32 ∧ pages < 65536 ∧
      (cursor < (pages + pagesFor pages n cursor) * 65536 ∨
        (cursor = (pages + pagesFor pages n cursor) * 65536 ∧ limit < 65535)) := by
  have hq : n / 65536 * 65536 ≤ n ∧ n < n / 65536 * 65536 + 65536 := by omega
  rw [addSize] at hcursor
  rw [pagesFor] at hgrow ⊢
  generalize n / 65536 = q at hq hgrow ⊢
  split at hgrow
  · rename_i hc
    rw [if_pos hc]
    omega
  · rename_i hc
    rw [if_neg hc]
    omega

/-- **A request is refused, or hands out the memory at the cursor.** -/
theorem alloc_cases (h : CursorOk heapBase σ) (hn : 0 < n) (hlt : n < 2 ^ 32) :
    σ.alloc n = .error SimpleWorld.noPages ∨
    ∃ σ', σ.alloc n = .ok (σ.lastPtr, σ') ∧ CursorOk heapBase σ' ∧ Granted σ n σ' ∧
      heapBase ≤ σ.lastPtr := by
  obtain ⟨cursor, hcursor⟩ : ∃ cursor, align (addSize σ.lastPtr n) 8 = cursor := ⟨_, rfl⟩
  obtain ⟨more, hmore⟩ : ∃ more, pagesFor σ.currentMemory n cursor = more := ⟨_, rfl⟩
  rw [alloc_eq h.pages (h.pages_le.trans h.limit_le) hn hlt hcursor hmore]
  by_cases hgrow : σ.currentMemory + more ≤ σ.limit
  · rw [if_pos hgrow]
    have hbase := h.base
    obtain ⟨hend, hword, hfree, hfits⟩ := cursor_arith h.limit_le h.aligned h.inside hlt
      (hcursor.symm.trans (align_eq _)) (hmore.symm ▸ hgrow)
    rw [hmore] at hfits
    refine .inr ⟨_, rfl, ⟨rfl, hgrow, h.limit_le, ?_, hfits, ?_⟩,
      ⟨rfl, rfl, Nat.le_add_right _ _, hend, ?_, ?_⟩, ?_⟩
    · change cursor % 8 = 0
      omega
    · change heapBase ≤ cursor ∨ _
      omega
    · rw [SimpleWorld.roundedEnd, ← hend]
      change cursor ≤ (σ.currentMemory + more) * 65536
      omega
    · rw [SimpleWorld.roundedEnd, ← hend]
      exact hword
    · omega
  · rw [if_neg hgrow]
    exact .inl rfl

end Dsmalloc

/-! ## Runs -/

namespace SimpleWorld

open Dsmalloc

/-- The blocks are what the cursor has passed. -/
structure SimpleOk (heapBase : Nat) (w : SimpleWorld) : Prop where
  cursor : CursorOk heapBase w.allocator
  below : ∀ b ∈ w.blocks, b.ptr % 8 = 0 ∧ heapBase ≤ b.ptr ∧ b.ptr + b.size ≤ w.allocator.lastPtr
  apart : w.blocks.Pairwise Disjoint

variable {heapBase : Nat} {w : SimpleWorld}

theorem SimpleOk.sound (h : SimpleOk heapBase w) : w.Sound heapBase := by
  refine ⟨fun b hb => ?_, h.apart⟩
  obtain ⟨haligned, hbase, hend⟩ := h.below b hb
  have hpage : MemoryManager.pageSize = 65536 := rfl
  have hinside := h.cursor.inside
  exact ⟨haligned, hbase, by rw [hpage]; omega⟩

/-- A request for `n` bytes. -/
theorem SimpleOk.alloc (h : SimpleOk heapBase w) {n : Nat} (hlt : n < 2 ^ 32) :
    w.allocator.alloc n = .error noPages ∨
    ∃ r, w.allocator.alloc n = .ok r ∧ SimpleOk heapBase (w.take n r) := by
  rcases Nat.eq_zero_or_pos n with rfl | hn
  · exact .inr ⟨(0, w.allocator), rfl, h⟩
  · rcases alloc_cases h.cursor hn hlt with hstop | ⟨σ', hok, hcursor, hgrant, hbase⟩
    · exact .inl hstop
    · have hend : σ'.lastPtr = (w.allocator.lastPtr + n + 7) / 8 * 8 := hgrant.cursor
      have hbelow : ∀ b ∈ w.blocks,
          b.ptr % 8 = 0 ∧ heapBase ≤ b.ptr ∧ b.ptr + b.size ≤ σ'.lastPtr := fun b hb => by
        have := h.below b hb
        omega
      refine .inr ⟨_, hok, ?_⟩
      unfold take
      split
      · exact ⟨hcursor, hbelow, h.apart⟩
      · refine ⟨hcursor, List.forall_mem_cons.2 ⟨⟨h.cursor.aligned, hbase, ?_⟩, hbelow⟩,
          List.pairwise_cons.2 ⟨fun b hb => .inr (h.below b hb).2.2, h.apart⟩⟩
        simp only
        omega

/-- The contents of the memory do not matter. -/
theorem SimpleOk.setMem (h : SimpleOk heapBase w) (m : ByteMem.Mem) :
    SimpleOk heapBase ⟨{ w.allocator with mem := m }, w.blocks⟩ :=
  ⟨⟨h.cursor.pages, h.cursor.pages_le, h.cursor.limit_le, h.cursor.aligned, h.cursor.inside,
    h.cursor.base⟩, h.below, h.apart⟩

/-- **A request keeps the blocks**, or is refused. -/
theorem SimpleOk.step (h : SimpleOk heapBase w) : ∀ r, InWord r →
    w.step r = .error noPages ∨ ∃ w', w.step r = .ok w' ∧ SimpleOk heapBase w'
  | .malloc size, hr => by
    have hlt : size < 2 ^ 32 := hr
    rcases h.alloc hlt with hstop | ⟨r, hok, hw⟩
    · exact .inl (by simp only [SimpleWorld.step, malloc, hstop, error_bind])
    · exact .inr ⟨_, by simp only [SimpleWorld.step, malloc, hok, ok_bind, pure_eq_ok], hw⟩
  | .calloc count size, hr => by
    have hlt : count * size < 2 ^ 32 := hr
    have hmod := Nat.mod_eq_of_lt hlt
    rcases h.alloc hlt with hstop | ⟨⟨ptr, σ⟩, hok, hw⟩
    · exact .inl (by simp only [SimpleWorld.step, calloc, hmod, hstop, error_bind])
    · by_cases hptr : ptr = 0
      · subst hptr
        exact .inr ⟨_, by simp only [SimpleWorld.step, calloc, hmod, hok, ok_bind, pure_eq_ok,
          ne_eq, not_true_eq_false, if_false], hw⟩
      · refine .inr ⟨_, by simp only [SimpleWorld.step, calloc, hmod, hok, ok_bind, pure_eq_ok,
          ne_eq, hptr, not_false_eq_true, if_true]; rfl, ?_⟩
        exact hw.setMem _
  | .realloc ptr size, hr => by
    have hlt : size < 2 ^ 32 := hr
    rcases h.alloc hlt with hstop | ⟨r, hok, hw⟩
    · exact .inl (by simp only [SimpleWorld.step, realloc, hstop, error_bind])
    · exact .inr ⟨_, by simp only [SimpleWorld.step, realloc, hok, ok_bind, pure_eq_ok], hw⟩
  | .free _, _ => .inr ⟨_, rfl, h⟩
  | .write _ _ _, _ => .inr ⟨_, rfl, h.setMem _⟩

theorem SimpleOk.run : ∀ (requests : List Request) {w : SimpleWorld}, SimpleOk heapBase w →
    (∀ r ∈ requests, InWord r) →
    SimpleWorld.run requests w = .error noPages ∨
    ∃ w', SimpleWorld.run requests w = .ok w' ∧ SimpleOk heapBase w'
  | [], w, h, _ => .inr ⟨w, rfl, h⟩
  | r :: requests, w, h, hr => by
    have hcons : ∀ w, SimpleWorld.run (r :: requests) w =
        w.step r >>= SimpleWorld.run requests := fun w => List.foldlM_cons
    rw [hcons]
    rcases h.step r (hr r (.head _)) with hstop | ⟨w₁, hok, h₁⟩
    · exact .inl (by rw [hstop, error_bind])
    · rw [hok, ok_bind]
      exact SimpleOk.run requests h₁ fun r' hr' => hr r' (.tail _ hr')

/-- A request without room is refused. -/
theorem SimpleOk.refused (h : SimpleOk heapBase w) {n : Nat} (hn : 0 < n) (hlt : n < 2 ^ 32)
    (hroom : Unsatisfiable w.allocator n) : w.allocator.alloc n = .error noPages := by
  rcases alloc_cases h.cursor hn hlt with hstop | ⟨σ', -, hcursor, hgrant, -⟩
  · exact hstop
  · have hfits := hgrant.fits
    have hword := hgrant.lt
    have hle := hcursor.pages_le
    rw [hgrant.limit] at hle
    rw [Unsatisfiable, show MemoryManager.pageSize = 65536 from rfl] at hroom
    omega

/-- The world that a program starts in, unless its first block starts at the end of the memory. -/
theorem SimpleOk.start {currentMemory limit : Nat} (h : Config heapBase currentMemory limit)
    (hend : ¬StartsAtEnd heapBase currentMemory limit) (mem : ByteMem.Mem) :
    SimpleOk heapBase (SimpleWorld.start mem heapBase currentMemory limit) := by
  have hpages := h.pages_le
  have hlim := h.limit_le
  have hheap := h.heap_le
  have halign := align_eq heapBase
  rw [MemoryManager.pageSize] at hheap
  rw [StartsAtEnd, MemoryManager.pageSize] at hend
  refine ⟨⟨rfl, hpages, hlim, ?_, ?_, ?_⟩, by simp [SimpleWorld.start], .nil⟩
  · change align heapBase 8 % 8 = 0
    omega
  · change align heapBase 8 < currentMemory * 65536 ∨
      (align heapBase 8 = currentMemory * 65536 ∧ limit < 65535)
    omega
  · change heapBase ≤ align heapBase 8 ∨ currentMemory = 65536
    omega

/-- The request that ends in the last bytes of the address space. -/
theorem alloc_at_end {currentMemory limit : Nat} (h : Config heapBase currentMemory limit)
    (hend : StartsAtEnd heapBase currentMemory limit) (mem : ByteMem.Mem) :
    ∃ w, SimpleWorld.run [.malloc ((65535 - currentMemory) * 65536 + 65529)]
      (SimpleWorld.start mem heapBase currentMemory limit) = .ok w ∧ ¬w.Sound heapBase := by
  obtain ⟨hround, hfree, hlim⟩ := hend
  have hpos := h.pages_pos
  rw [MemoryManager.pageSize] at hround
  have hptr : align heapBase 8 = currentMemory * 65536 := by
    rw [align_eq]
    omega
  -- the cursor wraps to 0, and no page is added for it
  have hcursor : align (addSize (align heapBase 8)
      ((65535 - currentMemory) * 65536 + 65529)) 8 = 0 := by
    rw [hptr, align_eq, addSize]
    omega
  have hmore : pagesFor currentMemory ((65535 - currentMemory) * 65536 + 65529) 0 =
      65535 - currentMemory := by
    rw [pagesFor, if_neg (by omega)]
    omega
  have hgrow : (Dsmalloc.start mem heapBase currentMemory limit).currentMemory +
      (65535 - currentMemory) ≤ (Dsmalloc.start mem heapBase currentMemory limit).limit := by
    change currentMemory + (65535 - currentMemory) ≤ limit
    omega
  have halloc : (Dsmalloc.start mem heapBase currentMemory limit).alloc _ = _ :=
    alloc_eq rfl (show currentMemory ≤ 65536 by omega) (by omega) (by omega) hcursor hmore
  rw [if_pos hgrow] at halloc
  refine ⟨_, by simp only [SimpleWorld.run, List.foldlM_cons, List.foldlM_nil, SimpleWorld.step,
    malloc, SimpleWorld.start, halloc, ok_bind, pure_eq_ok]; rfl, fun hsound => ?_⟩
  have hblock : (⟨align heapBase 8, (65535 - currentMemory) * 65536 + 65529⟩ : Block) ∈
      (if align heapBase 8 = 0 then [] else
        [⟨align heapBase 8, (65535 - currentMemory) * 65536 + 65529⟩] : List Block) := by
    rw [if_neg (by omega)]
    exact List.mem_singleton.2 rfl
  have hinside : align heapBase 8 + ((65535 - currentMemory) * 65536 + 65529) ≤
      (currentMemory + (65535 - currentMemory)) * 65536 := (hsound.1 _ hblock).2.2
  omega

/-- **When every run is safe**: the base of the heap, rounded up, is not the end of the memory that the
program starts with, or that memory is the whole address space, or it cannot grow to all but one of
the pages of the address space. -/
theorem safe_iff {currentMemory limit : Nat} (h : Config heapBase currentMemory limit) :
    Safe heapBase currentMemory limit ↔ ¬StartsAtEnd heapBase currentMemory limit := by
  constructor
  · intro hsafe hend
    obtain ⟨w, hrun, hunsound⟩ := alloc_at_end h hend fun _ => 0
    have hword : ∀ r ∈ [Request.malloc ((65535 - currentMemory) * 65536 + 65529)], InWord r := by
      intro r hr
      obtain rfl := List.mem_singleton.1 hr
      have hpos := h.pages_pos
      change (65535 - currentMemory) * 65536 + 65529 < 2 ^ 32
      omega
    rcases hsafe _ _ hword with hstop | ⟨w', hok, hsound, -⟩
    · rw [hrun] at hstop
      cases hstop
    · rw [hrun] at hok
      cases hok
      exact hunsound hsound
  · intro hend mem requests hword
    rcases (SimpleOk.start h hend mem).run requests hword with hstop | ⟨w, hok, hw⟩
    · exact .inl hstop
    · exact .inr ⟨w, hok, hw.sound, fun n hn hlt hroom => hw.refused hn hlt hroom⟩

theorem safe_sample : Safe 66560 2 1024 :=
  (safe_iff ⟨by decide, by decide, by decide, by decide⟩).2 (by simp [StartsAtEnd])

/-- Two pages of static data, and a first block of all but seven bytes of the rest of the address
space: it is returned although the last page is not granted. -/
theorem run_past_end : Config 131072 2 65536 ∧
    ∃ w, run [.malloc 4294836217] (start (fun _ => 0) 131072 2 65536) = .ok w ∧
      ¬w.Sound 131072 := by
  have hconfig : Config 131072 2 65536 := ⟨by decide, by decide, by decide, by decide⟩
  exact ⟨hconfig, alloc_at_end hconfig ⟨by decide, by decide, by decide⟩ _⟩

end SimpleWorld

end Wasmlib
