import WasmCdt.Core.Calloc
import WasmCdt.Core.Proof.Realloc

/-!
# Sizes are honoured

While the sizes of a program do not wrap, a block has the bytes that were asked for, and it is what
the cursor of its heap has passed, unless it was resized in place.

* `WorldOk.calloc`, `WorldOk.allocStep`: `calloc` keeps the blocks, as the other calls do.
* `WorldOk.honours`: one request; `sizes_honoured`: **every request after every run**, of both allocators.
-/

namespace Wasmlib

open ByteMem

theorem agreeOff_zero (ptr n : Nat) (m : Mem) : AgreeOff ptr (ptr + n) m (Dsmalloc.zero ptr n m) := by
  intro x hx
  exact if_neg (by omega)

theorem zero_nothing (ptr : Nat) (m : Mem) : Dsmalloc.zero ptr 0 m = m := by
  funext x
  exact if_neg (by omega)

/-- A tile of a heap has the payload its header says. -/
theorem ManagerOk.hasPayload {σ : MemoryManager} {ts : Nat → List Tile} {i ptr size n : Nat}
    (hσ : ManagerOk σ ts) (hi : i ≤ σ.activeHeap) (hocc : Occupied (ts i) ptr size) (hn : n ≤ size) :
    World.HasPayload σ ptr n i := by
  have hheap := hσ.heaps i hi
  have hpos := hheap.heap_pos
  have hoff := hheap.offset_le
  have hactive := hσ.active
  obtain ⟨t, ht, -, rfl, hsize⟩ := hocc
  have hbounds := hheap.bounds ht
  rw [World.HasPayload, (hheap.ok t ht).ofHeader, hσ.actual, heapsSize]
  refine ⟨hn.trans hsize, by omega, ?_, ?_, ?_⟩
  · simp only [Memory.isInit, bne_iff_ne]
    omega
  · exact Nat.add_le_add_right hbounds.1 4
  · simp only
    omega

namespace WorldOk

variable {w : World} {ts ts' : Nat → List Tile} {σ' : MemoryManager} {new n : Nat}

/-- A block that the program has got, and that a cursor has passed unless it was there. -/
theorem honoursBlock {a : Allocation} {live : List Block}
    (h : WorldOk ⟨σ', ⟨new, adjustToMemBlock a.size⟩ :: live⟩ ts') (hle : a.size ≤ 2 ^ 32 - sizeMarker)
    (hadv : Advances w.manager σ') (hpassed : some new ≠ a.old → Passed w.manager σ' new) :
    World.Honours w.manager a (some new) σ' where
  cursors := hadv
  block := by
    rintro p ⟨⟩
    have hσ := h.manager _ List.mem_cons_self
    have hholds := h.holds _ List.mem_cons_self
    have hround := le_adjustToMemBlock hle
    by_cases hold : some new = a.old
    · obtain ⟨i, hi, hocc⟩ := hholds
      exact ⟨i, hσ.hasPayload hi hocc hround, fun hne => absurd hold hne⟩
    · obtain ⟨i, hi, hup, hlo, hhi⟩ := hpassed hold
      have hocc := hσ.occupied_of_between hholds hi hlo hhi
      exact ⟨i, hσ.hasPayload hi hocc hround, fun _ => hup⟩

/-- A call of `calloc` for a product that is not 0. -/
theorem calloc (h : WorldOk w ts) {count size : Nat} (hsize : count * size ≠ 0)
    (hlt : count * size < 2 ^ 32)
    (hfits : ManagerOk.Fits w.manager (adjustToMemBlock (count * size)))
    (hround : count * size ≤ adjustToMemBlock (count * size)) :
    w.manager.calloc count size = .error MemoryManager.noMemory ∨
    ∃ new σ' ts', w.manager.calloc count size = .ok (some new, σ') ∧
      WorldOk ⟨σ', ⟨new, adjustToMemBlock (count * size)⟩ :: w.live⟩ ts' ∧ Advances w.manager σ' ∧
      Passed w.manager σ' new := by
  have hmod := Nat.mod_eq_of_lt hlt
  rcases h.malloc hsize hfits with hstop | ⟨new, σ', ts', hok, hw, hadv, hpassed⟩
  · left
    simp only [MemoryManager.calloc, hmod, hstop, error_bind]
  · right
    have hholds := hw.holds _ List.mem_cons_self
    have hzero := (hw.manager _ List.mem_cons_self).write (p := none) hholds (Nat.le_refl new)
      (Nat.add_le_add_left hround new) (agreeOff_zero new (count * size) σ'.mem)
    have hrelease := hw.release hzero
    rw [without_none] at hrelease
    refine ⟨new, _, ts', ?_, hrelease, hadv, hpassed⟩
    simp only [MemoryManager.calloc, hmod, hok, ok_bind, Option.getD_some, pure_eq_ok]

theorem calloc_zero {count size : Nat} (h : count * size = 0) (σ : MemoryManager) :
    σ.calloc count size = .ok (none, σ) := by
  simp only [MemoryManager.calloc, h, Nat.zero_mod, MemoryManager.malloc, if_true, pure_eq_ok, ok_bind,
    zero_nothing]

/-- **An allowed call keeps the blocks tiles**, or runs out of pages. -/
theorem allocStep (h : WorldOk w ts) : ∀ call, w.Allows call →
    w.allocStep call = .error MemoryManager.noMemory ∨
    ∃ w' ts', w.allocStep call = .ok w' ∧ WorldOk w' ts'
  | .call call, hallows => h.step call hallows.1 hallows.2
  | .calloc count size, ⟨hvalid, hfine⟩ => by
    rcases eq_or_ne (count * size) 0 with hzero | hsize
    · refine .inr ⟨w, ts, ?_, h⟩
      simp only [World.allocStep, calloc_zero hzero, ok_bind, Option.map_none, Option.toList_none,
        List.nil_append, pure_eq_ok]
    · have hfits := (hfine.resolve_left hsize).fits hvalid
      have hlt : count * size < 2 ^ 32 := Nat.lt_of_le_of_lt hvalid (by decide)
      rcases h.calloc hsize hlt hfits (le_adjustToMemBlock hvalid) with hstop |
          ⟨new, σ', ts', hok, hw, -⟩
      · exact .inl (by simp only [World.allocStep, hstop, error_bind])
      · exact .inr ⟨_, ts', by simp only [World.allocStep, hok, ok_bind, pure_eq_ok]; rfl, hw⟩

theorem allocRun {calls : List AllocCall} (h : WorldOk w ts) (hallows : w.AllowsAll calls) :
    World.allocRun calls w = .error MemoryManager.noMemory ∨
    ∃ w' ts', World.allocRun calls w = .ok w' ∧ WorldOk w' ts' := by
  induction calls generalizing w ts with
  | nil => exact .inr ⟨w, ts, rfl, h⟩
  | cons call calls ih =>
    obtain ⟨hcall, hrest⟩ := hallows
    have hcons : World.allocRun (call :: calls) w = w.allocStep call >>= World.allocRun calls :=
      List.foldlM_cons
    rw [hcons]
    rcases h.allocStep call hcall with hstop | ⟨w₁, ts₁, hok, h₁⟩
    · exact .inl (by rw [hstop, error_bind])
    · rw [hok, ok_bind]
      exact ih h₁ (hrest w₁ hok)

theorem honoursNull {a : Allocation} (hheaps : σ'.availableHeaps = w.manager.availableHeaps) :
    World.Honours w.manager a none σ' := ⟨fun i => by rw [hheaps], by simp⟩

/-- A request for which a block is allocated. -/
theorem honoursNew {a : Allocation} (hle : a.size ≤ 2 ^ 32 - sizeMarker)
    (h : a.exec w.manager = .error MemoryManager.noMemory ∨
      ∃ new σ' ts', a.exec w.manager = .ok (some new, σ') ∧
        WorldOk ⟨σ', ⟨new, adjustToMemBlock a.size⟩ :: w.live⟩ ts' ∧ Advances w.manager σ' ∧
        Passed w.manager σ' new) :
    a.exec w.manager = .error MemoryManager.noMemory ∨
    ∃ new σ', a.exec w.manager = .ok (new, σ') ∧ World.Honours w.manager a new σ' := by
  rcases h with hstop | ⟨new, σ', ts', hok, hw, hadv, hpassed⟩
  · exact .inl hstop
  · exact .inr ⟨some new, σ', hok, honoursBlock hw hle hadv fun _ => hpassed⟩

/-- **A request is honoured**, or runs out of pages. -/
theorem honours (h : WorldOk w ts) : ∀ a : Allocation, w.Allows a.call →
    a.exec w.manager = .error MemoryManager.noMemory ∨
    ∃ new σ', a.exec w.manager = .ok (new, σ') ∧ World.Honours w.manager a new σ'
  | .malloc size, ⟨hvalid, hfine⟩ => by
    rcases eq_or_ne size 0 with rfl | hsize
    · exact .inr ⟨none, w.manager, rfl, honoursNull rfl⟩
    · exact honoursNew (a := .malloc size) hvalid
        (h.malloc hsize ((hfine.resolve_left hsize).fits hvalid))
  | .calloc count size, ⟨hvalid, hfine⟩ => by
    rcases eq_or_ne (count * size) 0 with hzero | hsize
    · exact .inr ⟨none, w.manager, calloc_zero hzero _, honoursNull rfl⟩
    · exact honoursNew (a := .calloc count size) hvalid
        (h.calloc hsize (Nat.lt_of_le_of_lt hvalid (by decide))
          ((hfine.resolve_left hsize).fits hvalid) (le_adjustToMemBlock hvalid))
  | .realloc none size, ⟨hvalid, hfine⟩ => by
    rcases eq_or_ne size 0 with rfl | hsize
    · exact .inr ⟨none, w.manager, rfl, honoursNull rfl⟩
    · have hfits : World.SizeFits w.manager (adjustToMemBlock size) := by
        rcases hfine with hzero | ⟨p, ⟨⟩, -⟩ | ⟨hfits, -⟩
        · exact absurd hzero hsize
        · exact hfits
      have hmalloc := h.malloc hsize (hfits.fits hvalid.2)
      rw [← realloc_none (Nat.lt_of_le_of_lt hvalid.2 (by decide))] at hmalloc
      exact honoursNew (a := .realloc none size) hvalid.2 hmalloc
  | .realloc (some ptr) size, ⟨hvalid, hfine⟩ => by
    obtain ⟨b, hb, rfl⟩ := hvalid.1 ptr rfl
    rcases eq_or_ne size 0 with rfl | hsize
    · exact .inr ⟨none, _, rfl, honoursNull (MemoryManager.free_heaps _ _)⟩
    · rcases h.realloc hb hsize hvalid.2 hfine with hstop |
          ⟨new, σ', ts', hok, hw, -, hadv, hpassed⟩
      · exact .inl hstop
      · exact .inr ⟨some new, σ', hok, honoursBlock (a := .realloc (some b.ptr) size) hw hvalid.2 hadv
          fun hne => hpassed fun heq => hne (congrArg some heq)⟩

end WorldOk

/-! ## `calloc` of the default allocator -/

namespace SimpleWorld

/-- What `calloc` returns is null, or all its bytes are in the memory and above the heap's base and the
cursor has moved up; it does not move back. -/
structure HonoursCalloc (heapBase count size : Nat) (σ : Dsmalloc) (r : Nat × Dsmalloc) : Prop where
  cursor : σ.lastPtr ≤ r.2.lastPtr
  block : r.1 ≠ 0 → heapBase ≤ r.1 ∧
    r.1 + count * size ≤ r.2.currentMemory * MemoryManager.pageSize ∧ σ.lastPtr < r.2.lastPtr

theorem SimpleOk.honoursCalloc {heapBase : Nat} {w : SimpleWorld} (h : SimpleOk heapBase w)
    {count size : Nat} (hlt : count * size < 2 ^ 32) :
    w.allocator.calloc count size = .error noPages ∨
    ∃ r, w.allocator.calloc count size = .ok r ∧ HonoursCalloc heapBase count size w.allocator r := by
  have hmod := Nat.mod_eq_of_lt hlt
  rcases Nat.eq_zero_or_pos (count * size) with hzero | hpos
  · refine .inr ⟨(0, w.allocator), ?_, Nat.le_refl _, fun hne => absurd rfl hne⟩
    simp only [Dsmalloc.calloc, hzero, Nat.zero_mod, Dsmalloc.alloc, if_true, pure_eq_ok, ok_bind,
      ne_eq, not_true_eq_false, if_false]
  · rcases Dsmalloc.alloc_cases h.cursor hpos hlt with hstop | ⟨σ', hok, -, hgrant, hbase⟩
    · left
      simp only [Dsmalloc.calloc, hmod, hstop, error_bind]
    · right
      have hcursor := hgrant.cursor
      have hfits := hgrant.fits
      rw [roundedEnd] at hcursor hfits
      have hpage : MemoryManager.pageSize = 65536 := rfl
      refine ⟨if w.allocator.lastPtr ≠ 0 then (w.allocator.lastPtr, { σ' with
        mem := Dsmalloc.zero w.allocator.lastPtr (count * size) σ'.mem }) else (0, σ'), ?_, ?_, ?_⟩
      · simp only [Dsmalloc.calloc, hmod, hok, ok_bind]
        split_ifs <;> rfl
      · split_ifs <;> simp only <;> omega
      · split_ifs with hptr
        · intro _
          simp only [hpage]
          omega
        · exact fun hne => absurd rfl hne

end SimpleWorld

/-! ## Runs -/

/-- **Sizes are honoured.** After every run of allowed calls, an allowed request of the manager is
honoured, or runs out of pages; and after every run of requests of the default allocator, so is a
`calloc` whose product is a size. -/
theorem sizes_honoured {initialHeap pages heapBase currentMemory limit : Nat}
    (hlayout : World.Layout initialHeap pages) (calls : List AllocCall)
    (hallows : (World.start initialHeap pages).AllowsAll calls)
    (hconfig : SimpleWorld.Config heapBase currentMemory limit)
    (hend : ¬SimpleWorld.StartsAtEnd heapBase currentMemory limit) (mem : Mem)
    (requests : List Request) (hwords : ∀ r ∈ requests, SimpleWorld.InWord r) :
    (World.allocRun calls (World.start initialHeap pages) = .error MemoryManager.noMemory ∨
      ∃ w, World.allocRun calls (World.start initialHeap pages) = .ok w ∧
        ∀ a : Allocation, w.Allows a.call →
          a.exec w.manager = .error MemoryManager.noMemory ∨
          ∃ new σ', a.exec w.manager = .ok (new, σ') ∧ World.Honours w.manager a new σ') ∧
    (SimpleWorld.run requests (.start mem heapBase currentMemory limit) = .error SimpleWorld.noPages ∨
      ∃ w, SimpleWorld.run requests (.start mem heapBase currentMemory limit) = .ok w ∧
        ∀ count size, count * size < 2 ^ 32 →
          w.allocator.calloc count size = .error SimpleWorld.noPages ∨
          ∃ r, w.allocator.calloc count size = .ok r ∧
            SimpleWorld.HonoursCalloc heapBase count size w.allocator r) := by
  constructor
  · rcases (WorldOk.start hlayout).allocRun hallows with hstop | ⟨w, ts, hok, hw⟩
    · exact .inl hstop
    · exact .inr ⟨w, hok, hw.honours⟩
  · rcases (SimpleWorld.SimpleOk.start hconfig hend mem).run requests hwords with hstop | ⟨w, hok, hw⟩
    · exact .inl hstop
    · exact .inr ⟨w, hok, fun count size hlt => hw.honoursCalloc hlt⟩

instance (w : World) : ∀ call, Decidable (w.Allows call)
  | .call _ => inferInstanceAs (Decidable (_ ∧ _))
  | .calloc _ _ => inferInstanceAs (Decidable (_ ∧ _))

theorem World.AllowsAll.cons {w w' : World} {call : AllocCall} {calls : List AllocCall}
    (hcall : w.Allows call) (h : w.allocStep call = .ok w') (hcalls : w'.AllowsAll calls) :
    w.AllowsAll (call :: calls) := by
  refine ⟨hcall, fun w₁ h₁ => ?_⟩
  rw [h] at h₁
  cases h₁
  exact hcalls

theorem sizes_honoured_sample :
    (World.allocRun [.call (.malloc 4), .calloc 5 4] (.start 1024 1) = .error MemoryManager.noMemory ∨
      ∃ w, World.allocRun [.call (.malloc 4), .calloc 5 4] (.start 1024 1) = .ok w ∧
        ∀ a : Allocation, w.Allows a.call →
          a.exec w.manager = .error MemoryManager.noMemory ∨
          ∃ new σ', a.exec w.manager = .ok (new, σ') ∧ World.Honours w.manager a new σ') ∧
    (SimpleWorld.run [.calloc 3 4] (.start (fun _ => 0) 66560 2 1024) = .error SimpleWorld.noPages ∨
      ∃ w, SimpleWorld.run [.calloc 3 4] (.start (fun _ => 0) 66560 2 1024) = .ok w ∧
        ∀ count size, count * size < 2 ^ 32 →
          w.allocator.calloc count size = .error SimpleWorld.noPages ∨
          ∃ r, w.allocator.calloc count size = .ok r ∧
            SimpleWorld.HonoursCalloc 66560 count size w.allocator r) := by
  refine sizes_honoured ⟨by decide, by decide, by decide⟩ _ ?_
    ⟨by decide, by decide, by decide, by decide⟩ (by simp [SimpleWorld.StartsAtEnd]) _ _ ?_
  · exact .cons (by decide) rfl (.cons (by decide +kernel) rfl trivial)
  · intro r hr
    obtain rfl := List.mem_singleton.1 hr
    exact (by decide : 3 * 4 < 2 ^ 32)

/-- `realloc` returns a block and leaves the cursors where they are; and a size that wraps when it is
rounded up makes a block of four bytes. -/
theorem realloc_keeps_cursor :
    (∃ w, World.allocRun [.call (.malloc 20)] (.start 1024 1) = .ok w ∧
      ∃ σ', w.manager.realloc (some 1028) 4 = .ok (some 1028, σ') ∧
        ∀ i, (σ'.availableHeaps i).offset = (w.manager.availableHeaps i).offset) ∧
    (∃ σ', (World.start 1024 1).manager.malloc (2 ^ 32 - 1) = .ok (some 1028, σ') ∧
      (BufferPtr.ofHeader 1028 0 σ'.mem).size = 4) := by
  refine ⟨⟨_, rfl, _, rfl, fun i => ?_⟩, _, rfl, ?_⟩
  · rcases eq_or_ne i 0 with rfl | hne
    · rfl
    · exact congrArg Memory.offset (Function.update_of_ne hne _ _)
  · decide +kernel

end Wasmlib
