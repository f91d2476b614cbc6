import WasmCdt.Core.Allocator
import WasmCdt.Core.Proof.Manager

/-!
# The blocks of a program stay sound

Every block of the program is an allocated tile of some heap, and no two blocks are the same tile.
A call keeps this if it is fine, so that a run of fine calls ends in a sound world, unless the pages
run out.

* `WorldOk.sound`: blocks that are tiles are sound.
* `WorldOk.step`: one call; `World.run_sound`: a run.
* `World.run_unsound`: calls that are not fine, and blocks that overlap or leave their heap.
-/

namespace Wasmlib

open ByteMem

/-- The blocks of the program are tiles of the manager's heaps, each its own. -/
structure WorldOk (w : World) (ts : Nat → List Tile) : Prop where
  prepared : ManagerOk w.manager.prepare ts
  /-- Before the first `malloc` there are no blocks. -/
  manager : ∀ b ∈ w.live, ManagerOk w.manager ts
  holds : ∀ b ∈ w.live, Holds w.manager ts b.ptr b.size
  distinct : w.live.Pairwise fun b c => b.ptr ≠ c.ptr

/-! ## Sizes -/

theorem adjustToMemBlock_blockSize {size : Nat} (h : size ≤ 2 ^ 32 - sizeMarker)
    (hlt : adjustToMemBlock size < 2 ^ 31) : BlockSize (adjustToMemBlock size) := by
  rw [sizeMarker] at h
  refine ⟨?_, hlt⟩
  rw [adjustToMemBlock_mod (by omega)]
  omega

theorem le_adjustToMemBlock {size : Nat} (h : size ≤ 2 ^ 32 - sizeMarker) :
    size ≤ adjustToMemBlock size := by
  rw [sizeMarker] at h
  rw [adjustToMemBlock_mod (by omega)]
  omega

/-- Rounding again changes nothing, also where the size wraps. -/
theorem malloc_adjust {size : Nat} (hsize : size ≠ 0) (hlt : size < 2 ^ 32) (σ : MemoryManager) :
    σ.malloc (adjustToMemBlock size) = σ.malloc size := by
  have hmod := adjustToMemBlock_mod hlt
  have hagain : adjustToMemBlock (adjustToMemBlock size) = adjustToMemBlock size := by
    rw [adjustToMemBlock_mod (by omega)]
    omega
  have hne : adjustToMemBlock size ≠ 0 := by omega
  simp only [MemoryManager.malloc, hne, hsize, ↓reduceIte, hagain]

theorem prepare_offset (σ : MemoryManager) (i : Nat) :
    (σ.prepare.availableHeaps i).offset = (σ.availableHeaps i).offset := by
  have hset : ∀ σ : MemoryManager, ((σ.setHeap 0 ((σ.availableHeaps 0).init σ.initialHeap
      initialHeapSize)).availableHeaps i).offset = (σ.availableHeaps i).offset := by
    intro σ
    rcases eq_or_ne i 0 with rfl | hne
    · simp only [MemoryManager.setHeap, Function.update_self, Memory.init]
    · simp only [MemoryManager.setHeap, Function.update_of_ne hne]
  simp only [MemoryManager.prepare]
  split_ifs
  · exact hset { σ with heapsActualSize := heapsSize }
  · rfl
  · exact hset σ
  · rfl

theorem activeOffset_prepare (σ : MemoryManager) :
    ManagerOk.activeOffset σ.prepare = ManagerOk.activeOffset σ := by
  have hactive : σ.prepare.activeHeap = σ.activeHeap := by
    simp only [MemoryManager.prepare]
    split_ifs <;> rfl
  rw [ManagerOk.activeOffset, prepare_offset, hactive, ManagerOk.activeOffset]

theorem advances_prepare (σ : MemoryManager) : Advances σ σ.prepare := fun i =>
  Nat.le_of_eq (prepare_offset σ i).symm

theorem World.SizeFits.fits {σ : MemoryManager} {size : Nat}
    (h : World.SizeFits σ (adjustToMemBlock size)) (hs : size ≤ 2 ^ 32 - sizeMarker) :
    ManagerOk.Fits σ (adjustToMemBlock size) :=
  ⟨adjustToMemBlock_blockSize hs h.1, h.2⟩

namespace WorldOk

variable {w : World} {ts : Nat → List Tile} {σ' : MemoryManager} {ts' : Nat → List Tile}
  {live : List Block} {b c : Block} {p : Option Nat} {size : Nat}

theorem of_manager (hσ : ManagerOk σ' ts') (hholds : ∀ b ∈ live, Holds σ' ts' b.ptr b.size)
    (hdistinct : live.Pairwise fun b c => b.ptr ≠ c.ptr) : WorldOk ⟨σ', live⟩ ts' where
  prepared := by
    rw [hσ.prepare_eq]
    exact hσ
  manager _ _ := hσ
  holds := hholds
  distinct := hdistinct

/-- **Blocks that are tiles are sound.** -/
theorem sound (h : WorldOk w ts) : w.Sound := by
  constructor
  · refine h.distinct.imp_of_mem fun {b c} hb hc hne => ?_
    exact (h.manager b hb).holds_apart (h.holds b hb) (h.holds c hc) hne
  · intro b hb
    have hσ := h.manager b hb
    obtain ⟨i, hi, hocc⟩ := h.holds b hb
    obtain ⟨hstart, -, hstop⟩ := hσ.holds_bounds hi hocc
    have hoff := (hσ.heaps i hi).offset_le
    have hpos := (hσ.heaps i hi).heap_pos
    refine ⟨i, ?_, ?_, hstart, by omega⟩
    · rw [hσ.actual]
      exact Nat.lt_of_le_of_lt (Nat.le_trans hi hσ.active) (by decide)
    · simp only [Memory.isInit, bne_iff_ne]
      omega

/-- The manager's blocks are those of the prepared manager. -/
theorem holds_prepare (h : WorldOk w ts) (hb : b ∈ w.live) :
    Holds w.manager.prepare ts b.ptr b.size := by
  rw [(h.manager b hb).prepare_eq]
  exact h.holds b hb

theorem mem_without : b ∈ World.without p live ↔ b ∈ live ∧ some b.ptr ≠ p := by
  simp only [World.without, List.mem_filter, decide_eq_true_eq]

theorem without_none : World.without none live = live := by
  simp [World.without]

theorem distinct_without (h : live.Pairwise fun b c => b.ptr ≠ c.ptr) :
    (World.without p live).Pairwise fun b c => b.ptr ≠ c.ptr := h.filter _

/-- A block is given up. -/
theorem release (h : WorldOk w ts) (hev : Evolves w.manager ts p σ' ts') :
    WorldOk ⟨σ', World.without p w.live⟩ ts' := by
  refine of_manager hev.ok ?_ (distinct_without h.distinct)
  intro b hb
  obtain ⟨hlive, hne⟩ := mem_without.1 hb
  exact hev.keeps hne (h.holds b hlive)

/-- A block is given up, and one is taken that is at its place or new. -/
theorem adopt {new : Nat} (h : WorldOk w ts) (hev : Evolves w.manager.prepare ts p σ' ts')
    (hnew : Holds σ' ts' new size) (hfresh : some new = p ∨ Fresh w.manager.prepare ts new) :
    WorldOk ⟨σ', ⟨new, size⟩ :: World.without p w.live⟩ ts' := by
  refine of_manager hev.ok ?_ (List.pairwise_cons.2 ⟨?_, distinct_without h.distinct⟩)
  · intro b hb
    rcases List.mem_cons.1 hb with rfl | hb
    · exact hnew
    · obtain ⟨hlive, hne⟩ := mem_without.1 hb
      exact hev.keeps hne (h.holds_prepare hlive)
  · rintro b hb heq
    have heq' : new = b.ptr := heq
    obtain ⟨hlive, hne⟩ := mem_without.1 hb
    rcases hfresh with rfl | hfresh
    · exact hne (congrArg some heq'.symm)
    · exact hfresh b.size (heq' ▸ h.holds_prepare hlive)

/-- A call of `malloc` for a size that is not 0. -/
theorem malloc (h : WorldOk w ts) (hsize : size ≠ 0)
    (hfits : ManagerOk.Fits w.manager (adjustToMemBlock size)) :
    w.manager.malloc size = .error MemoryManager.noMemory ∨
    ∃ new σ' ts', w.manager.malloc size = .ok (some new, σ') ∧
      WorldOk ⟨σ', ⟨new, adjustToMemBlock size⟩ :: w.live⟩ ts' ∧ Advances w.manager σ' ∧
      Passed w.manager σ' new := by
  have hfits' : ManagerOk.Fits w.manager.prepare (adjustToMemBlock size) :=
    ⟨hfits.block, by rw [activeOffset_prepare]; exact hfits.end_lt⟩
  rcases h.prepared.malloc_spec hsize hfits' with hstop |
      ⟨new, σ', ts', hok, hev, hnew, hfresh, hadv, hpassed⟩
  · exact .inl hstop
  · have hw := h.adopt hev.toEvolves hnew (.inr hfresh)
    rw [without_none] at hw
    have hprepare := advances_prepare w.manager
    exact .inr ⟨new, σ', ts', hok, hw, hprepare.trans hadv, hprepare.passed hpassed⟩

/-- The tile of a block, and what the manager knows of it. -/
theorem tile (h : WorldOk w ts) (hb : b ∈ w.live) : ∃ i ≤ w.manager.activeHeap, ∃ t ∈ ts i,
    t.alloc = true ∧ t.start + 4 = b.ptr ∧ b.size ≤ t.size ∧
    w.manager.findHeap b.ptr w.manager.heapsActualSize 0 = some i ∧ w.recordedSize b.ptr = t.size := by
  have hσ := h.manager b hb
  obtain ⟨i, hi, hocc⟩ := h.holds b hb
  have hfind := hσ.findHeap_eq hi hocc
  obtain ⟨t, ht, halloc, hptr, hsize⟩ := hocc
  have hheader := ((hσ.heaps i hi).ok t ht).ofHeader 0
  refine ⟨i, hi, t, ht, halloc, hptr, hsize, hfind, ?_⟩
  rw [World.recordedSize, ← hptr, hheader]

/-- What a call of `realloc` observes is what its heap needs. -/
theorem resizable (h : WorldOk w ts) (hb : b ∈ w.live) {i : Nat} (hi : i ≤ w.manager.activeHeap)
    {t : Tile} (ht : t ∈ ts i) (hptr : t.start + 4 = b.ptr) (hrec : w.recordedSize b.ptr = t.size)
    (hfine : size ≤ t.size ∨ w.GrowthFits b.ptr size (w.manager.availableHeaps i)) :
    Resizable (w.manager.availableHeaps i) (ts i) t size := by
  have hheap := (h.manager b hb).heaps i hi
  have hbounds := hheap.bounds ht
  have hoff := hheap.offset_le
  rw [Resizable]
  rcases hfine with hle | hgrow
  · split_ifs
    · omega
    · exact .inr (.inl (by omega))
  · rw [World.GrowthFits, hrec, hheap.heapEnd_eq, ← hptr] at hgrow
    split_ifs at hgrow ⊢ with hlast
    · exact hgrow
    · rcases hgrow with ⟨c, hc, hlo, hhi⟩ | hgrow
      · obtain ⟨t', ht', halloc', hptr', -⟩ :=
          (h.manager c hc).occupied_of_between (h.holds c hc) hi (by omega) hhi
        exact .inl ⟨t', ht', halloc', by omega⟩
      · exact .inr hgrow

/-- What the manager moves is the block. -/
theorem resized (h : WorldOk w ts) (hb : b ∈ w.live) (hle : size ≤ 2 ^ 32 - sizeMarker) {new n : Nat}
    (hroom : b.size ≤ n) (hev : Carries w.manager ts (some b.ptr) σ' ts')
    (hmoved : ∀ k < min n (adjustToMemBlock size), σ'.mem (new + k) = w.manager.mem (b.ptr + k)) :
    b.Resized w.manager.mem σ'.mem w.live new size where
  moved i hi := hmoved i (by
    have hround := le_adjustToMemBlock hle
    omega)
  others c hc hne i hi := by
    have hsymm : Std.Symm fun b c : Block => b.ptr ≠ c.ptr := ⟨fun _ _ => Ne.symm⟩
    have hptr : c.ptr ≠ b.ptr := h.distinct.forall hc hb hne
    exact hev.bytes (fun heq => hptr (Option.some.inj heq)) (h.holds c hc) i hi

/-- A call of `realloc` for a block and a size that is not 0. -/
theorem realloc (h : WorldOk w ts) (hb : b ∈ w.live) (hsize : size ≠ 0)
    (hle : size ≤ 2 ^ 32 - sizeMarker) (hfine : w.Fine (.realloc (some b.ptr) size)) :
    w.manager.realloc (some b.ptr) size = .error MemoryManager.noMemory ∨
    ∃ new σ' ts', w.manager.realloc (some b.ptr) size = .ok (some new, σ') ∧
      WorldOk ⟨σ', ⟨new, adjustToMemBlock size⟩ :: World.without (some b.ptr) w.live⟩ ts' ∧
      b.Resized w.manager.mem σ'.mem w.live new size ∧ Advances w.manager σ' ∧
      (new ≠ b.ptr → Passed w.manager σ' new) := by
  have hσ := h.manager b hb
  obtain ⟨i, hi, t, ht, halloc, hptr, hroom, hfind, hrec⟩ := h.tile hb
  have htsize := ((hσ.heaps i hi).ok t ht).size.lt
  have hcases : adjustToMemBlock size ≤ t.size ∨ World.SizeFits w.manager (adjustToMemBlock size) ∧
      w.GrowthFits b.ptr (adjustToMemBlock size) (w.manager.availableHeaps i) := by
    rcases hfine with hzero | ⟨p, ⟨⟩, hshrink⟩ | ⟨hfits, hgrow⟩
    · exact absurd hzero hsize
    · exact .inl (hrec ▸ hshrink)
    · exact .inr ⟨hfits, hgrow b.ptr rfl i hfind⟩
  have hlt : adjustToMemBlock size < 2 ^ 31 := by
    rcases hcases with hshrink | ⟨hfits, -⟩
    · omega
    · exact hfits.1
  have hres := h.resizable hb hi ht hptr hrec (hcases.imp_right And.right)
  have hrealloc := hσ.realloc hi ht halloc hsize (adjustToMemBlock_blockSize hle hlt) hres
    fun hgrows => (hcases.resolve_left (Nat.not_le.2 hgrows)).1.fits hle
  rw [hptr] at hrealloc
  rcases hrealloc with hstop | ⟨new, σ', ts', hok, hev, hnew, hfresh, hadv, hmoved⟩
  · exact .inl hstop
  · have hresized := h.resized hb hle hroom hev hmoved
    have hpassed : new ≠ b.ptr → Passed w.manager σ' new := fun hne => (hfresh.resolve_left hne).2
    have hplace := hfresh.imp (congrArg some) And.left
    rw [← hσ.prepare_eq] at hev hplace
    exact .inr ⟨new, σ', ts', hok, h.adopt hev.toEvolves hnew hplace, hresized, hadv, hpassed⟩

/-- **A fine call keeps the blocks tiles**, or runs out of pages. -/
theorem step (h : WorldOk w ts) : ∀ call, w.Valid call → w.Fine call →
    w.step call = .error MemoryManager.noMemory ∨
    ∃ w' ts', w.step call = .ok w' ∧ WorldOk w' ts'
  | .malloc size, hvalid, hfine => by
    rcases hfine with rfl | hfits
    · exact .inr ⟨w, ts, rfl, h⟩
    · rcases eq_or_ne size 0 with rfl | hsize
      · exact .inr ⟨w, ts, rfl, h⟩
      · rcases h.malloc hsize (hfits.fits hvalid) with hstop | ⟨new, σ', ts', hok, hw, -⟩
        · exact .inl (by simp only [World.step, hstop, error_bind])
        · exact .inr ⟨_, ts', by simp only [World.step, hok, ok_bind, pure_eq_ok]; rfl, hw⟩
  | .free none, _, _ => by
    refine .inr ⟨w, ts, ?_, h⟩
    simp only [World.step, MemoryManager.free, without_none, pure_eq_ok]
  | .free (some ptr), hvalid, _ => by
    obtain ⟨b, hb, rfl⟩ := hvalid ptr rfl
    obtain ⟨ts', hev⟩ := (h.manager b hb).free (h.holds b hb)
    exact .inr ⟨_, ts', rfl, h.release hev.toEvolves⟩
  | .realloc none size, hvalid, hfine => by
    rcases eq_or_ne size 0 with rfl | hsize
    · refine .inr ⟨w, ts, ?_, h⟩
      simp only [World.step, MemoryManager.realloc, MemoryManager.free, ↓reduceIte, pure_eq_ok, ok_bind,
        without_none]
    · have hfits : World.SizeFits w.manager (adjustToMemBlock size) := by
        rcases hfine with hzero | ⟨p, ⟨⟩, -⟩ | ⟨hfits, -⟩
        · exact absurd hzero hsize
        · exact hfits
      have hblock := adjustToMemBlock_blockSize hvalid.2 hfits.1
      have hadjust := hblock.adjust
      have hne : adjustToMemBlock size ≠ 0 := by
        have := hblock.mod
        omega
      have hmalloc := h.malloc hne (hadjust.symm ▸ hfits.fits hvalid.2)
      rw [hadjust, ← realloc_null hsize] at hmalloc
      rcases hmalloc with hstop | ⟨new, σ', ts', hok, hw, -⟩
      · exact .inl (by simp only [World.step, hstop, error_bind])
      · exact .inr ⟨_, ts', by simp only [World.step, hok, ok_bind, pure_eq_ok, without_none], hw⟩
  | .realloc (some ptr) size, hvalid, hfine => by
    obtain ⟨b, hb, rfl⟩ := hvalid.1 ptr rfl
    rcases eq_or_ne size 0 with rfl | hsize
    · obtain ⟨ts', hev⟩ := (h.manager b hb).free (h.holds b hb)
      refine .inr ⟨_, ts', ?_, h.release hev.toEvolves⟩
      simp only [World.step, MemoryManager.realloc, ↓reduceIte, pure_eq_ok, ok_bind]
    · rcases h.realloc hb hsize hvalid.2 hfine with hstop | ⟨new, σ', ts', hok, hw, -⟩
      · exact .inl (by simp only [World.step, hstop, error_bind])
      · exact .inr ⟨_, ts', by simp only [World.step, hok, ok_bind, pure_eq_ok], hw⟩
  | .write ptr i v, hvalid, _ => by
    obtain ⟨b, hb, rfl, hi⟩ := hvalid
    have hagree := agreeOff_store8 (b.ptr + i) v w.manager.mem
    have hev := (h.manager b hb).write (p := none) (h.holds b hb) (Nat.le_add_right b.ptr i)
      (by omega) hagree
    have hw := h.release hev
    rw [without_none] at hw
    exact .inr ⟨_, ts, rfl, hw⟩

theorem start {initialHeap currentMemory : Nat} (h : World.Layout initialHeap currentMemory) :
    WorldOk (World.start initialHeap currentMemory) fun _ => [] where
  prepared := by
    have hle := h.heap_le
    have hlt := h.pages_lt
    have hprepare : (World.start initialHeap currentMemory).manager.prepare =
        { (MemoryManager.start initialHeap currentMemory).setHeap 0 ⟨initialHeapSize, initialHeap, 0⟩ with
          heapsActualSize := heapsSize } := by
      simp [World.start, MemoryManager.prepare, MemoryManager.start, MemoryManager.setHeap, Memory.init,
        Memory.isInit, heapsSize]
    rw [hprepare]
    refine { actual := rfl, active := Nat.zero_le _, heaps := ?_, waiting := ?_, below := ?_,
             apart := fun hone => absurd hone Nat.zero_ne_one, last := .inl ⟨rfl, rfl⟩, pages_lt := hlt,
             sbrk := fun hinit => absurd hinit Bool.false_ne_true }
    · intro i hi
      obtain rfl : i = 0 := Nat.le_zero.1 hi
      exact HeapOk.empty h.heap_pos (by omega) rfl _
    · intro i hi
      have hi' : 0 < i := hi
      exact Function.update_of_ne (by omega) _ _
    · intro i hi
      obtain rfl : i = 0 := Nat.le_zero.1 hi
      exact hle
  manager := by simp [World.start]
  holds := by simp [World.start]
  distinct := List.Pairwise.nil

theorem run : ∀ (calls : List Call) {w : World} {ts : Nat → List Tile}, WorldOk w ts →
    World.Along (fun w call => w.Valid call ∧ w.Fine call) calls w →
    World.run calls w = .error MemoryManager.noMemory ∨
    ∃ w' ts', World.run calls w = .ok w' ∧ WorldOk w' ts'
  | [], w, ts, h, _ => .inr ⟨w, ts, rfl, h⟩
  | call :: calls, w, ts, h, ⟨⟨hvalid, hfine⟩, hrest⟩ => by
    rcases h.step call hvalid hfine with hstop | ⟨w₁, ts₁, hok, h₁⟩
    · exact .inl (by simp only [World.run, hstop, error_bind])
    · rcases run calls h₁ (hrest w₁ hok) with hstop | ⟨w₂, ts₂, hrun, h₂⟩
      · exact .inl (by simp only [World.run, hok, ok_bind, hstop])
      · exact .inr ⟨w₂, ts₂, by simp only [World.run, hok, ok_bind, hrun], h₂⟩

end WorldOk

/-! ## Runs -/

namespace World

/-- **A run of fine calls leaves the program's blocks sound**, unless the pages run out. -/
theorem run_sound {initialHeap currentMemory : Nat} (hlayout : Layout initialHeap currentMemory)
    (calls : List Call)
    (hfine : Along (fun w call => w.Valid call ∧ w.Fine call) calls (start initialHeap currentMemory)) :
    run calls (start initialHeap currentMemory) = .error MemoryManager.noMemory ∨
    ∃ w, run calls (start initialHeap currentMemory) = .ok w ∧ w.Sound := by
  rcases (WorldOk.start hlayout).run calls hfine with hstop | ⟨w, ts, hok, hw⟩
  · exact .inl hstop
  · exact .inr ⟨w, hok, hw.sound⟩

/-- A block that grows over a freed one, and the blocks around it. -/
theorem run_sound_sample :
    run [.malloc 4, .malloc 20, .malloc 4, .free (some 1036), .realloc (some 1028) 12,
      .write 1028 11 7, .malloc 8192, .realloc (some 1060) 100] (start 1024 1) =
        .error MemoryManager.noMemory ∨
    ∃ w, run [.malloc 4, .malloc 20, .malloc 4, .free (some 1036), .realloc (some 1028) 12,
      .write 1028 11 7, .malloc 8192, .realloc (some 1060) 100] (start 1024 1) = .ok w ∧ w.Sound :=
  run_sound ⟨by decide, by decide, by decide⟩ _ (by decide +kernel)

theorem exists_unsound {x : Exec World} (h : x.toOption.any (fun w => !decide w.Sound) = true) :
    ∃ w, x = .ok w ∧ ¬w.Sound := by
  cases x with
  | error e => cases h
  | ok w => exact ⟨w, rfl, by simpa [Except.toOption] using h⟩

/-- Valid calls, after which the blocks are not sound. -/
def Breaks (w₀ : World) (calls : List Call) : Prop :=
  Along Valid calls w₀ ∧ ∃ w, run calls w₀ = .ok w ∧ ¬w.Sound

/-- A block grows past the cursor over what was freed; the end of a block wraps; the last block grows
past the end of its heap. -/
theorem run_unsound : Layout 1024 1 ∧
    Breaks (start 1024 1)
      [.malloc 4, .malloc 4, .free (some 1036), .realloc (some 1028) 20, .malloc 4] ∧
    Breaks (start 1024 1) [.malloc 12, .malloc 4294967284, .malloc 4] ∧
    Breaks (start 1024 1) [.malloc 12, .realloc (some 1028) 10000] :=
  ⟨⟨by decide, by decide, by decide⟩,
    ⟨by decide +kernel, exists_unsound (by decide +kernel)⟩,
    ⟨by decide +kernel, exists_unsound (by decide +kernel)⟩,
    ⟨by decide +kernel, exists_unsound (by decide +kernel)⟩⟩

end World

end Wasmlib
