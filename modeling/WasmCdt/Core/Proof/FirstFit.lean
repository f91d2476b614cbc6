import WasmCdt.Core.Proof.MallocHeap

/-!
# The search for a freed block

`malloc_from_freed` walks over the tiles of a heap and merges the free ones on its way. What it looks
for is a run of adjacent free tiles, `coalesce`; a block of `2 ^ 31` bytes would need the bit of its
header that holds the flag.

* `freedRest_cons`: one round passes a block, merges a run that is too short, or has found the room.
* `freedRest_spec`, `freedRest_flagged`: the search, where every header can hold its size, and where it
  meets a run for which it cannot.
* `mallocFromFreed_iff`: **exactly when the search is first-fit.**
-/

namespace Wasmlib

open ByteMem

/-! ## Runs of free tiles -/

/-- Adjacent free tiles as one tile, with the headers between them. -/
def coalesce : List Tile → List Tile
  | [] => []
  | t :: ts =>
    match coalesce ts with
    | [] => [t]
    | u :: us =>
      if t.alloc || u.alloc then t :: u :: us else ⟨t.start, t.size + 4 + u.size, false⟩ :: us

/-- The first run of free tiles with room for `n` bytes. -/
def firstFit (n : Nat) (ts : List Tile) : Option Tile :=
  (coalesce ts).find? fun t => !t.alloc && n ≤ t.size

section

variable {a b : Nat} {t : Tile} {ts fs ys : List Tile}

theorem coalesce_alloc (h : t.alloc = true) (ts : List Tile) :
    coalesce (t :: ts) = t :: coalesce ts := by
  rw [coalesce]
  cases coalesce ts with
  | nil => rfl
  | cons u us => simp only [h, Bool.true_or, if_true]

theorem coalesce_free (h : t.alloc = false) (ts : List Tile) :
    ∃ size us, coalesce (t :: ts) = ⟨t.start, size, false⟩ :: us ∧ t.size ≤ size := by
  rw [coalesce]
  obtain ⟨start, size, alloc⟩ := t
  obtain rfl : alloc = false := h
  cases coalesce ts with
  | nil => exact ⟨size, [], rfl, Nat.le_refl _⟩
  | cons u us =>
    cases hu : u.alloc with
    | true => exact ⟨size, u :: us, by simp only [hu, Bool.or_true, if_true], Nat.le_refl _⟩
    | false =>
      exact ⟨size + 4 + u.size, us, by simp only [hu, Bool.or_self, Bool.false_eq_true, if_false],
        by simp only; omega⟩

/-- Free tiles in front of an allocated one are a run. -/
theorem coalesce_run (hfree : ∀ u ∈ t :: fs, u.alloc = false) (hhead : ∀ u ∈ ys.head?, u.alloc = true)
    (hfs : Tiles a (t :: fs) b) : coalesce (t :: fs ++ ys) = ⟨a, b - a - 4, false⟩ :: coalesce ys := by
  induction fs generalizing t a with
  | nil =>
    have halloc := hfree t List.mem_cons_self
    obtain ⟨hstart, -, hb⟩ := hfs
    obtain ⟨start, size, alloc⟩ := t
    obtain rfl : alloc = false := halloc
    obtain rfl : start = a := hstart
    have hb' : start + 4 + size = b := hb
    have hsize : b - start - 4 = size := by omega
    rw [hsize, List.singleton_append, coalesce]
    cases ys with
    | nil => rfl
    | cons y ys =>
      have hy : y.alloc = true := hhead y rfl
      rw [coalesce_alloc hy]
      simp only [hy, Bool.or_true, if_true]
  | cons f fs ih =>
    have halloc := hfree t List.mem_cons_self
    obtain ⟨hstart, -, hfs⟩ := hfs
    obtain ⟨start, size, alloc⟩ := t
    obtain rfl : alloc = false := halloc
    obtain rfl : start = a := hstart
    have hstop : start + 4 + size + 4 + f.size ≤ b := by
      obtain ⟨hstartf, -, hrest⟩ := hfs
      have hlef := hrest.le
      have hs : f.start = start + 4 + size := hstartf
      have : Piece.stop f = f.start + 4 + f.size := rfl
      omega
    have hrun := ih (fun u hu => hfree u (List.mem_cons_of_mem _ hu)) hfs
    have hsum : size + 4 + (b - (start + 4 + size) - 4) = b - start - 4 := by omega
    rw [List.cons_append, coalesce, hrun]
    simp only [Bool.or_self, Bool.false_eq_true, if_false]
    change (⟨start, size + 4 + (b - (start + 4 + size) - 4), false⟩ : Tile) :: _ = _
    rw [hsum]

/-- Free tiles are within a run. -/
theorem coalesce_prefix (ys : List Tile) (hfree : ∀ u ∈ t :: fs, u.alloc = false)
    (hfs : Tiles a (t :: fs) b) :
    ∃ size us, coalesce (t :: fs ++ ys) = ⟨a, size, false⟩ :: us ∧ b ≤ a + 4 + size := by
  induction fs generalizing t a with
  | nil =>
    obtain ⟨hstart, -, hb⟩ := hfs
    obtain ⟨size, us, hrun, hle⟩ := coalesce_free (hfree t List.mem_cons_self) ys
    have hstart' : t.start = a := hstart
    have hb' : t.start + 4 + t.size = b := hb
    exact ⟨size, us, by rw [List.singleton_append, hrun, hstart'], by omega⟩
  | cons f fs ih =>
    have halloc := hfree t List.mem_cons_self
    obtain ⟨hstart, -, hfs⟩ := hfs
    obtain ⟨start, size, alloc⟩ := t
    obtain rfl : alloc = false := halloc
    obtain rfl : start = a := hstart
    obtain ⟨size', us, hrun, hle⟩ := ih (fun u hu => hfree u (List.mem_cons_of_mem _ hu)) hfs
    refine ⟨size + 4 + size', us, ?_, ?_⟩
    · rw [List.cons_append, coalesce, hrun]
      simp only [Bool.or_self, Bool.false_eq_true, if_false]
    · have hstop : Piece.stop (⟨start, size, false⟩ : Tile) = start + 4 + size := rfl
      omega

/-- The runs are over the same addresses. -/
theorem tiles_coalesce (hts : Tiles a ts b) : Tiles a (coalesce ts) b := by
  induction ts generalizing a with
  | nil => exact hts
  | cons t ts ih =>
    obtain ⟨hstart, hlt, hts⟩ := hts
    have ih := ih hts
    rw [coalesce]
    cases hc : coalesce ts with
    | nil =>
      rw [hc] at ih
      exact ⟨hstart, hlt, ih⟩
    | cons u us =>
      rw [hc] at ih
      obtain ⟨hu, hltu, hus⟩ := ih
      simp only
      split_ifs
      · exact ⟨hstart, hlt, hu, hltu, hus⟩
      · have hstart' : t.start = a := hstart
        have hu' : u.start = t.start + 4 + t.size := hu
        have hstop : Piece.stop u = u.start + 4 + u.size := rfl
        have hsum : t.start + 4 + (t.size + 4 + u.size) = Piece.stop u := by omega
        refine ⟨hstart, ?_, ?_⟩
        · change a < t.start + 4 + (t.size + 4 + u.size)
          omega
        · change Tiles (t.start + 4 + (t.size + 4 + u.size)) us b
          rwa [hsum]

end

/-! ## One round -/

/-- The search from the block behind `b` on, if there is one. -/
def freedRest (n : Nat) (h : Memory) (fuel b : Nat) (m : Mem) : Exec (Option Nat × Mem) :=
  if b = h.heapEnd then .ok (none, m) else h.freedLoop n fuel (b + 4) m

section

variable {h : Memory} {m : Mem} {n fuel a b possible size e : Nat} {t : Tile} {rest : List Tile}

theorem nextPtr_eq (hbound : e + 4 < 2 ^ 32) (ha : a + 4 + size = b) (hb : b ≤ e) (hmod : e % 8 = b % 8) :
    BufferPtr.nextPtr ⟨a + 4, size, e⟩ = if b = e then none else some (b + 4) := by
  have hfinish : BufferPtr.finish ⟨a + 4, size, e⟩ = b :=
    (addSize_eq (show a + 4 + size < 2 ^ 32 by omega)).trans ha
  rw [BufferPtr.nextPtr, hfinish, addSize_marker (by omega)]
  by_cases hlast : b = e
  · rw [if_pos (by simp only; omega), if_pos hlast]
  · rw [if_neg (by simp only; omega), if_neg hlast]

theorem tiles_mod {ts : List Tile} : ∀ {a : Nat}, Tiles a ts b → (∀ t ∈ ts, t.Ok m) → b % 8 = a % 8 := by
  induction ts with
  | nil =>
    intro a htiles _
    rw [show a = b from htiles]
  | cons t ts ih =>
    intro a htiles hok
    obtain ⟨hstart, -, hts⟩ := htiles
    obtain ⟨ht, hoks⟩ := List.forall_mem_cons.1 hok
    have hmod := ht.size.mod
    have hstart' : t.start = a := hstart
    have hstop : Piece.stop t = t.start + 4 + t.size := rfl
    have hih := ih hts hoks
    omega

/-- The size of a free block is written to a header without a flag. -/
theorem setSize_free {val : Nat} {bp : BufferPtr}
    (h : load32 m (bp.ptr - 4) &&& allocMemoryMask = 0) :
    bp.setSize val m = ({ bp with size := val }, store32 (bp.ptr - 4) val m) := by
  simp only [BufferPtr.setSize, sizeMarker, h, Nat.or_zero]

/-- `merge_contiguous` of a free block, where the walk ends within what a header can hold. -/
theorem mergeContiguous_free (hfree : load32 m a &&& allocMemoryMask = 0) (hbound : e < 2 ^ 32)
    (hloop : BufferPtr.mergeLoop ⟨a + 4, size, e⟩ n m (n + 1) size = .ok possible)
    (hfit : a + 4 + possible ≤ e) (hlt : n < possible → possible < n + 4 + 2 ^ 31)
    (hmod : possible % 8 = n % 8) :
    BufferPtr.mergeContiguous n false ⟨a + 4, size, e⟩ m =
      if possible < n then .ok (false, ⟨a + 4, possible, e⟩, store32 a possible m)
      else .ok (true, ⟨a + 4, n, e⟩, BufferPtr.mergedMem a n possible m) := by
  have hflag : flagOf (load32 m a) = 0 := by rwa [allocMemoryMask, and_flag (load32_lt m a)] at hfree
  have hset : ∀ val, BufferPtr.setSize val ⟨a + 4, size, e⟩ m = (⟨a + 4, val, e⟩, store32 a val m) :=
    fun val => setSize_free hfree
  simp only [BufferPtr.mergeContiguous, Bool.false_eq_true, false_and, if_false, hloop, ok_bind, hset]
  by_cases hshort : possible < n
  · have hmore : ¬n < possible := by omega
    have hne : (possible == n) = false := by
      rw [beq_eq_false_iff_ne]
      omega
    simp only [hshort, if_true, hmore, if_false, hne, pure_eq_ok]
  · simp only [hshort, if_false, beq_self_eq_true, pure_eq_ok, BufferPtr.mergedMem, hflag, Nat.add_zero]
    by_cases hmore : n < possible
    · have hsub : subSize (subSize possible n) sizeMarker = possible - n - 4 := by
        rw [subSize_eq (Nat.le_of_lt hmore) (by omega),
          subSize_eq (by simp only [sizeMarker]; omega) (by omega), sizeMarker]
      have hptr : addSize (addSize (a + 4) n) sizeMarker = a + 4 + n + 4 := by
        rw [addSize_eq (show a + 4 + n < 2 ^ 32 by omega), addSize_marker (by omega)]
      have hrem : possible - n - 4 < 2 ^ 31 := by
        have := hlt hmore
        omega
      simp only [hmore, if_true, hsub, hptr, BufferPtr.create_fst, BufferPtr.markFree_create hrem]
    · simp only [hmore, if_false]

/-- **One round**: a block is passed; a run that is too short becomes one tile and is passed; or the room
is found. -/
theorem freedRest_cons (hend : h.heapEnd = e) (hbound : e + 4 < 2 ^ 32) (htiles : Tiles a (t :: rest) e)
    (hok : ∀ u ∈ t :: rest, u.Ok m) (hn : n % 8 = 4) (fuel : Nat) :
    (t.alloc = true ∧ freedRest n h (fuel + 1) a m = freedRest n h fuel (Piece.stop t) m) ∨
    t.alloc = false ∧ ∃ fs ys possible, rest = fs ++ ys ∧ (∀ u ∈ t :: fs, u.alloc = false) ∧
      Tiles a (t :: fs) (a + 4 + possible) ∧ Tiles (a + 4 + possible) ys e ∧ possible % 8 = 4 ∧
      ((possible < n ∧ (∀ u ∈ ys.head?, u.alloc = true) ∧ freedRest n h (fuel + 1) a m =
          freedRest n h fuel (a + 4 + possible) (store32 a possible m)) ∨
        n ≤ possible ∧ possible < n + 4 + 2 ^ 31 ∧ freedRest n h (fuel + 1) a m =
          .ok (some (a + 4), BufferPtr.markAlloc ⟨a + 4, n, e⟩ (BufferPtr.mergedMem a n possible m))) := by
  obtain ⟨hstart, hlt, hrest⟩ := htiles
  have hstart' : t.start = a := hstart
  have hstop : Piece.stop t = a + 4 + t.size := by rw [← hstart']; rfl
  have htok := hok t List.mem_cons_self
  have htsize := htok.size.lt
  have htmod := htok.size.mod
  have hle := hrest.le
  have hmods := tiles_mod hrest fun u hu => hok u (List.mem_cons_of_mem _ hu)
  have hne : a ≠ e := by omega
  have hheader := htok.ofHeader e
  rw [hstart'] at hheader
  have hfirst : freedRest n h (fuel + 1) a m = h.freedLoop n (fuel + 1) (a + 4) m := by
    rw [freedRest, hend, if_neg hne]
  have hpass : ∀ (b size : Nat) (m : Mem), a + 4 + size = b → b ≤ e → e % 8 = b % 8 →
      ((BufferPtr.nextPtr ⟨a + 4, size, e⟩).elim (.ok (none, m)) fun next =>
        h.freedLoop n fuel next m) = freedRest n h fuel b m := by
    intro b size m hb hbe hmod
    rw [nextPtr_eq hbound hb hbe hmod, freedRest, hend]
    split_ifs <;> rfl
  cases halloc : t.alloc with
  | true =>
    left
    have hflag : BufferPtr.isAlloc ⟨a + 4, t.size, e⟩ m = true := by
      have := htok.flag.2 halloc
      rw [hstart'] at this
      simpa only [BufferPtr.isAlloc, sizeMarker, Nat.add_sub_cancel, bne_iff_ne] using this
    refine ⟨rfl, (hfirst.trans ?_).trans (hpass _ _ m hstop.symm hle hmods)⟩
    simp only [Memory.freedLoop, hend, hheader, hflag, Bool.not_true, Bool.false_eq_true, if_false,
      pure_eq_ok, ok_bind]
    cases BufferPtr.nextPtr ⟨a + 4, t.size, e⟩ <;> rfl
  | false =>
    right
    have hfree : load32 m a &&& allocMemoryMask = 0 := by
      by_contra hflag
      rw [← hstart'] at hflag
      rw [htok.flag.1 hflag] at halloc
      cases halloc
    have hflag : BufferPtr.isAlloc ⟨a + 4, t.size, e⟩ m = false := by
      simp only [BufferPtr.isAlloc, sizeMarker, Nat.add_sub_cancel, hfree, bne_self_eq_false]
    rw [hstop] at hrest
    obtain ⟨fs, ys, possible, rfl, hfs, hys, hfrees, hloop, hpos, hmod, hhead⟩ :=
      HeapOk.mergeLoop_spec (m := m) t.size (p := a + 4) (n := n + 1) (Nat.le_refl e) (by omega) hrest
        (fun u hu => hok u (List.mem_cons_of_mem _ hu)) (by omega) (Nat.succ_pos n)
        (htmod.trans hn.symm) (.inr (.inr (Nat.le_refl e)))
    have hfit := hys.le
    have hmodys := tiles_mod hys fun u hu => hok u (by simp [hu])
    have hmerge := mergeContiguous_free hfree (show e < 2 ^ 32 by omega) hloop hfit (by omega) hmod
    refine ⟨rfl, fs, ys, possible, rfl, List.forall_mem_cons.2 ⟨halloc, hfrees⟩,
      ⟨hstart, hlt, by rwa [hstop]⟩, hys, by omega, ?_⟩
    rcases Nat.lt_or_ge possible n with hshort | henough
    · refine .inl ⟨hshort, hhead hshort, ?_⟩
      refine (hfirst.trans ?_).trans (hpass _ _ _ rfl hfit hmodys)
      rw [if_pos hshort] at hmerge
      simp only [Memory.freedLoop, hend, hheader, hflag, Bool.not_false, if_true, hmerge, ok_bind,
        Bool.false_eq_true, if_false]
      cases BufferPtr.nextPtr ⟨a + 4, possible, e⟩ <;> rfl
    · refine .inr ⟨henough, by omega, ?_⟩
      rw [if_neg (Nat.not_lt.2 henough)] at hmerge
      simp only [hfirst, Memory.freedLoop, hend, hheader, hflag, Bool.not_false, if_true, hmerge, ok_bind,
        pure_eq_ok]

end

/-! ## The search -/

/-- The block that a search for `n` bytes makes. -/
def fitted (n : Nat) (ts : List Tile) : Option Tile := (firstFit n ts).map fun t => ⟨t.start, n, true⟩

/-- What a search leaves: tiles over the same addresses, among them the same blocks, and the one for the
bytes, which is returned. -/
structure Searched (n a e : Nat) (m : Mem) (ts : List Tile) (r : Option Nat) (m' : Mem)
    (ts' : List Tile) : Prop where
  tiles : Tiles a ts' e
  ok : ∀ t ∈ ts', t.Ok m'
  result : r = (fitted n ts).map fun t => t.start + 4
  blocks : ∀ u : Tile, u.alloc = true → (u ∈ ts' ↔ u ∈ ts ∨ fitted n ts = some u)
  agree : AgreeOff a e m m'
  bytes : ∀ u ∈ ts, u.alloc = true → ∀ i < u.size, m' (u.start + 4 + i) = m (u.start + 4 + i)

/-- Every header can hold the size of its run. -/
def RunsFit (ts : List Tile) : Prop := ∀ u ∈ coalesce ts, u.alloc = false → u.size < 2 ^ 31

section

variable {h : Memory} {m m₁ m' : Mem} {n a b e possible : Nat} {t : Tile} {mid mid' fs ys ts' : List Tile}
  {r : Option Nat}

/-- Tiles in front that the search has passed, with the same blocks. -/
theorem Searched.prepend (hs : Searched n b e m₁ ys r m' ts') (hmid : Tiles a mid b)
    (hmid' : Tiles a mid' b) (hok : ∀ t ∈ mid', t.Ok m₁) (hagree : AgreeOff a b m m₁)
    (hfit : firstFit n (mid ++ ys) = firstFit n ys)
    (hblocks : ∀ u : Tile, u.alloc = true → (u ∈ mid' ↔ u ∈ mid))
    (hbytes : ∀ u ∈ mid, u.alloc = true → ∀ i < u.size, m₁ (u.start + 4 + i) = m (u.start + 4 + i))
    (hys : Tiles b ys e) : Searched n a e m (mid ++ ys) r m' (mid' ++ ts') where
  tiles := Tiles.append_iff.2 ⟨b, hmid', hs.tiles⟩
  ok u hu := by
    rcases List.mem_append.1 hu with hu | hu
    · have hstop : u.start + 4 + u.size ≤ b := (hmid'.bounds u hu).2.2
      exact (hok u hu).agree hs.agree (.inl (by omega))
    · exact hs.ok u hu
  result := by
    rw [hs.result, fitted, fitted, hfit]
  blocks u hu := by
    rw [List.mem_append, List.mem_append, hs.blocks u hu, hblocks u hu, fitted, fitted, hfit, or_assoc]
  agree := by
    have hab := hmid.le
    have hbe := hys.le
    exact (hagree.mono (Nat.le_refl a) hbe).trans (hs.agree.mono hab (Nat.le_refl e))
  bytes u hu halloc i hi := by
    rcases List.mem_append.1 hu with hu | hu
    · have hstop : u.start + 4 + u.size ≤ b := (hmid.bounds u hu).2.2
      rw [hs.agree _ (.inl (by omega)), hbytes u hu halloc i hi]
    · have hstart : b ≤ u.start := (hys.bounds u hu).1
      rw [hs.bytes u hu halloc i hi, hagree _ (.inr (by omega))]

theorem Searched.nil (n : Nat) (m : Mem) (b : Nat) : Searched n b b m [] none m [] where
  tiles := rfl
  ok := by simp
  result := rfl
  blocks := by simp [fitted, firstFit, coalesce]
  agree := .rfl
  bytes := by simp

/-- The room is found in the first tiles. -/
theorem Searched.found (hn : BlockSize n) (hle : n ≤ possible) (hlt : possible < n + 4 + 2 ^ 31)
    (hmod : possible % 8 = 4) (hfree : ∀ u ∈ t :: fs, u.alloc = false)
    (hfs : Tiles a (t :: fs) (a + 4 + possible)) (hys : Tiles (a + 4 + possible) ys e)
    (hok : ∀ u ∈ ys, u.Ok m) :
    ∃ ts', Searched n a e m (t :: fs ++ ys) (some (a + 4))
      (BufferPtr.markAlloc ⟨a + 4, n, e⟩ (BufferPtr.mergedMem a n possible m)) ts' := by
  have hhead : load32 (BufferPtr.mergedMem a n possible m) (a + 4 - 4) = n + flagOf (load32 m a) :=
    BufferPtr.load32_mergedMem hn.lt
  obtain ⟨mid', hmid, hokmid, hagree, hblocks⟩ :=
    HeapOk.splitTiles (a := a) hn hle hlt (hmod.trans hn.mod.symm) m
  obtain ⟨size, us, hrun, hend⟩ := coalesce_prefix ys hfree hfs
  have hfit : fitted n (t :: fs ++ ys) = some ⟨a, n, true⟩ := by
    have hroom : n ≤ size := by omega
    rw [fitted, firstFit, hrun]
    simp only [List.find?, Bool.not_false, Bool.true_and, hroom, decide_true, Option.map_some]
  have hys' := hys.le
  have hmark : BufferPtr.markAlloc ⟨a + 4, n, e⟩ (BufferPtr.mergedMem a n possible m) =
      store32 a (n + 2 ^ 31) (BufferPtr.mergedMem a n possible m) := BufferPtr.markAlloc_eq hn.lt hhead
  rw [hmark]
  refine ⟨mid' ++ ys, Tiles.append_iff.2 ⟨_, hmid, hys⟩, ?_, ?_, ?_, ?_, ?_⟩
  · intro u hu
    rcases List.mem_append.1 hu with hu | hu
    · exact hokmid u hu
    · exact (hok u hu).agree hagree (.inr (hys.bounds u hu).1)
  · rw [hfit]
    rfl
  · intro u hu
    have hnot : u ∉ t :: fs := fun hmem => by
      rw [hfree u hmem] at hu
      cases hu
    rw [hfit, Option.some.injEq, List.mem_append, List.mem_append, hblocks u hu, or_iff_right hnot,
      or_comm, eq_comm]
  · exact hagree.mono (Nat.le_refl a) hys'
  · intro u hu halloc i hi
    rcases List.mem_append.1 hu with hu | hu
    · rw [hfree u hu] at halloc
      cases halloc
    · have hstart : a + 4 + possible ≤ u.start := (hys.bounds u hu).1
      exact hagree _ (.inr (by omega))

/-- What a run's tile is once the search has passed it. -/
theorem passed_run (hmod : possible % 8 = 4) (hlt : possible < 2 ^ 31) (m : Mem) :
    ∀ u ∈ [(⟨a, possible, false⟩ : Tile)], u.Ok (store32 a possible m) := by
  intro u hu
  obtain rfl := List.mem_singleton.1 hu
  exact ⟨⟨hmod, hlt⟩, load32_store32 (by omega) _ _⟩

theorem tiles_single (a possible : Nat) :
    Tiles a [(⟨a, possible, false⟩ : Tile)] (a + 4 + possible) :=
  ⟨rfl, by simp only [Piece.stop]; omega, rfl⟩

/-- The search does not fit the run that it passes. -/
theorem firstFit_run (hfree : ∀ u ∈ t :: fs, u.alloc = false) (hhead : ∀ u ∈ ys.head?, u.alloc = true)
    (hfs : Tiles a (t :: fs) (a + 4 + possible)) (hshort : possible < n) :
    firstFit n (t :: fs ++ ys) = firstFit n ys := by
  have hsize : a + 4 + possible - a - 4 = possible := by omega
  rw [firstFit, coalesce_run hfree hhead hfs, hsize, List.find?_cons_of_neg, firstFit]
  simp only [Bool.not_false, Bool.true_and, decide_eq_true_eq]
  omega

/-- **The search is first-fit** where every header can hold the size of its run. -/
theorem freedRest_spec (hend : h.heapEnd = e) (hbound : e + 4 < 2 ^ 32) (hn : n % 8 = 4) :
    ∀ {fuel : Nat} {ts : List Tile} {a : Nat} {m : Mem}, Tiles a ts e → (∀ u ∈ ts, u.Ok m) →
    ts.length ≤ fuel → (n < 2 ^ 31 ∨ RunsFit ts) →
    ∃ r m' ts', freedRest n h fuel a m = .ok (r, m') ∧ Searched n a e m ts r m' ts'
  | fuel, [], a, m, htiles, _, _, _ => by
    have hae : a = e := htiles
    subst hae
    exact ⟨none, m, [], by rw [freedRest, hend, if_pos rfl], .nil n m a⟩
  | fuel + 1, t :: rest, a, m, htiles, hok, hfuel, hsmall => by
    have hokrest := fun u hu => hok u (List.mem_cons_of_mem t hu)
    rw [List.length_cons] at hfuel
    rcases freedRest_cons hend hbound htiles hok hn fuel with ⟨halloc, hround⟩ |
      ⟨-, fs, ys, possible, rfl, hfree, hfs, hys, hmod, hcases⟩
    · obtain ⟨hstart, hlt, hrest⟩ := htiles
      have hsmall' : n < 2 ^ 31 ∨ RunsFit rest := hsmall.imp_right fun hruns u hu =>
        hruns u (by rw [coalesce_alloc halloc]; exact List.mem_cons_of_mem t hu)
      have hfuel' : rest.length ≤ fuel := Nat.le_of_succ_le_succ hfuel
      obtain ⟨r, m', ts', hsearch, hs⟩ := freedRest_spec hend hbound hn hrest hokrest hfuel' hsmall'
      have hpass : Tiles a [t] (Piece.stop t) := ⟨hstart, hlt, rfl⟩
      refine ⟨r, m', [t] ++ ts', hround.trans hsearch,
        hs.prepend hpass hpass ?_ .rfl ?_ (fun _ _ => Iff.rfl) (fun _ _ _ _ _ => rfl) hrest⟩
      · intro u hu
        obtain rfl := List.mem_singleton.1 hu
        exact hok u List.mem_cons_self
      · rw [firstFit, List.singleton_append, coalesce_alloc halloc, List.find?_cons_of_neg, firstFit]
        simp only [halloc, Bool.not_true, Bool.false_and, Bool.false_eq_true, not_false_eq_true]
    · have hokys : ∀ u ∈ ys, u.Ok m := fun u hu => hokrest u (List.mem_append_right fs hu)
      have hfsle := hfs.le
      rcases hcases with ⟨hshort, hhead, hround⟩ | ⟨henough, hlt, hround⟩
      · have hrun := coalesce_run hfree hhead hfs
        have hsize : a + 4 + possible - a - 4 = possible := by omega
        rw [hsize] at hrun
        have hpossible : possible < 2 ^ 31 := by
          rcases hsmall with hsmall | hruns
          · omega
          · exact hruns ⟨a, possible, false⟩
              (by rw [← List.cons_append, hrun]; exact List.mem_cons_self) rfl
        have hsmall' : n < 2 ^ 31 ∨ RunsFit ys := hsmall.imp_right fun hruns u hu =>
          hruns u (by rw [← List.cons_append, hrun]; exact List.mem_cons_of_mem _ hu)
        have hfuel' : ys.length ≤ fuel := by
          rw [List.length_append] at hfuel
          omega
        have hagree := agreeOff_store32 a possible m
        have hagree' := hagree.mono (Nat.le_refl a) (show a + 4 ≤ a + 4 + possible by omega)
        obtain ⟨r, m', ts', hsearch, hs⟩ := freedRest_spec hend hbound hn hys
          (fun u hu => (hokys u hu).agree hagree' (.inr (hys.bounds u hu).1)) hfuel' hsmall'
        refine ⟨r, m', _, hround.trans hsearch, hs.prepend hfs (tiles_single a possible)
          (passed_run hmod hpossible m) hagree' (firstFit_run hfree hhead hfs hshort) ?_ ?_ hys⟩
        · intro u hu
          refine iff_of_false (fun hmem => ?_) fun hmem => ?_
          · rw [List.mem_singleton.1 hmem] at hu
            cases hu
          · rw [hfree u hmem] at hu
            cases hu
        · intro u hmem hu
          rw [hfree u hmem] at hu
          cases hu
      · have hlt31 : n < 2 ^ 31 := by
          rcases hsmall with hsmall | hruns
          · exact hsmall
          · obtain ⟨size, us, hrun, hle⟩ := coalesce_prefix ys hfree hfs
            have := hruns ⟨a, size, false⟩
              (by rw [← List.cons_append, hrun]; exact List.mem_cons_self) rfl
            simp only at this
            omega
        obtain ⟨ts', hs⟩ := Searched.found (e := e) ⟨hn, hlt31⟩ henough hlt hmod hfree hfs hys hokys
        exact ⟨_, _, ts', hround, hs⟩

/-- The search has written a size into the bit of the flag, in the header of a free tile. -/
def Flagged (a e : Nat) (m : Mem) (ts : List Tile) (m' : Mem) : Prop :=
  AgreeOff a e m m' ∧ ∃ passed s, Tiles a passed s ∧ (∀ t ∈ passed, Tile.Ok m' t) ∧
    2 ^ 31 ≤ load32 m' s ∧ ∃ t ∈ ts, t.alloc = false ∧ t.start = s

theorem Flagged.prepend (hf : Flagged b e m₁ ys m') (hmid : Tiles a mid b) (hmid' : Tiles a mid' b)
    (hok : ∀ t ∈ mid', t.Ok m₁) (hagree : AgreeOff a b m m₁) (hys : Tiles b ys e) :
    Flagged a e m (mid ++ ys) m' := by
  obtain ⟨hagree', passed, s, hpassed, hokpassed, hhead, t, ht, hfree, hstart⟩ := hf
  refine ⟨(hagree.mono (Nat.le_refl a) hys.le).trans (hagree'.mono hmid.le (Nat.le_refl e)),
    mid' ++ passed, s, Tiles.append_iff.2 ⟨b, hmid', hpassed⟩, ?_, hhead, t,
    List.mem_append_right mid ht, hfree, hstart⟩
  intro u hu
  rcases List.mem_append.1 hu with hu | hu
  · have hstop : u.start + 4 + u.size ≤ b := (hmid'.bounds u hu).2.2
    exact (hok u hu).agree hagree' (.inl (by omega))
  · exact hokpassed u hu

/-- A size of `2 ^ 31` or more behind it leaves no room for another. -/
theorem runsFit_behind (hys : Tiles b ys e) (hb : 2 ^ 31 ≤ b) (he : e < 2 ^ 32) : RunsFit ys := by
  intro u hu _
  have hstart : b ≤ u.start := ((tiles_coalesce hys).bounds u hu).1
  have hstop : u.start + 4 + u.size ≤ e := ((tiles_coalesce hys).bounds u hu).2.2
  omega

theorem flag_le (w : Nat) : 2 ^ 31 ≤ w ||| allocMemoryMask := Nat.right_le_or

/-- **The search meets a run whose header cannot hold the size** that it writes. -/
theorem freedRest_flagged (hend : h.heapEnd = e) (hbound : e + 4 < 2 ^ 32) (hn : n % 8 = 4)
    (hbig : 2 ^ 31 ≤ n) (hlt : n < 2 ^ 32) :
    ∀ {fuel : Nat} {ts : List Tile} {a : Nat} {m : Mem}, Tiles a ts e → (∀ u ∈ ts, u.Ok m) →
    ts.length ≤ fuel → ¬RunsFit ts → freedRest n h fuel a m = .ok (r, m') → Flagged a e m ts m'
  | fuel, [], a, m, _, _, _, hruns, _ => absurd (fun u hu => by cases hu) hruns
  | fuel + 1, t :: rest, a, m, htiles, hok, hfuel, hruns, hsearch => by
    have hokrest := fun u hu => hok u (List.mem_cons_of_mem t hu)
    have hstart : t.start = a := htiles.1
    rw [List.length_cons] at hfuel
    rcases freedRest_cons hend hbound htiles hok hn fuel with ⟨halloc, hround⟩ |
      ⟨-, fs, ys, possible, rfl, hfree, hfs, hys, hmod, hcases⟩
    · obtain ⟨hstart, hlt', hrest⟩ := htiles
      have hruns' : ¬RunsFit rest := fun hfit => hruns fun u hu hu' => by
        rw [coalesce_alloc halloc] at hu
        rcases List.mem_cons.1 hu with rfl | hu
        · rw [halloc] at hu'
          cases hu'
        · exact hfit u hu hu'
      have hfuel' : rest.length ≤ fuel := Nat.le_of_succ_le_succ hfuel
      rw [hround] at hsearch
      have hpass : Tiles a [t] (Piece.stop t) := ⟨hstart, hlt', rfl⟩
      refine (freedRest_flagged hend hbound hn hbig hlt hrest hokrest hfuel' hruns' hsearch).prepend
        hpass hpass ?_ .rfl hrest
      intro u hu
      obtain rfl := List.mem_singleton.1 hu
      exact hok u List.mem_cons_self
    · have hokys : ∀ u ∈ ys, u.Ok m := fun u hu => hokrest u (List.mem_append_right fs hu)
      have hle := hys.le
      have hfuel' : ys.length ≤ fuel := by
        rw [List.length_append] at hfuel
        omega
      have hfree' := hfree t List.mem_cons_self
      rcases hcases with ⟨hshort, hhead, hround⟩ | ⟨henough, -, hround⟩
      · rw [hround] at hsearch
        have hagree := agreeOff_store32 a possible m
        have hagree' := hagree.mono (Nat.le_refl a) (show a + 4 ≤ a + 4 + possible by omega)
        have hokys' : ∀ u ∈ ys, u.Ok (store32 a possible m) := fun u hu =>
          (hokys u hu).agree hagree' (.inr (hys.bounds u hu).1)
        rcases Nat.lt_or_ge possible (2 ^ 31) with hsmall | hlarge
        · have hruns' : ¬RunsFit ys := fun hfit => hruns fun u hu hu' => by
            have hsize : a + 4 + possible - a - 4 = possible := by omega
            rw [← List.cons_append, coalesce_run hfree hhead hfs, hsize] at hu
            rcases List.mem_cons.1 hu with rfl | hu
            · exact hsmall
            · exact hfit u hu hu'
          exact (freedRest_flagged hend hbound hn hbig hlt hys hokys' hfuel' hruns' hsearch).prepend hfs
            (tiles_single a possible) (passed_run hmod hsmall m) hagree' hys
        · obtain ⟨r₁, m₁, ts₁, hsearch₁, hs⟩ := freedRest_spec hend hbound hn hys hokys' hfuel'
            (.inr (runsFit_behind hys (by omega) (by omega)))
          rw [hsearch₁, Except.ok.injEq, Prod.mk.injEq] at hsearch
          obtain ⟨-, rfl⟩ := hsearch
          refine ⟨(hagree'.mono (Nat.le_refl a) hle).trans (hs.agree.mono (by omega) (Nat.le_refl e)),
            [], a, rfl, by simp, ?_, t, List.mem_cons_self, hfree', hstart⟩
          rw [hs.agree.load32 (.inl (by omega)), load32_store32 (by omega)]
          exact hlarge
      · rw [hround, Except.ok.injEq, Prod.mk.injEq] at hsearch
        obtain ⟨-, rfl⟩ := hsearch
        have hmark : BufferPtr.markAlloc ⟨a + 4, n, e⟩ (BufferPtr.mergedMem a n possible m) =
            store32 a (load32 (BufferPtr.mergedMem a n possible m) a ||| allocMemoryMask)
              (BufferPtr.mergedMem a n possible m) := rfl
        have hword : load32 (BufferPtr.mergedMem a n possible m) a ||| allocMemoryMask < 2 ^ 32 :=
          Nat.or_lt_two_pow (load32_lt _ _) (by decide)
        have hagree : AgreeOff a (a + 4 + possible) m (BufferPtr.mergedMem a n possible m) :=
          BufferPtr.agreeOff_mergedMem (by omega)
        rw [hmark]
        refine ⟨(hagree.mono (Nat.le_refl a) hle).trans ((agreeOff_store32 _ _ _).mono (Nat.le_refl a)
          (by omega)), [], a, rfl, by simp, ?_, t, List.mem_cons_self, hfree', hstart⟩
        rw [load32_store32 hword]
        exact flag_le _

end

/-! ## `malloc_from_freed` -/

/-- A heap without room behind the cursor, all of it tiled; `sbrk` gives no memory that ends where a
pointer behind the next header would wrap. -/
structure FullHeap (h : Memory) (m : Mem) (ts : List Tile) : Prop where
  offset : h.offset = h.heapSize
  size_pos : 0 < h.heapSize
  bound : h.heap + h.heapSize + 4 < 2 ^ 32
  tiles : Tiles h.heap ts (h.heap + h.heapSize)
  ok : ∀ t ∈ ts, t.Ok m

/-- The search for `n` bytes ends and is first-fit. -/
def Finds (h : Memory) (n : Nat) (m : Mem) (ts : List Tile) : Prop :=
  ∃ r m' ts', h.mallocFromFreed n m = .ok (r, m') ∧
    Searched n h.heap (h.heap + h.heapSize) m ts r m' ts'

section

variable {h : Memory} {m m' : Mem} {n a s e : Nat} {ts passed : List Tile} {t t' : Tile} {r : Option Nat}

theorem FullHeap.heapEnd_eq (hh : FullHeap h m ts) : h.heapEnd = h.heap + h.heapSize :=
  addSize_eq (by have := hh.bound; omega)

theorem FullHeap.mallocFromFreed_eq (hh : FullHeap h m ts) (n : Nat) :
    h.mallocFromFreed n m = freedRest n h (h.heapSize + 1) h.heap m := by
  have hpos := hh.size_pos
  have hbound := hh.bound
  have hne : h.heap ≠ h.heap + h.heapSize := by omega
  simp only [Memory.mallocFromFreed, hh.offset, beq_self_eq_true, check_bind, if_true, freedRest,
    hh.heapEnd_eq, hne, if_false]
  rw [addSize_marker (by omega)]

/-- The header says how far a tile goes. -/
theorem Tile.Ok.eq (ht : t.Ok m) (ht' : t'.Ok m) (hstart : t.start = t'.start) : t = t' := by
  have hsize := ht.rest
  have halloc := ht.flag
  rw [hstart, ht'.rest] at hsize
  rw [hstart, ht'.flag] at halloc
  obtain ⟨start, size, alloc⟩ := t
  obtain ⟨start', size', alloc'⟩ := t'
  simp only at hstart hsize halloc
  rw [hstart, hsize, Bool.eq_iff_iff.2 halloc]

/-- A walk over a heap passes its tiles. -/
theorem tiles_walk : ∀ {passed ts : List Tile} {a : Nat}, Tiles a passed s → Tiles a ts e → s ≤ e →
    (∀ t ∈ passed, t.Ok m) → (∀ t ∈ ts, t.Ok m) → ∃ rest, ts = passed ++ rest ∧ Tiles s rest e
  | [], ts, a, hpassed, hts, _, _, _ => by
    have has : a = s := hpassed
    exact ⟨ts, rfl, has ▸ hts⟩
  | p :: passed, [], a, ⟨_, hlt, hpassed⟩, hts, hle, _, _ => by
    have hae : a = e := hts
    have hps := hpassed.le
    omega
  | p :: passed, t :: ts, a, ⟨hp, _, hpassed⟩, ⟨ht, _, hts⟩, hle, hokp, hok => by
    obtain ⟨hokp, hokps⟩ := List.forall_mem_cons.1 hokp
    obtain ⟨hokt, hokts⟩ := List.forall_mem_cons.1 hok
    obtain rfl := hokp.eq hokt (hp.trans ht.symm)
    obtain ⟨rest, rfl, hrest⟩ := tiles_walk hpassed hts hle hokps hokts
    exact ⟨rest, rfl, hrest⟩

/-- Where a free tile has become one with the flag of a block, it is none of the blocks that a first-fit
search leaves. -/
theorem Flagged.not_searched (hf : Flagged a e m ts m') (htiles : Tiles a ts e) (hbig : 2 ^ 31 ≤ n)
    (ts' : List Tile) : ¬Searched n a e m ts r m' ts' := by
  intro hs
  obtain ⟨-, passed, s, hpassed, hokpassed, hhead, t, ht, hfree, hstart⟩ := hf
  have hts : a ≤ t.start ∧ t.start < t.start + 4 + t.size ∧ t.start + 4 + t.size ≤ e :=
    htiles.bounds t ht
  obtain ⟨rest, rfl, hrest⟩ := tiles_walk hpassed hs.tiles (by omega) hokpassed hs.ok
  cases rest with
  | nil =>
    have hse : s = e := hrest
    omega
  | cons u rest =>
    have hu : u ∈ passed ++ u :: rest := List.mem_append_right passed List.mem_cons_self
    have hus : u.start = s := hrest.1
    have hok := hs.ok u hu
    have halloc : u.alloc = true := by
      have hsize := hok.size.lt
      have hheader := hok.header
      rw [hus] at hheader
      cases halloc : u.alloc with
      | true => rfl
      | false =>
        rw [halloc, if_neg Bool.false_ne_true] at hheader
        omega
    rcases (hs.blocks u halloc).1 hu with hmem | hfit
    · have hut : u.start < u.start + 4 + u.size ∧ u.start + 4 + u.size ≤ e := (htiles.bounds u hmem).2
      rcases htiles.eq_or_apart u hmem t ht with rfl | hapart
      · rw [hfree] at halloc
        cases halloc
      · have hstops : u.start + 4 + u.size ≤ t.start ∨ t.start + 4 + t.size ≤ u.start := hapart
        omega
    · obtain ⟨v, -, rfl⟩ := Option.map_eq_some_iff.1 hfit
      have hsize : n < 2 ^ 31 := hok.size.lt
      omega

theorem FullHeap.length_le (hh : FullHeap h m ts) : ts.length ≤ h.heapSize + 1 := by
  have hlength := hh.tiles.add_length_le
  omega

/-- A request that would need the flag, in a heap that has a run for which a header would. -/
theorem FullHeap.not_finds (hh : FullHeap h m ts) (hn : n % 8 = 4) (hlt : n < 2 ^ 32)
    (hbig : 2 ^ 31 ≤ n) (hruns : ¬RunsFit ts) : ¬Finds h n m ts := by
  rintro ⟨r, m', ts', hsearch, hs⟩
  rw [hh.mallocFromFreed_eq] at hsearch
  have hflagged := freedRest_flagged hh.heapEnd_eq hh.bound hn hbig hlt hh.tiles hh.ok hh.length_le
    hruns hsearch
  exact hflagged.not_searched hh.tiles hbig ts' hs

/-- **`malloc_from_freed` is first-fit exactly** for requests whose size leaves the flag of a header alone,
and in heaps where the size of every run does. -/
theorem mallocFromFreed_iff (hh : FullHeap h m ts) (hn : n % 8 = 4) (hlt : n < 2 ^ 32) :
    Finds h n m ts ↔ n < 2 ^ 31 ∨ RunsFit ts := by
  constructor
  · intro hfinds
    by_contra hcon
    obtain ⟨hbig, hruns⟩ := not_or.1 hcon
    exact hh.not_finds hn hlt (Nat.le_of_not_lt hbig) hruns hfinds
  · intro hsmall
    obtain ⟨r, m', ts', hsearch, hs⟩ :=
      freedRest_spec hh.heapEnd_eq hh.bound hn hh.tiles hh.ok hh.length_le hsmall
    exact ⟨r, m', ts', by rw [hh.mallocFromFreed_eq, hsearch], hs⟩

/-- Two free tiles of `size` bytes from address 65536 on. -/
def freeTiles (size : Nat) : List Tile := [⟨65536, size, false⟩, ⟨65540 + size, size, false⟩]

def freeHeap (size : Nat) : Memory := ⟨8 + 2 * size, 65536, 8 + 2 * size⟩

def freeMem (size : Nat) : Mem := store32 65536 size (store32 (65540 + size) size fun _ => 0)

theorem fullHeap_free {size : Nat} (hmod : size % 8 = 4) (hlt : size ≤ 2 ^ 30 + 4) :
    FullHeap (freeHeap size) (freeMem size) (freeTiles size) where
  offset := rfl
  size_pos := by
    simp only [freeHeap]
    omega
  bound := by
    simp only [freeHeap]
    omega
  tiles := by
    have hmid : Piece.stop (⟨65536, size, false⟩ : Tile) = 65540 + size := rfl
    have hlast : Piece.stop (⟨65540 + size, size, false⟩ : Tile) = 65540 + size + 4 + size := rfl
    refine ⟨rfl, ?_, hmid.symm, ?_, ?_⟩
    · simp only [hmid, freeHeap]
      omega
    · rw [hmid, hlast]
      omega
    · change Piece.stop (⟨65540 + size, size, false⟩ : Tile) = 65536 + (8 + 2 * size)
      rw [hlast]
      omega
  ok t ht := by
    rcases List.mem_cons.1 ht with rfl | ht
    · exact ⟨⟨hmod, by simp only; omega⟩, load32_store32 (by omega) _ _⟩
    · obtain rfl := List.mem_singleton.1 ht
      refine ⟨⟨hmod, by simp only; omega⟩, ?_⟩
      rw [freeMem, (agreeOff_store32 _ _ _).load32 (.inr (by simp only; omega)),
        load32_store32 (by omega)]
      rfl

/-- 12 bytes in two freed blocks of 4. -/
theorem mallocFromFreed_sample : Finds (freeHeap 4) 12 (freeMem 4) (freeTiles 4) :=
  (mallocFromFreed_iff (fullHeap_free rfl (by decide)) rfl (by decide)).2 (.inl (by decide))

/-- `2 ^ 31 + 4` bytes in two freed blocks of `2 ^ 30 + 4`: the header of the block is left with the
flag and 4 bytes. -/
theorem search_loses_size :
    FullHeap (freeHeap (2 ^ 30 + 4)) (freeMem (2 ^ 30 + 4)) (freeTiles (2 ^ 30 + 4)) ∧
    ∃ m', (freeHeap (2 ^ 30 + 4)).mallocFromFreed (2 ^ 31 + 4) (freeMem (2 ^ 30 + 4)) =
        .ok (some 65540, m') ∧
      (BufferPtr.ofHeader 65540 0 m').size = 4 ∧
      ¬Finds (freeHeap (2 ^ 30 + 4)) (2 ^ 31 + 4) (freeMem (2 ^ 30 + 4)) (freeTiles (2 ^ 30 + 4)) := by
  have hh : FullHeap (freeHeap (2 ^ 30 + 4)) (freeMem (2 ^ 30 + 4)) (freeTiles (2 ^ 30 + 4)) :=
    fullHeap_free rfl (Nat.le_refl _)
  refine ⟨hh, _, rfl, by decide +kernel, hh.not_finds rfl (by decide) (by decide) fun hruns => ?_⟩
  have hsize := hruns ⟨65536, 2 ^ 31 + 12, false⟩ (List.mem_singleton.2 rfl) rfl
  exact absurd hsize (by decide)

end

end Wasmlib
