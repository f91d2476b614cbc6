import WasmCdt.Core.Malloc
import WasmCdt.Lib.Tiling

/-!
# One heap

The part of a heap below its cursor is tiled by blocks, each behind a header with its size and its
flag, and every operation on the heap exchanges some tiles for others over the same addresses.

* `HeapOk.replace`: the one step all operations are.
* `HeapOk.malloc`, `HeapOk.free`, `HeapOk.cleanup`: bump allocation, `free`, and the tile for the
  rest of a heap.
* `HeapOk.reallocInPlace`: what `realloc_in_place` does to the tiles, unless it runs past the cursor.
-/

namespace Wasmlib

open ByteMem

/-! ## Machine arithmetic and headers -/

theorem addSize_eq {a b : Nat} (h : a + b < 2 ^ 32) : addSize a b = a + b := Nat.mod_eq_of_lt h

theorem addSize_marker {a : Nat} (h : a + 4 < 2 ^ 32) : addSize a sizeMarker = a + 4 := addSize_eq h

theorem subSize_eq {a b : Nat} (h : b ≤ a) (ha : a < 2 ^ 32) : subSize a b = a - b := by
  unfold subSize
  omega

/-- A payload and its header fill whole memory blocks, and leave the flag's bit free. -/
structure BlockSize (size : Nat) : Prop where
  mod : size % 8 = 4
  lt : size < 2 ^ 31

theorem adjustToMemBlock_mod {size : Nat} (h : size < 2 ^ 32) :
    adjustToMemBlock size = ((size + 11) / 8 * 8 - 4) % 2 ^ 32 := by
  have hmask : remMemBlockMask = 2 ^ 3 - 1 := rfl
  simp only [adjustToMemBlock, addSize, sizeMarker, hmask, Nat.and_two_pow_sub_one_eq_mod, memBlock]
  split_ifs with hrem
  · omega
  · omega

theorem adjustToMemBlock_eq {size : Nat} (h : size + 11 < 2 ^ 32) :
    adjustToMemBlock size = (size + 11) / 8 * 8 - 4 := by
  rw [adjustToMemBlock_mod (by omega)]
  omega

/-- A rounded size is rounded. -/
theorem BlockSize.adjust {size : Nat} (h : BlockSize size) : adjustToMemBlock size = size := by
  have hmod := h.mod
  have hlt := h.lt
  rw [adjustToMemBlock_eq (by omega)]
  omega

namespace BufferPtr

theorem setSize_eq {val : Nat} (h : val < 2 ^ 31) (b : BufferPtr) (m : Mem) :
    b.setSize val m = ({ b with size := val },
      store32 (b.ptr - 4) (val + flagOf (load32 m (b.ptr - 4))) m) := by
  simp only [setSize, sizeMarker, allocMemoryMask, and_flag (load32_lt m _), or_flagOf h]

theorem markAlloc_eq {v w : Nat} (h : v < 2 ^ 31) {b : BufferPtr} {m : Mem}
    (hw : load32 m (b.ptr - 4) = v + flagOf w) :
    b.markAlloc m = store32 (b.ptr - 4) (v + 2 ^ 31) m := by
  simp only [markAlloc, sizeMarker, allocMemoryMask, hw, add_flagOf_or h]

theorem markFree_eq {v w : Nat} (h : v < 2 ^ 31) {b : BufferPtr} {m : Mem}
    (hw : load32 m (b.ptr - 4) = v + flagOf w) : b.markFree m = store32 (b.ptr - 4) v m := by
  simp only [markFree, sizeMarker, sizeMask, hw, and_rest, add_flagOf_mod h]

theorem add_flagOf_lt {v : Nat} (h : v < 2 ^ 31) (w : Nat) : v + flagOf w < 2 ^ 32 := by
  rcases flagOf_cases w with hw | hw <;> omega

theorem create_fst (ptr size heapEnd : Nat) (m : Mem) :
    (create ptr size heapEnd m).1 = ⟨ptr, size, heapEnd⟩ := rfl

/-- A block made and marked allocated: one store of its header. -/
theorem markAlloc_create {a size heapEnd : Nat} (h : size < 2 ^ 31) (m : Mem) :
    BufferPtr.markAlloc ⟨a + 4, size, heapEnd⟩ (create (a + 4) size heapEnd m).2 =
      store32 a (size + 2 ^ 31) m := by
  rw [create, setSize_eq h]
  exact (markAlloc_eq h (load32_store32 (add_flagOf_lt h _) _ _)).trans (store32_store32 _ _ _ _)

/-- A block made and marked free. -/
theorem markFree_create {a size heapEnd : Nat} (h : size < 2 ^ 31) (m : Mem) :
    BufferPtr.markFree ⟨a + 4, size, heapEnd⟩ (create (a + 4) size heapEnd m).2 =
      store32 a size m := by
  rw [create, setSize_eq h]
  exact (markFree_eq h (load32_store32 (add_flagOf_lt h _) _ _)).trans (store32_store32 _ _ _ _)

/-- Memory after a block at `a` took over its room up to `possible` bytes: its header, and the header
of what it leaves. -/
def mergedMem (a needed possible : Nat) (m : Mem) : Mem :=
  let m₀ := store32 a (needed + flagOf (load32 m a)) m
  if needed < possible then store32 (a + 4 + needed) (possible - needed - 4) m₀ else m₀

section

variable {a needed possible size heapEnd : Nat} {m : Mem}

theorem load32_mergedMem (h : needed < 2 ^ 31) :
    load32 (mergedMem a needed possible m) a = needed + flagOf (load32 m a) := by
  have hhead : load32 (store32 a (needed + flagOf (load32 m a)) m) a =
      needed + flagOf (load32 m a) := load32_store32 (add_flagOf_lt h _) _ _
  unfold mergedMem
  split_ifs
  · rw [(agreeOff_store32 _ _ _).load32 (.inl (by omega)), hhead]
  · exact hhead

/-- Headers are written before the block and behind its bytes. -/
theorem mergedMem_own {i : Nat} (h : i < needed) :
    mergedMem a needed possible m (a + 4 + i) = m (a + 4 + i) := by
  have hhead : store32 a (needed + flagOf (load32 m a)) m (a + 4 + i) = m (a + 4 + i) :=
    agreeOff_store32 _ _ _ _ (.inr (by omega))
  unfold mergedMem
  split_ifs
  · rw [agreeOff_store32 _ _ _ _ (.inl (by omega)), hhead]
  · exact hhead

theorem agreeOff_mergedMem (h : needed < possible → needed + 4 ≤ possible) :
    AgreeOff a (a + 4 + possible) m (mergedMem a needed possible m) := by
  have hhead := agreeOff_store32 a (needed + flagOf (load32 m a)) m
  unfold mergedMem
  split_ifs with hmore
  · have hrest := agreeOff_store32 (a + 4 + needed) (possible - needed - 4)
      (store32 a (needed + flagOf (load32 m a)) m)
    have hroom := h hmore
    exact (hhead.mono (Nat.le_refl _) (by omega)).trans (hrest.mono (by omega) (by omega))
  · exact hhead.mono (Nat.le_refl _) (by omega)

/-- `merge_contiguous` where the walk found the room. -/
theorem mergeContiguous_eq (hbound : heapEnd < 2 ^ 32)
    (hloop : mergeLoop ⟨a + 4, size, heapEnd⟩ needed m (needed + 1) size = .ok possible)
    (hle : needed ≤ possible) (hfit : a + 4 + possible ≤ heapEnd) (hsize : needed < 2 ^ 31)
    (hlt : possible < needed + 2 ^ 31) (hmod : possible % 8 = needed % 8) :
    mergeContiguous needed true ⟨a + 4, size, heapEnd⟩ m =
      .ok (true, ⟨a + 4, needed, heapEnd⟩, mergedMem a needed possible m) := by
  have hroom : ¬subSize heapEnd (a + 4) < needed := by
    rw [subSize_eq (by omega) hbound]
    omega
  simp only [mergeContiguous, hroom, and_false, ↓reduceIte, hloop, ok_bind, Nat.not_lt.2 hle,
    setSize_eq hsize, Nat.add_sub_cancel, mergedMem]
  rcases Nat.lt_or_ge needed possible with hmore | hall
  · have hsub : subSize (subSize possible needed) sizeMarker = possible - needed - 4 := by
      rw [subSize_eq hle (by omega), subSize_eq (by simp only [sizeMarker]; omega) (by omega),
        sizeMarker]
    have hptr : addSize (addSize (a + 4) needed) sizeMarker = a + 4 + needed + 4 := by
      rw [addSize_eq (show a + 4 + needed < 2 ^ 32 by omega), addSize_marker (by omega)]
    simp only [hmore, ↓reduceIte, hsub, hptr, create_fst,
      markFree_create (show possible - needed - 4 < 2 ^ 31 by omega), beq_self_eq_true, pure_eq_ok]
  · simp only [Nat.not_lt.2 hall, ↓reduceIte, beq_self_eq_true, pure_eq_ok]

end

end BufferPtr

/-! ## Tiles -/

/-- A block: header at `start`, then `size` bytes. -/
structure Tile where
  start : Nat
  size : Nat
  alloc : Bool

instance : Piece Tile where
  start t := t.start
  stop t := t.start + 4 + t.size

/-- The header word says what the tile is. -/
structure Tile.Ok (m : Mem) (t : Tile) : Prop where
  size : BlockSize t.size
  header : load32 m t.start = t.size + if t.alloc then 2 ^ 31 else 0

/-- A heap whose part below the cursor is tiled. -/
structure HeapOk (h : Memory) (m : Mem) (ts : List Tile) : Prop where
  heap_pos : 0 < h.heap
  bound : h.heap + h.heapSize < 2 ^ 32
  offset_le : h.offset ≤ h.heapSize
  offset_mod : h.offset % 8 = 0
  size_mod : h.heapSize % 8 = 0
  tiles : Tiles h.heap ts (h.heap + h.offset)
  ok : ∀ t ∈ ts, t.Ok m

/-- An allocated tile with room for `size` bytes at `ptr`. -/
def Occupied (ts : List Tile) (ptr size : Nat) : Prop :=
  ∃ t ∈ ts, t.alloc = true ∧ t.start + 4 = ptr ∧ size ≤ t.size

namespace Tile.Ok

variable {m m' : Mem} {t : Tile}

theorem ofHeader (h : t.Ok m) (heapEnd : Nat) :
    BufferPtr.ofHeader (t.start + 4) heapEnd m = ⟨t.start + 4, t.size, heapEnd⟩ := by
  have hsize := h.size.lt
  simp only [BufferPtr.ofHeader, sizeMarker, Nat.add_sub_cancel, h.header, sizeMask, and_rest]
  split_ifs
  · rw [Nat.add_mod_right, Nat.mod_eq_of_lt hsize]
  · simp only [Nat.add_zero, Nat.mod_eq_of_lt hsize]

theorem flag (h : t.Ok m) : load32 m t.start &&& allocMemoryMask ≠ 0 ↔ t.alloc = true := by
  have hsize := h.size.lt
  rw [allocMemoryMask, and_flag (load32_lt m _), h.header, flagOf]
  cases t.alloc
  · simpa using hsize
  · simp

theorem rest (h : t.Ok m) : load32 m t.start &&& sizeMask = t.size := by
  have hoh := h.ofHeader 0
  simp only [BufferPtr.ofHeader, sizeMarker, Nat.add_sub_cancel, BufferPtr.mk.injEq] at hoh
  exact hoh.2.1

theorem agree {a b : Nat} (h : t.Ok m) (hm : AgreeOff a b m m')
    (ht : t.start + 4 ≤ a ∨ b ≤ t.start) : t.Ok m' :=
  ⟨h.size, by rw [hm.load32 ht, h.header]⟩

end Tile.Ok

namespace HeapOk

variable {h : Memory} {m m' : Mem} {ts xs mid mid' ys : List Tile} {a b off size : Nat} {t : Tile}

theorem heapEnd_eq (hh : HeapOk h m ts) : h.heapEnd = h.heap + h.heapSize := addSize_eq hh.bound

theorem cut (hh : HeapOk h m (xs ++ mid ++ ys)) : ∃ a b, Tiles h.heap xs a ∧ Tiles a mid b ∧
    Tiles b ys (h.heap + h.offset) := by
  obtain ⟨b, hxm, hys⟩ := Tiles.append_iff.1 hh.tiles
  obtain ⟨a, hxs, hmid⟩ := Tiles.append_iff.1 hxm
  exact ⟨a, b, hxs, hmid, hys⟩

theorem bounds (hh : HeapOk h m ts) (ht : t ∈ ts) :
    h.heap ≤ t.start ∧ t.start + 4 + t.size ≤ h.heap + h.offset := by
  obtain ⟨hle, -, hstop⟩ := hh.tiles.bounds t ht
  exact ⟨hle, hstop⟩

/-- **Tiles are exchanged for others over the same addresses**; the last ones may move the cursor. -/
theorem replace (hh : HeapOk h m (xs ++ mid ++ ys)) (hxs : Tiles h.heap xs a)
    (hmid : Tiles a mid' b) (hys : Tiles b ys (h.heap + off)) (hle : off ≤ h.heapSize)
    (hmod : off % 8 = 0) (hok : ∀ t ∈ mid', t.Ok m') (hm : AgreeOff a b m m') :
    HeapOk { h with offset := off } m' (xs ++ mid' ++ ys) where
  heap_pos := hh.heap_pos
  bound := hh.bound
  offset_le := hle
  offset_mod := hmod
  size_mod := hh.size_mod
  tiles := Tiles.append_iff.2 ⟨b, Tiles.append_iff.2 ⟨a, hxs, hmid⟩, hys⟩
  ok t ht := by
    rcases List.mem_append.1 ht with ht | ht
    · rcases List.mem_append.1 ht with ht | ht
      · have hstop : t.start + 4 + t.size ≤ a := (hxs.bounds t ht).2.2
        exact (hh.ok t (by simp [ht])).agree hm (.inl (by omega))
      · exact hok t ht
    · exact (hh.ok t (by simp [ht])).agree hm (.inr (hys.bounds t ht).1)

/-- A write into the payload of a tile. -/
theorem write (hh : HeapOk h m ts) (ht : t ∈ ts) (ha : t.start + 4 ≤ a)
    (hb : b ≤ t.start + 4 + t.size) (hm : AgreeOff a b m m') : HeapOk h m' ts where
  __ := hh
  ok t' ht' := by
    refine (hh.ok t' ht').agree hm ?_
    rcases hh.tiles.eq_or_apart t ht t' ht' with rfl | hapart | hapart
    · exact .inl ha
    · have hstop : t.start + 4 + t.size ≤ t'.start := hapart
      exact .inr (by omega)
    · have hstop : t'.start + 4 + t'.size ≤ t.start := hapart
      exact .inl (by omega)

/-- What happens to another region does not matter. -/
theorem frame (hh : HeapOk h m ts) (hm : AgreeOff a b m m')
    (hapart : b ≤ h.heap ∨ h.heap + h.heapSize ≤ a) : HeapOk h m' ts where
  __ := hh
  ok t ht := by
    have hbounds := hh.bounds ht
    have hoff := hh.offset_le
    exact (hh.ok t ht).agree hm (by omega)

end HeapOk

/-- A heap before and after an operation: it is over the same addresses, and every block stays, but
for the one at `ptr`. -/
structure Changed (h : Memory) (m : Mem) (ts : List Tile) (ptr : Option Nat) (h' : Memory)
    (m' : Mem) (ts' : List Tile) : Prop where
  ok : HeapOk h' m' ts'
  heap_eq : h'.heap = h.heap
  heapSize_eq : h'.heapSize = h.heapSize
  agree : AgreeOff h.heap (h.heap + h.heapSize) m m'
  keeps : ∀ {p size}, some p ≠ ptr → Occupied ts p size → Occupied ts' p size

/-- The bytes of all blocks stay, but for the one at `ptr`. -/
def Intact (m m' : Mem) (ts : List Tile) (ptr : Option Nat) : Prop :=
  ∀ {p size}, some p ≠ ptr → Occupied ts p size → ∀ i < size, m' (p + i) = m (p + i)

/-- And every block keeps its bytes. -/
structure Rewritten (h : Memory) (m : Mem) (ts : List Tile) (ptr : Option Nat) (h' : Memory)
    (m' : Mem) (ts' : List Tile) : Prop extends Changed h m ts ptr h' m' ts' where
  bytes : Intact m m' ts ptr

/-- A block may be resized in place: the last one with a size below the heap's end, and another with
a block behind it, or without running past the cursor. -/
def Resizable (h : Memory) (ts : List Tile) (t : Tile) (size : Nat) : Prop :=
  if t.start + 4 + t.size = h.heap + h.offset then size ≤ h.heap + h.heapSize
  else (∃ t' ∈ ts, t'.alloc = true ∧ t.start < t'.start) ∨
    t.start + 4 + size ≤ h.heap + h.offset ∨ h.heap + h.heapSize < t.start + 4 + size

namespace HeapOk

variable {h : Memory} {m m' : Mem} {ts xs mid mid' ys : List Tile} {a b off size : Nat} {t : Tile}
  {ptr : Option Nat}

theorem refl (hh : HeapOk h m ts) : Rewritten h m ts ptr h m ts where
  ok := hh
  heap_eq := rfl
  heapSize_eq := rfl
  agree := .rfl
  keeps _ hocc := hocc
  bytes _ _ _ _ := rfl

/-- **The step that all operations are**: tiles without blocks, but for the one at `ptr`, are
exchanged. -/
theorem change (hh : HeapOk h m (xs ++ mid ++ ys)) (hxs : Tiles h.heap xs a)
    (hmid : Tiles a mid' b) (hys : Tiles b ys (h.heap + off)) (hle : off ≤ h.heapSize)
    (hmod : off % 8 = 0) (hok : ∀ t ∈ mid', t.Ok m') (hm : AgreeOff a b m m')
    (hfree : ∀ t ∈ mid, t.alloc = true → some (t.start + 4) = ptr) :
    Rewritten h m (xs ++ mid ++ ys) ptr { h with offset := off } m' (xs ++ mid' ++ ys) where
  ok := hh.replace hxs hmid hys hle hmod hok hm
  heap_eq := rfl
  heapSize_eq := rfl
  agree := by
    have ha := hxs.le
    have hb := hys.le
    exact hm.mono ha (by omega)
  keeps := by
    rintro p size hne ⟨t, ht, halloc, hp, hsize⟩
    refine ⟨t, ?_, halloc, hp, hsize⟩
    have hnmid : t ∉ mid := by
      intro hmem
      rw [← hfree t hmem halloc, hp] at hne
      exact hne rfl
    simp only [List.mem_append] at ht ⊢
    tauto
  bytes := by
    rintro p size hne ⟨t, ht, halloc, hp, hsize⟩ i hi
    simp only [List.mem_append] at ht
    rcases ht with (ht | ht) | ht
    · have hstop : t.start + 4 + t.size ≤ a := (hxs.bounds t ht).2.2
      exact hm _ (.inl (by omega))
    · rw [← hfree t ht halloc, hp] at hne
      exact absurd rfl hne
    · have hstart : b ≤ t.start := (hys.bounds t ht).1
      exact hm _ (.inr (by omega))

/-! ## Operations -/

/-- A write into the payload of a tile changes no block. -/
theorem written (hh : HeapOk h m ts) (ht : t ∈ ts) (ha : t.start + 4 ≤ a)
    (hb : b ≤ t.start + 4 + t.size) (hm : AgreeOff a b m m') : Changed h m ts ptr h m' ts where
  ok := hh.write ht ha hb hm
  heap_eq := rfl
  heapSize_eq := rfl
  agree := by
    have hbounds := hh.bounds ht
    have hoff := hh.offset_le
    exact hm.mono (by omega) (by omega)
  keeps _ hocc := hocc

/-- And those of the other blocks keep their bytes. -/
theorem rewritten (hh : HeapOk h m ts) (ht : t ∈ ts) (ha : t.start + 4 ≤ a)
    (hb : b ≤ t.start + 4 + t.size) (hm : AgreeOff a b m m') :
    Rewritten h m ts (some (t.start + 4)) h m' ts where
  __ := hh.written ht ha hb hm
  bytes := by
    rintro p size hne ⟨t', ht', -, hp, hsize⟩ i hi
    refine hm _ ?_
    rcases hh.tiles.eq_or_apart t ht t' ht' with rfl | hapart | hapart
    · exact absurd (congrArg some hp.symm) hne
    · have hstop : t.start + 4 + t.size ≤ t'.start := hapart
      exact .inr (by omega)
    · have hstop : t'.start + 4 + t'.size ≤ t.start := hapart
      exact .inl (by omega)

/-- Bump allocation adds a tile, or does not find the room. -/
theorem malloc (hh : HeapOk h m ts) (hs : BlockSize size) (hfit : h.offset + size + 4 < 2 ^ 32) :
    (h.heapSize < h.offset + size + 4 ∧ h.malloc size m = (none, h, m)) ∨
    ∃ m', h.malloc size m =
        (some (h.heap + h.offset + 4), { h with offset := h.offset + size + 4 }, m') ∧
      Rewritten h m ts none { h with offset := h.offset + size + 4 } m'
        (ts ++ [⟨h.heap + h.offset, size, true⟩]) := by
  have hused : addSize (addSize h.offset size) sizeMarker = h.offset + size + 4 := by
    rw [addSize_eq (show h.offset + size < 2 ^ 32 by omega), addSize_marker (by omega)]
  have hmod := hs.mod
  have hoffmod := hh.offset_mod
  have hbound := hh.bound
  rcases Nat.lt_or_ge h.heapSize (h.offset + size + 4) with hlt | hge
  · exact .inl ⟨hlt, by simp only [Memory.malloc, hused, hlt, ↓reduceIte]⟩
  · have hptr : addSize (addSize h.heap h.offset) sizeMarker = h.heap + h.offset + 4 := by
      rw [addSize_eq (show h.heap + h.offset < 2 ^ 32 by omega), addSize_marker (by omega)]
    have hoff : addSize h.offset (addSize size sizeMarker) = h.offset + size + 4 := by
      rw [addSize_marker (by omega), addSize_eq (by omega)]
      omega
    refine .inr ⟨store32 (h.heap + h.offset) (size + 2 ^ 31) m, ?_, ?_⟩
    · simp only [Memory.malloc, hused, Nat.not_lt.2 hge, ↓reduceIte, hptr, hoff,
        BufferPtr.create_fst, BufferPtr.markAlloc_create hs.lt]
    · have hlast : Tiles (h.heap + h.offset) [(⟨h.heap + h.offset, size, true⟩ : Tile)]
          (h.heap + (h.offset + size + 4)) :=
        ⟨rfl, by simp only [Piece.stop]; omega, by simp only [Tiles, Piece.stop]; omega⟩
      have hh' : HeapOk h m (ts ++ [] ++ []) := by simpa using hh
      have hlt : size + 2 ^ 31 < 2 ^ 32 := by
        have := hs.lt
        omega
      have hok : ∀ t ∈ [(⟨h.heap + h.offset, size, true⟩ : Tile)],
          t.Ok (store32 (h.heap + h.offset) (size + 2 ^ 31) m) := by
        intro t ht
        obtain rfl := List.mem_singleton.1 ht
        exact ⟨hs, load32_store32 hlt _ m⟩
      have hagree := agreeOff_store32 (h.heap + h.offset) (size + 2 ^ 31) m
      simpa using hh'.change hh.tiles hlast rfl hge (by omega) hok
        (hagree.mono (Nat.le_refl _) (by omega)) (by simp)

/-- `free` clears the flag of a tile. -/
theorem free (hh : HeapOk h m ts) (ht : t ∈ ts) :
    ∃ ts', Rewritten h m ts (some (t.start + 4)) h (h.free (t.start + 4) m) ts' := by
  obtain ⟨xs, ys, rfl⟩ := List.append_of_mem ht
  rw [List.append_cons] at hh ⊢
  have htok := hh.ok t (by simp)
  have hsize := htok.size.lt
  have hm : h.free (t.start + 4) m = store32 t.start t.size m := by
    simp only [Memory.free, htok.ofHeader, BufferPtr.markFree, sizeMarker, Nat.add_sub_cancel,
      htok.rest]
  have hagree := agreeOff_store32 t.start t.size m
  obtain ⟨a, b, hxs, ⟨hstart, hlt, hb⟩, hys⟩ := hh.cut
  have hstart' : t.start = a := hstart
  have hstop : t.start + 4 + t.size = b := hb
  have hmid : Tiles a [{ t with alloc := false }] b := ⟨hstart, hlt, hb⟩
  refine ⟨xs ++ [{ t with alloc := false }] ++ ys, ?_⟩
  rw [hm]
  refine hh.change hxs hmid hys hh.offset_le hh.offset_mod ?_ (hagree.mono (by omega) (by omega)) ?_
  · intro t' ht'
    obtain rfl := List.mem_singleton.1 ht'
    exact ⟨htok.size, load32_store32 (by omega) _ _⟩
  · intro t' ht' _
    rw [List.mem_singleton.1 ht']

/-- The rest of a heap becomes a free tile. -/
theorem cleanup (hh : HeapOk h m ts) (hrest : h.heapSize - h.offset < 2 ^ 31) :
    ∃ ts' m', h.cleanupRemaining m = ({ h with offset := h.heapSize }, m') ∧
      Rewritten h m ts none { h with offset := h.heapSize } m' ts' := by
  have hoff := hh.offset_le
  have hoffmod := hh.offset_mod
  have hsizemod := hh.size_mod
  have hbound := hh.bound
  by_cases heq : h.offset = h.heapSize
  · have hself : ({ h with offset := h.heapSize } : Memory) = h := by
      cases h
      cases heq
      rfl
    rw [hself]
    exact ⟨ts, m, if_pos heq, hh.refl⟩
  · have hptr : addSize (addSize h.heap h.offset) sizeMarker = h.heap + h.offset + 4 := by
      rw [addSize_eq (show h.heap + h.offset < 2 ^ 32 by omega), addSize_marker (by omega)]
    have hsub : subSize (subSize h.heapSize h.offset) sizeMarker = h.heapSize - h.offset - 4 := by
      rw [subSize_eq hoff (by omega), subSize_eq (by simp only [sizeMarker]; omega) (by omega),
        sizeMarker]
    have hs : BlockSize (h.heapSize - h.offset - 4) := ⟨by omega, by omega⟩
    have hagree := agreeOff_store32 (h.heap + h.offset) (h.heapSize - h.offset - 4) m
    refine ⟨ts ++ [⟨h.heap + h.offset, h.heapSize - h.offset - 4, false⟩] ++ [],
      store32 (h.heap + h.offset) (h.heapSize - h.offset - 4) m, ?_, ?_⟩
    · simp only [Memory.cleanupRemaining, heq, ↓reduceIte, hptr, hsub, BufferPtr.create_fst,
        BufferPtr.markFree_create hs.lt]
    · have hlast : Tiles (h.heap + h.offset)
          [(⟨h.heap + h.offset, h.heapSize - h.offset - 4, false⟩ : Tile)] (h.heap + h.heapSize) :=
        ⟨rfl, by simp only [Piece.stop]; omega, by simp only [Tiles, Piece.stop]; omega⟩
      have hok : ∀ t ∈ [(⟨h.heap + h.offset, h.heapSize - h.offset - 4, false⟩ : Tile)],
          t.Ok (store32 (h.heap + h.offset) (h.heapSize - h.offset - 4) m) := by
        intro t ht
        obtain rfl := List.mem_singleton.1 ht
        exact ⟨hs, load32_store32 (by omega) _ _⟩
      have hh' : HeapOk h m (ts ++ [] ++ []) := by simpa using hh
      simpa using hh'.change hh.tiles hlast rfl (Nat.le_refl _) hsizemod hok
        (hagree.mono (Nat.le_refl _) (by omega)) (by simp)

/-! ## Merging -/

/-- The walk over the freed tiles behind a block stops at a tile's end, if it does not run past the
cursor: where it has found the room, or else in front of an allocated tile or at the heap's end. -/
theorem mergeLoop_spec (sz : Nat) {p heapEnd needed cursor : Nat} (hend : cursor ≤ heapEnd)
    (hbound : heapEnd < 2 ^ 32) : ∀ {rest : List Tile} {n possible : Nat},
    Tiles (p + possible) rest cursor → (∀ t ∈ rest, t.Ok m) → needed + 1 ≤ possible + n → 0 < n →
    possible % 8 = needed % 8 →
    ((∃ t ∈ rest, t.alloc = true) ∨ p + needed ≤ cursor ∨ heapEnd ≤ cursor) →
    ∃ fs ys possible', rest = fs ++ ys ∧ Tiles (p + possible) fs (p + possible') ∧
      Tiles (p + possible') ys cursor ∧ (∀ t ∈ fs, t.alloc = false) ∧
      BufferPtr.mergeLoop ⟨p, sz, heapEnd⟩ needed m n possible = .ok possible' ∧
      (possible' = possible ∨ possible' + 8 ≤ needed + 2 ^ 31) ∧ possible' % 8 = needed % 8 ∧
      (possible' < needed → ∀ t ∈ ys.head?, t.alloc = true)
  | [], n + 1, possible, htiles, _, _, _, hmod, hsafe => by
    have hcursor : p + possible = cursor := htiles
    have hnot : ¬(possible < needed ∧ addSize p possible < heapEnd) := by
      rintro ⟨hlt, hin⟩
      rw [addSize_eq (by omega)] at hin
      rcases hsafe with ⟨t, ht, -⟩ | hle | hle
      · cases ht
      · omega
      · omega
    exact ⟨[], [], possible, rfl, rfl, htiles, by simp,
      by simp only [BufferPtr.mergeLoop, hnot, ↓reduceIte, pure_eq_ok], .inl rfl, hmod, by simp⟩
  | t :: rest, n + 1, possible, htiles, hok, hfuel, _, hmod, hsafe => by
    obtain ⟨hstart, hlt, hrest⟩ := htiles
    have hstart' : t.start = p + possible := hstart
    have hstop : Piece.stop t = p + (possible + t.size + 4) := by
      have : Piece.stop t = t.start + 4 + t.size := rfl
      omega
    have htok := hok t List.mem_cons_self
    have hle := hrest.le
    by_cases hmore : possible < needed
    · have haddr : addSize p possible = t.start := by
        rw [addSize_eq (by omega)]
        exact hstart'.symm
      have hin : t.start < heapEnd := by omega
      cases halloc : t.alloc with
      | true =>
        have hflag : load32 m t.start &&& allocMemoryMask ≠ 0 := htok.flag.2 halloc
        refine ⟨[], t :: rest, possible, rfl, rfl, ⟨hstart, hlt, hrest⟩, by simp, ?_, .inl rfl, hmod,
          fun _ => by simpa using halloc⟩
        simp only [BufferPtr.mergeLoop, hmore, haddr, hin, and_self, ↓reduceIte, ne_eq, hflag,
          not_false_eq_true, pure_eq_ok]
      | false =>
        have hflag : load32 m t.start &&& allocMemoryMask = 0 := by
          by_contra hne
          rw [htok.flag.1 hne] at halloc
          cases halloc
        have hsize := htok.size
        have hsizelt := hsize.lt
        have hsizemod := hsize.mod
        have hadd : addSize possible (addSize t.size sizeMarker) = possible + t.size + 4 := by
          rw [addSize_marker (by omega), addSize_eq (by omega)]
          omega
        have hsafe' : (∃ t ∈ rest, t.alloc = true) ∨ p + needed ≤ cursor ∨ heapEnd ≤ cursor := by
          rcases hsafe with ⟨t', ht', halloc'⟩ | hle
          · rcases List.mem_cons.1 ht' with rfl | ht'
            · rw [halloc] at halloc'
              cases halloc'
            · exact .inl ⟨t', ht', halloc'⟩
          · exact .inr hle
        rw [hstop] at hrest
        obtain ⟨fs, ys, possible', rfl, hfs, hys, hfree, hloop, hpos, hmod', hhead⟩ :=
          mergeLoop_spec sz hend hbound hrest (fun t' ht' => hok t' (List.mem_cons_of_mem _ ht'))
            (n := n) (by omega) (by omega) (by omega) hsafe'
        refine ⟨t :: fs, ys, possible', rfl, ⟨hstart, hlt, by rwa [hstop]⟩, hys, ?_, ?_, ?_, hmod', hhead⟩
        · intro t' ht'
          rcases List.mem_cons.1 ht' with rfl | ht'
          · exact halloc
          · exact hfree t' ht'
        · simp only [BufferPtr.mergeLoop, hmore, haddr, hin, and_self, ↓reduceIte, ne_eq, hflag,
            not_true_eq_false, htok.rest, hadd, hloop]
        · omega
    · exact ⟨[], t :: rest, possible, rfl, rfl, ⟨hstart, hlt, hrest⟩, by simp,
        by simp only [BufferPtr.mergeLoop, hmore, false_and, ↓reduceIte, pure_eq_ok], .inl rfl, hmod,
        fun hlt => absurd hlt hmore⟩

/-- The block made of `possible` bytes, and what it leaves of them as a free tile. -/
theorem splitTiles {a possible : Nat} (hs : BlockSize size) (hle : size ≤ possible)
    (hlt : possible < size + 4 + 2 ^ 31) (hmod : possible % 8 = size % 8) (m : Mem) :
    ∃ mid', Tiles a mid' (a + 4 + possible) ∧
      (∀ t ∈ mid', t.Ok (store32 a (size + 2 ^ 31) (BufferPtr.mergedMem a size possible m))) ∧
      AgreeOff a (a + 4 + possible) m
        (store32 a (size + 2 ^ 31) (BufferPtr.mergedMem a size possible m)) ∧
      ∀ u : Tile, u.alloc = true → (u ∈ mid' ↔ u = ⟨a, size, true⟩) := by
  have hsize := hs.lt
  have hblock : Tile.Ok (store32 a (size + 2 ^ 31) (BufferPtr.mergedMem a size possible m))
      ⟨a, size, true⟩ := ⟨hs, load32_store32 (by omega) _ _⟩
  have hstore := agreeOff_store32 a (size + 2 ^ 31) (BufferPtr.mergedMem a size possible m)
  have hagree : AgreeOff a (a + 4 + possible) m
      (store32 a (size + 2 ^ 31) (BufferPtr.mergedMem a size possible m)) :=
    (BufferPtr.agreeOff_mergedMem (by omega)).trans (hstore.mono (Nat.le_refl _) (by omega))
  rcases Nat.lt_or_ge size possible with hmore | hall
  · have hrem : BlockSize (possible - size - 4) := ⟨by have := hs.mod; omega, by omega⟩
    refine ⟨[⟨a, size, true⟩, ⟨a + 4 + size, possible - size - 4, false⟩],
      ⟨rfl, by simp only [Piece.stop]; omega, rfl, by simp only [Piece.stop]; omega,
        by simp only [Tiles, Piece.stop]; omega⟩, ?_, hagree, ?_⟩
    · intro t ht
      rcases List.mem_pair.1 ht with rfl | rfl
      · exact hblock
      · refine ⟨hrem, ?_⟩
        rw [hstore.load32 (.inr (Nat.le_add_right _ size)), BufferPtr.mergedMem, if_pos hmore]
        exact load32_store32 (by omega) _ _
    · intro u hu
      rw [List.mem_pair, or_iff_left]
      rintro rfl
      cases hu
  · refine ⟨[⟨a, size, true⟩],
      ⟨rfl, by simp only [Piece.stop]; omega, by simp only [Tiles, Piece.stop]; omega⟩, ?_, hagree, ?_⟩
    · intro t ht
      obtain rfl := List.mem_singleton.1 ht
      exact hblock
    · intro u _
      rw [List.mem_singleton]

/-- A block takes over the free tiles behind it; what it leaves of them is one free tile. -/
theorem takeOver {fs : List Tile} {possible : Nat}
    (hh : HeapOk h m (xs ++ [t] ++ (fs ++ ys))) (hs : BlockSize size)
    (hys : Tiles (t.start + 4 + possible) ys (h.heap + h.offset))
    (hfree : ∀ t ∈ fs, t.alloc = false) (hle : size ≤ possible) (hlt : possible < size + 2 ^ 31)
    (hmod : possible % 8 = size % 8) :
    ∃ ts', Rewritten h m (xs ++ [t] ++ (fs ++ ys)) (some (t.start + 4)) h
      (store32 t.start (size + 2 ^ 31) (BufferPtr.mergedMem t.start size possible m)) ts' ∧
      Occupied ts' (t.start + 4) size := by
  have hlist : xs ++ [t] ++ (fs ++ ys) = xs ++ ([t] ++ fs) ++ ys := by simp
  obtain ⟨a, b, hxs, ⟨hstart, -, -⟩, -⟩ := hh.cut
  have hstart' : t.start = a := hstart
  subst hstart'
  rw [hlist] at hh ⊢
  have hfree' : ∀ t' ∈ [t] ++ fs, t'.alloc = true → some (t'.start + 4) = some (t.start + 4) := by
    intro t' ht' halloc
    rcases List.mem_append.1 ht' with ht' | ht'
    · rw [List.mem_singleton.1 ht']
    · rw [hfree t' ht'] at halloc
      cases halloc
  obtain ⟨mid', hmid, hok, hagree, hblocks⟩ := splitTiles (a := t.start) hs hle (by omega) hmod m
  have hblock := (hblocks ⟨t.start, size, true⟩ rfl).2 rfl
  exact ⟨_, hh.change hxs hmid hys hh.offset_le hh.offset_mod hok hagree hfree',
    ⟨t.start, size, true⟩, by simp [hblock], rfl, rfl, Nat.le_refl _⟩

/-- `merge_contiguous` for a block that must grow: it does not find the room, or takes over tiles. -/
theorem mergeContiguous {rest : List Tile} (hh : HeapOk h m (xs ++ [t] ++ rest))
    (hs : BlockSize size) (hlt : t.size < size)
    (hsafe : (∃ t' ∈ rest, t'.alloc = true) ∨ t.start + 4 + size ≤ h.heap + h.offset ∨
      h.heap + h.heapSize < t.start + 4 + size) :
    BufferPtr.mergeContiguous size true ⟨t.start + 4, t.size, h.heapEnd⟩ m =
        .ok (false, ⟨t.start + 4, t.size, h.heapEnd⟩, m) ∨
    ∃ m' ts', BufferPtr.mergeContiguous size true ⟨t.start + 4, t.size, h.heapEnd⟩ m =
        .ok (true, ⟨t.start + 4, size, h.heapEnd⟩, m') ∧
      Rewritten h m (xs ++ [t] ++ rest) (some (t.start + 4)) h
        (BufferPtr.markAlloc ⟨t.start + 4, size, h.heapEnd⟩ m') ts' ∧
      Occupied ts' (t.start + 4) size ∧ ∀ i < t.size,
        BufferPtr.markAlloc ⟨t.start + 4, size, h.heapEnd⟩ m' (t.start + 4 + i) =
          m (t.start + 4 + i) := by
  have hbound := hh.bound
  have hoff := hh.offset_le
  have htok := hh.ok t (by simp)
  have htbounds := hh.bounds (t := t) (by simp)
  have hsize := hs.lt
  have hmods : t.size % 8 = size % 8 := htok.size.mod.trans hs.mod.symm
  have hroom : subSize h.heapEnd (t.start + 4) = h.heap + h.heapSize - (t.start + 4) := by
    rw [hh.heapEnd_eq, subSize_eq (by omega) hbound]
  by_cases hfar : h.heap + h.heapSize - (t.start + 4) < size
  · left
    simp only [BufferPtr.mergeContiguous, hroom, hfar, and_self, ↓reduceIte, pure_eq_ok]
  · have hsafe' : (∃ t' ∈ rest, t'.alloc = true) ∨ t.start + 4 + size ≤ h.heap + h.offset := by
      rcases hsafe with hsafe | hsafe | hsafe
      · exact .inl hsafe
      · exact .inr hsafe
      · omega
    obtain ⟨a, b, -, ⟨-, -, hb⟩, hrest⟩ := hh.cut
    have hb' : t.start + 4 + t.size = b := hb
    subst hb'
    obtain ⟨fs, ys, possible, rfl, -, hys, hfree, hloop, hpos, hmod, -⟩ :=
      mergeLoop_spec (m := m) t.size (p := t.start + 4) (n := size + 1)
        (show h.heap + h.offset ≤ h.heapEnd by rw [hh.heapEnd_eq]; omega)
        (by rw [hh.heapEnd_eq]; exact hbound) hrest (fun t' ht' => hh.ok t' (by simp [ht']))
        (by omega) (by omega) hmods (hsafe'.imp_right .inl)
    rcases Nat.lt_or_ge possible size with hshort | henough
    · left
      simp only [BufferPtr.mergeContiguous, hroom, hfar, and_false, ↓reduceIte, hloop, ok_bind,
        hshort, and_self, pure_eq_ok]
    · right
      have hfit : t.start + 4 + possible ≤ h.heap + h.offset := hys.le
      have hmerge := BufferPtr.mergeContiguous_eq (by rw [hh.heapEnd_eq]; exact hbound) hloop henough
        (by rw [hh.heapEnd_eq]; omega) hsize (by omega) hmod
      have hmark : BufferPtr.markAlloc ⟨t.start + 4, size, h.heapEnd⟩
          (BufferPtr.mergedMem t.start size possible m) =
            store32 t.start (size + 2 ^ 31) (BufferPtr.mergedMem t.start size possible m) :=
        BufferPtr.markAlloc_eq hsize (BufferPtr.load32_mergedMem hsize)
      obtain ⟨ts', hchanged, hocc⟩ := hh.takeOver hs hys hfree henough (by omega) hmod
      refine ⟨_, ts', hmerge, hmark ▸ hchanged, hocc, fun i hi => ?_⟩
      rw [hmark, agreeOff_store32 _ _ _ _ (.inr (Nat.le_add_right _ i)),
        BufferPtr.mergedMem_own (by omega)]

/-- The last block grows, and the cursor with it. -/
theorem growLast (hh : HeapOk h m ts) (ht : t ∈ ts) (hs : BlockSize size)
    (hlast : t.start + 4 + t.size = h.heap + h.offset)
    (hfit : t.start + 4 + size ≤ h.heap + h.heapSize) (hle : t.size ≤ size) :
    ∃ ts', Rewritten h m ts (some (t.start + 4)) { h with offset := h.offset + (size - t.size) }
      (store32 t.start (size + 2 ^ 31) m) ts' ∧ Occupied ts' (t.start + 4) size := by
  have htok := hh.ok t ht
  have hsize := hs.lt
  have hsizemod := hs.mod
  have htsizemod := htok.size.mod
  have hoffmod := hh.offset_mod
  obtain ⟨xs, ys, rfl⟩ := List.append_of_mem ht
  rw [List.append_cons] at hh ⊢
  obtain ⟨a, b, hxs, ⟨hstart, -, hb⟩, hys⟩ := hh.cut
  have hstart' : t.start = a := hstart
  have hb' : t.start + 4 + t.size = b := hb
  subst hstart' hb'
  rw [hlast] at hys
  obtain rfl := hys.eq_nil
  have hblock : Tile.Ok (store32 t.start (size + 2 ^ 31) m) ⟨t.start, size, true⟩ :=
    ⟨hs, load32_store32 (by omega) _ _⟩
  have hmid : Tiles t.start [(⟨t.start, size, true⟩ : Tile)] (t.start + 4 + size) :=
    ⟨rfl, by simp only [Piece.stop]; omega, by simp only [Tiles, Piece.stop]⟩
  have hend : Tiles (t.start + 4 + size) ([] : List Tile) (h.heap + (h.offset + (size - t.size))) := by
    simp only [Tiles]
    omega
  refine ⟨_, hh.change hxs hmid hend (by omega) (by omega) ?_
    ((agreeOff_store32 _ _ _).mono (Nat.le_refl _) (by omega)) ?_, ⟨t.start, size, true⟩, by simp, rfl,
    rfl, Nat.le_refl _⟩
  · intro t' ht'
    obtain rfl := List.mem_singleton.1 ht'
    exact hblock
  · intro t' ht' _
    rw [List.mem_singleton.1 ht']

/-- What is behind a block that is not the last. -/
theorem behind {rest : List Tile} (hh : HeapOk h m (xs ++ t :: rest))
    (hlast : t.start + 4 + t.size ≠ h.heap + h.offset) (hsafe : Resizable h (xs ++ t :: rest) t size) :
    (∃ t' ∈ rest, t'.alloc = true) ∨ t.start + 4 + size ≤ h.heap + h.offset ∨
      h.heap + h.heapSize < t.start + 4 + size := by
  rw [Resizable, if_neg hlast] at hsafe
  rcases hsafe with ⟨t', ht', halloc', hbehind⟩ | hsafe
  · refine .inl ⟨t', ?_, halloc'⟩
    rw [List.append_cons] at hh
    obtain ⟨a, b, hxs, ⟨hstart, -, -⟩, -⟩ := hh.cut
    have hstart' : t.start = a := hstart
    rcases List.mem_append.1 ht' with hmem | hmem
    · have hbefore := hxs.bounds t' hmem
      have hstop : t'.start < a := Nat.lt_of_lt_of_le hbefore.2.1 hbefore.2.2
      omega
    · rcases List.mem_cons.1 hmem with rfl | hmem
      · omega
      · exact hmem
  · exact .inr hsafe

/-- `realloc_in_place` of a tile's block, with the additions that do not wrap. -/
theorem reallocInPlace_eq (hh : HeapOk h m ts) (ht : t ∈ ts) (hs : BlockSize size) :
    h.reallocInPlace (t.start + 4) size m =
      if subSize (h.heap + h.heapSize) size < t.start + 4 then .ok (none, t.size, h, m)
      else if size < t.size then
        .ok (some (t.start + 4), t.size, h, store32 (t.start + 4 + size) (t.size - size) m)
      else if t.start + 4 + t.size = h.heap + h.offset then
        .ok (some (t.start + 4), t.size, { h with offset := addSize h.offset (subSize size t.size) },
          store32 t.start (size + flagOf (load32 m t.start)) m)
      else if size = t.size then .ok (some (t.start + 4), t.size, h, m)
      else
        BufferPtr.mergeContiguous size true ⟨t.start + 4, t.size, h.heapEnd⟩ m >>= fun (merged, b, m) =>
          if !merged then pure (none, t.size, h, m)
          else pure (some (t.start + 4), t.size, h, b.markAlloc m) := by
  have hbound := hh.bound
  have hoff := hh.offset_le
  have htbounds := hh.bounds ht
  have hsize := hs.lt
  have htsize := (hh.ok t ht).size.lt
  have hsizemod := hs.mod
  have htsizemod := (hh.ok t ht).size.mod
  have hheader := (hh.ok t ht).ofHeader h.heapEnd
  have hfinish : BufferPtr.finish ⟨t.start + 4, t.size, h.heapEnd⟩ = t.start + 4 + t.size :=
    addSize_eq (show t.start + 4 + t.size < 2 ^ 32 by omega)
  have hvalid : ¬h.heap + h.heapSize < t.start + 4 + t.size := by omega
  have hcursor : addSize h.heap h.offset = h.heap + h.offset := addSize_eq (by omega)
  rw [hh.heapEnd_eq] at hheader hfinish ⊢
  simp only [Memory.reallocInPlace, hh.heapEnd_eq, hheader, hfinish, hcursor, hvalid, if_false]
  split_ifs with hfar hshrink hlast heq
  · rfl
  · have hptr : addSize (addSize (t.start + 4) size) sizeMarker = t.start + 4 + size + 4 := by
      rw [addSize_eq (show t.start + 4 + size < 2 ^ 32 by omega), addSize_marker (by omega)]
    have hsub : subSize t.size size = t.size - size := subSize_eq (by omega) (by omega)
    simp only [hptr, hsub, BufferPtr.create_fst,
      BufferPtr.markFree_create (show t.size - size < 2 ^ 31 by omega), pure_eq_ok]
  · simp only [BufferPtr.setSize_eq hsize, Nat.add_sub_cancel, pure_eq_ok]
  · rfl
  · rfl

/-- **`realloc_in_place` keeps the heap tiled**, and gives the block the size or leaves it. -/
theorem reallocInPlace (hh : HeapOk h m ts) (ht : t ∈ ts) (halloc : t.alloc = true)
    (hs : BlockSize size) (hsafe : Resizable h ts t size) :
    (t.size < size ∧ h.reallocInPlace (t.start + 4) size m = .ok (none, t.size, h, m)) ∨
    ∃ h' m' ts', h.reallocInPlace (t.start + 4) size m = .ok (some (t.start + 4), t.size, h', m') ∧
      Rewritten h m ts (some (t.start + 4)) h' m' ts' ∧ Occupied ts' (t.start + 4) size ∧
      h.offset ≤ h'.offset ∧ ∀ i < min t.size size, m' (t.start + 4 + i) = m (t.start + 4 + i) := by
  have hbound := hh.bound
  have hoff := hh.offset_le
  have htok := hh.ok t ht
  have htbounds := hh.bounds ht
  have hsizemod := hs.mod
  have htsizemod := htok.size.mod
  rw [hh.reallocInPlace_eq ht hs]
  by_cases hfar : subSize (h.heap + h.heapSize) size < t.start + 4
  · rw [if_pos hfar]
    refine .inl ⟨?_, rfl⟩
    by_contra hle
    rw [subSize_eq (by omega) hbound] at hfar
    omega
  rw [if_neg hfar]
  by_cases hshrink : size < t.size
  · have hagree := agreeOff_store32 (t.start + 4 + size) (t.size - size) m
    rw [if_pos hshrink]
    exact .inr ⟨h, _, ts, rfl, hh.rewritten ht (Nat.le_add_right _ size) (by omega) hagree,
      ⟨t, ht, halloc, rfl, Nat.le_of_lt hshrink⟩, Nat.le_refl _,
      fun i hi => hagree _ (.inl (by omega))⟩
  rw [if_neg hshrink]
  by_cases hlast : t.start + 4 + t.size = h.heap + h.offset
  · rw [Resizable, if_pos hlast] at hsafe
    rw [subSize_eq hsafe hbound] at hfar
    have hsub : subSize size t.size = size - t.size := subSize_eq (by omega) (by omega)
    have hadd : addSize h.offset (size - t.size) = h.offset + (size - t.size) :=
      addSize_eq (by omega)
    have hflag : flagOf (load32 m t.start) = 2 ^ 31 := by
      simp only [htok.header, halloc, ↓reduceIte, flagOf, Nat.le_add_left]
    obtain ⟨ts', hchanged, hocc⟩ := hh.growLast ht hs hlast (by omega) (by omega)
    rw [if_pos hlast, hsub, hadd, hflag]
    exact .inr ⟨_, _, ts', rfl, hchanged, hocc, Nat.le_add_right _ _,
      fun i _ => agreeOff_store32 _ _ m _ (.inr (Nat.le_add_right _ i))⟩
  rw [if_neg hlast]
  by_cases heq : size = t.size
  · subst heq
    rw [if_pos rfl]
    exact .inr ⟨h, m, ts, rfl, hh.refl, ⟨t, ht, halloc, rfl, Nat.le_refl _⟩, Nat.le_refl _,
      fun _ _ => rfl⟩
  · rw [if_neg heq]
    obtain ⟨xs, rest, rfl⟩ := List.append_of_mem ht
    have hbehind := hh.behind hlast hsafe
    rw [List.append_cons] at hh ⊢
    rcases hh.mergeContiguous hs (by omega) hbehind with hmerge |
        ⟨m', ts', hmerge, hchanged, hocc, hown⟩
    · left
      refine ⟨by omega, ?_⟩
      simp only [hmerge, ok_bind, Bool.not_false, if_true, pure_eq_ok]
    · right
      refine ⟨h, _, ts', ?_, hchanged, hocc, Nat.le_refl _, fun i hi => hown i (by omega)⟩
      simp only [hmerge, ok_bind, Bool.not_true, Bool.false_eq_true, if_false, pure_eq_ok]

end HeapOk

end Wasmlib
