import WasmCdt.Lib.ForkJoin

/-!
# Writing a file

Tasks that copy bytes into a buffer. A task fills a region if it writes there only, and finds the
region blank.

* `Fills.par`, `Fills.seq`: tasks that fill regions side by side, at the same time or in turn.
* `Adjacent.parallelForEach`: **a parallel loop over adjacent regions** leaves the bytes in order.
* `read_patch`: a copy into a region that is written already.
-/

namespace FileBuffer

open ForkJoin

abbrev Buf := Nat → UInt8

/-- A new file. -/
def blank : Buf := fun _ => 0

def memcpy : Nat → List UInt8 → Task Nat UInt8
  | _, [] => .skip
  | p, b :: bs => .seq (.store p b) (memcpy (p + 1) bs)

def read (m : Buf) (p : Nat) : Nat → List UInt8
  | 0 => []
  | n + 1 => m p :: read m (p + 1) n

@[simp] theorem read_length (m : Buf) : ∀ (p n : Nat), (read m p n).length = n
  | _, 0 => rfl
  | p, n + 1 => by simp [read, read_length m (p + 1) n]

theorem read_add (m : Buf) : ∀ (p n k : Nat), read m p (n + k) = read m p n ++ read m (p + n) k
  | p, 0, k => by simp [read]
  | p, n + 1, k => by
    rw [show n + 1 + k = n + k + 1 by omega, read, read_add m (p + 1) n k, read]
    simp [Nat.add_assoc, Nat.add_comm 1 n]

theorem read_congr {m m' : Buf} : ∀ {p n : Nat}, (∀ a, p ≤ a → a < p + n → m a = m' a) →
    read m p n = read m' p n
  | _, 0, _ => rfl
  | p, n + 1, h => by
    rw [read, read, h p (Nat.le_refl p) (by omega), read_congr fun a ha hb => h a (by omega) (by omega)]

theorem read_blank : ∀ p n : Nat, read blank p n = List.replicate n 0
  | _, 0 => rfl
  | p, n + 1 => by rw [read, read_blank (p + 1) n, List.replicate_succ, blank]

theorem touches_memcpy {a : Nat} : ∀ {p : Nat} {bs : List UInt8},
    (memcpy p bs).Touches a ↔ p ≤ a ∧ a < p + bs.length
  | p, [] => by simp [memcpy]
  | p, b :: bs => by
    rw [memcpy, Task.touches_seq, Task.touches_store, touches_memcpy, List.length_cons]
    omega

theorem memcpy_raceFree : ∀ (p : Nat) (bs : List UInt8), (memcpy p bs).RaceFree
  | _, [] => trivial
  | p, _ :: bs => ⟨trivial, memcpy_raceFree (p + 1) bs⟩

theorem read_memcpy (m : Buf) : ∀ (p : Nat) (bs : List UInt8),
    read ((memcpy p bs).exec m) p bs.length = bs
  | _, [] => rfl
  | p, b :: bs => by
    have hfirst : ((memcpy p (b :: bs)).exec m) p = b := by
      rw [memcpy, exec_seq, exec_of_not_touches (by rw [touches_memcpy]; omega)]
      simp [Task.exec, Task.stores, run]
    rw [List.length_cons, read, hfirst, memcpy, exec_seq, read_memcpy _ (p + 1) bs]

/-! ## Patches -/

/-- `g` over the bytes from `o`. -/
def overwrite (bs : List UInt8) (o : Nat) (g : List UInt8) : List UInt8 :=
  bs.take o ++ g ++ bs.drop (o + g.length)

theorem overwrite_append {x y z g : List UInt8} (h : g.length = y.length) :
    overwrite (x ++ (y ++ z)) x.length g = x ++ (g ++ z) := by
  simp [overwrite, h, List.drop_append]

/-- **A copy into a region changes it there.** -/
theorem read_patch {m : Buf} {p n o : Nat} {g : List UInt8} (h : o + g.length ≤ n) :
    read ((memcpy (p + o) g).exec m) p n = overwrite (read m p n) o g := by
  obtain ⟨k, rfl⟩ : ∃ k, n = o + (g.length + k) := ⟨n - (o + g.length), by omega⟩
  have hbefore : read ((memcpy (p + o) g).exec m) p o = read m p o :=
    read_congr fun a _ hlt => exec_of_not_touches (by rw [touches_memcpy]; omega) m
  have hbehind : read ((memcpy (p + o) g).exec m) (p + o + g.length) k
      = read m (p + o + g.length) k :=
    read_congr fun a hle _ => exec_of_not_touches (by rw [touches_memcpy]; omega) m
  have hover := overwrite_append (x := read m p o) (z := read m (p + o + g.length) k)
    (read_length m (p + o) g.length).symm
  rw [read_length] at hover
  rw [read_add, read_add, hbefore, read_memcpy, hbehind, read_add m p, read_add m (p + o), hover]

/-! ## Regions -/

/-- The task writes to its region alone, and leaves the bytes there if the region was blank. -/
structure Fills (t : Task Nat UInt8) (p : Nat) (bytes : List UInt8) : Prop where
  within : ∀ a, t.Touches a → p ≤ a ∧ a < p + bytes.length
  raceFree : t.RaceFree
  read : ∀ m, read m p bytes.length = List.replicate bytes.length 0 →
    read (t.exec m) p bytes.length = bytes

theorem fills_memcpy (p : Nat) (bs : List UInt8) : Fills (memcpy p bs) p bs where
  within _ h := touches_memcpy.1 h
  raceFree := memcpy_raceFree p bs
  read m _ := read_memcpy m p bs

/-- Bytes that nothing is written to. -/
theorem fills_skip (p n : Nat) : Fills .skip p (List.replicate n 0) where
  within a h := absurd h (Task.touches_skip a)
  raceFree := trivial
  read m h := by simpa using h

namespace Fills

variable {t u : Task Nat UInt8} {p : Nat} {bs cs : List UInt8}

/-- Two tasks, each in its own region, behind each other. -/
theorem read_both (ht : Fills t p bs) (hu : Fills u (p + bs.length) cs) {m : Buf}
    (hblank : FileBuffer.read m p (bs ++ cs).length = List.replicate (bs ++ cs).length 0) :
    FileBuffer.read (u.exec (t.exec m)) p (bs ++ cs).length = bs ++ cs := by
  rw [List.length_append, read_add, List.replicate_add] at hblank
  obtain ⟨hbs, hcs⟩ := List.append_inj hblank (by simp)
  have hleft : FileBuffer.read (u.exec (t.exec m)) p bs.length = bs := by
    rw [read_congr fun a _ hlt => exec_of_not_touches (fun ha => ?_) (t.exec m), ht.read m hbs]
    have := hu.within a ha
    omega
  have hkept : FileBuffer.read (t.exec m) (p + bs.length) cs.length = List.replicate cs.length 0 := by
    rw [read_congr fun a hle _ => exec_of_not_touches (fun ha => ?_) m, hcs]
    have := ht.within a ha
    omega
  rw [List.length_append, read_add, hleft, hu.read _ hkept]

theorem within_both (ht : Fills t p bs) (hu : Fills u (p + bs.length) cs) {a : Nat}
    (h : t.Touches a ∨ u.Touches a) : p ≤ a ∧ a < p + (bs ++ cs).length := by
  rw [List.length_append]
  rcases h with h | h
  · have := ht.within a h
    omega
  · have := hu.within a h
    omega

protected theorem seq (ht : Fills t p bs) (hu : Fills u (p + bs.length) cs) :
    Fills (.seq t u) p (bs ++ cs) where
  within _ h := ht.within_both hu (Task.touches_seq.1 h)
  raceFree := ⟨ht.raceFree, hu.raceFree⟩
  read m h := by rw [exec_seq, ht.read_both hu h]

protected theorem par (ht : Fills t p bs) (hu : Fills u (p + bs.length) cs) :
    Fills (.par t u) p (bs ++ cs) where
  within _ h := ht.within_both hu (Task.touches_par.1 h)
  raceFree := by
    refine ⟨ht.raceFree, hu.raceFree, fun a ha hua => ?_⟩
    have h1 := ht.within a ha
    have h2 := hu.within a hua
    omega
  read m h := by rw [exec_par, ht.read_both hu h]

end Fills

/-- A region that starts with bytes that nothing is written to. -/
theorem Fills.after_gap {t : Task Nat UInt8} {p n : Nat} {bs : List UInt8} (h : Fills t (p + n) bs) :
    Fills t p (List.replicate n 0 ++ bs) where
  within a ha := by
    have := h.within a ha
    rw [List.length_append, List.length_replicate]
    omega
  raceFree := h.raceFree
  read m hblank := by
    rw [List.length_append, List.length_replicate, read_add, List.replicate_add] at hblank
    obtain ⟨hgap, hrest⟩ := List.append_inj hblank (by simp)
    have hkept : FileBuffer.read (t.exec m) p n = FileBuffer.read m p n :=
      read_congr fun a _ hlt => exec_of_not_touches (fun ha => by have := h.within a ha; omega) m
    rw [List.length_append, List.length_replicate, read_add, hkept, hgap, h.read m hrest]

/-- Tasks that fill regions side by side. -/
inductive Adjacent : Nat → List (Task Nat UInt8) → List UInt8 → Prop
  | nil (p : Nat) : Adjacent p [] []
  | cons {p : Nat} {t : Task Nat UInt8} {ts : List (Task Nat UInt8)} {bs cs : List UInt8} :
      Fills t p bs → Adjacent (p + bs.length) ts cs → Adjacent p (t :: ts) (bs ++ cs)

theorem Adjacent.parallelForEach {p : Nat} {ts : List (Task Nat UInt8)} {bytes : List UInt8}
    (h : Adjacent p ts bytes) : Fills (Task.parallelForEach ts) p bytes := by
  induction h with
  | nil p => exact fills_skip p 0
  | cons ht _ ih => exact ht.par ih

theorem Adjacent.seqAll {p : Nat} {ts : List (Task Nat UInt8)} {bytes : List UInt8}
    (h : Adjacent p ts bytes) : Fills (Task.seqAll ts) p bytes := by
  induction h with
  | nil p => exact fills_skip p 0
  | cons ht _ ih => exact ht.seq ih

/-- **A new file**, whatever the order in which the stores of the task arrive. -/
theorem Fills.file {t : Task Nat UInt8} {bytes : List UInt8} (h : Fills t 0 bytes)
    {ss : List (Nat × UInt8)} (htrace : Trace t ss) :
    FileBuffer.read (run blank ss) 0 bytes.length = bytes := by
  rw [htrace.run_eq h.raceFree]
  exact h.read blank (read_blank 0 _)

end FileBuffer
