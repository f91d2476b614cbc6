import Mathlib.Data.List.Basic
import Mathlib.Data.List.Induction
import Mathlib.Logic.Function.Basic
import Mathlib.Tactic.Common

/-!
# Fork-join programs that write

Tasks that store values at addresses, one after the other (`seq`) or at the same time (`par`). A
trace of a task is one order in which the stores may reach the memory.

* `Trace.run_eq`: **every trace of a race-free task leaves the same memory**, the one that the task
  leaves when it runs by itself from left to right.
* `parallelForEach_raceFree`: a parallel loop whose rounds have footprints apart.
* `exec_of_not_touches`: what a task does not touch stays.
-/

namespace ForkJoin

variable {A V : Type}

inductive Task (A V : Type)
  | skip
  | store (a : A) (v : V)
  | seq (t u : Task A V)
  | par (t u : Task A V)

/-- The elements of two lists, those of each in order. -/
inductive Shuffle {α : Type} : List α → List α → List α → Prop
  | nil : Shuffle [] [] []
  | left {x : α} {xs ys zs : List α} : Shuffle xs ys zs → Shuffle (x :: xs) ys (x :: zs)
  | right {y : α} {xs ys zs : List α} : Shuffle xs ys zs → Shuffle xs (y :: ys) (y :: zs)

inductive Trace : Task A V → List (A × V) → Prop
  | skip : Trace .skip []
  | store {a : A} {v : V} : Trace (.store a v) [(a, v)]
  | seq {t u : Task A V} {ss ss' : List (A × V)} : Trace t ss → Trace u ss' →
      Trace (.seq t u) (ss ++ ss')
  | par {t u : Task A V} {ss ss' zs : List (A × V)} : Trace t ss → Trace u ss' → Shuffle ss ss' zs →
      Trace (.par t u) zs

namespace Task

/-- The stores in the order of the text. -/
def stores : Task A V → List (A × V)
  | skip => []
  | store a v => [(a, v)]
  | seq t u => t.stores ++ u.stores
  | par t u => t.stores ++ u.stores

def Touches (t : Task A V) (a : A) : Prop := ∃ v, (a, v) ∈ t.stores

/-- Branches of a `par` have no address in common. -/
def RaceFree : Task A V → Prop
  | skip => True
  | store _ _ => True
  | seq t u => t.RaceFree ∧ u.RaceFree
  | par t u => t.RaceFree ∧ u.RaceFree ∧ ∀ a, t.Touches a → ¬ u.Touches a

def seqAll (ts : List (Task A V)) : Task A V := ts.foldr seq skip

def parallelForEach (ts : List (Task A V)) : Task A V := ts.foldr par skip

theorem stores_seqAll (ts : List (Task A V)) : (seqAll ts).stores = ts.flatMap stores := by
  induction ts with
  | nil => rfl
  | cons t ts ih => simpa [seqAll, stores] using ih

theorem stores_parallelForEach (ts : List (Task A V)) :
    (parallelForEach ts).stores = ts.flatMap stores := by
  induction ts with
  | nil => rfl
  | cons t ts ih => simpa [parallelForEach, stores] using ih

@[simp] theorem touches_skip (a : A) : ¬ (skip : Task A V).Touches a := by simp [Touches, stores]

@[simp] theorem touches_store {a b : A} {v : V} : (store b v).Touches a ↔ a = b := by
  simp [Touches, stores]

@[simp] theorem touches_seq {t u : Task A V} {a : A} :
    (seq t u).Touches a ↔ t.Touches a ∨ u.Touches a := by
  simp [Touches, stores, exists_or]

@[simp] theorem touches_par {t u : Task A V} {a : A} :
    (par t u).Touches a ↔ t.Touches a ∨ u.Touches a := by
  simp [Touches, stores, exists_or]

theorem touches_seqAll {ts : List (Task A V)} {a : A} :
    (seqAll ts).Touches a ↔ ∃ t ∈ ts, t.Touches a := by
  induction ts with
  | nil => simp [seqAll]
  | cons t ts ih => simpa [seqAll] using or_congr_right ih

theorem touches_parallelForEach {ts : List (Task A V)} {a : A} :
    (parallelForEach ts).Touches a ↔ ∃ t ∈ ts, t.Touches a := by
  induction ts with
  | nil => simp [parallelForEach]
  | cons t ts ih => simpa [parallelForEach] using or_congr_right ih

theorem seqAll_raceFree {ts : List (Task A V)} (h : ∀ t ∈ ts, t.RaceFree) : (seqAll ts).RaceFree := by
  induction ts with
  | nil => trivial
  | cons t ts ih =>
    exact ⟨h t List.mem_cons_self, ih fun u hu => h u (List.mem_cons_of_mem _ hu)⟩

/-- Rounds that are race-free, with footprints apart. -/
theorem parallelForEach_raceFree {ts : List (Task A V)} (h : ∀ t ∈ ts, t.RaceFree)
    (hapart : ts.Pairwise fun t u => ∀ a, t.Touches a → ¬ u.Touches a) :
    (parallelForEach ts).RaceFree := by
  induction ts with
  | nil => trivial
  | cons t ts ih =>
    obtain ⟨hhead, htail⟩ := List.pairwise_cons.1 hapart
    refine ⟨h t List.mem_cons_self, ih (fun u hu => h u (List.mem_cons_of_mem _ hu)) htail, ?_⟩
    intro a ht hts
    obtain ⟨u, hu, hua⟩ := touches_parallelForEach.1 hts
    exact hhead u hu a ht hua

end Task

/-- All of the one list before the other. -/
theorem shuffle_append {α : Type} : ∀ xs ys : List α, Shuffle xs ys (xs ++ ys)
  | [], [] => .nil
  | [], _ :: ys => .right (shuffle_append [] ys)
  | _ :: xs, ys => .left (shuffle_append xs ys)

/-- A task may run from left to right. -/
theorem trace_stores (t : Task A V) : Trace t t.stores := by
  induction t with
  | skip => exact .skip
  | store => exact .store
  | seq t u iht ihu => exact .seq iht ihu
  | par t u iht ihu => exact .par iht ihu (shuffle_append _ _)

/-! ## Execution -/

section
variable [DecidableEq A]

def run (m : A → V) (ss : List (A × V)) : A → V :=
  ss.foldl (fun m s => Function.update m s.1 s.2) m

theorem run_append (m : A → V) (ss ss' : List (A × V)) : run m (ss ++ ss') = run (run m ss) ss' :=
  List.foldl_append

/-- The memory behind a run of the task by itself. -/
def Task.exec (t : Task A V) (m : A → V) : A → V := run m t.stores

@[simp] theorem exec_skip (m : A → V) : Task.skip.exec m = m := rfl

@[simp] theorem exec_seq (t u : Task A V) (m : A → V) : (Task.seq t u).exec m = u.exec (t.exec m) :=
  run_append m _ _

@[simp] theorem exec_par (t u : Task A V) (m : A → V) : (Task.par t u).exec m = u.exec (t.exec m) :=
  run_append m _ _

/-- What a place holds depends on the stores to it alone. -/
theorem run_apply (a : A) (ss : List (A × V)) (m : A → V) :
    run m ss a = run m (ss.filter fun s => s.1 = a) a := by
  induction ss using List.reverseRecOn with
  | nil => rfl
  | append_singleton ss s ih =>
    rw [List.filter_append, run_append, run_append]
    by_cases hs : s.1 = a
    · simp [run, hs]
    · simpa [run, hs, Function.update_of_ne (Ne.symm hs)] using ih

theorem run_congr {a : A} {ss ss' : List (A × V)} {m m' : A → V} (hm : m a = m' a)
    (hss : ss.filter (fun s => s.1 = a) = ss'.filter fun s => s.1 = a) :
    run m ss a = run m' ss' a := by
  rw [run_apply, run_apply a ss', ← hss]
  induction ss.filter (fun s => s.1 = a) using List.reverseRecOn with
  | nil => exact hm
  | append_singleton ss s ih =>
    rw [run_append, run_append]
    by_cases hs : s.1 = a
    · simp [run, hs]
    · simpa [run, Function.update_of_ne (Ne.symm hs)] using ih

theorem filter_eq_nil_of_not_touches {t : Task A V} {a : A} (h : ¬ t.Touches a) :
    t.stores.filter (fun s => s.1 = a) = [] := by
  rw [List.filter_eq_nil_iff]
  intro s hs heq
  exact h ⟨s.2, by rw [← of_decide_eq_true heq]; exact hs⟩

/-- **What a task does not touch stays.** -/
theorem exec_of_not_touches {t : Task A V} {a : A} (h : ¬ t.Touches a) (m : A → V) :
    t.exec m a = m a :=
  calc t.exec m a = run m [] a := run_congr rfl (filter_eq_nil_of_not_touches h)
    _ = m a := rfl

theorem exec_congr {a : A} (t : Task A V) {m m' : A → V} (h : m a = m' a) :
    t.exec m a = t.exec m' a :=
  run_congr h rfl

/-! ## Traces -/

theorem Shuffle.filter {α : Type} {xs ys zs : List α} (h : Shuffle xs ys zs) (p : α → Bool) :
    Shuffle (xs.filter p) (ys.filter p) (zs.filter p) := by
  induction h with
  | nil => exact .nil
  | @left x _ _ _ _ ih =>
    by_cases hx : p x
    · simpa [hx] using .left ih
    · simpa [hx] using ih
  | @right y _ _ _ _ ih =>
    by_cases hy : p y
    · simpa [hy] using .right ih
    · simpa [hy] using ih

theorem Shuffle.eq_of_nil_left {α : Type} {xs ys zs : List α} (h : Shuffle xs ys zs) (hx : xs = []) :
    zs = ys := by
  induction h with
  | nil => rfl
  | left => cases hx
  | right _ ih => rw [ih hx]

theorem Shuffle.eq_of_nil_right {α : Type} {xs ys zs : List α} (h : Shuffle xs ys zs) (hy : ys = []) :
    zs = xs := by
  induction h with
  | nil => rfl
  | left _ ih => rw [ih hy]
  | right => cases hy

/-- Seen from one place, a trace of a race-free task is the text. -/
theorem Trace.filter_eq {t : Task A V} {ss : List (A × V)} (h : Trace t ss) (hfree : t.RaceFree)
    (a : A) : ss.filter (fun s => s.1 = a) = t.stores.filter fun s => s.1 = a := by
  induction h with
  | skip => rfl
  | store => rfl
  | seq _ _ iht ihu =>
    rw [Task.stores, List.filter_append, List.filter_append, iht hfree.1, ihu hfree.2]
  | @par t u _ _ _ _ _ hshuffle iht ihu =>
    obtain ⟨ht, hu, hapart⟩ := hfree
    have hmerged := hshuffle.filter fun s => decide (s.1 = a)
    rw [iht ht, ihu hu] at hmerged
    rw [Task.stores, List.filter_append]
    by_cases ha : t.Touches a
    · have hnil := filter_eq_nil_of_not_touches (hapart a ha)
      rw [hmerged.eq_of_nil_right hnil, hnil, List.append_nil]
    · have hnil := filter_eq_nil_of_not_touches ha
      rw [hmerged.eq_of_nil_left hnil, hnil, List.nil_append]

/-- **Race-free tasks are deterministic**: the memory behind any trace. -/
theorem Trace.run_eq {t : Task A V} {ss : List (A × V)} (h : Trace t ss) (hfree : t.RaceFree)
    (m : A → V) : run m ss = t.exec m :=
  funext fun a => run_congr rfl (h.filter_eq hfree a)

end

end ForkJoin
