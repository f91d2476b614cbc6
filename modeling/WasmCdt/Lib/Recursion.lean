import Mathlib.Data.Fintype.EquivFin
import Mathlib.Logic.Relation

/-!
# Recursion over a graph

`calls x` is what a call for `x` goes on to call, in turn; `none` where it throws. Nothing records
what was called before.

* `Returns n x`: the call for `x` returns with at most `n` calls inside one another.
* `returns_iff_acc`: **it returns at some depth exactly if it is accessible and nothing throws.**
* `returns_iff_acyclic`: with finitely many entries, the only elements from which a call can grow, **it
  returns exactly if no entry on its way comes back to itself and nothing throws.**
-/

namespace Recursion

open Relation

variable {α : Type} (calls : α → Option (List α))

/-- The call for `x` may call that for `y`. -/
def Calls (x y : α) : Prop := ∃ ys, calls x = some ys ∧ y ∈ ys

def Returns : Nat → α → Prop
  | 0, _ => False
  | n + 1, x => ∃ ys, calls x = some ys ∧ ∀ y ∈ ys, Returns n y

variable {calls}

theorem Returns.succ {n : Nat} {x : α} (h : Returns calls n x) : Returns calls (n + 1) x := by
  induction n generalizing x with
  | zero => exact h.elim
  | succ n ih =>
    obtain ⟨ys, hys, hret⟩ := h
    exact ⟨ys, hys, fun y hy => ih (hret y hy)⟩

theorem Returns.mono {n m : Nat} (hnm : n ≤ m) {x : α} (h : Returns calls n x) :
    Returns calls m x := by
  induction hnm with
  | refl => exact h
  | step _ ih => exact ih.succ

/-- One depth is enough for several calls. -/
theorem exists_returns_all {xs : List α} (h : ∀ x ∈ xs, ∃ n, Returns calls n x) :
    ∃ n, ∀ x ∈ xs, Returns calls n x := by
  induction xs with
  | nil => exact ⟨0, List.forall_mem_nil _⟩
  | cons x xs ih =>
    obtain ⟨n, hn⟩ := h x List.mem_cons_self
    obtain ⟨m, hm⟩ := ih fun y hy => h y (List.mem_cons_of_mem _ hy)
    refine ⟨max n m, List.forall_mem_cons.2 ⟨hn.mono (le_max_left n m), fun y hy => ?_⟩⟩
    exact (hm y hy).mono (le_max_right n m)

theorem returns_iff_acc {x : α} : (∃ n, Returns calls n x) ↔
    Acc (fun y x => Calls calls x y) x ∧ ∀ y, ReflTransGen (Calls calls) x y → calls y ≠ none := by
  constructor
  · intro ⟨n, hn⟩
    induction n generalizing x with
    | zero => exact hn.elim
    | succ n ih =>
      obtain ⟨ys, hys, hret⟩ := hn
      have hcalled : ∀ y, Calls calls x y → Returns calls n y := by
        intro y hy
        obtain ⟨ys', hys', hmem⟩ := hy
        obtain rfl : ys = ys' := Option.some.inj (hys.symm.trans hys')
        exact hret y hmem
      refine ⟨.intro x fun y hy => (ih (hcalled y hy)).1, fun y hy => ?_⟩
      rcases ReflTransGen.cases_head hy with rfl | ⟨z, hz, hreach⟩
      · rw [hys]
        nofun
      · exact (ih (hcalled z hz)).2 y hreach
  · intro ⟨hacc, hok⟩
    induction hacc with
    | intro x _ ih =>
      obtain ⟨ys, hys⟩ := Option.ne_none_iff_exists'.1 (hok x .refl)
      have hall : ∀ y ∈ ys, ∃ n, Returns calls n y := by
        intro y hy
        have hcall : Calls calls x y := ⟨ys, hys, hy⟩
        exact ih y hcall fun z hz => hok z (.head hcall hz)
      obtain ⟨n, hn⟩ := exists_returns_all hall
      exact ⟨n + 1, ys, hys, hn⟩

/-- Nothing that is accessible comes back to itself. -/
theorem not_cycle_of_acc {x : α} (h : Acc (fun y x => Calls calls x y) x) :
    ¬ TransGen (Calls calls) x x := by
  induction h with
  | intro x _ ih =>
    intro hcycle
    obtain ⟨y, hxy, hyx⟩ := TransGen.head'_iff.1 hcycle
    exact ih y hxy (TransGen.tail' hyx hxy)

theorem acc_of_reach {x y : α} (h : Acc (fun y x => Calls calls x y) x)
    (hreach : ReflTransGen (Calls calls) x y) : Acc (fun y x => Calls calls x y) y := by
  induction hreach with
  | refl => exact h
  | tail _ hstep ih => exact ih.inv hstep

section
variable {D : Type} {entry : D → α} {size : α → Nat}
  (hsize : ∀ x y, Calls calls x y → (∃ d, x = entry d) ∨ size y < size x)
include hsize

theorem acc_of_entries {x : α}
    (h : ∀ d, ReflTransGen (Calls calls) x (entry d) →
      Acc (fun y x => Calls calls x y) (entry d)) :
    Acc (fun y x => Calls calls x y) x := by
  induction hn : size x using Nat.strong_induction_on generalizing x with
  | _ n ih =>
    by_cases hx : ∃ d, x = entry d
    · obtain ⟨d, rfl⟩ := hx
      exact h d .refl
    · refine .intro x fun y hy => ?_
      have hlt : size y < n := hn ▸ (hsize x y hy).resolve_left hx
      exact ih (size y) hlt (fun d hd => h d (.head hy hd)) rfl

theorem acc_of_acyclic [Finite D] {x : α}
    (h : ∀ d, ReflTransGen (Calls calls) x (entry d) →
      ¬ TransGen (Calls calls) (entry d) (entry d)) :
    Acc (fun y x => Calls calls x y) x := by
  -- the entries on the way, ordered by who calls whom
  let Entry := { d // ReflTransGen (Calls calls) x (entry d) }
  let below : Entry → Entry → Prop := fun e d => TransGen (Calls calls) (entry d.1) (entry e.1)
  have : Finite Entry := Subtype.finite
  have : IsTrans Entry below := ⟨fun _ _ _ hed hdc => hdc.trans hed⟩
  have : Std.Irrefl below := ⟨fun d hd => h d.1 d.2 hd⟩
  have hwf : WellFounded below := Finite.wellFounded_of_trans_of_irrefl below
  have hentry : ∀ d : Entry, Acc (fun y x => Calls calls x y) (entry d.1) := by
    intro d
    induction d using hwf.induction with
    | _ d ih =>
      refine .intro _ fun y hy => acc_of_entries hsize fun e he => ?_
      exact ih ⟨e, d.2.trans (.head hy he)⟩ (TransGen.head' hy he)
  exact acc_of_entries hsize fun d hd => hentry ⟨d, hd⟩

theorem returns_iff_acyclic [Finite D] {x : α} : (∃ n, Returns calls n x) ↔
    (∀ d, ReflTransGen (Calls calls) x (entry d) →
      ¬ TransGen (Calls calls) (entry d) (entry d)) ∧
    ∀ y, ReflTransGen (Calls calls) x y → calls y ≠ none := by
  rw [returns_iff_acc]
  constructor
  · intro ⟨hacc, hok⟩
    exact ⟨fun d hd => not_cycle_of_acc (acc_of_reach hacc hd), hok⟩
  · intro ⟨hacyclic, hok⟩
    exact ⟨acc_of_acyclic hsize hacyclic, hok⟩

end

end Recursion
