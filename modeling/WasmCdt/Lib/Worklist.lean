import Mathlib.Logic.Relation

/-!
# Marking with a worklist

From the roots, `step` reaches further elements. A marking keeps the elements it has seen, and those
among them whose successors may still be missing.

* `Marked.visit`: an element that is reached is marked, and waits, unless it has no successors.
* `Marked.finish`: an element waits no more once its successors are seen.
* `Marked.done`: with nothing waiting, the marked elements are those that the roots reach.
-/

namespace Worklist

variable {α : Type} {step : α → α → Prop} {root : α → Prop} {seen waiting : α → Prop}

def Reached (step : α → α → Prop) (root : α → Prop) (x : α) : Prop :=
  ∃ r, root r ∧ Relation.ReflTransGen step r x

theorem reached_root {r : α} (h : root r) : Reached step root r := ⟨r, h, .refl⟩

theorem reached_step {x y : α} (h : Reached step root x) (hxy : step x y) : Reached step root y := by
  obtain ⟨r, hr, hreach⟩ := h
  exact ⟨r, hr, hreach.tail hxy⟩

structure Marked (step : α → α → Prop) (root seen waiting : α → Prop) : Prop where
  sound : ∀ x, seen x → Reached step root x
  closed : ∀ x, seen x → waiting x ∨ ∀ y, step x y → seen y

namespace Marked

theorem visit {seen' waiting' : α → Prop} {x : α} (h : Marked step root seen waiting)
    (hx : Reached step root x) (hseen : ∀ y, seen' y ↔ seen y ∨ y = x)
    (hwaiting : ∀ y, waiting y → waiting' y) (hnew : seen x ∨ waiting' x ∨ ∀ y, ¬ step x y) :
    Marked step root seen' waiting' := by
  have hold : ∀ y, seen y → waiting' y ∨ ∀ z, step y z → seen' z := by
    intro y hy
    rcases h.closed y hy with hw | hsucc
    · exact .inl (hwaiting y hw)
    · exact .inr fun z hz => (hseen z).2 (.inl (hsucc z hz))
  constructor
  · intro y hy
    rcases (hseen y).1 hy with hy | rfl
    · exact h.sound y hy
    · exact hx
  · intro y hy
    rcases (hseen y).1 hy with hy | rfl
    · exact hold y hy
    · rcases hnew with hy | hw | hleaf
      · exact hold y hy
      · exact .inl hw
      · exact .inr fun z hz => absurd hz (hleaf z)

theorem finish {waiting' : α → Prop} {x : α} (h : Marked step root seen waiting)
    (hx : ∀ y, step x y → seen y) (hwaiting : ∀ y, waiting y → y = x ∨ waiting' y) :
    Marked step root seen waiting' := by
  refine ⟨h.sound, fun y hy => ?_⟩
  rcases h.closed y hy with hw | hsucc
  · rcases hwaiting y hw with rfl | hw
    · exact .inr hx
    · exact .inl hw
  · exact .inr hsucc

/-- **What is marked in the end.** -/
theorem done (h : Marked step root seen waiting) (hroot : ∀ r, root r → seen r)
    (hwaiting : ∀ x, ¬ waiting x) (x : α) : seen x ↔ Reached step root x := by
  refine ⟨h.sound x, fun hx => ?_⟩
  obtain ⟨r, hr, hreach⟩ := hx
  induction hreach with
  | refl => exact hroot r hr
  | tail _ hyz ih => exact (h.closed _ ih).resolve_left (hwaiting _) _ hyz

end Marked

end Worklist
