import Mathlib.Data.List.Basic
import Mathlib.Logic.Function.Basic
import Mathlib.Tactic.Common

/-!
# Numbering as one goes

Things are put behind a list, and each remembers the number it got. Some have a number from the
start.

* `Numbered.push`: one more thing.
* `Numbered.both`: **a number leads back to the thing**, in two lists behind each other.
-/

namespace Numbering

variable {α : Type}

/-- The list starts at number `start`; `fixed` are the numbers from before. -/
structure Numbered (start : Nat) (fixed : α → Option Nat) (xs : List α) (index : α → Option Nat) :
    Prop where
  sound : ∀ x i, index x = some i → fixed x = some i ∨ start ≤ i ∧ xs[i - start]? = some x
  total : ∀ x ∈ xs, (index x).isSome
  keeps : ∀ x, (fixed x).isSome → (index x).isSome

namespace Numbered

variable {start : Nat} {fixed : α → Option Nat} {xs : List α} {index : α → Option Nat}

theorem nil (start : Nat) (fixed : α → Option Nat) : Numbered start fixed [] fixed :=
  ⟨fun _ _ h => .inl h, by simp, fun _ h => h⟩

theorem push [DecidableEq α] (h : Numbered start fixed xs index) (x : α) :
    Numbered start fixed (xs ++ [x]) (Function.update index x (some (start + xs.length))) := by
  refine ⟨fun y i hi => ?_, fun y hy => ?_, fun y hy => ?_⟩
  · by_cases hyx : y = x
    · subst hyx
      rw [Function.update_self] at hi
      obtain rfl := Option.some.inj hi
      exact .inr ⟨Nat.le_add_right _ _, by simp⟩
    · rw [Function.update_of_ne hyx] at hi
      refine (h.sound y i hi).imp_right fun hold => ⟨hold.1, ?_⟩
      rw [List.getElem?_append_left (List.getElem?_eq_some_iff.1 hold.2).1]
      exact hold.2
  · by_cases hyx : y = x
    · rw [hyx, Function.update_self]
      rfl
    · rw [Function.update_of_ne hyx]
      exact h.total y ((List.mem_append.1 hy).resolve_right (by simpa using hyx))
  · by_cases hyx : y = x
    · rw [hyx, Function.update_self]
      rfl
    · rw [Function.update_of_ne hyx]
      exact h.keeps y hy

/-- Without numbers from before, a number is a position. -/
theorem getElem? {x : α} {i : Nat} (h : Numbered start (fun _ => none) xs index)
    (hi : index x = some i) : start ≤ i ∧ xs[i - start]? = some x :=
  (h.sound x i hi).resolve_left (by simp)

/-- Two lists behind each other: the numbers of both. -/
theorem both {β : Type} {ys : List β} {index' : β → Option Nat} {x : α ⊕ β} {i : Nat}
    (h : Numbered 0 (fun _ => none) xs index) (h' : Numbered xs.length (fun _ => none) ys index')
    (hi : Sum.elim index index' x = some i) : (xs.map Sum.inl ++ ys.map Sum.inr)[i]? = some x := by
  cases x with
  | inl x =>
    obtain ⟨-, hpos⟩ := h.getElem? hi
    rw [Nat.sub_zero] at hpos
    have hlt := (List.getElem?_eq_some_iff.1 hpos).1
    rw [List.getElem?_append_left (by simpa using hlt), List.getElem?_map, hpos]
    rfl
  | inr x =>
    obtain ⟨hle, hpos⟩ := h'.getElem? hi
    rw [List.getElem?_append_right (by simpa using hle), List.length_map, List.getElem?_map, hpos]
    rfl

/-- What got no number stays without one. -/
theorem isNone {x : α} (h : Numbered start fixed xs index) (hfixed : fixed x = none) (hx : x ∉ xs) :
    index x = none := by
  cases hi : index x with
  | none => rfl
  | some i =>
    rcases h.sound x i hi with hold | ⟨-, hpos⟩
    · rw [hfixed] at hold
      cases hold
    · exact absurd (List.mem_of_getElem? hpos) hx

end Numbered

end Numbering
