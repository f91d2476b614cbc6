import Mathlib.Data.List.Basic

/-!
# A position in a sequence

A reader keeps the position it has reached: `Reads xs i t` says what `xs` still holds from `i` on.
Reading a part moves the position behind it (`Reads.advance`, `Reads.next`), and the element at the
position is the first of the rest (`Reads.getD_eq`).
-/

namespace Cursor

variable {α : Type}

/-- What the sequence has from `i` on. -/
structure Reads (xs : List α) (i : Nat) (t : List α) : Prop where
  drop : xs.drop i = t
  le : i ≤ xs.length

theorem reads_start (xs : List α) : Reads xs 0 xs := ⟨rfl, Nat.zero_le _⟩

namespace Reads

variable {xs t u : List α} {i : Nat}

theorem length (h : Reads xs i t) : i + t.length = xs.length := by
  have hlen := congrArg List.length h.drop
  rw [List.length_drop] at hlen
  have hle := h.le
  omega

theorem advance (h : Reads xs i (u ++ t)) : Reads xs (i + u.length) t := by
  refine ⟨?_, ?_⟩
  · rw [← List.drop_drop, h.drop, List.drop_left]
  · have hlen := h.length
    rw [List.length_append] at hlen
    omega

theorem next {x : α} (h : Reads xs i (x :: t)) : Reads xs (i + 1) t := h.advance (u := [x])

/-- The position of the end. -/
theorem eq_nil_iff (h : Reads xs i t) : i = xs.length ↔ t = [] := by
  have hlen := h.length
  rw [← List.length_eq_zero_iff]
  omega

theorem getElem?_eq (h : Reads xs i t) : xs[i]? = t.head? := by
  rw [← h.drop, List.head?_drop]

/-- The element at the position, or what stands for the end. -/
theorem getD_eq (h : Reads xs i t) (x : α) : xs.getD i x = t.headD x := by
  rw [List.getD_eq_getElem?_getD, h.getElem?_eq, List.headD_eq_head?_getD]

end Reads

end Cursor
