import Mathlib.Tactic.Common

/-!
# Tilings of an interval

A list of pieces that lie side by side from one address to another. What a walk over the pieces
needs: where a tiling is cut, that its pieces are disjoint, and that a piece is known by its start.
-/

/-- Things that cover the addresses from `start` to `stop`. -/
class Piece (τ : Type) where
  start : τ → Nat
  stop : τ → Nat

open Piece

variable {τ : Type} [Piece τ]

/-- The pieces are not empty and fill `[a, b)` in order. -/
def Tiles : Nat → List τ → Nat → Prop
  | a, [], b => a = b
  | a, t :: ts, b => start t = a ∧ a < stop t ∧ Tiles (stop t) ts b

namespace Tiles

variable {a b : Nat} {t t' : τ} {ts : List τ}

theorem le : ∀ {a : Nat} {ts : List τ}, Tiles a ts b → a ≤ b
  | _, [], h => Nat.le_of_eq h
  | _, _ :: _, ⟨_, hlt, h⟩ => Nat.le_trans (Nat.le_of_lt hlt) (le h)

theorem eq_nil (h : Tiles a ts a) : ts = [] := by
  cases ts with
  | nil => rfl
  | cons t ts =>
    obtain ⟨hstart, hlt, hts⟩ := h
    have hle := hts.le
    omega

theorem append_iff : ∀ {a : Nat} {xs ys : List τ},
    Tiles a (xs ++ ys) b ↔ ∃ c, Tiles a xs c ∧ Tiles c ys b
  | a, [], ys => by simp [Tiles]
  | a, x :: xs, ys => by
    simp only [List.cons_append, Tiles, @append_iff (Piece.stop x) xs ys]
    constructor
    · rintro ⟨hx, hlt, c, hxs, hys⟩
      exact ⟨c, ⟨hx, hlt, hxs⟩, hys⟩
    · rintro ⟨c, ⟨hx, hlt, hxs⟩, hys⟩
      exact ⟨hx, hlt, c, hxs, hys⟩

/-- There are no more pieces than addresses. -/
theorem add_length_le : ∀ {a : Nat} {ts : List τ}, Tiles a ts b → a + ts.length ≤ b
  | _, [], h => Nat.le_of_eq h
  | a, _ :: ts, ⟨_, hlt, h⟩ => by
    have ih := add_length_le h
    rw [List.length_cons]
    omega

/-- A piece lies in the interval. -/
theorem bounds : ∀ {a : Nat} {ts : List τ}, Tiles a ts b → ∀ t ∈ ts,
    a ≤ start t ∧ start t < stop t ∧ stop t ≤ b
  | a, x :: xs, ⟨hx, hlt, h⟩, t, ht => by
    rcases List.mem_cons.1 ht with rfl | ht
    · exact ⟨by omega, by omega, le h⟩
    · obtain ⟨hle, hlt', hstop⟩ := bounds h t ht
      exact ⟨by omega, hlt', hstop⟩

/-- Two pieces are one, or apart. -/
theorem eq_or_apart : ∀ {a : Nat} {ts : List τ}, Tiles a ts b → ∀ t ∈ ts, ∀ t' ∈ ts,
    t = t' ∨ stop t ≤ start t' ∨ stop t' ≤ start t
  | a, x :: xs, ⟨hx, hlt, h⟩, t, ht, t', ht' => by
    rcases List.mem_cons.1 ht with rfl | hts <;> rcases List.mem_cons.1 ht' with rfl | hts'
    · exact .inl rfl
    · exact .inr (.inl (bounds h t' hts').1)
    · exact .inr (.inr (bounds h t hts).1)
    · exact eq_or_apart h t hts t' hts'

end Tiles
