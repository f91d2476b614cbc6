import Mathlib.Data.Nat.Basic
import Mathlib.Tactic.Common
import Mathlib.Tactic.Ring

/-!
# Placing things with alignments

Things of given sizes and alignments, one behind the other, each at an address that its alignment
divides.

* `roundUp_spec`: the next multiple.
* `Laid.append`, `Laid.concat`, `Laid.shift`: arrangements put behind each other, and moved.
* `Laid.apart`, `Laid.bounds`: **placed things lie apart, within the bounds, at aligned addresses.**
-/

namespace Placement

/-- The next multiple of `a`. -/
def roundUp (x a : Nat) : Nat := (x + a - 1) / a * a

theorem roundUp_spec {x a : Nat} (h : 0 < a) :
    x ≤ roundUp x a ∧ roundUp x a < x + a ∧ a ∣ roundUp x a := by
  have hdiv := Nat.div_add_mod (x + a - 1) a
  have hmod := Nat.mod_lt (x + a - 1) h
  rw [Nat.mul_comm] at hdiv
  refine ⟨?_, ?_, Nat.dvd_mul_left _ _⟩ <;> unfold roundUp <;> omega

theorem roundUp_of_dvd {x a : Nat} (h : 0 < a) (hx : a ∣ x) : roundUp x a = x := by
  obtain ⟨k, rfl⟩ := hx
  have hdiv : (a * k + a - 1) / a = k := by
    rw [Nat.div_eq_of_lt_le]
    · rw [Nat.mul_comm]
      omega
    · rw [Nat.mul_comm a, Nat.add_mul]
      omega
  rw [roundUp, hdiv, Nat.mul_comm]

/-- A multiple that is large enough is as large as the next one. -/
theorem roundUp_le {x a b : Nat} (h : 0 < a) (hxb : x ≤ b) (hb : a ∣ b) : roundUp x a ≤ b := by
  obtain ⟨k, rfl⟩ := hb
  have hlt : (x + a - 1) / a < k + 1 := by
    rw [Nat.div_lt_iff_lt_mul h, Nat.add_mul, Nat.mul_comm k]
    omega
  rw [roundUp, Nat.mul_comm a k]
  exact Nat.mul_le_mul_right a (Nat.le_of_lt_succ hlt)

/-- Two powers of two: the larger one is a multiple of both. -/
theorem dvd_max {a b : Nat} (ha : ∃ k, a = 2 ^ k) (hb : ∃ k, b = 2 ^ k) : a ∣ max a b ∧ b ∣ max a b := by
  obtain ⟨k, rfl⟩ := ha
  obtain ⟨l, rfl⟩ := hb
  rcases Nat.le_total k l with h | h
  · rw [Nat.max_eq_right (Nat.pow_le_pow_right (by decide) h)]
    exact ⟨Nat.pow_dvd_pow 2 h, Nat.dvd_refl _⟩
  · rw [Nat.max_eq_left (Nat.pow_le_pow_right (by decide) h)]
    exact ⟨Nat.dvd_refl _, Nat.pow_dvd_pow 2 h⟩

variable {α : Type} {size align : α → Nat}

/-- Things with their addresses, between two addresses. -/
inductive Laid (size align : α → Nat) : Nat → List (α × Nat) → Nat → Prop
  | nil {a b : Nat} : a ≤ b → Laid size align a [] b
  | cons {a b o : Nat} {x : α} {xs : List (α × Nat)} : a ≤ o → align x ∣ o →
      Laid size align (o + size x) xs b → Laid size align a ((x, o) :: xs) b

namespace Laid

variable {a b c o : Nat} {x : α} {xs ys : List (α × Nat)}

theorem le (h : Laid size align a xs b) : a ≤ b := by
  induction h with
  | nil h => exact h
  | cons _ _ _ ih => omega

theorem from_le (h : Laid size align b xs c) (hab : a ≤ b) : Laid size align a xs c := by
  cases h with
  | nil hbc => exact .nil (Nat.le_trans hab hbc)
  | cons hle hdvd hxs => exact .cons (Nat.le_trans hab hle) hdvd hxs

theorem append (h : Laid size align a xs b) (h' : Laid size align b ys c) :
    Laid size align a (xs ++ ys) c := by
  induction h with
  | nil hab => exact h'.from_le hab
  | cons hle hdvd _ ih => exact .cons hle hdvd (ih h')

theorem concat (h : Laid size align a xs b) (hle : b ≤ o) (hdvd : align x ∣ o) :
    Laid size align a (xs ++ [(x, o)]) (o + size x) :=
  h.append (.cons hle hdvd (.nil (Nat.le_refl _)))

/-- A whole arrangement moved to a common multiple of its alignments. -/
theorem shift (h : Laid size align a xs b) {d : Nat} (hd : ∀ p ∈ xs, align p.1 ∣ d) :
    Laid size align (d + a) (xs.map fun p => (p.1, d + p.2)) (d + b) := by
  induction h with
  | nil hab => exact .nil (Nat.add_le_add_left hab d)
  | @cons a b o x xs hle hdvd _ ih =>
    have hx := hd (x, o) List.mem_cons_self
    have htail := ih fun p hp => hd p (List.mem_cons_of_mem _ hp)
    rw [← Nat.add_assoc] at htail
    exact .cons (Nat.add_le_add_left hle d) (Nat.dvd_add hx hdvd) htail

theorem bounds (h : Laid size align a xs b) : ∀ p ∈ xs, a ≤ p.2 ∧ p.2 + size p.1 ≤ b ∧ align p.1 ∣ p.2 := by
  induction h with
  | nil => simp
  | @cons a b o x xs hle hdvd hxs ih =>
    intro p hp
    rcases List.mem_cons.1 hp with rfl | hp
    · exact ⟨hle, hxs.le, hdvd⟩
    · have := ih p hp
      exact ⟨by omega, this.2⟩

theorem apart (h : Laid size align a xs b) : ∀ p ∈ xs, ∀ q ∈ xs, p ≠ q →
    p.2 + size p.1 ≤ q.2 ∨ q.2 + size q.1 ≤ p.2 := by
  induction h with
  | nil => simp
  | cons _ _ hxs ih =>
    intro p hp q hq hne
    rcases List.mem_cons.1 hp with rfl | hp <;> rcases List.mem_cons.1 hq with rfl | hq
    · exact absurd rfl hne
    · exact .inl (hxs.bounds q hq).1
    · exact .inr (hxs.bounds p hp).1
    · exact ih p hp q hq hne

end Laid

end Placement
