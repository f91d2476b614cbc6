import Mathlib.Algebra.Order.Ring.Nat
import Mathlib.Tactic.Ring

/-!
# Division by shifting and subtracting

The divisor is shifted up to the dividend, and down again with a subtraction where it fits; `x` is the
bit of the quotient that the shifted divisor stands for. `Aligning` is the invariant of the way up,
`Dividing` that of the way down, where `m` bits of the quotient are to come.
-/

namespace ShiftSubtract

structure State where
  n : Nat
  d : Nat
  x : Nat
  answer : Nat

/-- A round on the way up. -/
def State.align (s : State) : State := { s with d := 2 * s.d, x := 2 * s.x }

/-- A round on the way down. -/
def State.subtract (s : State) : State :=
  if s.d ≤ s.n then { n := s.n - s.d, d := s.d / 2, x := s.x / 2, answer := s.answer + s.x }
  else { s with d := s.d / 2, x := s.x / 2 }

/-- The divisor is shifted by `k` bits. -/
structure Aligning (N D k : Nat) (s : State) : Prop where
  n : s.n = N
  d : s.d = D * 2 ^ k
  x : s.x = 2 ^ k
  answer : s.answer = 0

/-- The bits of the answer are above the `m` lowest, and the rest is too small for more of them. -/
structure Dividing (N D m : Nat) (s : State) : Prop where
  value : s.answer * D + s.n = N
  bits : 2 ^ m ∣ s.answer
  d : s.d = D * 2 ^ m / 2
  x : s.x = 2 ^ m / 2
  rest : s.n < D * 2 ^ m

variable {N D k m : Nat} {s : State}

theorem pow_succ_half (a : Nat) : a * 2 ^ (m + 1) / 2 = a * 2 ^ m := by
  rw [pow_succ, ← Nat.mul_assoc, Nat.mul_div_cancel _ (by decide)]

namespace Aligning

theorem start (N D : Nat) : Aligning N D 0 ⟨N, D, 1, 0⟩ := ⟨rfl, by simp, rfl, rfl⟩

theorem step (h : Aligning N D k s) : Aligning N D (k + 1) s.align where
  n := h.n
  d := by
    change 2 * s.d = _
    rw [h.d]
    ring
  x := by
    change 2 * s.x = _
    rw [h.x]
    ring
  answer := h.answer

/-- Up here, the dividend is less than twice the divisor. -/
theorem stop (h : Aligning N D k s) (hn : s.n < 2 * s.d) : Dividing N D (k + 1) s where
  value := by rw [h.answer, h.n, Nat.zero_mul, Nat.zero_add]
  bits := by
    rw [h.answer]
    exact Nat.dvd_zero _
  d := by rw [h.d, pow_succ_half]
  x := by rw [h.x, ← Nat.one_mul (2 ^ (k + 1)), pow_succ_half, Nat.one_mul]
  rest := by
    rw [h.d] at hn
    rw [pow_succ, ← Nat.mul_assoc]
    omega

end Aligning

namespace Dividing

theorem d_succ (h : Dividing N D (m + 1) s) : s.d = D * 2 ^ m := by rw [h.d, pow_succ_half]

theorem x_succ (h : Dividing N D (m + 1) s) : s.x = 2 ^ m := by
  rw [h.x, ← Nat.one_mul (2 ^ (m + 1)), pow_succ_half, Nat.one_mul]

theorem step (h : Dividing N D (m + 1) s) : Dividing N D m s.subtract := by
  have hd := h.d_succ
  have hx := h.x_succ
  have hrest := h.rest
  have hbits : 2 ^ m ∣ s.answer := (Nat.pow_dvd_pow 2 (Nat.le_succ m)).trans h.bits
  rw [pow_succ, ← Nat.mul_assoc, ← hd] at hrest
  unfold State.subtract
  split
  · rename_i hle
    constructor
    · change (s.answer + s.x) * D + (s.n - s.d) = N
      rw [Nat.add_mul, hx, Nat.mul_comm (2 ^ m), ← hd, Nat.add_assoc, Nat.add_sub_cancel' hle, h.value]
    · change 2 ^ m ∣ s.answer + s.x
      rw [hx]
      exact Nat.dvd_add hbits (Nat.dvd_refl _)
    · change s.d / 2 = _
      rw [hd]
    · change s.x / 2 = _
      rw [hx]
    · change s.n - s.d < _
      omega
  · rename_i hlt
    have hlt' : s.n < s.d := by omega
    exact ⟨h.value, hbits, by rw [← hd], by rw [← hx], by rwa [← hd]⟩

/-- The bit that a round adds is not in the answer yet. -/
theorem answer_or (h : Dividing N D (m + 1) s) : s.answer ||| s.x = s.answer + s.x := by
  obtain ⟨a, ha⟩ := h.bits
  have hlt : 2 ^ m < 2 ^ (m + 1) := Nat.pow_lt_pow_succ (by decide)
  rw [h.x_succ, ha, Nat.two_pow_add_eq_or_of_lt hlt]

/-- **The quotient and the rest.** -/
theorem stop (h : Dividing N D 0 s) : s.answer = N / D ∧ s.n = N % D := by
  have hrest := h.rest
  rw [pow_zero, Nat.mul_one] at hrest
  have hpos : 0 < D := by omega
  rw [← h.value, Nat.mul_comm, Nat.mul_add_div hpos, Nat.mul_add_mod, Nat.div_eq_of_lt hrest,
    Nat.mod_eq_of_lt hrest]
  exact ⟨rfl, rfl⟩

end Dividing

end ShiftSubtract
