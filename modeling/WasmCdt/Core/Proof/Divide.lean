import WasmCdt.Core.Divide
import WasmCdt.Core.Proof.Operators
import WasmCdt.Lib.ShiftSubtract

/-!
# Division

The two loops of `divide` are those of division by shifting and subtracting (`ShiftSubtract`): the
shifts up never lose the top bit, and those down meet the bit of the answer that is next.

* `Division.align_nat`, `Division.subtract_nat`: the rounds, as rounds on numbers.
* `Division.run_eq`: the loops end, with the quotient and the rest.
* `divide_exact`: **`divide` for any references**, and for the divisor 0.
-/

namespace Wasmlib

open Uint128 ShiftSubtract

namespace Division

/-- The local variables, as numbers. -/
def nat (s : Division) : State :=
  { n := s.n.toNat, d := s.d.toNat, x := s.x.toNat, answer := s.answer.toNat }

variable {s : Division} {N D k m : Nat}

theorem toNat_one : (ofInt32 1).toNat = 1 := by decide

theorem toNat_zero : (ofInt32 0).toNat = 0 := by decide

/-! ## The rounds -/

theorem aligns_iff : s.aligns = true ↔ s.d.toNat ≤ s.n.toNat ∧ s.d.toNat < 2 ^ 127 := by
  have hbit : (s.d.shr (.ofInt32 127)).and (.ofInt32 1) = .ofInt32 0 ↔ s.d.toNat < 2 ^ 127 := by
    have hlt := s.d.toNat_lt
    have h127 : (ofInt32 127).toNat = 127 := by decide
    rw [← toNat_inj, Uint128.and, and_toNat, Uint128.shr, shr_toNat, h127, toNat_one, toNat_zero,
      Nat.and_one_is_mod]
    omega
  rw [aligns, Bool.and_eq_true, ge_iff, decide_eq_true_iff, hbit]

/-- A round on the way up, where the top bits are free. -/
theorem align_nat (hd : s.d.toNat < 2 ^ 127) (hx : s.x.toNat < 2 ^ 127) :
    s.align.nat = s.nat.align := by
  unfold align nat State.align
  simp only [shl_toNat, toNat_one]
  congr 1
  · omega
  · omega

theorem divides_iff : s.divides = true ↔ s.x.toNat ≠ 0 := by
  rw [divides, decide_eq_true_iff, ne_eq, ← toNat_inj, toNat_zero]

/-- A round on the way down, where the answer does not have the bit. -/
theorem subtract_nat (hbit : s.answer.toNat ||| s.x.toNat = s.answer.toNat + s.x.toNat) :
    s.subtract.nat = s.nat.subtract := by
  unfold subtract nat State.subtract
  by_cases hle : s.d.toNat ≤ s.n.toNat
  · rw [if_pos (ge_iff.2 hle), if_pos hle]
    simp only [shr_toNat, sub_toNat _ _ hle, or_toNat, hbit, toNat_one, pow_one]
  · have hlt : s.n.ge s.d = false := Bool.eq_false_iff.2 fun h => hle (ge_iff.1 h)
    rw [hlt, if_neg Bool.false_ne_true, if_neg hle]
    simp only [shr_toNat, toNat_one, pow_one]

/-! ## The loops -/

/-- The bits of the shifted divisor. -/
theorem shift_lt {w : Nat} (hD : 0 < D) (h : D * 2 ^ k < 2 ^ w) : k < w :=
  (Nat.pow_lt_pow_iff_right (by decide)).1 ((Nat.le_mul_of_pos_left _ hD).trans_lt h)

theorem align_step (hD : 0 < D) (h : Aligning N D k s.nat) (hc : s.aligns = true) :
    k < 127 ∧ Aligning N D (k + 1) s.align.nat := by
  obtain ⟨-, hd⟩ := aligns_iff.1 hc
  have hlt := hd
  rw [show s.d.toNat = D * 2 ^ k from h.d] at hlt
  have hx : s.x.toNat < 2 ^ 127 := by
    rw [show s.x.toNat = 2 ^ k from h.x]
    exact (Nat.le_mul_of_pos_left _ hD).trans_lt hlt
  rw [align_nat hd hx]
  exact ⟨shift_lt hD hlt, h.step⟩

theorem align_stop (h : Aligning N D k s.nat) (hc : s.aligns = false) :
    Dividing N D (k + 1) s.nat := by
  refine h.stop ?_
  have hn := s.n.toNat_lt
  have hnot : ¬(s.d.toNat ≤ s.n.toNat ∧ s.d.toNat < 2 ^ 127) := fun h => by
    rw [aligns_iff.2 h] at hc
    cases hc
  change s.n.toNat < 2 * s.d.toNat
  omega

theorem subtract_step (h : Dividing N D m s.nat) (hc : s.divides = true) :
    ∃ m', m = m' + 1 ∧ Dividing N D m' s.subtract.nat := by
  cases m with
  | zero => exact absurd h.x (divides_iff.1 hc)
  | succ m =>
    rw [subtract_nat h.answer_or]
    exact ⟨m, rfl, h.step⟩

/-- The way up, from the start. -/
theorem align_run (fuel : Nat) (hfuel : 127 ≤ fuel) (hD : 0 < D) (h : Aligning N D 0 s.nat) :
    ∃ k t, Loop.run aligns (fun s => .ok s.align) fuel s = (.ok (some t) : Exec _) ∧ k < 128 ∧
      Dividing N D (k + 1) t.nat := by
  have hstep : ∀ {m : Nat} {s : Division}, (∃ k, m + k = 127 ∧ Aligning N D k s.nat) →
      s.aligns = true → ∃ m' < m, ∃ s', (.ok s.align : Exec _) = .ok s' ∧
        ∃ k, m' + k = 127 ∧ Aligning N D k s'.nat := by
    intro m s h hc
    obtain ⟨k, hk, h⟩ := h
    obtain ⟨hlt, hnext⟩ := align_step hD h hc
    exact ⟨m - 1, by omega, s.align, rfl, k + 1, by omega, hnext⟩
  obtain ⟨m, t, hrun, ⟨k, hk, hend⟩, hc⟩ :=
    Loop.run_of_rounds (I := fun m (s : Division) => ∃ k, m + k = 127 ∧ Aligning N D k s.nat) hstep
      ⟨0, rfl, h⟩ hfuel
  exact ⟨k, t, hrun, by omega, align_stop hend hc⟩

/-- The way down, to the last bit. -/
theorem subtract_run (fuel : Nat) (hfuel : m ≤ fuel) (h : Dividing N D m s.nat) :
    ∃ t, Loop.run divides (fun s => .ok s.subtract) fuel s = (.ok (some t) : Exec _) ∧
      Dividing N D 0 t.nat := by
  have hstep : ∀ {m : Nat} {s : Division}, Dividing N D m s.nat → s.divides = true →
      ∃ m' < m, ∃ s', (.ok s.subtract : Exec _) = .ok s' ∧ Dividing N D m' s'.nat := by
    intro m s h hc
    obtain ⟨m', hm, hnext⟩ := subtract_step h hc
    exact ⟨m', by omega, s.subtract, rfl, hnext⟩
  obtain ⟨m', t, hrun, hend, hc⟩ :=
    Loop.run_of_rounds (I := fun m (s : Division) => Dividing N D m s.nat) hstep h hfuel
  have hx : t.x.toNat = 0 := by
    by_contra hne
    rw [divides_iff.2 hne] at hc
    cases hc
  cases m' with
  | zero => exact ⟨t, hrun, hend⟩
  | succ m' => exact absurd (hend.x_succ.symm.trans hx) (Nat.two_pow_pos m').ne'

/-- **The loops end**, with the quotient and the rest. -/
theorem run_eq {fuel : Nat} (hfuel : 128 ≤ fuel) {n d : Uint128} (hd : d.toNat ≠ 0) :
    ∃ t, run fuel ⟨n, d, .ofInt32 1, .ofInt32 0⟩ = .ok (some t) ∧
      t.answer.toNat = n.toNat / d.toNat ∧ t.n.toNat = n.toNat % d.toNat := by
  have hstart : nat ⟨n, d, .ofInt32 1, .ofInt32 0⟩ = ⟨n.toNat, d.toNat, 1, 0⟩ := by
    rw [nat, toNat_one, toNat_zero]
  obtain ⟨k, s, hup, hk, hs⟩ := align_run fuel (by omega) (Nat.pos_of_ne_zero hd)
    (hstart ▸ Aligning.start n.toNat d.toNat)
  obtain ⟨t, hdown, ht⟩ := subtract_run fuel (by omega) hs
  refine ⟨t, ?_, ht.stop⟩
  unfold run
  rw [hup]
  exact hdown

end Division

/-! ## The outputs -/

/-- A number as a word. -/
def Uint128.ofNat (n : Nat) : Uint128 := ofBits (BitVec.ofNat 128 n)

theorem Uint128.ofNat_toNat (v : Uint128) : ofNat v.toNat = v := by
  rw [ofNat, ← toNat_bits, BitVec.ofNat_toNat, BitVec.setWidth_eq, ofBits_bits]

theorem Uint128.toNat_ofNat {n : Nat} (h : n < 2 ^ 128) : (ofNat n).toNat = n := by
  rw [ofNat, toNat_ofBits, BitVec.toNat_ofNat, Nat.mod_eq_of_lt h]

namespace Objects

variable {R : Type} [DecidableEq R] (σ : Objects R) (numerator denominator : Operand R)
  (quotient remainder : R)

/-- The quotient is assigned, and then the rest. -/
theorem divide_eq {fuel : Nat} (hfuel : 128 ≤ fuel) (hd : (denominator.read σ).toNat ≠ 0) :
    σ.divide fuel numerator denominator quotient remainder =
      (.ok (some ()), Function.update
        (Function.update σ quotient
          (.ofNat ((numerator.read σ).toNat / (denominator.read σ).toNat)))
        remainder (.ofNat ((numerator.read σ).toNat % (denominator.read σ).toNat))) := by
  have hne : denominator.read σ ≠ .ofInt32 0 := fun h => hd (by rw [h, Division.toNat_zero])
  obtain ⟨t, hrun, hq, hr⟩ := Division.run_eq hfuel (n := numerator.read σ) hd
  unfold divide
  rw [if_neg hne, hrun, ← hq, ← hr, ofNat_toNat, ofNat_toNat]
  rfl

theorem divide_zero (fuel : Nat) (hd : (denominator.read σ).toNat = 0) :
    σ.divide fuel numerator denominator quotient remainder =
      (.error (.abort "divide by zero"), σ) := by
  have hzero : denominator.read σ = .ofInt32 0 :=
    toNat_inj.1 (hd.trans Division.toNat_zero.symm)
  unfold divide
  rw [if_pos hzero]
  rfl

/-- **`divide` ends with the quotient and the rest**, whatever references it is given; with the divisor
0 it aborts, and nothing is assigned. -/
theorem divide_exact :
    ((denominator.read σ).toNat ≠ 0 → ∃ σ' : Objects R,
      (∀ fuel ≥ 128, σ.divide fuel numerator denominator quotient remainder =
        (.ok (some ()), σ')) ∧
      (quotient ≠ remainder →
        (numerator.read σ).toNat =
          (σ' quotient).toNat * (denominator.read σ).toNat + (σ' remainder).toNat) ∧
      (σ' remainder).toNat = (numerator.read σ).toNat % (denominator.read σ).toNat ∧
      (σ' remainder).toNat < (denominator.read σ).toNat ∧
      ∀ o, o ≠ quotient → o ≠ remainder → σ' o = σ o) ∧
    ((denominator.read σ).toNat = 0 → ∀ fuel,
      σ.divide fuel numerator denominator quotient remainder =
        (.error (.abort "divide by zero"), σ)) := by
  refine ⟨fun hd => ?_, fun hd fuel => σ.divide_zero _ _ _ _ fuel hd⟩
  refine ⟨_, fun fuel hfuel => σ.divide_eq numerator denominator quotient remainder hfuel hd, ?_⟩
  have hlt := (numerator.read σ).toNat_lt
  have hmod := Nat.mod_lt (numerator.read σ).toNat (Nat.pos_of_ne_zero hd)
  have hq := toNat_ofNat ((Nat.div_le_self _ (denominator.read σ).toNat).trans_lt hlt)
  have hr := toNat_ofNat ((Nat.mod_le _ (denominator.read σ).toNat).trans_lt hlt)
  refine ⟨fun hne => ?_, ?_, ?_, fun o hoq hor => ?_⟩
  · rw [Function.update_of_ne hne, Function.update_self, Function.update_self, hq, hr]
    exact (Nat.div_add_mod' _ _).symm
  · rw [Function.update_self, hr]
  · rw [Function.update_self, hr]
    exact hmod
  · rw [Function.update_of_ne hor, Function.update_of_ne hoq]

end Objects

end Wasmlib
