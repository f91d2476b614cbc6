import WasmCdt.Core.Time

/-!
# Seconds and microseconds

The two ways to move a `time_point_sec` by `microseconds`: in whole seconds (`+=`, `-=`), and as an
exact instant whose seconds are taken afterwards (`plus`, `minus`, `ofTimePoint`).

* `toTimePoint_eq`, `ofTimePoint_eq`: the conversions, on numbers. The first is undone by the second
  and keeps the order.
* `plus_eq`, `minus_eq`: the exact instants.
* `addAssign_eq`, `subAssign_eq`: the moves by whole seconds, never a fault.
* `tdiv_shift`: what the quotient that rounds towards zero makes of a sum.
* `assign_exact`: **where the two ways agree**, and by how much they differ elsewhere.
-/

namespace Wasmlib

namespace TimePointSec

/-- The instant, in microseconds. -/
def micros (t : TimePointSec) : Int := t.utcSeconds.toNat * 1000000

/-- An instant in microseconds whose seconds are a `uint32_t`. -/
def Representable (x : Int) : Prop := 0 ≤ x ∧ x < 2 ^ 32 * 1000000

instance (x : Int) : Decidable (Representable x) := inferInstanceAs (Decidable (_ ∧ _))

/-- Cutting `m` down to seconds does not move it up. -/
def CutsDown (m : Int) : Prop := 0 ≤ m ∨ (1000000 : Int) ∣ m

instance (m : Int) : Decidable (CutsDown m) := inferInstanceAs (Decidable (_ ∨ _))

theorem micros_representable (t : TimePointSec) : Representable t.micros := by
  have hlt := t.count_lt
  exact ⟨by unfold micros; omega, by unfold micros; omega⟩

theorem inRange_of_representable {x : Int} (h : Representable x) : SInt.InRange 64 x := by
  obtain ⟨h0, hlt⟩ := h
  exact ⟨by omega, by omega⟩

/-! ## Seconds of a duration -/

theorem tdiv_eq (m : Int) :
    m.tdiv 1000000 = m / 1000000 + if CutsDown m then 0 else 1 := Int.tdiv_eq_ediv

theorem tdiv_bounds (x : SInt 64) :
    -9223372036855 ≤ x.val.tdiv 1000000 ∧ x.val.tdiv 1000000 ≤ 9223372036855 := by
  obtain ⟨hlo, hhi⟩ := x.inRange
  rw [tdiv_eq]
  split <;> exact ⟨by omega, by omega⟩

theorem div_perSecond (x : SInt 64) :
    ∃ q : SInt 64, x.div perSecond = some q ∧ q.val = x.val.tdiv 1000000 := by
  obtain ⟨hlo, hhi⟩ := tdiv_bounds x
  have hr : SInt.InRange 64 (x.val.tdiv 1000000) := ⟨by omega, by omega⟩
  refine ⟨⟨_, hr⟩, ?_, rfl⟩
  unfold SInt.div
  rw [if_neg (by decide)]
  exact SInt.ofInt?_of_inRange hr

/-- Whole seconds before a duration, cut together and cut apart. -/
theorem tdiv_shift {t m : Int} (h : 0 ≤ t * 1000000 + m) :
    t + m.tdiv 1000000 = (t * 1000000 + m).tdiv 1000000 + if CutsDown m then 0 else 1 := by
  have hsum : (t * 1000000 + m).tdiv 1000000 = t + m / 1000000 := by
    rw [Int.tdiv_eq_ediv_of_nonneg h, Int.add_comm, Int.add_mul_ediv_right m t (by decide),
      Int.add_comm]
  rw [hsum, tdiv_eq, Int.add_assoc]

theorem tdiv_lt {x : Int} (h : Representable x) :
    0 ≤ x.tdiv 1000000 ∧ x.tdiv 1000000 < 2 ^ 32 := by
  obtain ⟨h0, hlt⟩ := h
  rw [Int.tdiv_eq_ediv_of_nonneg h0]
  exact ⟨by omega, by omega⟩

/-! ## The conversions -/

theorem toTimePoint_eq (t : TimePointSec) :
    ∃ p, t.toTimePoint = .ok p ∧ p.elapsed.count.val = t.micros := by
  obtain ⟨c, hc, hval⟩ := SInt.mul_of_inRange (x := t.count) (y := perSecond) (v := t.micros) rfl
    (inRange_of_representable t.micros_representable)
  refine ⟨⟨⟨c⟩⟩, ?_, hval⟩
  unfold toTimePoint seconds
  rw [hc]
  rfl

theorem ofTimePoint_eq (p : TimePoint) :
    ofTimePoint p = .ok ⟨BitVec.ofInt 32 (p.elapsed.count.val.tdiv 1000000)⟩ := by
  obtain ⟨q, hq, hval⟩ := div_perSecond p.elapsed.count
  unfold ofTimePoint
  rw [hq, defined_some, ok_bind, hval, pure_eq_ok]

theorem toNat_ofInt {x : Int} (h0 : 0 ≤ x) (hlt : x < 2 ^ 32) :
    ((BitVec.ofInt 32 x).toNat : Int) = x := by
  rw [BitVec.toNat_ofInt]
  omega

theorem ofTimePoint_toTimePoint (t : TimePointSec) :
    (t.toTimePoint >>= ofTimePoint) = .ok t := by
  obtain ⟨p, hp, hval⟩ := toTimePoint_eq t
  have hsec : t.micros.tdiv 1000000 = t.utcSeconds.toNat := Int.mul_tdiv_cancel _ (by decide)
  rw [hp, ok_bind, ofTimePoint_eq, hval, hsec, BitVec.ofInt_natCast, BitVec.ofNat_toNat,
    BitVec.setWidth_eq]

theorem lt_iff {a b : TimePointSec} {p q : TimePoint} (hp : a.toTimePoint = .ok p)
    (hq : b.toTimePoint = .ok q) : p.lt q = a.lt b := by
  obtain ⟨p', hp', hpv⟩ := toTimePoint_eq a
  obtain ⟨q', hq', hqv⟩ := toTimePoint_eq b
  cases hp.symm.trans hp'
  cases hq.symm.trans hq'
  unfold TimePoint.lt lt
  rw [hpv, hqv, decide_eq_decide, BitVec.lt_def]
  unfold micros
  omega

/-! ## The two ways -/

theorem plus_eq (t : TimePointSec) (m : Microseconds) (h : Representable (t.micros + m.count.val)) :
    ∃ p, t.plus m = .ok p ∧ p.elapsed.count.val = t.micros + m.count.val := by
  obtain ⟨p, hp, hval⟩ := toTimePoint_eq t
  refine ⟨⟨⟨⟨t.micros + m.count.val, inRange_of_representable h⟩⟩⟩, ?_, rfl⟩
  unfold plus TimePoint.add Microseconds.add SInt.add
  rw [hp, ok_bind, hval, SInt.ofInt?_of_inRange (inRange_of_representable h)]
  rfl

theorem minus_eq (t : TimePointSec) (m : Microseconds)
    (h : Representable (t.micros - m.count.val)) :
    ∃ p, t.minus m = .ok p ∧ p.elapsed.count.val = t.micros - m.count.val := by
  obtain ⟨p, hp, hval⟩ := toTimePoint_eq t
  refine ⟨⟨⟨⟨t.micros - m.count.val, inRange_of_representable h⟩⟩⟩, ?_, rfl⟩
  unfold minus TimePoint.sub Microseconds.sub SInt.sub
  rw [hp, ok_bind, hval, SInt.ofInt?_of_inRange (inRange_of_representable h)]
  rfl

theorem addAssign_eq (t : TimePointSec) (m : Microseconds) :
    t.addAssign m
      = .ok ⟨BitVec.ofInt 32 (t.utcSeconds.toNat + m.count.val.tdiv 1000000)⟩ := by
  obtain ⟨q, hq, hval⟩ := div_perSecond m.count
  obtain ⟨hlo, hhi⟩ := tdiv_bounds m.count
  have hlt := t.count_lt
  have hr : SInt.InRange 64 (t.utcSeconds.toNat + q.val) := ⟨by omega, by omega⟩
  unfold addAssign Microseconds.toSeconds SInt.add
  rw [hq, defined_some, ok_bind, count_val, SInt.ofInt?_of_inRange hr, ← hval]
  rfl

theorem subAssign_eq (t : TimePointSec) (m : Microseconds) :
    t.subAssign m
      = .ok ⟨BitVec.ofInt 32 (t.utcSeconds.toNat - m.count.val.tdiv 1000000)⟩ := by
  obtain ⟨q, hq, hval⟩ := div_perSecond m.count
  obtain ⟨hlo, hhi⟩ := tdiv_bounds m.count
  have hlt := t.count_lt
  have hr : SInt.InRange 64 (t.utcSeconds.toNat - q.val) := ⟨by omega, by omega⟩
  unfold subAssign Microseconds.toSeconds SInt.sub
  rw [hq, defined_some, ok_bind, count_val, SInt.ofInt?_of_inRange hr, ← hval]
  rfl

/-- A move by `m` microseconds, cut apart and cut together: the first is a second ahead where cutting
`m` moves it up. -/
theorem cut_agrees {t m : Int} (h : Representable (t * 1000000 + m)) (h0 : 0 ≤ t)
    (htop : t < 2 ^ 32) :
    (BitVec.ofInt 32 (t + m.tdiv 1000000)).toNat
      = (BitVec.ofInt 32 ((t * 1000000 + m).tdiv 1000000)).toNat + if CutsDown m then 0 else 1 := by
  obtain ⟨hq0, hq⟩ := tdiv_lt h
  have hshift := tdiv_shift h.1
  have htog := toNat_ofInt hq0 hq
  by_cases hc : CutsDown m
  · rw [hshift, if_pos hc, if_pos hc, Int.add_zero, Nat.add_zero]
  · have hneg : m < 0 := by
      by_contra h0
      exact hc (.inl (by omega))
    rw [if_neg hc] at hshift ⊢
    -- the truncated duration is not positive, so the sum does not wrap
    have hle : m.tdiv 1000000 ≤ 0 := by
      rw [tdiv_eq, if_neg hc]
      omega
    have hapart := toNat_ofInt (x := t + m.tdiv 1000000) (by omega) (by omega)
    omega

/-- `+=` and `-=` leave the seconds of the exact instant, or one second more where the truncation of
the duration moves it up. -/
theorem assign_exact (t : TimePointSec) (m : Microseconds) :
    (Representable (t.micros + m.count.val) →
      ∃ e u, (t.plus m >>= ofTimePoint) = .ok e ∧ t.addAssign m = .ok u ∧
        u.utcSeconds.toNat = e.utcSeconds.toNat + if CutsDown m.count.val then 0 else 1) ∧
    (Representable (t.micros - m.count.val) →
      ∃ e u, (t.minus m >>= ofTimePoint) = .ok e ∧ t.subAssign m = .ok u ∧
        u.utcSeconds.toNat = e.utcSeconds.toNat + if CutsDown (-m.count.val) then 0 else 1) := by
  constructor
  · intro h
    obtain ⟨p, hp, hval⟩ := plus_eq t m h
    refine ⟨_, _, by rw [hp, ok_bind, ofTimePoint_eq], addAssign_eq t m, ?_⟩
    rw [hval]
    exact cut_agrees h (Int.natCast_nonneg _) t.count_lt
  · intro h
    obtain ⟨p, hp, hval⟩ := minus_eq t m h
    refine ⟨_, _, by rw [hp, ok_bind, ofTimePoint_eq], subAssign_eq t m, ?_⟩
    rw [hval, Int.sub_eq_add_neg, Int.sub_eq_add_neg, ← Int.neg_tdiv]
    rw [Int.sub_eq_add_neg] at h
    exact cut_agrees h (Int.natCast_nonneg _) t.count_lt

/-- Ten seconds, moved by one and a half: forwards both ways, and backwards. -/
theorem assign_exact_ten :
    (∃ e u, (plus ⟨10⟩ ⟨⟨-1500000, by decide⟩⟩ >>= ofTimePoint) = .ok e ∧
      addAssign ⟨10⟩ ⟨⟨-1500000, by decide⟩⟩ = .ok u ∧
        u.utcSeconds.toNat = e.utcSeconds.toNat + if CutsDown (-1500000) then 0 else 1) ∧
    (∃ e u, (minus ⟨10⟩ ⟨⟨-1500000, by decide⟩⟩ >>= ofTimePoint) = .ok e ∧
      subAssign ⟨10⟩ ⟨⟨-1500000, by decide⟩⟩ = .ok u ∧
        u.utcSeconds.toNat = e.utcSeconds.toNat + if CutsDown (- -1500000) then 0 else 1) :=
  ⟨(assign_exact ⟨10⟩ ⟨⟨-1500000, by decide⟩⟩).1 (by decide),
    (assign_exact ⟨10⟩ ⟨⟨-1500000, by decide⟩⟩).2 (by decide)⟩

/-- A microsecond before 00:00:01 is in second 0: `+=` stays in second 1. -/
theorem addAssign_not_exact :
    Representable (micros ⟨1⟩ + -1) ∧ (plus ⟨1⟩ ⟨⟨-1, by decide⟩⟩ >>= ofTimePoint) = .ok ⟨0⟩ ∧
      addAssign ⟨1⟩ ⟨⟨-1, by decide⟩⟩ = .ok ⟨1⟩ ∧
      (minus ⟨1⟩ ⟨⟨1, by decide⟩⟩ >>= ofTimePoint) = .ok ⟨0⟩ ∧
      subAssign ⟨1⟩ ⟨⟨1, by decide⟩⟩ = .ok ⟨1⟩ :=
  ⟨by decide, rfl, rfl, rfl, rfl⟩

end TimePointSec

end Wasmlib
