import Mathlib.Algebra.Order.Group.Unbundled.Int
import Mathlib.Data.Int.Order.Basic
import Mathlib.Tactic.NormNum
import Mathlib.Tactic.Positivity
import Mathlib.Tactic.Ring

/-!
# Signed machine integers

`SInt w`: the integers of a `w`-bit two's complement word, each carrying its range. The arithmetic
is the exact one and has no result where the exact result is outside the word or the divisor is
zero (`SInt.ofInt?`), so a computation that yields a value has not wrapped. `SInt.wrap` is the
conversion that does wrap.
-/

/-- `x` is a `w`-bit signed integer. -/
def SInt.InRange (w : Nat) (x : Int) : Prop := -2 ^ (w - 1) ≤ x ∧ x < 2 ^ (w - 1)

instance (w : Nat) (x : Int) : Decidable (SInt.InRange w x) :=
  inferInstanceAs (Decidable (_ ∧ _))

structure SInt (w : Nat) where
  val : Int
  inRange : SInt.InRange w val
  deriving DecidableEq

namespace SInt

variable {w : Nat}

@[ext] theorem ext : ∀ {x y : SInt w}, x.val = y.val → x = y
  | ⟨_, _⟩, ⟨_, _⟩, rfl => rfl

/-- The word of an exact result, if it has one. -/
def ofInt? (w : Nat) (x : Int) : Option (SInt w) := if h : InRange w x then some ⟨x, h⟩ else none

theorem ofInt?_of_inRange {x : Int} (h : InRange w x) : ofInt? w x = some ⟨x, h⟩ := dif_pos h

theorem ofInt?_eq_some {x : Int} {y : SInt w} (h : ofInt? w x = some y) : y.val = x := by
  unfold ofInt? at h
  split at h
  · cases h
    rfl
  · cases h

theorem inRange_of_abs_le {x : Int} {b : Int} (hx : |x| ≤ b) (hb : b < 2 ^ (w - 1)) :
    InRange w x := by
  obtain ⟨h1, h2⟩ := abs_le.1 hx
  exact ⟨by omega, by omega⟩

theorem inRange_mono {v : Nat} {x : Int} (h : InRange v x) (hvw : v ≤ w) : InRange w x := by
  have hpow : (2 : Int) ^ (v - 1) ≤ 2 ^ (w - 1) := by
    exact_mod_cast Nat.pow_le_pow_right (by decide) (by omega)
  exact ⟨by have := h.1; omega, by have := h.2; omega⟩

/-! ## Arithmetic -/

def neg (x : SInt w) : Option (SInt w) := ofInt? w (-x.val)

def add (x y : SInt w) : Option (SInt w) := ofInt? w (x.val + y.val)

def sub (x y : SInt w) : Option (SInt w) := ofInt? w (x.val - y.val)

def mul (x y : SInt w) : Option (SInt w) := ofInt? w (x.val * y.val)

/-- The quotient rounds towards zero. -/
def div (x y : SInt w) : Option (SInt w) :=
  if y.val = 0 then none else ofInt? w (x.val.tdiv y.val)

def mod (x y : SInt w) : Option (SInt w) :=
  if y.val = 0 then none else ofInt? w (x.val.tmod y.val)

theorem mul_of_inRange {x y : SInt w} {v : Int} (h : x.val * y.val = v) (hr : InRange w v) :
    ∃ r : SInt w, x.mul y = some r ∧ r.val = v := by
  subst h
  exact ⟨_, ofInt?_of_inRange hr, rfl⟩

theorem mod_of_pos (x : SInt w) {y : SInt w} (hy : 0 < y.val) :
    ∃ r : SInt w, x.mod y = some r ∧ r.val = x.val.tmod y.val := by
  have h1 := Int.tmod_lt_of_pos x.val hy
  have h2 := Int.lt_tmod_of_pos x.val hy
  have hr : InRange w (x.val.tmod y.val) :=
    ⟨by have := y.inRange.2; omega, by have := y.inRange.2; omega⟩
  exact ⟨⟨_, hr⟩, by rw [mod, if_neg hy.ne', ofInt?_of_inRange hr], rfl⟩

/-- The conversion to a wider word. -/
def extend (x : SInt w) {v : Nat} (h : w ≤ v) : SInt v := ⟨x.val, inRange_mono x.inRange h⟩

theorem abs_tdiv_le (x y : Int) : |x.tdiv y| ≤ |x| := by
  rw [Int.abs_eq_natAbs, Int.abs_eq_natAbs]
  exact_mod_cast Int.natAbs_tdiv_le_natAbs x y

/-! ## Conversion that wraps -/

theorem cast_two_pow_succ (v : Nat) : ((2 ^ (v + 1) : Nat) : Int) = 2 * 2 ^ v := by
  push_cast
  ring

theorem bmod_inRange (hw : 0 < w) (x : Int) : InRange w (x.bmod (2 ^ w)) := by
  obtain ⟨v, rfl⟩ := Nat.exists_eq_succ_of_ne_zero hw.ne'
  have h1 := Int.le_bmod (x := x) (m := 2 ^ (v + 1)) (by positivity)
  have h2 := Int.bmod_lt (x := x) (m := 2 ^ (v + 1)) (by positivity)
  rw [cast_two_pow_succ] at h1 h2
  simp only [Nat.succ_eq_add_one, InRange, Nat.add_sub_cancel]
  exact ⟨by omega, by omega⟩

/-- The word congruent to `x`. -/
def wrap (w : Nat) (hw : 0 < w) (x : Int) : SInt w := ⟨x.bmod (2 ^ w), bmod_inRange hw x⟩

theorem bmod_of_inRange (hw : 0 < w) {x : Int} (h : InRange w x) : x.bmod (2 ^ w) = x := by
  obtain ⟨v, rfl⟩ := Nat.exists_eq_succ_of_ne_zero hw.ne'
  simp only [Nat.succ_eq_add_one, InRange, Nat.add_sub_cancel] at h ⊢
  apply Int.bmod_eq_of_le_mul_two <;> rw [cast_two_pow_succ] <;> omega

end SInt
