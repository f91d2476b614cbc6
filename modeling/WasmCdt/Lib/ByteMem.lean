import Mathlib.Tactic.Ring
import Mathlib.Tactic.Linarith

/-!
# A byte memory

Memory as a function from addresses to bytes, with little-endian 32-bit words, and words that carry
a flag in their top bit.

* `load32_store32`: a stored word is loaded again.
* `AgreeOff`: two memories agree off an interval; stores and copies agree off what they write.
* `and_flag`, `and_rest`, `or_flag`: the bit operations on a flagged word.
-/

namespace ByteMem

abbrev Mem : Type := Nat → UInt8

/-- The little-endian word at `a`. -/
def load32 (m : Mem) (a : Nat) : Nat :=
  (m a).toNat + 2 ^ 8 * (m (a + 1)).toNat + 2 ^ 16 * (m (a + 2)).toNat + 2 ^ 24 * (m (a + 3)).toNat

def store32 (a v : Nat) (m : Mem) : Mem := fun x =>
  if x = a then UInt8.ofNat v
  else if x = a + 1 then UInt8.ofNat (v / 2 ^ 8)
  else if x = a + 2 then UInt8.ofNat (v / 2 ^ 16)
  else if x = a + 3 then UInt8.ofNat (v / 2 ^ 24)
  else m x

def store8 (a : Nat) (v : UInt8) (m : Mem) : Mem := fun x => if x = a then v else m x

/-- `n` bytes from `src` to `dst`, as read before the copy. -/
def copy (dst src n : Nat) (m : Mem) : Mem := fun x =>
  if dst ≤ x ∧ x < dst + n then m (src + (x - dst)) else m x

theorem load32_lt (m : Mem) (a : Nat) : load32 m a < 2 ^ 32 := by
  have h0 := (m a).toNat_lt
  have h1 := (m (a + 1)).toNat_lt
  have h2 := (m (a + 2)).toNat_lt
  have h3 := (m (a + 3)).toNat_lt
  unfold load32
  omega

theorem load32_store32 {v : Nat} (h : v < 2 ^ 32) (a : Nat) (m : Mem) :
    load32 (store32 a v m) a = v := by
  have h1 : a + 1 ≠ a := by omega
  have h2 : a + 2 ≠ a ∧ a + 2 ≠ a + 1 := by omega
  have h3 : a + 3 ≠ a ∧ a + 3 ≠ a + 1 ∧ a + 3 ≠ a + 2 := by omega
  simp only [load32, store32, h1, h2, h3, ↓reduceIte, UInt8.toNat_ofNat']
  omega

theorem store32_store32 (a u v : Nat) (m : Mem) :
    store32 a v (store32 a u m) = store32 a v m := by
  funext x
  simp only [store32]
  split_ifs <;> rfl

/-! ## Agreement off an interval -/

/-- The memories agree at every address that is not in `[a, b)`. -/
def AgreeOff (a b : Nat) (m m' : Mem) : Prop := ∀ x, x < a ∨ b ≤ x → m' x = m x

namespace AgreeOff

variable {a b a' b' c : Nat} {m m' m'' : Mem}

theorem rfl : AgreeOff a b m m := fun _ _ => Eq.refl _

theorem trans (h : AgreeOff a b m m') (h' : AgreeOff a b m' m'') : AgreeOff a b m m'' :=
  fun x hx => (h' x hx).trans (h x hx)

theorem mono (h : AgreeOff a b m m') (ha : a' ≤ a) (hb : b ≤ b') : AgreeOff a' b' m m' :=
  fun x hx => h x (by omega)

theorem load32 (h : AgreeOff a b m m') (hc : c + 4 ≤ a ∨ b ≤ c) :
    ByteMem.load32 m' c = ByteMem.load32 m c := by
  simp only [ByteMem.load32, h c (by omega), h (c + 1) (by omega), h (c + 2) (by omega),
    h (c + 3) (by omega)]

end AgreeOff

theorem agreeOff_store32 (a v : Nat) (m : Mem) : AgreeOff a (a + 4) m (store32 a v m) := by
  intro x hx
  have h0 : x ≠ a := by omega
  have h1 : x ≠ a + 1 := by omega
  have h2 : x ≠ a + 2 := by omega
  have h3 : x ≠ a + 3 := by omega
  simp only [store32, h0, h1, h2, h3, ↓reduceIte]

theorem agreeOff_store8 (a : Nat) (v : UInt8) (m : Mem) :
    AgreeOff a (a + 1) m (store8 a v m) := by
  intro x hx
  have h0 : x ≠ a := by omega
  simp only [store8, h0, ↓reduceIte]

theorem agreeOff_copy (dst src n : Nat) (m : Mem) :
    AgreeOff dst (dst + n) m (copy dst src n m) := by
  intro x hx
  have h0 : ¬(dst ≤ x ∧ x < dst + n) := by omega
  simp only [copy, h0, ↓reduceIte]

/-! ## Words with a flag in the top bit -/

/-- The flag of a word. -/
def flagOf (w : Nat) : Nat := if 2 ^ 31 ≤ w then 2 ^ 31 else 0

theorem and_flag {w : Nat} (h : w < 2 ^ 32) :
    w &&& 2 ^ 31 = flagOf w := by
  unfold flagOf
  apply Nat.eq_of_testBit_eq
  intro i
  rw [Nat.testBit_and, Nat.testBit_two_pow]
  by_cases hi : 31 = i
  · subst hi
    split_ifs with hw
    · have hbit : w.testBit 31 := Nat.testBit_of_two_pow_le_and_two_pow_add_one_gt hw h
      rw [hbit, Nat.testBit_two_pow_self]
      rfl
    · simp [Nat.testBit_lt_two_pow (Nat.not_le.1 hw)]
  · split_ifs with hw
    · simp only [hi, decide_false, Bool.and_false, Nat.testBit_two_pow]
    · simp [hi]

theorem and_rest (w : Nat) : w &&& (2 ^ 31 - 1) = w % 2 ^ 31 := Nat.and_two_pow_sub_one_eq_mod w 31

theorem or_flag {v : Nat} (h : v < 2 ^ 31) : v ||| 2 ^ 31 = v + 2 ^ 31 := by
  have hor := Nat.two_pow_add_eq_or_of_lt h 1
  rw [Nat.mul_one] at hor
  rw [Nat.or_comm, ← hor, Nat.add_comm]

theorem flagOf_cases (w : Nat) : flagOf w = 0 ∨ flagOf w = 2 ^ 31 := by
  unfold flagOf
  split_ifs <;> simp

theorem or_flagOf {v : Nat} (h : v < 2 ^ 31) (w : Nat) : v ||| flagOf w = v + flagOf w := by
  rcases flagOf_cases w with hw | hw <;> rw [hw]
  · rw [Nat.or_zero, Nat.add_zero]
  · exact or_flag h

theorem add_flagOf_or {v : Nat} (h : v < 2 ^ 31) (w : Nat) :
    v + flagOf w ||| 2 ^ 31 = v + 2 ^ 31 := by
  rcases flagOf_cases w with hw | hw <;> rw [hw]
  · exact or_flag h
  · rw [← or_flag h, Nat.or_assoc, Nat.or_self]

theorem add_flagOf_mod {v : Nat} (h : v < 2 ^ 31) (w : Nat) : (v + flagOf w) % 2 ^ 31 = v := by
  rcases flagOf_cases w with hw | hw <;> rw [hw] <;> omega

end ByteMem
