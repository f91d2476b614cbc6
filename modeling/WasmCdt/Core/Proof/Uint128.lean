import WasmCdt.Core.Uint128

/-!
# 128-bit arithmetic

Each compound operator assigns `this` the result of the operation on 128-bit words, whether its
operand is another object, `this` itself or a temporary.
-/

namespace Wasmlib

namespace Uint128

/-- The word of both halves. -/
def bits (v : Uint128) : BitVec 128 := v.hi ++ v.lo

def ofBits (b : BitVec 128) : Uint128 := ⟨b.extractLsb' 64 64, b.setWidth 64⟩

/-- The number denoted. -/
def toNat (v : Uint128) : Nat := v.hi.toNat * 2 ^ 64 + v.lo.toNat

theorem toNat_bits (v : Uint128) : v.bits.toNat = v.toNat := by
  rw [bits, BitVec.toNat_append, ← Nat.shiftLeft_add_eq_or_of_lt v.lo.isLt, Nat.shiftLeft_eq,
    Uint128.toNat]

theorem toNat_lt (v : Uint128) : v.toNat < 2 ^ 128 := toNat_bits v ▸ v.bits.isLt

@[simp] theorem ofBits_bits (v : Uint128) : ofBits v.bits = v := by
  rw [ofBits, bits, BitVec.extractLsb'_append_eq_left, BitVec.setWidth_append,
    dif_pos (Nat.le_refl 64), BitVec.setWidth_eq]

@[simp] theorem bits_ofBits (b : BitVec 128) : (ofBits b).bits = b := by
  apply BitVec.eq_of_toNat_eq
  simp only [toNat_bits, Uint128.toNat, ofBits, BitVec.extractLsb'_toNat, BitVec.toNat_setWidth,
    Nat.shiftRight_eq_div_pow]
  omega

theorem eq_ofBits {v : Uint128} {b : BitVec 128} (h : v.toNat = b.toNat) : v = ofBits b := by
  rw [← ofBits_bits v]
  exact congrArg ofBits (BitVec.eq_of_toNat_eq ((toNat_bits v).trans h))

theorem eq_ofBits_of_bits {v : Uint128} {b : BitVec 128} (h : v.bits = b) : v = ofBits b :=
  h ▸ (ofBits_bits v).symm

@[simp] theorem toNat_zero_hi (x : BitVec 64) : (⟨0, x⟩ : Uint128).toNat = x.toNat := by
  simp [Uint128.toNat]

@[simp] theorem toNat_ofUInt64 (x : BitVec 64) : (ofUInt64 x).toNat = x.toNat := toNat_zero_hi x

end Uint128

namespace Objects

open Uint128

variable {R : Type} [DecidableEq R] (σ : Objects R) (this : R)

@[simp] theorem setHi_self (x : BitVec 64) : σ.setHi this x this = ⟨x, (σ this).lo⟩ := by
  simp [setHi]

@[simp] theorem setLo_self (x : BitVec 64) : σ.setLo this x this = ⟨(σ this).hi, x⟩ := by
  simp [setLo]

@[simp] theorem setHi_setLo (x y : BitVec 64) :
    (σ.setLo this x).setHi this y = Function.update σ this ⟨y, x⟩ := by
  simp [setHi, setLo]

@[simp] theorem setLo_setHi (x y : BitVec 64) :
    (σ.setHi this x).setLo this y = Function.update σ this ⟨x, y⟩ := by
  simp [setHi, setLo]

theorem read_setLo_hi (u : Operand R) (x : BitVec 64) :
    (u.read (σ.setLo this x)).hi = (u.read σ).hi := by
  cases u with
  | temporary v => rfl
  | object r =>
    rcases eq_or_ne r this with rfl | hne
    · simp [Operand.read]
    · simp [Operand.read, setLo, hne]

/-! ## Sums -/

theorem addAssign_eq (u : Operand R) : σ.addAssign this u =
    Function.update σ this (ofBits ((σ this).bits + (u.read σ).bits)) := by
  simp only [addAssign, read_setLo_hi, setLo_self, setHi_setLo]
  congr 1
  apply eq_ofBits
  rw [BitVec.toNat_add, toNat_bits, toNat_bits]
  simp only [Uint128.toNat, BitVec.toNat_add, BitVec.lt_def]
  split <;> simp <;> omega

theorem preInc_eq : σ.preInc this = Function.update σ this (ofBits ((σ this).bits + 1)) := by
  simp only [preInc, setLo_self, setHi_setLo]
  congr 1
  apply eq_ofBits
  rw [BitVec.toNat_add, toNat_bits]
  simp only [Uint128.toNat, BitVec.toNat_add, ← BitVec.toNat_inj]
  split <;> simp at * <;> omega

theorem preDec_eq : σ.preDec this = Function.update σ this (ofBits ((σ this).bits - 1)) := by
  simp only [preDec, setLo_self, setHi_setLo]
  congr 1
  apply eq_ofBits
  rw [BitVec.toNat_sub, toNat_bits]
  simp only [Uint128.toNat, BitVec.toNat_sub, ← BitVec.toNat_inj]
  split <;> simp at * <;> omega

end Objects

namespace Uint128

theorem neg_eq (v : Uint128) : v.neg = ofBits (-v.bits) := by
  rw [neg, Objects.preInc_eq, Function.update_self]
  apply eq_ofBits_of_bits
  rw [bits_ofBits, BitVec.neg_eq_not_add]
  congr 1
  apply BitVec.eq_of_toNat_eq
  rw [BitVec.toNat_not, toNat_bits, toNat_bits]
  simp only [Uint128.toNat, not, BitVec.toNat_not]
  omega

/-! ## Shifts -/

theorem ge_128_iff (v : Uint128) : v.ge (ofInt64 128) = true ↔ 128 ≤ v.toNat := by
  obtain ⟨hi, lo⟩ := v
  have hlt := lo.isLt
  rw [show ofInt64 128 = ⟨0, 128⟩ by decide]
  simp only [ge, gt, lt, Uint128.toNat, Bool.or_eq_true, decide_eq_true_iff, mk.injEq, BitVec.lt_def,
    ← BitVec.toNat_inj]
  split <;> simp at * <;> omega

theorem toInteger_toNat {v : Uint128} (h : v.toNat < 128) : v.toInteger.toNat = v.toNat := by
  simp only [toInteger, Uint128.toNat, BitVec.toNat_setWidth] at *
  omega

theorem halfsize_toNat : Objects.halfsize.toNat = 64 := rfl

section
variable {n : BitVec 32}

theorem toNat_lt_halfsize (h : ¬n ≥ Objects.halfsize) : n.toNat < 64 := by
  rw [ge_iff_le, BitVec.le_def, halfsize_toNat] at h
  omega

theorem toNat_sub_halfsize (h : n ≥ Objects.halfsize) :
    64 ≤ n.toNat ∧ (n - Objects.halfsize).toNat = n.toNat - 64 := by
  rw [ge_iff_le, BitVec.le_def, halfsize_toNat] at h
  rw [BitVec.toNat_sub, halfsize_toNat]
  omega

theorem toNat_halfsize_sub (h : n.toNat < 64) : (Objects.halfsize - n).toNat = 64 - n.toNat := by
  rw [BitVec.toNat_sub, halfsize_toNat]
  omega

end

/-- Bits that a half loses on the left are those the other one takes. -/
theorem bits_shl (hi lo : BitVec 64) {n : BitVec 32} (hn : n ≠ 0) (hlt : n.toNat < 64) :
    (⟨(hi <<< n) ||| ((lo &&& ~~~(BitVec.allOnes 64 >>> n)) >>> (Objects.halfsize - n)), lo <<< n⟩ :
      Uint128).bits = (⟨hi, lo⟩ : Uint128).bits <<< n.toNat := by
  have hsub := toNat_halfsize_sub hlt
  have hpos : n.toNat ≠ 0 := fun h => hn (BitVec.eq_of_toNat_eq h)
  apply BitVec.eq_of_getLsbD_eq
  intro i hi'
  simp only [bits, BitVec.getLsbD_append, BitVec.getLsbD_shiftLeft, BitVec.getLsbD_or,
    BitVec.shiftLeft_eq', BitVec.ushiftRight_eq', BitVec.getLsbD_ushiftRight, BitVec.getLsbD_and,
    BitVec.getLsbD_not, BitVec.getLsbD_allOnes, hsub]
  by_cases h64 : i < 64
  · have h : i - n.toNat < 64 := by omega
    simp [h64, h, hi']
  · have hlow : 64 - n.toNat + (i - 64) = i - n.toNat := by omega
    have hge : ¬i < n.toNat := by omega
    have hrange : i - 64 < 64 := by omega
    by_cases hc : i - n.toNat < 64
    · have h1 : i - 64 < n.toNat := by omega
      have h2 : ¬n.toNat + (i - n.toNat) < 64 := by omega
      simp [h64, hlow, hc, hge, h1, h2, hi']
    · have h1 : ¬i - 64 < n.toNat := by omega
      have h2 : i - 64 - n.toNat = i - n.toNat - 64 := by omega
      simp [h64, hlow, hc, hge, h1, h2, hi', hrange]

/-- Bits that a half loses on the right are those the other one takes. -/
theorem bits_shr (hi lo : BitVec 64) {n : BitVec 32} (hn : n ≠ 0) (hlt : n.toNat < 64) :
    (⟨hi >>> n, (lo >>> n) ||| ((hi &&& ~~~(BitVec.allOnes 64 <<< n)) <<< (Objects.halfsize - n))⟩ :
      Uint128).bits = (⟨hi, lo⟩ : Uint128).bits >>> n.toNat := by
  have hsub := toNat_halfsize_sub hlt
  have hpos : n.toNat ≠ 0 := fun h => hn (BitVec.eq_of_toNat_eq h)
  apply BitVec.eq_of_getLsbD_eq
  intro i hi'
  simp only [bits, BitVec.getLsbD_append, BitVec.getLsbD_shiftLeft, BitVec.getLsbD_or,
    BitVec.shiftLeft_eq', BitVec.ushiftRight_eq', BitVec.getLsbD_ushiftRight, BitVec.getLsbD_and,
    BitVec.getLsbD_not, BitVec.getLsbD_allOnes, hsub]
  by_cases h64 : i < 64
  · by_cases hc : n.toNat + i < 64
    · have h1 : i < 64 - n.toNat := by omega
      simp [h64, hc, h1]
    · have h1 : ¬i < 64 - n.toNat := by omega
      have h2 : i - (64 - n.toNat) = n.toNat + i - 64 := by omega
      have h3 : n.toNat + i - 64 < 64 := by omega
      have h4 : n.toNat + i - 64 < n.toNat := by omega
      simp [h64, hc, h1, h2, h3, h4, BitVec.getLsbD_of_ge lo _ (Nat.not_lt.1 hc)]
  · have h1 : ¬n.toNat + i < 64 := by omega
    have h2 : n.toNat + (i - 64) = n.toNat + i - 64 := by omega
    simp [h64, h1, h2]

/-- The upper half moved down, or the lower half up. -/
theorem bits_shl_half (hi lo : BitVec 64) :
    (⟨lo, 0⟩ : Uint128).bits = (⟨hi, lo⟩ : Uint128).bits <<< 64 := by
  apply BitVec.eq_of_toNat_eq
  rw [BitVec.toNat_shiftLeft, toNat_bits, toNat_bits, Nat.shiftLeft_eq]
  have h0 : (0 : BitVec 64).toNat = 0 := rfl
  simp only [Uint128.toNat, h0]
  omega

theorem bits_shr_half (hi lo : BitVec 64) :
    (⟨0, hi⟩ : Uint128).bits = (⟨hi, lo⟩ : Uint128).bits >>> 64 := by
  apply BitVec.eq_of_toNat_eq
  rw [BitVec.toNat_ushiftRight, toNat_bits, toNat_bits, Nat.shiftRight_eq_div_pow]
  have h0 : (0 : BitVec 64).toNat = 0 := rfl
  simp only [Uint128.toNat, h0]
  omega

end Uint128

namespace Objects

open Uint128

variable {R : Type} [DecidableEq R] (σ : Objects R) (this : R)

@[simp] theorem setHi_setHi (x y : BitVec 64) :
    (σ.setHi this x).setHi this y = σ.setHi this y := by
  simp [setHi]

@[simp] theorem setLo_setLo (x y : BitVec 64) :
    (σ.setLo this x).setLo this y = σ.setLo this y := by
  simp [setLo]

section
variable {n : BitVec 32} (hn : n ≠ 0) (hlt : n.toNat < 64)
include hn hlt

theorem shlWithin_eq : σ.shlWithin this n =
    Function.update σ this (ofBits ((σ this).bits <<< n.toNat)) := by
  simp only [shlWithin, setHi_self, setHi_setHi, setLo_setHi]
  congr 1
  exact eq_ofBits_of_bits (bits_shl _ _ hn hlt)

theorem shrWithin_eq : σ.shrWithin this n =
    Function.update σ this (ofBits ((σ this).bits >>> n.toNat)) := by
  simp only [shrWithin, setLo_self, setLo_setLo, setHi_setLo]
  congr 1
  exact eq_ofBits_of_bits (bits_shr _ _ hn hlt)

end

/-- What both shifts do with a count below 128: a whole half first, and then the rest. -/
theorem shiftBy_eq {f : BitVec 128 → Nat → BitVec 128} {g : Objects R → BitVec 32 → Objects R}
    {half : Objects R} (hzero : ∀ b, f b 0 = b) (hadd : ∀ b m k, f b (m + k) = f (f b m) k)
    (hwithin : ∀ (σ : Objects R) {n : BitVec 32}, n ≠ 0 → n.toNat < 64 →
      g σ n = Function.update σ this (ofBits (f (σ this).bits n.toNat)))
    (hhalf : half = Function.update σ this (ofBits (f (σ this).bits 64))) {n : BitVec 32}
    (hsmall : n.toNat < 128) :
    (let (n, σ) := if n ≥ halfsize then (n - halfsize, half) else (n, σ)
      if n ≠ 0 then g σ n else σ) = Function.update σ this (ofBits (f (σ this).bits n.toNat)) := by
  have hrest : ∀ (σ : Objects R) {n : BitVec 32}, n.toNat < 64 → (if n ≠ 0 then g σ n else σ) =
      Function.update σ this (ofBits (f (σ this).bits n.toNat)) := by
    intro σ n hlt
    by_cases h0 : n = 0
    · subst h0
      simp [hzero]
    · rw [if_pos h0, hwithin σ h0 hlt]
  by_cases hge : n ≥ halfsize
  · obtain ⟨hle, hsub⟩ := toNat_sub_halfsize hge
    simp only [hge, if_true]
    rw [hrest half (by omega), hhalf, Function.update_self, Function.update_idem, bits_ofBits, ← hadd,
      hsub, Nat.add_sub_cancel' hle]
  · simp only [hge, if_false]
    exact hrest σ (toNat_lt_halfsize hge)

theorem shlAssign_eq (rhs : Operand R) : σ.shlAssign this rhs =
    Function.update σ this (ofBits ((σ this).bits <<< (rhs.read σ).toNat)) := by
  unfold shlAssign
  by_cases h128 : (rhs.read σ).ge (.ofInt64 128) = true
  · have hbig := (ge_128_iff _).1 h128
    simp only [h128, if_true, setLo_setHi]
    congr 1
    exact eq_ofBits_of_bits (by rw [BitVec.shiftLeft_eq_zero hbig]; decide)
  · have hsmall : (rhs.read σ).toNat < 128 := Nat.not_le.1 fun h => h128 ((ge_128_iff _).2 h)
    have hn := toInteger_toNat hsmall
    rw [if_neg h128, ← hn]
    refine shiftBy_eq σ this (f := fun b k => b <<< k) (g := fun σ n => σ.shlWithin this n)
      BitVec.shiftLeft_zero BitVec.shiftLeft_add
      (fun σ n h0 hlt => shlWithin_eq σ this h0 hlt) ?_ (hn.trans_lt hsmall)
    rw [setLo_setHi, eq_ofBits_of_bits (bits_shl_half _ _)]

theorem shrAssign_eq (rhs : Operand R) : σ.shrAssign this rhs =
    Function.update σ this (ofBits ((σ this).bits >>> (rhs.read σ).toNat)) := by
  unfold shrAssign
  by_cases h128 : (rhs.read σ).ge (.ofInt64 128) = true
  · have hbig := (ge_128_iff _).1 h128
    simp only [h128, if_true, setLo_setHi]
    congr 1
    exact eq_ofBits_of_bits (by rw [BitVec.ushiftRight_eq_zero hbig]; decide)
  · have hsmall : (rhs.read σ).toNat < 128 := Nat.not_le.1 fun h => h128 ((ge_128_iff _).2 h)
    have hn := toInteger_toNat hsmall
    rw [if_neg h128, ← hn]
    refine shiftBy_eq σ this (f := fun b k => b >>> k) (g := fun σ n => σ.shrWithin this n)
      BitVec.ushiftRight_zero BitVec.shiftRight_add
      (fun σ n h0 hlt => shrWithin_eq σ this h0 hlt) ?_ (hn.trans_lt hsmall)
    rw [setHi_setLo, eq_ofBits_of_bits (bits_shr_half _ _)]

/-! ## Products -/

theorem addWord_eq (x : BitVec 64) : σ.addWord this x =
    Function.update σ this (ofBits ((σ this).bits + (ofUInt64 x).bits)) :=
  addAssign_eq σ this (.temporary (ofUInt64 x))

theorem shlLimb_eq : σ.shlLimb this =
    Function.update σ this (ofBits ((σ this).bits <<< 32)) := by
  have h32 : (ofInt32 0x20).toNat = 32 := by decide
  rw [shlLimb, shlAssign_eq, Operand.read, h32]

theorem limb_toNat (x : BitVec 64) : (limb x).toNat = x.toNat % 2 ^ 32 := by
  simp only [limb, BitVec.toNat_setWidth]
  omega

theorem limb_shift_toNat (x : BitVec 64) : (limb (x >>> 0x20)).toNat = x.toNat / 2 ^ 32 := by
  have := x.isLt
  rw [limb_toNat, BitVec.toNat_ushiftRight, Nat.shiftRight_eq_div_pow]
  omega

/-- A product of limbs fits a word. -/
theorem limb_mul_toNat (x y : BitVec 64) :
    (limb x * limb y).toNat = (limb x).toNat * (limb y).toNat := by
  have hx : (limb x).toNat < 2 ^ 32 := by
    rw [limb_toNat]
    omega
  have hy : (limb y).toNat < 2 ^ 32 := by
    rw [limb_toNat]
    omega
  rw [BitVec.toNat_mul]
  exact Nat.mod_eq_of_lt ((Nat.mul_lt_mul'' hx hy).trans_eq (by decide))

theorem toNat_limbs (v : Uint128) : v.toNat = (limb v.lo).toNat +
    (limb (v.lo >>> 0x20)).toNat * 2 ^ 32 + (limb v.hi).toNat * 2 ^ 64 +
      (limb (v.hi >>> 0x20)).toNat * 2 ^ 96 := by
  simp only [limb_shift_toNat, Uint128.toNat]
  simp only [limb_toNat]
  omega

/-- The cross terms of the schoolbook product, without those beyond the word. -/
theorem schoolbook_mod (a0 a1 a2 a3 b0 b1 b2 b3 : Nat) :
    ((((a3 * b0 + a2 * b1 + a1 * b2 + a0 * b3) * 2 ^ 32 + a2 * b0 + a1 * b1 + a0 * b2) * 2 ^ 32 +
      a1 * b0 + a0 * b1) * 2 ^ 32 + a0 * b0) % 2 ^ 128 =
    (a0 + a1 * 2 ^ 32 + a2 * 2 ^ 64 + a3 * 2 ^ 96) *
      (b0 + b1 * 2 ^ 32 + b2 * 2 ^ 64 + b3 * 2 ^ 96) % 2 ^ 128 := by
  have hcross : (a0 + a1 * 2 ^ 32 + a2 * 2 ^ 64 + a3 * 2 ^ 96) *
      (b0 + b1 * 2 ^ 32 + b2 * 2 ^ 64 + b3 * 2 ^ 96) =
      ((((a3 * b0 + a2 * b1 + a1 * b2 + a0 * b3) * 2 ^ 32 + a2 * b0 + a1 * b1 + a0 * b2) * 2 ^ 32 +
        a1 * b0 + a0 * b1) * 2 ^ 32 + a0 * b0) +
      2 ^ 128 * (a3 * b1 + a2 * b2 + a1 * b3 + (a3 * b2 + a2 * b3) * 2 ^ 32 +
        a3 * b3 * 2 ^ 64) := by ring
  rw [hcross, Nat.add_mul_mod_self_left]

theorem mulAssign_eq (b : Operand R) : σ.mulAssign this b =
    Function.update σ this (ofBits ((σ this).bits * (b.read σ).bits)) := by
  simp only [mulAssign, setLo_setHi, addWord_eq, shlLimb_eq, Function.update_self,
    Function.update_idem, bits_ofBits]
  congr 2
  apply BitVec.eq_of_toNat_eq
  rw [BitVec.toNat_mul, toNat_bits, toNat_bits, toNat_limbs (σ this), toNat_limbs (b.read σ),
    ← schoolbook_mod]
  simp only [BitVec.toNat_add, BitVec.toNat_shiftLeft, toNat_bits, toNat_zero_hi, toNat_ofUInt64,
    limb_mul_toNat, Nat.shiftLeft_eq, Nat.mod_add_mod, Nat.mod_mul_mod]

theorem subAssign_eq (u : Operand R) : σ.subAssign this u =
    Function.update σ this (ofBits ((σ this).bits - (u.read σ).bits)) := by
  rw [subAssign, addAssign_eq, Operand.read, neg_eq, bits_ofBits, BitVec.sub_eq_add_neg]

/-! ## The numbers denoted -/

/-- The objects after `this` is assigned the number `n`, modulo the word. -/
def Assigns (σ : Objects R) (this : R) (n : Int) (σ' : Objects R) : Prop :=
  ((σ' this).toNat : Int) = n % 2 ^ 128 ∧ ∀ r, r ≠ this → σ' r = σ r

theorem assigns_update {n : Int} {b : BitVec 128} (h : (b.toNat : Int) = n % 2 ^ 128) :
    Assigns σ this n (Function.update σ this (ofBits b)) := by
  refine ⟨?_, fun r hr => Function.update_of_ne hr _ _⟩
  rw [Function.update_self, ← toNat_bits, bits_ofBits, h]

theorem assigns_of_nat {n : Nat} {b : BitVec 128} (h : b.toNat = n % 2 ^ 128) :
    Assigns σ this n (Function.update σ this (ofBits b)) :=
  assigns_update σ this (by exact_mod_cast congrArg Nat.cast h)

theorem preInc_assigns : Assigns σ this ((σ this).toNat + 1) (σ.preInc this) := by
  rw [preInc_eq]
  refine assigns_of_nat σ this (n := (σ this).toNat + 1) ?_
  rw [BitVec.toNat_add, toNat_bits]
  rfl

theorem preDec_assigns : Assigns σ this ((σ this).toNat - 1) (σ.preDec this) := by
  rw [preDec_eq]
  refine assigns_update σ this ?_
  have hlt := (σ this).toNat_lt
  rw [BitVec.toNat_sub, toNat_bits, show (1 : BitVec 128).toNat = 1 from rfl]
  omega

theorem subAssign_assigns (u : Operand R) :
    Assigns σ this ((σ this).toNat - (u.read σ).toNat) (σ.subAssign this u) := by
  rw [subAssign_eq]
  refine assigns_update σ this ?_
  have hlt := (σ this).toNat_lt
  have hlt' := (u.read σ).toNat_lt
  rw [BitVec.toNat_sub, toNat_bits, toNat_bits]
  omega

/-- **The operators are arithmetic modulo `2 ^ 128`**, for any objects, `this` among them, and any
operand, also `this` itself. -/
theorem compound_arithmetic (u : Operand R) :
    Assigns σ this ((σ this).toNat + (u.read σ).toNat) (σ.addAssign this u) ∧
    Assigns σ this ((σ this).toNat - (u.read σ).toNat) (σ.subAssign this u) ∧
    Assigns σ this ((σ this).toNat * (u.read σ).toNat) (σ.mulAssign this u) ∧
    ((σ this).neg.toNat : Int) = -(σ this).toNat % 2 ^ 128 ∧
    Assigns σ this ((σ this).toNat + 1) (σ.preInc this) ∧
    Assigns σ this ((σ this).toNat - 1) (σ.preDec this) ∧
    ((σ.postInc this).1 = σ this ∧ Assigns σ this ((σ this).toNat + 1) (σ.postInc this).2) ∧
    ((σ.postDec this).1 = σ this ∧ Assigns σ this ((σ this).toNat - 1) (σ.postDec this).2) ∧
    Assigns σ this ((σ this).toNat * 2 ^ (u.read σ).toNat) (σ.shlAssign this u) ∧
    Assigns σ this ((σ this).toNat / 2 ^ (u.read σ).toNat : Nat) (σ.shrAssign this u) ∧
    (128 ≤ (u.read σ).toNat →
      (σ.shlAssign this u this).toNat = 0 ∧ (σ.shrAssign this u this).toNat = 0) := by
  refine ⟨?_, subAssign_assigns σ this u, ?_, ?_, preInc_assigns σ this, preDec_assigns σ this,
    ⟨rfl, preInc_assigns σ this⟩, ⟨rfl, preDec_assigns σ this⟩, ?_, ?_, ?_⟩
  · rw [addAssign_eq]
    refine assigns_of_nat σ this (n := (σ this).toNat + (u.read σ).toNat) ?_
    rw [BitVec.toNat_add, toNat_bits, toNat_bits]
  · rw [mulAssign_eq]
    refine assigns_of_nat σ this (n := (σ this).toNat * (u.read σ).toNat) ?_
    rw [BitVec.toNat_mul, toNat_bits, toNat_bits]
  · have hlt := (σ this).toNat_lt
    rw [neg_eq, ← toNat_bits, bits_ofBits, BitVec.toNat_neg, toNat_bits]
    omega
  · rw [shlAssign_eq]
    refine assigns_of_nat σ this (n := (σ this).toNat * 2 ^ (u.read σ).toNat) ?_
    rw [BitVec.toNat_shiftLeft, toNat_bits, Nat.shiftLeft_eq]
  · rw [shrAssign_eq]
    refine assigns_of_nat σ this ?_
    have hlt := (σ this).toNat_lt
    rw [BitVec.toNat_ushiftRight, toNat_bits, Nat.shiftRight_eq_div_pow,
      Nat.mod_eq_of_lt ((Nat.div_le_self _ _).trans_lt hlt)]
  · intro hbig
    rw [shlAssign_eq, shrAssign_eq, Function.update_self, Function.update_self,
      BitVec.shiftLeft_eq_zero hbig, BitVec.ushiftRight_eq_zero hbig]
    exact ⟨rfl, rfl⟩

/-- A square, the operand being the target. -/
example : (mulAssign (fun _ : Unit => ⟨0, BitVec.allOnes 64⟩) () (.object ())) () =
    ⟨BitVec.allOnes 64 - 1, 1⟩ := by decide

end Objects

end Wasmlib
