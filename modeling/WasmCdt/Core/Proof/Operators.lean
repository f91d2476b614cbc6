import WasmCdt.Core.Proof.Uint128
import Mathlib.Tactic.LinearCombination

/-!
# The values of 128-bit operators

What each compound operator leaves in a new object, as a number; and the product of two words.

* `orAssign_eq`, `andAssign_eq`, `xorAssign_eq`: the bit operators.
* `ge_iff`: the comparison.
* `fullProduct_exact`: the two results of `full_product` are the halves of the product.
-/

namespace Wasmlib

open Uint128

namespace Objects

variable {R : Type} [DecidableEq R] (σ : Objects R) (this : R)

theorem read_setHi_lo (u : Operand R) (x : BitVec 64) :
    (u.read (σ.setHi this x)).lo = (u.read σ).lo := by
  cases u with
  | temporary v => rfl
  | object r =>
    rcases eq_or_ne r this with rfl | hne
    · simp [Operand.read]
    · simp [Operand.read, setHi, hne]

/-- An operator that works on each half by itself. -/
theorem halves_eq (u : Operand R) (f : BitVec 64 → BitVec 64 → BitVec 64)
    {g : BitVec 128 → BitVec 128 → BitVec 128}
    (hfg : ∀ a b c d : BitVec 64, g (a ++ b) (c ++ d) = f a c ++ f b d) :
    (let σ' := σ.setHi this (f (σ this).hi (u.read σ).hi)
     σ'.setLo this (f (σ' this).lo (u.read σ').lo)) =
    Function.update σ this (ofBits (g (σ this).bits (u.read σ).bits)) := by
  simp only [read_setHi_lo, setHi_self, setLo_setHi]
  congr 1
  exact eq_ofBits_of_bits (hfg _ _ _ _).symm

theorem orAssign_eq (u : Operand R) : σ.orAssign this u =
    Function.update σ this (ofBits ((σ this).bits ||| (u.read σ).bits)) :=
  halves_eq σ this u (· ||| ·) fun _ _ _ _ => BitVec.or_append

theorem andAssign_eq (u : Operand R) : σ.andAssign this u =
    Function.update σ this (ofBits ((σ this).bits &&& (u.read σ).bits)) :=
  halves_eq σ this u (· &&& ·) fun _ _ _ _ => BitVec.and_append

theorem xorAssign_eq (u : Operand R) : σ.xorAssign this u =
    Function.update σ this (ofBits ((σ this).bits ^^^ (u.read σ).bits)) :=
  halves_eq σ this u (· ^^^ ·) fun _ _ _ _ => BitVec.xor_append

end Objects

namespace Uint128

variable (a b : Uint128)

/-! ## Comparison -/

theorem toNat_inj {a b : Uint128} : a.toNat = b.toNat ↔ a = b := by
  constructor
  · intro h
    have hbits : a.bits = b.bits := BitVec.toNat_inj.1 (by rw [toNat_bits, toNat_bits, h])
    rw [← ofBits_bits a, hbits, ofBits_bits]
  · exact congrArg toNat

theorem lt_iff {a b : Uint128} : a.lt b = true ↔ a.toNat < b.toNat := by
  have ha := a.lo.isLt
  have hb := b.lo.isLt
  unfold lt
  split
  · rename_i heq
    rw [Uint128.toNat, Uint128.toNat, heq, decide_eq_true_iff, BitVec.lt_def]
    omega
  · rename_i hne
    have hne' : a.hi.toNat ≠ b.hi.toNat := fun h => hne (BitVec.toNat_inj.1 h)
    rw [Uint128.toNat, Uint128.toNat, decide_eq_true_iff, BitVec.lt_def]
    omega

theorem ge_iff {a b : Uint128} : a.ge b = true ↔ b.toNat ≤ a.toNat := by
  rw [ge, gt, Bool.or_eq_true, lt_iff, decide_eq_true_iff, ← toNat_inj]
  omega

/-! ## New objects -/

/-- An operator on 128-bit words leaves its value in a new object. -/
theorem onCopy_eq {op : Objects Unit → Unit → Operand Unit → Objects Unit} {v : Uint128}
    (h : op (fun _ => a) () (.temporary b) = Function.update (fun _ => a) () v) :
    onCopy op a b = v := by
  rw [onCopy, h, Function.update_self]

theorem toNat_ofBits (x : BitVec 128) : (ofBits x).toNat = x.toNat := by
  rw [← toNat_bits, bits_ofBits]

theorem add_toNat : (onCopy Objects.addAssign a b).toNat = (a.toNat + b.toNat) % 2 ^ 128 := by
  rw [onCopy_eq a b (Objects.addAssign_eq _ _ _), toNat_ofBits, BitVec.toNat_add, toNat_bits]
  exact congrArg (fun x => (a.toNat + x) % 2 ^ 128) (toNat_bits b)

theorem mul_toNat : (onCopy Objects.mulAssign a b).toNat = a.toNat * b.toNat % 2 ^ 128 := by
  rw [onCopy_eq a b (Objects.mulAssign_eq _ _ _), toNat_ofBits, BitVec.toNat_mul, toNat_bits]
  exact congrArg (fun x => a.toNat * x % 2 ^ 128) (toNat_bits b)

theorem sub_toNat (h : b.toNat ≤ a.toNat) :
    (onCopy Objects.subAssign a b).toNat = a.toNat - b.toNat := by
  rw [onCopy_eq a b (Objects.subAssign_eq _ _ _), toNat_ofBits]
  have hle : b.bits ≤ a.bits := by
    rw [BitVec.le_def, toNat_bits, toNat_bits]
    exact h
  exact (BitVec.toNat_sub_of_le hle).trans (by rw [toNat_bits, toNat_bits])

theorem or_toNat : (onCopy Objects.orAssign a b).toNat = a.toNat ||| b.toNat := by
  rw [onCopy_eq a b (Objects.orAssign_eq _ _ _), toNat_ofBits, BitVec.toNat_or, toNat_bits]
  exact congrArg (a.toNat ||| ·) (toNat_bits b)

theorem and_toNat : (onCopy Objects.andAssign a b).toNat = a.toNat &&& b.toNat := by
  rw [onCopy_eq a b (Objects.andAssign_eq _ _ _), toNat_ofBits, BitVec.toNat_and, toNat_bits]
  exact congrArg (a.toNat &&& ·) (toNat_bits b)

theorem shl_toNat : (onCopy Objects.shlAssign a b).toNat = a.toNat * 2 ^ b.toNat % 2 ^ 128 := by
  rw [onCopy_eq a b (Objects.shlAssign_eq _ _ _), toNat_ofBits, BitVec.toNat_shiftLeft, toNat_bits,
    Nat.shiftLeft_eq]
  rfl

theorem shr_toNat : (onCopy Objects.shrAssign a b).toNat = a.toNat / 2 ^ b.toNat := by
  rw [onCopy_eq a b (Objects.shrAssign_eq _ _ _), toNat_ofBits, BitVec.toNat_ushiftRight, toNat_bits,
    Nat.shiftRight_eq_div_pow]
  rfl

/-! ## The product of two words -/

/-- A product of halves fits a word. -/
theorem mul_halves_toNat (x y : BitVec 64) :
    (onCopy Objects.mulAssign (ofUInt64 x) (ofUInt64 y)).toNat = x.toNat * y.toNat := by
  rw [mul_toNat, toNat_ofUInt64, toNat_ofUInt64]
  have hlt : x.toNat * y.toNat < 2 ^ 64 * 2 ^ 64 := Nat.mul_lt_mul'' x.isLt y.isLt
  exact Nat.mod_eq_of_lt hlt

theorem add_half_toNat (v : Uint128) (x : BitVec 64) :
    (onCopy Objects.addAssign v (ofUInt64 x)).toNat = (v.toNat + x.toNat) % 2 ^ 128 := by
  rw [add_toNat, toNat_ofUInt64]

/-- The cross products of the halves. -/
theorem mul_toNat_halves : a.toNat * b.toNat = a.hi.toNat * b.hi.toNat * 2 ^ 128 +
    (a.lo.toNat * b.hi.toNat + a.hi.toNat * b.lo.toNat) * 2 ^ 64 + a.lo.toNat * b.lo.toNat := by
  rw [Uint128.toNat, Uint128.toNat]
  ring

end Uint128

/-- **The product of two words is exact**: `full_product` assigns its halves, the high one first,
to any two references. -/
theorem fullProduct_exact {R : Type} [DecidableEq R] (σ : Objects R) (a b : Operand R)
    (resultHi resultLo : R) : ∃ x y : Uint128,
      σ.fullProduct a b resultHi resultLo =
        Function.update (Function.update σ resultHi x) resultLo y ∧
      x.toNat * 2 ^ 128 + y.toNat = (a.read σ).toNat * (b.read σ).toNat := by
  refine ⟨_, _, rfl, ?_⟩
  generalize a.read σ = a, b.read σ = b
  -- the cross products
  generalize hs : onCopy Objects.mulAssign (ofUInt64 a.lo) (ofUInt64 b.lo) = s
  generalize hr : onCopy Objects.mulAssign (ofUInt64 a.hi) (ofUInt64 b.lo) = r
  generalize hq : onCopy Objects.mulAssign (ofUInt64 a.lo) (ofUInt64 b.hi) = q
  generalize hp : onCopy Objects.mulAssign (ofUInt64 a.hi) (ofUInt64 b.hi) = p
  have hs' : s.toNat = a.lo.toNat * b.lo.toNat := hs ▸ mul_halves_toNat a.lo b.lo
  have hr' : r.toNat = a.hi.toNat * b.lo.toNat := hr ▸ mul_halves_toNat a.hi b.lo
  have hq' : q.toNat = a.lo.toNat * b.hi.toNat := hq ▸ mul_halves_toNat a.lo b.hi
  have hp' : p.toNat = a.hi.toNat * b.hi.toNat := hp ▸ mul_halves_toNat a.hi b.hi
  -- the sums of their halves, which fit the accumulator
  generalize hc : onCopy Objects.addAssign (ofUInt64 s.hi) (ofUInt64 q.lo) = c
  generalize hd : onCopy Objects.addAssign c (ofUInt64 r.lo) = d
  generalize he : onCopy Objects.addAssign (ofUInt64 d.hi) (ofUInt64 q.hi) = e
  generalize hf : onCopy Objects.addAssign e (ofUInt64 r.hi) = f
  generalize hg : onCopy Objects.addAssign f (ofUInt64 p.lo) = g
  have hc' : c.toNat = s.hi.toNat + q.lo.toNat := by
    rw [← hc, add_half_toNat, toNat_ofUInt64]
    omega
  have hd' : d.toNat = c.toNat + r.lo.toNat := by
    rw [← hd, add_half_toNat]
    omega
  have he' : e.toNat = d.hi.toNat + q.hi.toNat := by
    rw [← he, add_half_toNat, toNat_ofUInt64]
    omega
  have hf' : f.toNat = e.toNat + r.hi.toNat := by
    rw [← hf, add_half_toNat]
    omega
  have hg' : g.toNat = f.toNat + p.lo.toNat := by
    rw [← hg, add_half_toNat]
    omega
  clear hs hr hq hp hc hd he hf hg
  have hproduct := mul_toNat_halves a b
  rw [Nat.add_mul, ← hs', ← hr', ← hq', ← hp'] at hproduct
  have hlt : a.toNat * b.toNat < 2 ^ 128 * 2 ^ 128 := Nat.mul_lt_mul'' a.toNat_lt b.toNat_lt
  change (⟨g.hi + p.hi, g.lo⟩ : Uint128).toNat * 2 ^ 128 + (⟨d.lo, s.lo⟩ : Uint128).toNat = _
  rw [hproduct] at hlt ⊢
  clear hproduct hs' hr' hq' hp'
  simp only [Uint128.toNat] at *
  have hcarry : (g.hi + p.hi).toNat = g.hi.toNat + p.hi.toNat := by
    rw [BitVec.toNat_add, Nat.mod_eq_of_lt]
    omega
  rw [hcarry]
  linear_combination 2 ^ 128 * hg' + 2 ^ 128 * hf' + 2 ^ 128 * he' + 2 ^ 64 * hd' + 2 ^ 64 * hc'

end Wasmlib
