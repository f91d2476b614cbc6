import WasmCdt.Core.Proof.Divide

/-!
# Binary operators

Each binary operator applies a compound one to a copy of its left operand, so that the two agree; but
`operator|` assigns. `operators_agree_iff`: where its result is the right one all the same.
-/

namespace Wasmlib

open Uint128

/-- The remainder operators' local variable is out of reach. -/
theorem Operand.read_inner {R : Type} (u : Operand R) (σ : Objects R) (v : Uint128) :
    u.inner.read (σ.withLocal v) = u.read σ := by
  cases u with
  | object r => rfl
  | temporary w => rfl

namespace Objects

variable {R : Type} [DecidableEq R] (σ : Objects R) (this : R) (u : Operand R)

theorem modAssign_eq {fuel : Nat} (hfuel : 128 ≤ fuel) (hd : (u.read σ).toNat ≠ 0) :
    σ.modAssign fuel this u = (.ok (some ()),
      Function.update σ this (.ofNat ((σ this).toNat % (u.read σ).toNat))) := by
  have hread : (u.inner.read (σ.withLocal ⟨0, 0⟩)).toNat ≠ 0 := by rwa [u.read_inner]
  unfold modAssign
  rw [divide_eq _ _ _ _ _ hfuel hread, u.read_inner]
  refine Prod.ext rfl (funext fun o => ?_)
  change Function.update (Function.update (σ.withLocal ⟨0, 0⟩) none _) (some this) _ (some o) =
    Function.update σ this _ o
  rcases eq_or_ne o this with heq | hne
  · rw [heq, Function.update_self, Function.update_self]
    rfl
  · rw [Function.update_of_ne hne, Function.update_of_ne (by simpa using hne)]
    rfl

theorem mod_eq {fuel : Nat} (hfuel : 128 ≤ fuel) {a b : Uint128} (hb : b.toNat ≠ 0) :
    a.mod fuel b = .ok (some (.ofNat (a.toNat % b.toNat))) := by
  unfold Uint128.mod
  rw [modAssign_eq (fun _ : Unit => a) () (.temporary b) hfuel hb]
  rfl

end Objects

/-- The binary operator returns what the compound one leaves in any object that holds the left operand,
also where that object is the right operand. -/
def Agrees (binary : Uint128 → Uint128 → Uint128)
    (compound : {R : Type} → [DecidableEq R] → Objects R → R → Operand R → Objects R)
    (a b : Uint128) : Prop :=
  ∀ (R : Type) [DecidableEq R] (σ : Objects R) (this : R) (u : Operand R), σ this = a →
    u.read σ = b → binary a b = compound σ this u this

/-- The binary operators on two values agree with the compound ones, and those on bits are what their
names say. -/
structure OperatorsAgree (a b : Uint128) : Prop where
  add : Agrees Uint128.add Objects.addAssign a b
  sub : Agrees Uint128.sub Objects.subAssign a b
  mul : Agrees Uint128.mul Objects.mulAssign a b
  mod : b.toNat ≠ 0 → ∀ (R : Type) [DecidableEq R] (σ : Objects R) (this : R) (u : Operand R),
    σ this = a → u.read σ = b → ∀ fuel ≥ 128, ∃ σ',
      σ.modAssign fuel this u = (.ok (some ()), σ') ∧ a.mod fuel b = .ok (some (σ' this))
  or : Agrees Uint128.or Objects.orAssign a b
  and : Agrees Uint128.and Objects.andAssign a b
  xor : Agrees Uint128.xor Objects.xorAssign a b
  shl : Agrees Uint128.shl Objects.shlAssign a b
  shr : Agrees Uint128.shr Objects.shrAssign a b
  or_bits : (a.or b).bits = a.bits ||| b.bits
  and_bits : (a.and b).bits = a.bits &&& b.bits
  xor_bits : (a.xor b).bits = a.bits ^^^ b.bits

/-- An operator on 128-bit words agrees with itself on a copy. -/
theorem agrees_of_eq (f : BitVec 128 → BitVec 128 → BitVec 128)
    {compound : {R : Type} → [DecidableEq R] → Objects R → R → Operand R → Objects R}
    (h : ∀ (R : Type) [DecidableEq R] (σ : Objects R) (this : R) (u : Operand R),
      compound σ this u = Function.update σ this (ofBits (f (σ this).bits (u.read σ).bits)))
    (a b : Uint128) : Agrees (onCopy compound) compound a b := by
  intro R _ σ this u ha hb
  change onCopy compound a b = compound σ this u this
  rw [onCopy, h, h, Function.update_self, Function.update_self, ha, hb]
  rfl

/-- `operator|` returns its right operand. -/
theorem or_eq_right (a b : Uint128) : a.or b = b := rfl

theorem or_eq_right_iff (x y : BitVec 128) : y = x ||| y ↔ x &&& y = x := by
  have hbit : ∀ p q : Bool, q = (p || q) ↔ (p && q) = p := by decide
  constructor
  · intro h
    apply BitVec.eq_of_getLsbD_eq
    intro i _
    rw [BitVec.getLsbD_and, ← hbit, ← BitVec.getLsbD_or, ← h]
  · intro h
    apply BitVec.eq_of_getLsbD_eq
    intro i _
    rw [BitVec.getLsbD_or, hbit, ← BitVec.getLsbD_and, h]

/-- **Where the binary operators agree with the compound ones**: where the bits of the left operand
are all bits of the right one. -/
theorem operators_agree_iff (a b : Uint128) : OperatorsAgree a b ↔ a.bits &&& b.bits = a.bits := by
  constructor
  · intro h
    exact (or_eq_right_iff a.bits b.bits).1 h.or_bits
  · intro h
    have hor : b.bits = a.bits ||| b.bits := (or_eq_right_iff a.bits b.bits).2 h
    constructor
    · exact agrees_of_eq (· + ·) (fun R _ σ this u => σ.addAssign_eq this u) a b
    · exact agrees_of_eq (· - ·) (fun R _ σ this u => σ.subAssign_eq this u) a b
    · exact agrees_of_eq (· * ·) (fun R _ σ this u => σ.mulAssign_eq this u) a b
    · intro hb R _ σ this u hthis hu fuel hfuel
      refine ⟨_, σ.modAssign_eq this u hfuel (by rwa [hu]), ?_⟩
      rw [Objects.mod_eq hfuel hb, Function.update_self, hthis, hu]
    · intro R _ σ this u hthis hu
      change a.or b = σ.orAssign this u this
      rw [or_eq_right, σ.orAssign_eq, Function.update_self, hthis, hu, ← hor, ofBits_bits]
    · exact agrees_of_eq (· &&& ·) (fun R _ σ this u => σ.andAssign_eq this u) a b
    · exact agrees_of_eq (· ^^^ ·) (fun R _ σ this u => σ.xorAssign_eq this u) a b
    · exact agrees_of_eq (fun x y => x <<< y.toNat)
        (fun R _ σ this u => by rw [σ.shlAssign_eq, toNat_bits]) a b
    · exact agrees_of_eq (fun x y => x >>> y.toNat)
        (fun R _ σ this u => by rw [σ.shrAssign_eq, toNat_bits]) a b
    · exact hor
    · rw [Uint128.and, onCopy_eq a b (Objects.andAssign_eq _ _ _), bits_ofBits]
      rfl
    · rw [Uint128.xor, onCopy_eq a b (Objects.xorAssign_eq _ _ _), bits_ofBits]
      rfl

/-- `1 | 2` is 2. -/
theorem or_one_two : (⟨0, 1⟩ : Uint128).or ⟨0, 2⟩ = ⟨0, 2⟩ ∧
    Objects.orAssign (fun _ : Unit => ⟨0, 1⟩) () (.temporary ⟨0, 2⟩) () = ⟨0, 3⟩ ∧
    ¬OperatorsAgree ⟨0, 1⟩ ⟨0, 2⟩ := by
  refine ⟨rfl, rfl, fun h => ?_⟩
  have hbits := h.or_bits
  exact absurd hbits (by decide)

end Wasmlib
