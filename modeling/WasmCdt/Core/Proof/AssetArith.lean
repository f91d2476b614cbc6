import WasmCdt.Core.Asset
import Mathlib.Tactic.Linarith

/-!
# Asset arithmetic is exact

Programs over assets (`Op`, `run`), with the amounts an ideal calculation would give beside them
(`Op.value`). An amount in range keeps every intermediate inside its machine word, so that no
operation overflows before its check (`exec_exact`), and every operation leaves an amount in range:

* `run_exact`: from assets of the checked constructor a run never faults, and in every state it
  reaches each operation aborts or gives the exact result.
-/

namespace Wasmlib

/-! ## Programs -/

/-- The assets of a program, by variable. -/
abbrev Store := Nat → Asset

/-- An operation; `d` is the variable assigned. -/
inductive Op
  | new (d : Nat) (a : SInt 64) (s : Symbol)
  | setAmount (d : Nat) (a : SInt 64)
  | neg (d i : Nat)
  | addAssign (d i : Nat)
  | subAssign (d i : Nat)
  | mulAssign (d : Nat) (a : SInt 64)
  | divAssign (d : Nat) (a : SInt 64)
  | add (d i j : Nat)
  | sub (d i j : Nat)
  | mul (d i : Nat) (a : SInt 64)
  | div (d i : Nat) (a : SInt 64)
  | divAsset (i j : Nat)

inductive Outcome
  | asset (d : Nat) (a : Asset)
  | number (q : SInt 64)

namespace Op

def exec (σ : Store) : Op → Exec Outcome
  | new d a s => (Asset.new a s).map (.asset d)
  | setAmount d a => ((σ d).setAmount a).map (.asset d)
  | neg d i => (σ i).neg.map (.asset d)
  | addAssign d i => ((σ d).addAssign (σ i)).map (.asset d)
  | subAssign d i => ((σ d).subAssign (σ i)).map (.asset d)
  | mulAssign d a => ((σ d).mulAssign a).map (.asset d)
  | divAssign d a => ((σ d).divAssign a).map (.asset d)
  | add d i j => ((σ i).add (σ j)).map (.asset d)
  | sub d i j => ((σ i).sub (σ j)).map (.asset d)
  | mul d i a => ((σ i).mul a).map (.asset d)
  | div d i a => ((σ i).div a).map (.asset d)
  | divAsset i j => ((σ i).divAsset (σ j)).map .number

/-- The result over the integers. -/
def value (σ : Store) : Op → Int
  | new _ a _ => a.val
  | setAmount _ a => a.val
  | neg _ i => -(σ i).amount.val
  | addAssign d i => (σ d).amount.val + (σ i).amount.val
  | subAssign d i => (σ d).amount.val - (σ i).amount.val
  | mulAssign d a => (σ d).amount.val * a.val
  | divAssign d a => (σ d).amount.val.tdiv a.val
  | add _ i j => (σ i).amount.val + (σ j).amount.val
  | sub _ i j => (σ i).amount.val - (σ j).amount.val
  | mul _ i a => (σ i).amount.val * a.val
  | div _ i a => (σ i).amount.val.tdiv a.val
  | divAsset i j => (σ i).amount.val.tdiv (σ j).amount.val

/-- The variable assigned, and the symbol its asset is to have. -/
def target (σ : Store) : Op → Option (Nat × Symbol)
  | new d _ s => some (d, s)
  | setAmount d _ => some (d, (σ d).symbol)
  | neg d i => some (d, (σ i).symbol)
  | addAssign d _ | subAssign d _ | mulAssign d _ | divAssign d _ => some (d, (σ d).symbol)
  | add d i _ | sub d i _ | mul d i _ | div d i _ => some (d, (σ i).symbol)
  | divAsset _ _ => none

end Op

def step (σ : Store) (op : Op) : Exec Store := do
  match ← op.exec σ with
  | .asset d a => pure (Function.update σ d a)
  | .number _ => pure σ

def run : List Op → Store → Exec Store
  | [], σ => pure σ
  | op :: ops, σ => do
    let σ ← step σ op
    run ops σ

/-! ## One operation -/

def Asset.InRange (a : Asset) : Prop := |a.amount.val| ≤ maxAmount

theorem isAmountWithinRange_iff {a : Asset} : a.isAmountWithinRange = true ↔ a.InRange := by
  simp [Asset.isAmountWithinRange, Asset.InRange, abs_le]

/-- The computation aborts, or gives the asset of `v` and `s` with `v` in range. -/
def Yields (x : Exec Asset) (v : Int) (s : Symbol) : Prop :=
  match x with
  | .error (.abort _) => True
  | .error .fault => False
  | .ok r => r.amount.val = v ∧ r.symbol = s ∧ r.InRange

theorem Yields.check {p : Bool} {msg : String} {f : Unit → Exec Asset} {v : Int} {s : Symbol}
    (h : p = true → Yields (f ()) v s) : Yields (check p msg >>= f) v s := by
  rw [check_bind]
  cases p with
  | true => exact h rfl
  | false => trivial

section
variable {a b : Asset}

theorem new_yields (x : SInt 64) (s : Symbol) : Yields (Asset.new x s) x.val s := by
  refine .check fun h => .check fun _ => ?_
  exact ⟨rfl, rfl, isAmountWithinRange_iff.1 h⟩

theorem setAmount_yields (a : Asset) (x : SInt 64) : Yields (a.setAmount x) x.val a.symbol := by
  refine .check fun h => ?_
  exact ⟨rfl, rfl, isAmountWithinRange_iff.1 h⟩

theorem neg_yields (ha : a.InRange) : Yields a.neg (-a.amount.val) a.symbol := by
  have hneg : |(-a.amount.val)| ≤ maxAmount := by rwa [abs_neg]
  rw [Asset.neg, SInt.neg, SInt.ofInt?_of_inRange (SInt.inRange_of_abs_le hneg (by decide))]
  exact ⟨rfl, rfl, hneg⟩

theorem addAssign_yields (ha : a.InRange) (hb : b.InRange) :
    Yields (a.addAssign b) (a.amount.val + b.amount.val) a.symbol := by
  -- the sum of two amounts in range is below 2^63
  have hsum : |a.amount.val + b.amount.val| ≤ 2 * maxAmount := by
    have := abs_add_le a.amount.val b.amount.val
    unfold Asset.InRange at ha hb
    omega
  refine .check fun _ => ?_
  rw [SInt.add, SInt.ofInt?_of_inRange (SInt.inRange_of_abs_le hsum (by decide))]
  refine .check fun h1 => .check fun h2 => ⟨rfl, rfl, ?_⟩
  exact abs_le.2 ⟨of_decide_eq_true h1, of_decide_eq_true h2⟩

theorem subAssign_yields (ha : a.InRange) (hb : b.InRange) :
    Yields (a.subAssign b) (a.amount.val - b.amount.val) a.symbol := by
  have hsub : |a.amount.val - b.amount.val| ≤ 2 * maxAmount := by
    have := abs_sub a.amount.val b.amount.val
    unfold Asset.InRange at ha hb
    omega
  refine .check fun _ => ?_
  rw [SInt.sub, SInt.ofInt?_of_inRange (SInt.inRange_of_abs_le hsub (by decide))]
  refine .check fun h1 => .check fun h2 => ⟨rfl, rfl, ?_⟩
  exact abs_le.2 ⟨of_decide_eq_true h1, of_decide_eq_true h2⟩

theorem mulAssign_yields (ha : a.InRange) (x : SInt 64) :
    Yields (a.mulAssign x) (a.amount.val * x.val) a.symbol := by
  -- a 62-bit times a 63-bit magnitude fits the 128-bit product
  have hprod : |a.amount.val * x.val| ≤ maxAmount * 2 ^ 63 := by
    rw [abs_mul]
    have hx : |x.val| ≤ 2 ^ 63 := abs_le.2 ⟨x.inRange.1, x.inRange.2.le⟩
    exact mul_le_mul ha hx (abs_nonneg _) (by decide)
  rw [Asset.mulAssign, SInt.mul]
  change Yields (defined (SInt.ofInt? 128 (a.amount.val * x.val)) >>= _) _ _
  rw [SInt.ofInt?_of_inRange (SInt.inRange_of_abs_le hprod (by decide))]
  refine .check fun h1 => .check fun h2 => ?_
  have hr : |a.amount.val * x.val| ≤ maxAmount :=
    abs_le.2 ⟨of_decide_eq_true h2, of_decide_eq_true h1⟩
  have hw : (SInt.wrap 64 (by decide) (a.amount.val * x.val)).val = a.amount.val * x.val :=
    SInt.bmod_of_inRange (by decide) (SInt.inRange_of_abs_le hr (by decide))
  exact ⟨hw, rfl, by unfold Asset.InRange; rwa [hw]⟩

/-- A quotient of an amount in range is in range. -/
theorem div_eq (ha : a.InRange) {x : SInt 64} (hx : x.val ≠ 0) :
    ∃ q : SInt 64, a.amount.div x = some q ∧ q.val = a.amount.val.tdiv x.val ∧
      |q.val| ≤ maxAmount := by
  have hq : |a.amount.val.tdiv x.val| ≤ maxAmount := (SInt.abs_tdiv_le _ _).trans ha
  refine ⟨⟨_, SInt.inRange_of_abs_le hq (by decide)⟩, ?_, rfl, hq⟩
  rw [SInt.div, if_neg hx, SInt.ofInt?_of_inRange]

theorem divAssign_yields (ha : a.InRange) (x : SInt 64) :
    Yields (a.divAssign x) (a.amount.val.tdiv x.val) a.symbol := by
  refine .check fun h => .check fun _ => ?_
  obtain ⟨q, hq, hval, hr⟩ := div_eq ha (of_decide_eq_true h)
  rw [hq]
  exact ⟨hval, rfl, hr⟩

end

/-! ## Runs -/

/-- What an operation may do in `σ`: abort, or give its exact result. -/
def Exact (σ : Store) (op : Op) : Exec Outcome → Prop
  | .error (.abort _) => True
  | .error .fault => False
  | .ok (.asset d a) => op.target σ = some (d, a.symbol) ∧ a.amount.val = op.value σ ∧ a.InRange
  | .ok (.number q) => op.target σ = none ∧ q.val = op.value σ

theorem Yields.exact {σ : Store} {op : Op} {x : Exec Asset} {d : Nat} {v : Int} {s : Symbol}
    (h : Yields x v s) (htarget : op.target σ = some (d, s)) (hvalue : op.value σ = v) :
    Exact σ op (x.map (.asset d)) := by
  match x with
  | .error (.abort _) => trivial
  | .ok r =>
    obtain ⟨hv, rfl, hr⟩ := h
    exact ⟨htarget, hv.trans hvalue.symm, hr⟩

/-- **One operation is exact** where the amounts are in range. -/
theorem exec_exact {σ : Store} (hσ : ∀ i, (σ i).InRange) (op : Op) : Exact σ op (op.exec σ) := by
  cases op with
  | new d x s => exact (new_yields x s).exact rfl rfl
  | setAmount d x => exact (setAmount_yields (σ d) x).exact rfl rfl
  | neg d i => exact (neg_yields (hσ i)).exact rfl rfl
  | addAssign d i => exact (addAssign_yields (hσ d) (hσ i)).exact rfl rfl
  | subAssign d i => exact (subAssign_yields (hσ d) (hσ i)).exact rfl rfl
  | mulAssign d x => exact (mulAssign_yields (hσ d) x).exact rfl rfl
  | divAssign d x => exact (divAssign_yields (hσ d) x).exact rfl rfl
  | add d i j => exact (addAssign_yields (hσ i) (hσ j)).exact rfl rfl
  | sub d i j => exact (subAssign_yields (hσ i) (hσ j)).exact rfl rfl
  | mul d i x => exact (mulAssign_yields (hσ i) x).exact rfl rfl
  | div d i x => exact (divAssign_yields (hσ i) x).exact rfl rfl
  | divAsset i j =>
    simp only [Op.exec, Asset.divAsset, check_bind]
    split
    · rename_i h0
      split
      · obtain ⟨q, hq, hval, -⟩ := div_eq (hσ i) (of_decide_eq_true h0)
        rw [hq]
        exact ⟨rfl, hval⟩
      · trivial
    · trivial

theorem step_inRange {σ σ' : Store} (hσ : ∀ i, (σ i).InRange) {op : Op}
    (h : step σ op = .ok σ') (i : Nat) : (σ' i).InRange := by
  have hexact := exec_exact hσ op
  obtain ⟨out, hout, h⟩ := bind_eq_ok h
  rw [hout] at hexact
  cases out with
  | number q =>
    cases h
    exact hσ i
  | asset d a =>
    cases h
    rcases eq_or_ne i d with rfl | hne
    · rw [Function.update_self]
      exact hexact.2.2
    · rw [Function.update_of_ne hne]
      exact hσ i

theorem step_no_fault {σ : Store} (hσ : ∀ i, (σ i).InRange) (op : Op) :
    step σ op ≠ .error .fault := by
  have hexact := exec_exact hσ op
  intro h
  unfold step at h
  cases hx : op.exec σ with
  | error e =>
    rw [hx] at h hexact
    cases h
    exact hexact
  | ok out =>
    rw [hx] at h
    cases out <;> cases h

theorem run_inRange : ∀ {ops : List Op} {σ : Store}, (∀ i, (σ i).InRange) →
    run ops σ ≠ .error .fault ∧ ∀ σ', run ops σ = .ok σ' → ∀ i, (σ' i).InRange
  | [], σ, hσ => ⟨nofun, fun σ' h => by cases h; exact hσ⟩
  | op :: ops, σ, hσ => by
    rw [run]
    cases hstep : step σ op with
    | error e =>
      refine ⟨fun h => step_no_fault hσ op ?_, nofun⟩
      rw [hstep]
      exact h
    | ok σ₁ => exact run_inRange (step_inRange hσ hstep)

/-- **Runs from checked assets are exact.** -/
theorem run_exact {σ : Store} (hσ : ∀ i, ∃ a s, Asset.new a s = .ok (σ i)) (ops : List Op) :
    run ops σ ≠ .error .fault ∧ ∀ σ', run ops σ = .ok σ' →
      (∀ i, |(σ' i).amount.val| ≤ maxAmount) ∧ ∀ op, Exact σ' op (op.exec σ') := by
  have hin : ∀ i, (σ i).InRange := by
    intro i
    obtain ⟨a, s, h⟩ := hσ i
    have := new_yields a s
    rw [h] at this
    exact this.2.2
  obtain ⟨hfault, hrun⟩ := run_inRange hin
  exact ⟨hfault, fun σ' h => ⟨hrun σ' h, exec_exact (hrun σ' h)⟩⟩

/-- Two units of `A`, tripled. -/
theorem run_exact_mul : ∃ σ',
    run [.mulAssign 0 ⟨3, by decide⟩] (fun _ => ⟨⟨2, by decide⟩, ⟨0x4100⟩⟩) = .ok σ' ∧
      |(σ' 0).amount.val| ≤ maxAmount := by
  have hok : run [.mulAssign 0 ⟨3, by decide⟩] (fun _ => ⟨⟨2, by decide⟩, ⟨0x4100⟩⟩) =
      .ok (Function.update (fun _ => ⟨⟨2, by decide⟩, ⟨0x4100⟩⟩) 0 ⟨⟨6, by decide⟩, ⟨0x4100⟩⟩) := rfl
  obtain ⟨-, h⟩ := run_exact (σ := fun _ => ⟨⟨2, by decide⟩, ⟨0x4100⟩⟩)
    (fun _ => ⟨⟨2, by decide⟩, ⟨0x4100⟩, by decide⟩) [.mulAssign 0 ⟨3, by decide⟩]
  exact ⟨_, hok, (h _ hok).1 0⟩

end Wasmlib
