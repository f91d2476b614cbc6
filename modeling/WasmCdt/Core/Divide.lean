import WasmCdt.Core.Exec
import WasmCdt.Core.Uint128
import WasmCdt.Lib.Loop

/-!
# Division of 128-bit words

The template `divide` of `core/uint128.hpp` at `uint128`, and the remainder operators. The outputs are
references that may be those of the inputs. A failed check ends the call where it is: what the objects
hold then is part of the result. The loops have `fuel` rounds.
-/

namespace Wasmlib

/-- The local variables of `divide`. -/
structure Division where
  n : Uint128
  d : Uint128
  x : Uint128
  answer : Uint128
  deriving DecidableEq, Repr

namespace Division

/-- `(n >= d) && (((d >> (bits - 1)) & 1) == 0)`. -/
def aligns (s : Division) : Bool :=
  s.n.ge s.d && ((s.d.shr (.ofInt32 127)).and (.ofInt32 1) = .ofInt32 0)

/-- The body of the first loop. -/
def align (s : Division) : Division :=
  let s := { s with x := .onCopy Objects.shlAssign s.x (.ofInt32 1) }
  { s with d := .onCopy Objects.shlAssign s.d (.ofInt32 1) }

/-- `x != 0`. -/
def divides (s : Division) : Bool := s.x ≠ .ofInt32 0

/-- The body of the second loop. -/
def subtract (s : Division) : Division :=
  let s := if s.n.ge s.d then
      let s := { s with n := .onCopy Objects.subAssign s.n s.d }
      { s with answer := .onCopy Objects.orAssign s.answer s.x }
    else s
  let s := { s with x := .onCopy Objects.shrAssign s.x (.ofInt32 1) }
  { s with d := .onCopy Objects.shrAssign s.d (.ofInt32 1) }

/-- Both loops; `none` is out of fuel. -/
def run (fuel : Nat) (s : Division) : Exec (Option Division) := do
  match ← Loop.run aligns (fun s => .ok s.align) fuel s with
  | none => pure none
  | some s => Loop.run divides (fun s => .ok s.subtract) fuel s

end Division

namespace Objects

variable {R : Type} [DecidableEq R]

def divide (fuel : Nat) (σ : Objects R) (numerator denominator : Operand R) (quotient remainder : R) :
    Exec (Option Unit) × Objects R :=
  if denominator.read σ = .ofInt32 0 then ((check false "divide by zero").map some, σ)
  else
    match Division.run fuel
      { n := numerator.read σ, d := denominator.read σ, x := .ofInt32 1, answer := .ofInt32 0 } with
    | .error e => (.error e, σ)
    | .ok none => (.ok none, σ)
    | .ok (some s) =>
      let σ := σ.assign quotient (.temporary s.answer)
      (.ok (some ()), σ.assign remainder (.temporary s.n))

/-- The objects, and a local variable. -/
def withLocal (σ : Objects R) (v : Uint128) : Objects (Option R) := fun r => r.elim v σ

end Objects

/-- The same operand, where there is a local variable too. -/
def Operand.inner {R : Type} : Operand R → Operand (Option R)
  | object r => .object (some r)
  | temporary v => .temporary v

/-- `operator%=`: `quotient` is a local variable. -/
def Objects.modAssign {R : Type} [DecidableEq R] (fuel : Nat) (σ : Objects R) (this : R)
    (b : Operand R) : Exec (Option Unit) × Objects R :=
  let r := (σ.withLocal ⟨0, 0⟩).divide fuel (.object (some this)) b.inner none (some this)
  (r.1, fun o => r.2 (some o))

/-- `operator%`. -/
def Uint128.mod (fuel : Nat) (l r : Uint128) : Exec (Option Uint128) :=
  let s := Objects.modAssign fuel (fun _ : Unit => l) () (.temporary r)
  s.1.map (·.map fun _ => s.2 ())

end Wasmlib
