import WasmCdt.Core.Divide

/-!
# Numerals of 128-bit words

The two conversions of `core/uint128.hpp`: the constructor from a string, and the string of a number,
which is made in a static buffer. The buffer is a parameter and a result.
-/

namespace Wasmlib

/-! ## From a string -/

/-- The number `n` of a character; `none` leaves the loop. -/
def digitOf (radix : Nat) (ch : Char) : Option (BitVec 32) :=
  if 'A' ≤ ch ∧ ch ≤ 'Z' then
    if ch.toNat - 'A'.toNat + 10 < radix then some (BitVec.ofNat 32 (ch.toNat - 'A'.toNat + 10))
    else none
  else if 'a' ≤ ch ∧ ch ≤ 'z' then
    if ch.toNat - 'a'.toNat + 10 < radix then some (BitVec.ofNat 32 (ch.toNat - 'a'.toNat + 10))
    else none
  else if '0' ≤ ch ∧ ch ≤ '9' then
    if ch.toNat - '0'.toNat < radix then some (BitVec.ofNat 32 (ch.toNat - '0'.toNat)) else none
  else none

/-- The loop over the digits. -/
def digitLoop (radix : Nat) : Text → Uint128 → Uint128
  | [], this => this
  | ch :: i, this =>
    match digitOf radix ch with
    | none => this
    | some n =>
      let this := .onCopy Objects.mulAssign this (.ofInt32 (BitVec.ofNat 32 radix))
      digitLoop radix i (.onCopy Objects.addAssign this (.ofUInt32 n))

/-- The number behind the sign: its prefix is that of the radix. -/
def prefixed : Text → Uint128
  | [] => ⟨0, 0⟩
  | '0' :: 'x' :: i => digitLoop 16 i ⟨0, 0⟩
  | '0' :: i => digitLoop 8 i ⟨0, 0⟩
  | i => digitLoop 10 i ⟨0, 0⟩

/-- `uint128(const std::string &)`. -/
def Uint128.ofString : Text → Uint128
  | [] => ⟨0, 0⟩
  | '-' :: i => (prefixed i).neg
  | i => prefixed i

/-! ## To a string -/

/-- The variables that are passed to `divide`. -/
inductive PrintVar
  | ii
  | remainder
  deriving DecidableEq

/-- The variables before the loop. -/
def printVars (v : Uint128) : Objects PrintVar
  | .ii => v
  | .remainder => ⟨0, 0⟩

def digits : Text := "0123456789abcdefghijklmnopqrstuvwxyz".toList

/-- The loop of the conversion, from index `i` down: the last index, and the buffer. -/
def printLoop (fuel : Nat) : Nat → Objects PrintVar → Text → Exec (Option (Nat × Text))
  | 0, _, sz => pure (some (0, sz))
  | i + 1, σ, sz =>
    if σ .ii ≠ .ofInt32 0 then
      let σ := σ.assign .remainder (.temporary ⟨0, 0⟩)
      let r := σ.divide fuel (.object .ii) (.temporary (.ofInt32 10)) .ii .remainder
      match r.1 with
      | .error e => .error e
      | .ok none => pure none
      | .ok (some ()) =>
        let σ := r.2
        printLoop fuel i σ (sz.set i (digits.getD (σ .remainder).toInteger.toNat '\x00'))
    else pure (some (i + 1, sz))

/-- The C string at `&sz[i]`. -/
def cString (sz : Text) (i : Nat) : Text := (sz.drop i).takeWhile (· ≠ '\x00')

/-- `operator std::string`, with the static `sz`: the string, and the buffer left. -/
def Uint128.toText (fuel : Nat) (v : Uint128) (sz : Text) : Exec (Option (Text × Text)) :=
  if v = .ofInt32 0 then pure (some (['0'], sz))
  else do
    let sz := sz.set 128 '\x00'
    let r ← printLoop fuel 127 (printVars v) sz
    pure (r.map fun r => (cString r.2 r.1, r.2))

/-- The buffer before the first call. -/
def staticBuffer : Text := List.replicate 129 '\x00'

/-- A run of conversions. -/
def conversions (fuel : Nat) : List Uint128 → Text → Exec (Option (List Text))
  | [], _ => pure (some [])
  | v :: vs, sz => do
    match ← v.toText fuel sz with
    | none => pure none
    | some r => do
      let texts ← conversions fuel vs r.2
      pure (texts.map (r.1 :: ·))

end Wasmlib
