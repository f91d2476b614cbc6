import WasmCdt.Core.Exec

/-!
# Names

`core/name.hpp`: a name is a 64-bit word of twelve groups of five bits and one of four, from the
high end, and is written with a character for each group up to the last that is not zero.
-/

namespace Wasmlib

def charToSymbol (c : Char) : BitVec 64 :=
  if 'a' ≤ c ∧ c ≤ 'z' then BitVec.ofNat 64 (c.toNat - 'a'.toNat + 6)
  else if '1' ≤ c ∧ c ≤ '5' then BitVec.ofNat 64 (c.toNat - '1'.toNat + 1)
  else 0

/-- From character `i` on; a NUL ends the C string. -/
def stringToNameLoop : Nat → Text → BitVec 64 → BitVec 64
  | _, [], name => name
  | i, c :: str, name =>
    if c = '\x00' then name
    else if i < 12 then
      stringToNameLoop (i + 1) str (name ||| ((charToSymbol c &&& 0x1f) <<< (64 - 5 * (i + 1))))
    else name ||| (charToSymbol c &&& 0x0f)

/-- `string_to_name`. -/
def stringToName (str : Text) : BitVec 64 := stringToNameLoop 0 str 0

/-- `name`. -/
structure Name where
  value : BitVec 64
  deriving DecidableEq

namespace Name

def charToValue (c : Char) : Exec (BitVec 8) :=
  if c = '_' then pure 0
  else if '1' ≤ c ∧ c ≤ '5' then pure (BitVec.ofNat 8 (c.toNat - '1'.toNat + 1))
  else if 'a' ≤ c ∧ c ≤ 'z' then pure (BitVec.ofNat 8 (c.toNat - 'a'.toNat + 6))
  else .error (.abort "character is not in allowed character set for names")

/-- The loop of the constructor. -/
def packLoop : Text → BitVec 64 → Exec (BitVec 64)
  | [], value => pure value
  | c :: str, value => do
    let v ← charToValue c
    packLoop str ((value <<< 5) ||| v.setWidth 64)

/-- The constructor from a `string_view`. -/
def ofString (str : Text) : Exec Name :=
  if 13 < str.length then .error (.abort "string is too long to be a valid name")
  else if str.length = 0 then pure ⟨0⟩
  else do
    let n := min str.length 12
    let value ← packLoop (str.take n) 0
    let value := value <<< (4 + 5 * (12 - n))
    match str[12]? with
    | none => pure ⟨value⟩
    | some c => do
      let v ← charToValue c
      check (v ≤ 0x0f) "thirteenth character in name cannot be a letter that comes after j"
      pure ⟨value ||| v.setWidth 64⟩

def charmap : Text := "_12345abcdefghijklmnopqrstuvwxyz".toList

def mask : BitVec 64 := 0xF800000000000000

/-- The loop of `length`, with `n` characters to go of 13. -/
def lengthLoop : Nat → BitVec 64 → Nat → Nat
  | 0, _, l => l
  | n + 1, v, l => lengthLoop n (v <<< 5) (if v &&& mask > 0 then 12 - n else l)

def length (nm : Name) : Nat := if nm.value = 0 then 0 else lengthLoop 13 nm.value 0 + 1

/-- The loop of `suffix`, with `n` characters to go of 12: `tmp`, and the
`remaining_bits_after_last_actual_dot`. -/
def suffixLoop : Nat → BitVec 64 → Nat → Nat → Nat × Nat
  | 0, _, tmp, last => (tmp, last)
  | n + 1, value, tmp, last =>
    let remainingBits := 5 * n + 4
    let c := (value >>> remainingBits) &&& 0x1f
    if c = 0 then suffixLoop n value remainingBits last else suffixLoop n value tmp tmp

def suffix (nm : Name) : Name :=
  let r := suffixLoop 12 nm.value 0 0
  let thirteenthCharacter := nm.value &&& 0x0f
  let last := if thirteenthCharacter ≠ 0 then r.1 else r.2
  if last = 0 then nm
  else
    let mask := ((1 : BitVec 64) <<< last) - 16
    let shift := 64 - last
    ⟨((nm.value &&& mask) <<< shift) + (thirteenthCharacter <<< (shift - 1))⟩

/-- The loop of `write_as_string`, with `n` characters to go of 13. -/
def writeLoop : Nat → BitVec 64 → Text
  | 0, _ => []
  | n + 1, v =>
    if v = 0 then []
    else
      let indx := (v &&& mask) >>> (if n = 0 then 60 else 59)
      charmap.getD indx.toNat '_' :: writeLoop n (v <<< 5)

/-- `to_string`; its buffer has the 13 characters that `write_as_string` asks for. -/
def toString (nm : Name) : Text := writeLoop 13 nm.value

end Name

end Wasmlib
