import WasmCdt.Core.Exec

/-!
# 256-bit hashes

`core/hash256.hpp`: the hash, its constructor from a text, and `to_string`. The constructor looks at
`str[0]` and `str[1]` before it knows the size: what lies behind a shorter view is the parameter
`past`.
-/

namespace Wasmlib

structure Hash256 where
  value : Vector (BitVec 8) 32
  deriving DecidableEq

namespace Hash256

/-- The `hex` map of the constructor. -/
def hexMap : List (Char × BitVec 8) :=
  [('0', 0x00), ('1', 0x01), ('2', 0x02), ('3', 0x03), ('4', 0x04), ('5', 0x05), ('6', 0x06),
    ('7', 0x07), ('8', 0x08), ('9', 0x09), ('a', 0x0a), ('b', 0x0b), ('c', 0x0c), ('d', 0x0d),
    ('e', 0x0e), ('f', 0x0f)]

/-- `hex[c]`: `operator[]` of the map enters a zero for a key it does not have. -/
def hexValue (c : Char) : BitVec 8 := (hexMap.lookup c).getD 0

/-- The loop of the constructor. -/
def digest (str : Text) : Hash256 :=
  ⟨Vector.ofFn fun i : Fin 32 =>
    let h := hexValue (str.getD (str.length - 2 * (i + 1)) '\x00')
    let l := hexValue (str.getD (str.length - 2 * (i + 1) + 1) '\x00')
    l ||| h <<< 4⟩

/-- `str.substr(2)`. -/
def dropPrefix (str : Text) : Exec Text :=
  if str.length < 2 then .error (.abort "string_view::substr") else pure (str.drop 2)

/-- The constructor from a text. -/
def ofText (past : Nat → Char) (str : Text) : Exec Hash256 := do
  let str ←
    if str.getD 0 (past 0) = '0' ∧ (str.getD 1 (past 1)).toLower = 'x' then dropPrefix str
    else pure str
  check (str.length = 64) "Hex string for hash256 must be 64 bytes"
  pure (digest str)

/-- The `hex` string of `to_string`. -/
def hexDigits : Text := "0123456789abcdef".toList

def hexDigit (x : BitVec 8) : Char := hexDigits.getD x.toNat '\x00'

def toStr (hash : Hash256) : Text :=
  (List.range 32).flatMap fun i =>
    [hexDigit (hash.value[32 - i - 1] >>> 4), hexDigit (hash.value[32 - i - 1] &&& 0xf)]

end Hash256

end Wasmlib
