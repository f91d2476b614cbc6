import WasmCdt.Core.Exec

/-!
# Account ids

`core/regid.hpp`: a 44-bit height and a 20-bit index in one word, and the text `height-index`.
-/

namespace Wasmlib

structure Regid where
  value : BitVec 64
  deriving DecidableEq, Repr

namespace Regid

/-- The constructor from a string that a NUL ends. -/
def ofText (str : Text) : Exec Regid := do
  let pos := str.find '-'
  -- `pos` is unsigned, and `npos` without a `-`
  check (pos ≠ some 0) "'-' must be between two numbers, ex. '999-80'"
  -- `data()` of a `string_view` does not end where the view does
  let height := BitVec.ofInt 64 (Text.atoi str)
  let index := BitVec.ofInt 64 (Text.atoi (match pos with
    | some p => str.drop (p + 1)
    | none => str))
  pure ⟨(height <<< 20) + index⟩

def toStr (r : Regid) : Text :=
  let height := r.value >>> 20
  let index := r.value &&& 0xFFFFF
  Text.decimal height.toInt ++ '-' :: Text.decimal index.toInt

end Regid

end Wasmlib
