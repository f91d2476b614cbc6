import WasmCdt.Core.Exec

/-!
# Assets

`core/symbol.hpp` and `core/asset.hpp`: symbol codes, symbols, and amounts of them, with the
arithmetic and the text form. Amounts are `int64_t`; the 128-bit product of `operator*=` is a
128-bit word.
-/

namespace Wasmlib

/-! ## Symbol codes -/

def validCharacterInSymbolName (c : Char) : Bool :=
  ('0' ≤ c && c ≤ '9') || ('A' ≤ c && c ≤ 'Z') || ('a' ≤ c && c ≤ 'z') ||
    c == '-' || c == '@' || c == '.' || c == '#'

/-- `value & 0xFF` as a character. -/
def lowChar (value : BitVec 64) : Char := Char.ofNat (value &&& 0xff).toNat

/-- A `char` as a `uint64_t`: the byte with its sign. -/
def charWord (c : Char) : BitVec 64 := (BitVec.ofNat 8 c.toNat).signExtend 64

/-- The `for` loop of `string_to_symbol_code`, down from the last of `str`. -/
def stringToSymbolCodeLoop : Text → BitVec 64
  | [] => 0
  | c :: str => (stringToSymbolCodeLoop str <<< 8) ||| charWord c

/-- `string_to_symbol_code`. The loop starts at the NUL that ends the C string. -/
def stringToSymbolCode (str : Text) : BitVec 64 :=
  stringToSymbolCodeLoop (str.takeWhile (· ≠ '\x00') ++ ['\x00'])

structure SymbolCode where
  raw : BitVec 64
  deriving DecidableEq, Repr

/-- The constructor's loop, from the last character. -/
def symbolCodeLoop : Text → Exec (BitVec 64)
  | [] => pure 0
  | c :: str => do
    let value ← symbolCodeLoop str
    check (validCharacterInSymbolName c) "invalid character in symbol name"
    pure ((value <<< 8) ||| BitVec.ofNat 64 c.toNat)

def SymbolCode.ofText (str : Text) : Exec SymbolCode := do
  check (str.length ≤ 7) "string is too long to be a valid symbol_code"
  let value ← symbolCodeLoop str
  pure ⟨value⟩

/-- The `do` loop of `is_valid`, `n` rounds. -/
def zeroTail : Nat → BitVec 64 → Bool
  | 0, _ => true
  | n + 1, sym => if (sym >>> 8) &&& 0xff ≠ 0 then false else zeroTail n (sym >>> 8)

/-- The `for` loop of `is_valid`, with `n` rounds to go. -/
def isValidLoop : Nat → BitVec 64 → Bool
  | 0, _ => true
  | n + 1, sym =>
    if !validCharacterInSymbolName (lowChar sym) then false
    else if (sym >>> 8) &&& 0xff = 0 then zeroTail (n + 1) (sym >>> 8)
    else isValidLoop n (sym >>> 8)

def SymbolCode.isValid (s : SymbolCode) : Bool := isValidLoop 7 s.raw

/-- The loop of `length`. -/
def symbolLengthLoop (sym : BitVec 64) (len : Nat) : Nat :=
  if sym &&& 0xff ≠ 0 ∧ len ≤ 7 then symbolLengthLoop (sym >>> 8) (len + 1) else len
  termination_by 8 - len

def SymbolCode.length (s : SymbolCode) : Nat := symbolLengthLoop s.raw 0

def writeAsString : Nat → BitVec 64 → Text
  | 0, _ => []
  | n + 1, v => if v = 0 then [] else lowChar v :: writeAsString n (v >>> 8)

def SymbolCode.toStr (s : SymbolCode) : Text := writeAsString 7 s.raw

/-! ## Symbols -/

structure Symbol where
  raw : BitVec 64
  deriving DecidableEq, Repr

def maxPrecision : Nat := 18

/-- `symbol(string_view, uint8_t)`. -/
def Symbol.ofText (ss : Text) (precision : BitVec 8) : Exec Symbol := do
  let code ← SymbolCode.ofText ss
  check (precision.toNat ≤ maxPrecision) "precision should be <= 18"
  pure ⟨(code.raw <<< 8) ||| precision.setWidth 64⟩

def Symbol.precision (s : Symbol) : Nat := (s.raw &&& 0xff).toNat

def Symbol.code (s : Symbol) : SymbolCode := ⟨s.raw >>> 8⟩

def Symbol.isValid (s : Symbol) : Bool := s.code.isValid && s.precision ≤ maxPrecision

/-- `p10 *= 10`, `p` times, as a `uint64_t`. -/
def precisionLoop : Nat → BitVec 64 → BitVec 64
  | 0, p10 => p10
  | p + 1, p10 => precisionLoop p (p10 * 10)

def Symbol.precisionIn10 (s : Symbol) : Exec (BitVec 64) := do
  check (s.precision ≤ maxPrecision) "precision should be <= 18"
  pure (precisionLoop s.precision 1)

/-- `symbol::to_string`, `n` calls deep; `none` where it is still running. In the class,
`to_string(precision())` is this member again, with the precision as its `bool`. -/
def Symbol.toStr (s : Symbol) : Nat → Bool → Option Text
  | 0, _ => none
  | n + 1, showPrecision =>
    let str := if showPrecision then (s.toStr n (s.precision ≠ 0)).map (· ++ [',']) else some []
    str.map (· ++ s.code.toStr)

/-- `symbol::from_string`. -/
def Symbol.fromString (fromStr : Text) : Exec Symbol := do
  let s := trim fromStr
  check (s ≠ []) "creating symbol from empty string"
  let commaPos := s.find ','
  check commaPos.isSome "missing comma in symbol. eg. 8,WICC"
  let commaPos := commaPos.getD 0
  let precPart := s.substr 0 commaPos
  let p := BitVec.ofInt 8 (Text.atoi precPart)
  let namePart := s.drop (commaPos + 1)
  check (p.toNat ≤ maxPrecision) "precision should be <= 18"
  Symbol.ofText namePart p

/-! ## Assets -/

structure Asset where
  amount : SInt 64
  symbol : Symbol
  deriving DecidableEq

def maxAmount : Int := 2 ^ 62 - 1

namespace Asset

def isAmountWithinRange (a : Asset) : Bool := -maxAmount ≤ a.amount.val && a.amount.val ≤ maxAmount

def isValid (a : Asset) : Bool := a.isAmountWithinRange && a.symbol.isValid

/-- The checked constructor. -/
def new (a : SInt 64) (s : Symbol) : Exec Asset := do
  let r : Asset := ⟨a, s⟩
  check r.isAmountWithinRange "magnitude of asset amount must be less than 2^62"
  check s.isValid "invalid symbol name"
  pure r

def setAmount (self : Asset) (a : SInt 64) : Exec Asset := do
  let r : Asset := { self with amount := a }
  check r.isAmountWithinRange "magnitude of asset amount must be less than 2^62"
  pure r

/-- `operator-()`. -/
def neg (self : Asset) : Exec Asset := do
  let amount ← defined self.amount.neg
  pure { self with amount := amount }

/-- `operator-=`. -/
def subAssign (self a : Asset) : Exec Asset := do
  check (a.symbol = self.symbol) "attempt to subtract asset with different symbol"
  let amount ← defined (self.amount.sub a.amount)
  check (-maxAmount ≤ amount.val) "subtraction underflow"
  check (amount.val ≤ maxAmount) "subtraction overflow"
  pure { self with amount := amount }

/-- `operator+=`. -/
def addAssign (self a : Asset) : Exec Asset := do
  check (a.symbol = self.symbol) "attempt to add asset with different symbol"
  let amount ← defined (self.amount.add a.amount)
  check (-maxAmount ≤ amount.val) "addition underflow"
  check (amount.val ≤ maxAmount) "addition overflow"
  pure { self with amount := amount }

/-- `operator+`. -/
def add (a b : Asset) : Exec Asset := a.addAssign b

/-- `operator-` of two assets. -/
def sub (a b : Asset) : Exec Asset := a.subAssign b

/-- `operator*=`. The product is an `int128_t`. -/
def mulAssign (self : Asset) (a : SInt 64) : Exec Asset := do
  let tmp ← defined ((self.amount.extend (v := 128) (by decide)).mul
    (a.extend (v := 128) (by decide)))
  check (tmp.val ≤ maxAmount) "multiplication overflow"
  check (tmp.val ≥ -maxAmount) "multiplication underflow"
  pure { self with amount := SInt.wrap 64 (by decide) tmp.val }

/-- `operator*`, with the number after or before. -/
def mul (a : Asset) (b : SInt 64) : Exec Asset := a.mulAssign b

/-- `operator/=`. -/
def divAssign (self : Asset) (a : SInt 64) : Exec Asset := do
  check (a.val ≠ 0) "divide by zero"
  check (¬(self.amount.val = -2 ^ 63 ∧ a.val = -1)) "signed division overflow"
  let amount ← defined (self.amount.div a)
  pure { self with amount := amount }

/-- `operator/` by a number. -/
def div (a : Asset) (b : SInt 64) : Exec Asset := a.divAssign b

/-- `operator/` by an asset. -/
def divAsset (a b : Asset) : Exec (SInt 64) := do
  check (b.amount.val ≠ 0) "divide by zero"
  check (a.symbol = b.symbol) "comparison of assets with different symbols is not allowed"
  defined (a.amount.div b.amount)

/-! ## Text -/

def ten : SInt 64 := ⟨10, by decide⟩

/-- `p10 *= 10`, `p` times, as an `int64_t`. -/
def pow10Loop : Nat → SInt 64 → Exec (SInt 64)
  | 0, p10 => pure p10
  | p + 1, p10 => do
    let p10 ← defined (p10.mul ten)
    pow10Loop p p10

/-- The characters of `fraction` before `str`, from the last: `p` digits of `change`. -/
def fractionLoop : Nat → Int → Text → Text
  | 0, _, str => str
  | p + 1, change, str =>
    fractionLoop p (change.tdiv 10) (Char.ofNat ('0'.toNat + (change.tmod 10).toNat) :: str)

/-- `snprintf` into a buffer of `n` bytes. -/
def snprintf (n : Nat) (text : Text) : Text := text.take (n - 1)

def toStr (a : Asset) : Exec Text := do
  let p := a.symbol.precision
  let p10 ← pow10Loop p ⟨1, by decide⟩
  let invert : SInt 64 := if a.amount.val < 0 then ⟨-1, by decide⟩ else ⟨1, by decide⟩
  let rem ← defined (a.amount.mod p10)
  let change ← defined (rem.mul invert)
  let fraction := fractionLoop p change.val []
  let whole ← defined (a.amount.div p10)
  pure <| snprintf (p + 32) <|
    Text.decimal whole.val ++ (if fraction ≠ [] then ['.'] else []) ++ fraction ++
      ' ' :: a.symbol.code.toStr

/-- `string::npos`, of a 32-bit `size_t`. -/
def npos : Nat := 2 ^ 32 - 1

def fromString (fromStr : Text) : Exec Asset := do
  let s := trim fromStr
  let spacePos := s.find ' '
  check spacePos.isSome
    "Asset's amount and symbol should be separated with space. ex. 98.00000000 WICC"
  let spacePos := spacePos.getD npos
  let symbolStr := trim (s.drop (spacePos + 1))
  let amountStr := s.substr 0 spacePos
  let dotPos := amountStr.find '.'
  check (dotPos ≠ some (amountStr.length - 1))
    "Missing decimal fraction after decimal point. ex. 98.00000000 WICC"
  -- the precision is a `uint8_t`, also where `dot_pos` is `npos`
  let sym ← Symbol.ofText symbolStr
    (BitVec.ofInt 8 ((amountStr.length : Int) - (dotPos.getD npos : Nat) - 1))
  let intPart := match dotPos with
    | some p => Text.atoi (amountStr.substr 0 p)
    | none => Text.atoi amountStr
  let fractPart := match dotPos with
    | some p =>
      if amountStr.head? = some '-' then -Text.atoi (amountStr.drop (p + 1))
      else Text.atoi (amountStr.drop (p + 1))
    | none => 0
  let p10 ← sym.precisionIn10
  -- an `int64_t` times a `uint64_t`
  let amount := SInt.wrap 64 (by decide) (intPart * p10.toNat)
  let amount ← defined (SInt.ofInt? 64 (amount.val + fractPart))
  new amount sym

end Asset

end Wasmlib
