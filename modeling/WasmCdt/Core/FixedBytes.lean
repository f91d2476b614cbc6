import WasmCdt.Core.Datastream

/-!
# Fixed bytes

`core/fixed_bytes.hpp`: `Size` bytes kept in 128-bit words, big-endian, the bytes that the last word
has too many (its padding) at its low end. The checksums are of this type.
-/

namespace Wasmlib

/-- `word_t`. -/
abbrev Word := BitVec 128

def numWords (size : Nat) : Nat := (size + 16 - 1) / 16

def paddedBytes (size : Nat) : Nat := numWords size * 16 - size

/-- `fixed_bytes<Size>`. -/
abbrev FixedBytes (size : Nat) : Type := List.Vector Word (numWords size)

namespace FixedBytes

/-- The inner loop of `extract_as_byte_array`, which fills the bytes from the last. -/
def wordBytes : Nat → Word → List UInt8
  | 0, _ => []
  | subWordsLeft + 1, tempWord =>
    wordBytes subWordsLeft (tempWord >>> 8) ++ [UInt8.ofNat (tempWord &&& 0xff).toNat]

/-- The outer loop of `extract_as_byte_array`. -/
def extractLoop (padded : Nat) : List Word → List UInt8
  | [] => []
  | [w] => wordBytes (16 - padded) (w >>> (8 * padded))
  | w :: ws => wordBytes 16 w ++ extractLoop padded ws

def extractAsByteArray {size : Nat} (d : FixedBytes size) : List UInt8 :=
  extractLoop (paddedBytes size) d.toList

/-- The words that `set_from_word_sequence` stores, for a sequence of bytes. -/
def setFromWordSequence : List UInt8 → Word → Nat → List Word
  | [], tempWord, subWordsLeft =>
    if subWordsLeft ≠ 16 then
      [if 1 < subWordsLeft then tempWord <<< (8 * (subWordsLeft - 1)) else tempWord]
    else []
  | b :: bs, tempWord, subWordsLeft =>
    if 1 < subWordsLeft then
      setFromWordSequence bs ((tempWord ||| BitVec.ofNat 128 b.toNat) <<< 8) (subWordsLeft - 1)
    else (tempWord ||| BitVec.ofNat 128 b.toNat) :: setFromWordSequence bs 0 16

/-- The constructor from an array of bytes. -/
def ofByteArray (size : Nat) (arr : List UInt8) : FixedBytes size :=
  resize 0 (numWords size) (setFromWordSequence arr 0 16)

/-! ## Construction from words -/

/-- The types of the words that an object is made of. -/
inductive SubWord
  | uint8
  | uint16
  | uint32
  | uint64
  deriving DecidableEq, Repr

/-- `sizeof(Word)`. -/
def SubWord.bytes : SubWord → Nat
  | uint8 => 1
  | uint16 => 2
  | uint32 => 4
  | uint64 => 8

/-- `num_sub_words`. -/
def SubWord.perWord (t : SubWord) : Nat := 16 / t.bytes

/-- `*itr = tempWord`. -/
def storeWord {size : Nat} (key : FixedBytes size) (itr : Nat) (tempWord : Word) :
    Exec (FixedBytes size) :=
  if h : itr < numWords size then pure (key.set ⟨itr, h⟩ tempWord) else .error .fault

/-- `set_from_word_sequence`, into an object that exists. -/
def setFromWords {size : Nat} (t : SubWord) :
    List (BitVec (8 * t.bytes)) → Nat → Word → Nat → FixedBytes size → Exec (FixedBytes size)
  | [], itr, tempWord, subWordsLeft, key =>
    if subWordsLeft ≠ t.perWord then
      let tempWord := if 1 < subWordsLeft then tempWord <<< (8 * (subWordsLeft - 1)) else tempWord
      storeWord key itr tempWord
    else pure key
  | w :: ws, itr, tempWord, subWordsLeft, key =>
    if 1 < subWordsLeft then
      let tempWord := tempWord ||| w.setWidth 128
      setFromWords t ws itr (tempWord <<< (8 * t.bytes)) (subWordsLeft - 1) key
    else do
      check (subWordsLeft = 1) "unexpected error in fixed_bytes constructor"
      let tempWord := tempWord ||| w.setWidth 128
      let key ← storeWord key itr tempWord
      setFromWords t ws (itr + 1) 0 t.perWord key

/-- `make_from_word_sequence`: `key` is default-constructed. -/
def makeFromWordSequence (size : Nat) (t : SubWord) (words : List (BitVec (8 * t.bytes))) :
    Exec (FixedBytes size) :=
  setFromWords t words 0 0 t.perWord (.replicate _ 0)

/-- The constructor from a `std::array` of words, which initializes nothing: `memory` is what the
object's memory holds. -/
def ofStdArray {size : Nat} (memory : FixedBytes size) (t : SubWord)
    (arr : List (BitVec (8 * t.bytes))) : Exec (FixedBytes size) :=
  setFromWords t arr 0 0 t.perWord memory

/-- The constructor from a C array of words. -/
def ofCArray {size : Nat} (memory : FixedBytes size) (t : SubWord)
    (arr : List (BitVec (8 * t.bytes))) : Exec (FixedBytes size) :=
  setFromWords t arr 0 0 t.perWord memory

/-- The padding is zero, as the constructor from bytes leaves it. The one from words takes any. -/
def ZeroPadding {size : Nat} (d : FixedBytes size) : Prop :=
  ∀ w ∈ d.toList.getLast?, w.toNat % 256 ^ paddedBytes size = 0

/-! ## Comparison -/

/-- `std::lexicographical_compare` of two arrays of words, as `operator<` of `std::array` calls it. -/
def lexicographicalCompare : List Word → List Word → Bool
  | _, [] => false
  | [], _ :: _ => true
  | x :: xs, y :: ys =>
    if x < y then true else if y < x then false else lexicographicalCompare xs ys

section
variable {size : Nat} (c1 c2 : FixedBytes size)

def eq : Bool := c1.toList == c2.toList

def ne : Bool := !eq c1 c2

def lt : Bool := lexicographicalCompare c1.toList c2.toList

def gt : Bool := lt c2 c1

def ge : Bool := !lt c1 c2

def le : Bool := !lt c2 c1

end

end FixedBytes

/-- `fixed_bytes<Size>`. -/
def Serial.fixedBytes (size : Nat) : Serial (FixedBytes size) where
  make := .replicate _ 0
  write d ds := Sink.write d.extractAsByteArray ds
  read _ ds := do
    let (arr, ds) ← ds.read size
    pure (.ofByteArray size arr, ds)

end Wasmlib
