import WasmCdt.Base.Text

/-!
# Names and regids of the toolchain

`tools/include/wasm/utils.hpp`: the encoding of action names and account ids into the 64-bit
words the linker compares with, and the checks on them that the compiler runs. The checks'
`error_handler` is the Boolean result.
-/

namespace Cdt

/-! ## Regids -/

/-- Without a `-`, `pos` is `npos`: both pieces are the whole string. -/
def stringToRegid (str : Text) : BitVec 64 :=
  let pos := str.find '-'
  let height := BitVec.ofInt 64 (Text.atoi (match pos with
    | some p => str.substr 0 p
    | none => str))
  let index := BitVec.ofInt 64 (Text.atoi (match pos with
    | some p => str.drop (p + 1)
    | none => str))
  (height <<< 20) + index

def regidToString (value : BitVec 64) : Text :=
  let height := value >>> 20
  let index := value &&& 0xFFFFF
  Text.decimal height.toInt ++ '-' :: Text.decimal index.toInt

/-- The comparison `pos <= 0` is unsigned, so a missing `-` passes. -/
def validateRegid (str : Text) : Bool :=
  let pos := str.find '-'
  if pos = some 0 then false
  else
    let height := BitVec.ofInt 64 (Text.atoi (match pos with
      | some p => str.substr 0 p
      | none => str))
    let index := BitVec.ofInt 64 (Text.atoi (match pos with
      | some p => str.drop (p + 1)
      | none => str))
    if (height = 0 ∧ index ≠ 800) ∨ index = 0 then false
    else true

/-! ## Names -/

def charToSymbol (c : Char) : BitVec 64 :=
  if 'a' ≤ c ∧ c ≤ 'z' then BitVec.ofNat 64 (c.toNat - 'a'.toNat + 6)
  else if '1' ≤ c ∧ c ≤ '5' then BitVec.ofNat 64 (c.toNat - '1'.toNat + 1)
  else 0

/-- From character `i` on; a NUL ends the C string. -/
def stringToNameLoop : Nat → Text → BitVec 64 → BitVec 64
  | _, [], name => name
  | i, c :: str, name =>
    if c = '\x00' then name
    else if i < 12 then
      stringToNameLoop (i + 1) str (name ||| ((charToSymbol c &&& 0x1f) <<< (64 - 5 * (i + 1))))
    else name ||| (charToSymbol c &&& 0x0f)

def stringToName (str : Text) : BitVec 64 := stringToNameLoop 0 str 0

def charmap : Text := "_12345abcdefghijklmnopqrstuvwxyz".toList

/-- The five-bit groups of `tmp` before `str`, `n` of them. -/
def nameChars : Nat → BitVec 64 → Text → Text
  | 0, _, str => str
  | n + 1, tmp, str => nameChars n (tmp >>> 5) (charmap.getD (tmp &&& 0x1f).toNat '_' :: str)

/-- The 13 characters of a name, padding included. -/
def nameText (value : BitVec 64) : Text :=
  nameChars 12 (value >>> 4) [charmap.getD (value &&& 0x0f).toNat '_']

/-- The lambda `trim` of `validate_name`. -/
def trimPadding (s : Text) : Text := (s.reverse.dropWhile (· = '_')).reverse

def validateName (str : Text) : Bool :=
  if str.length > 13 then false
  else trimPadding (nameText (stringToName str)) = str

/-- `std::string::find_last_not_of` of a character. -/
def findLastNotOf (str : Text) (c : Char) : Option Nat :=
  (str.reverse.findIdx? (· ≠ c)).map (str.length - 1 - ·)

/-- The lambda `trim_right_dots` of `name_to_string`. -/
def trimRightDots (str : Text) : Text :=
  match findLastNotOf str '_' with
  | some last => str.substr 0 (last + 1)
  | none => str

def nameToString (nm : BitVec 64) : Text := trimRightDots (nameText nm)

theorem getD_charmap_mem (i : Nat) : charmap.getD i '_' ∈ charmap := by
  rw [List.getD_eq_getElem?_getD]
  cases hg : charmap[i]? with
  | none => decide
  | some d => exact List.mem_of_getElem? hg

theorem mem_nameChars {c : Char} : ∀ {n : Nat} {tmp : BitVec 64} {str : Text},
    c ∈ nameChars n tmp str → c ∈ str ∨ c ∈ charmap
  | 0, _, _, h => .inl h
  | n + 1, tmp, str, h => by
    rcases mem_nameChars (n := n) h with h | h
    · rcases List.mem_cons.1 h with rfl | h
      · exact .inr (getD_charmap_mem _)
      · exact .inl h
    · exact .inr h

/-- A valid name is written in the name alphabet. -/
theorem mem_charmap_of_validateName {str : Text} (h : validateName str = true) {c : Char}
    (hc : c ∈ str) : c ∈ charmap := by
  unfold validateName at h
  split at h
  · cases h
  · rw [← of_decide_eq_true h] at hc
    unfold trimPadding at hc
    rw [List.mem_reverse] at hc
    have hc := List.mem_reverse.1 ((List.dropWhile_sublist _).mem hc)
    rcases mem_nameChars hc with h | h
    · rw [List.mem_singleton.1 h]
      exact getD_charmap_mem _
    · exact h

theorem colon_not_mem_of_validateName {str : Text} (h : validateName str = true) : ':' ∉ str :=
  fun hc => absurd (mem_charmap_of_validateName h hc) (by decide)

end Cdt
