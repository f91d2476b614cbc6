import WasmCdt.Core.Proof.Padding
import WasmCdt.Core.Proof.SymbolCode

/-!
# Symbols and their codes as text

* `ofText_code_exact`: which texts a code is made of; its length, its printer and the encoder of C
  strings agree on them.
* `printed_iff`: **`symbol::to_string` ends, with a text that is read back**, for the symbol `0,0`
  only. The call that is to print the precision is one of the member function itself.
* `symbol_exact_iff`: `symbol::from_string` is exact, but for the texts that are `Misread`.
-/

namespace Wasmlib

/-! ## Codes -/

section
variable {str : Text}

theorem symbolCodeLoop_ends (str : Text) : (∃ v, symbolCodeLoop str = .ok v) ∨
    symbolCodeLoop str = .error (.abort "invalid character in symbol name") := by
  induction str with
  | nil => exact .inl ⟨0, rfl⟩
  | cons c str ih =>
    unfold symbolCodeLoop
    rcases ih with ⟨v, hv⟩ | hstop
    · rw [hv, ok_bind, check_bind]
      split
      · exact .inl ⟨_, rfl⟩
      · exact .inr rfl
    · rw [hstop]
      exact .inr rfl

/-- The constructor aborts where it makes no code. -/
theorem SymbolCode.ofText_abort_iff : (∃ msg, SymbolCode.ofText str = .error (.abort msg)) ↔
    7 < str.length ∨ ∃ c ∈ str, validCharacterInSymbolName c = false := by
  have hends : (∃ msg, SymbolCode.ofText str = .error (.abort msg)) ↔
      ¬∃ s, SymbolCode.ofText str = .ok s := by
    unfold SymbolCode.ofText
    rw [check_bind]
    split
    · rcases symbolCodeLoop_ends str with ⟨v, hv⟩ | hstop
      · simp [hv]
      · simp [hstop]
    · simp
  rw [hends]
  constructor
  · intro h
    by_contra hnot
    simp only [not_or, not_lt, not_exists, not_and, Bool.not_eq_false] at hnot
    exact h ⟨⟨_⟩, SymbolCode.ofText_eq_ok_iff.2 ⟨hnot.1, hnot.2, rfl⟩⟩
  · rintro hbad ⟨s, hs⟩
    obtain ⟨hlen, hmem, -⟩ := SymbolCode.ofText_eq_ok_iff.1 hs
    rcases hbad with hlong | ⟨c, hc, hbad⟩
    · omega
    · rw [hmem c hc] at hbad
      cases hbad

theorem charWord_of_valid {c : Char} (h : validCharacterInSymbolName c = true) :
    charWord c = BitVec.ofNat 64 c.toNat := by
  have hlt := (ascii_of_valid h).2
  have hnat : (BitVec.ofNat 8 c.toNat).toNat = c.toNat := by
    rw [BitVec.toNat_ofNat, Nat.mod_eq_of_lt (by omega)]
  have hmsb : (BitVec.ofNat 8 c.toNat).msb = false := by
    rw [BitVec.msb_eq_false_iff_two_mul_lt, hnat]
    omega
  apply BitVec.eq_of_toNat_eq
  rw [charWord, BitVec.signExtend_eq_setWidth_of_msb_false hmsb, BitVec.toNat_setWidth, hnat,
    BitVec.toNat_ofNat]

/-- A character left is a byte left. -/
theorem low_ne_zero {c : Char} (hc : validCharacterInSymbolName c = true)
    (hlt : symbolEncoding (c :: str) < 2 ^ 64) :
    BitVec.ofNat 64 (symbolEncoding (c :: str)) &&& 0xff ≠ 0 := by
  intro h0
  have hlow := congrArg BitVec.toNat h0
  rw [← lowChar_toNat, lowChar_ofNat_encoding (toNat_of_valid hc).2 hlt] at hlow
  exact (toNat_of_valid hc).1.ne' hlow

variable (hmem : ∀ c ∈ str, validCharacterInSymbolName c = true)
include hmem

/-- The encoder of C strings shifts the NUL in first, and then does what the constructor does. -/
theorem stringToSymbolCode_eq {v : BitVec 64} (h : symbolCodeLoop str = .ok v) :
    stringToSymbolCode str = v := by
  have hnul : str.takeWhile (· ≠ '\x00') = str := List.takeWhile_eq_self_iff.2 fun c hc => by
    have hpos := (toNat_of_valid (hmem c hc)).1
    exact decide_eq_true fun he => by simp [he] at hpos
  rw [stringToSymbolCode, hnul]
  clear hnul
  induction str generalizing v with
  | nil =>
    cases h
    decide
  | cons c str ih =>
    rw [symbolCodeLoop] at h
    obtain ⟨w, hw, h⟩ := bind_eq_ok h
    have hc := hmem c (.head _)
    rw [check_bind, if_pos hc] at h
    cases h
    rw [List.cons_append, stringToSymbolCodeLoop, ih (fun d hd => hmem d (.tail _ hd)) hw,
      charWord_of_valid hc]

theorem encoding_lt (hlen : str.length ≤ 7) : symbolEncoding str < 2 ^ 64 :=
  (symbolEncoding_lt hmem).trans_le
    ((Nat.pow_le_pow_right (by decide) hlen).trans (by decide))

theorem symbolLengthLoop_encoding {len : Nat} (hlen : str.length + len ≤ 7) :
    symbolLengthLoop (BitVec.ofNat 64 (symbolEncoding str)) len = str.length + len := by
  have hlt := encoding_lt hmem (by omega)
  induction str generalizing len with
  | nil =>
    unfold symbolLengthLoop
    rw [if_neg (by simp [symbolEncoding]), List.length_nil, Nat.zero_add]
  | cons c str ih =>
    have hc := hmem c (.head _)
    have hstr : ∀ d ∈ str, validCharacterInSymbolName d = true := fun d hd => hmem d (.tail _ hd)
    rw [List.length_cons] at hlen ⊢
    unfold symbolLengthLoop
    rw [if_pos ⟨low_ne_zero hc hlt, by omega⟩, shift_ofNat_encoding (toNat_of_valid hc).2 hlt,
      ih hstr (by omega) (encoding_lt hstr (by omega))]
    omega

theorem writeAsString_encoding {n : Nat} (hlen : str.length ≤ n) (hn : n ≤ 7) :
    writeAsString n (BitVec.ofNat 64 (symbolEncoding str)) = str := by
  have hlt := encoding_lt hmem (hlen.trans hn)
  induction str generalizing n with
  | nil =>
    cases n with
    | zero => rfl
    | succ n => rfl
  | cons c str ih =>
    have hc := hmem c (.head _)
    have hstr : ∀ d ∈ str, validCharacterInSymbolName d = true := fun d hd => hmem d (.tail _ hd)
    cases n with
    | zero => simp at hlen
    | succ n =>
      have hne : BitVec.ofNat 64 (symbolEncoding (c :: str)) ≠ 0 := fun h0 =>
        low_ne_zero hc hlt (by rw [h0]; rfl)
      have hle := Nat.le_of_succ_le_succ hlen
      rw [writeAsString, if_neg hne, lowChar_ofNat_encoding (toNat_of_valid hc).2 hlt,
        shift_ofNat_encoding (toNat_of_valid hc).2 hlt,
        ih hstr hle (by omega) (encoding_lt hstr (by omega))]

end

/-- **A code is made of up to seven allowed characters**, and of nothing else. Its text is then the
one it was made of, with its length, and it is what the encoder of C strings makes. -/
theorem ofText_code_exact (str : Text) :
    ((∃ msg, SymbolCode.ofText str = .error (.abort msg)) ↔
      7 < str.length ∨ ∃ c ∈ str, validCharacterInSymbolName c = false) ∧
    (¬(7 < str.length ∨ ∃ c ∈ str, validCharacterInSymbolName c = false) →
      ∃ code, SymbolCode.ofText str = .ok code ∧ code.toStr = str ∧ code.length = str.length ∧
        code.raw = stringToSymbolCode str) := by
  refine ⟨SymbolCode.ofText_abort_iff, fun h => ?_⟩
  simp only [not_or, not_lt, not_exists, not_and, Bool.not_eq_false] at h
  obtain ⟨hlen, hmem⟩ := h
  have hloop := symbolCodeLoop_eq hmem hlen
  refine ⟨⟨BitVec.ofNat 64 (symbolEncoding str)⟩,
    SymbolCode.ofText_eq_ok_iff.2 ⟨hlen, hmem, rfl⟩, ?_, ?_, ?_⟩
  · exact writeAsString_encoding hmem hlen (Nat.le_refl 7)
  · exact symbolLengthLoop_encoding hmem (by omega : str.length + 0 ≤ 7)
  · exact (stringToSymbolCode_eq hmem hloop).symm

example : (SymbolCode.ofText "WICC-1.".toList).map SymbolCode.toStr = .ok "WICC-1.".toList := by
  decide

/-! ## The printer -/

/-- `to_string()` ends, with the precision and the code, and `from_string` reads that as the symbol. -/
def Symbol.Printed (s : Symbol) : Prop :=
  ∃ n text, s.toStr n true = some text ∧ text = Text.decimal s.precision ++ ',' :: s.code.toStr ∧
    Symbol.fromString text = .ok s

section
variable {s : Symbol}

/-- With a precision, each call makes the next. -/
theorem Symbol.toStr_runs (h : s.precision ≠ 0) (n : Nat) : s.toStr n true = none := by
  induction n with
  | zero => rfl
  | succ n ih =>
    unfold Symbol.toStr
    rw [decide_eq_true h, ih]
    rfl

/-- Without one, the second call prints the code where the precision belongs. -/
theorem Symbol.toStr_of_zero (h : s.precision = 0) (n : Nat) :
    s.toStr (n + 2) true = some (s.code.toStr ++ ',' :: s.code.toStr) := by
  have hinner : s.toStr (n + 1) false = some s.code.toStr := rfl
  unfold Symbol.toStr
  rw [h, decide_eq_false (not_not.2 rfl), hinner]
  simp

theorem Symbol.toStr_eq_some {n : Nat} {text : Text} (h : s.toStr n true = some text) :
    s.precision = 0 ∧ text = s.code.toStr ++ ',' :: s.code.toStr := by
  have hprec : s.precision = 0 := by
    by_contra hne
    rw [Symbol.toStr_runs hne] at h
    cases h
  match n, h with
  | 1, h => cases h
  | n + 2, h =>
    rw [Symbol.toStr_of_zero hprec] at h
    exact ⟨hprec, (Option.some.inj h).symm⟩

/-- **Which symbols are printed**: only that of the code `0`, whose text is also its precision. -/
theorem printed_iff (hs : s.isValid = true) : s.Printed ↔ s.raw = 0x3000 := by
  constructor
  · intro h
    obtain ⟨n, text, hprint, htext, -⟩ := h
    obtain ⟨hprec, hcode⟩ := Symbol.toStr_eq_some hprint
    rw [htext, hprec, List.append_left_inj] at hcode
    have hvalid : s.code.isValid = true := (Bool.and_eq_true_iff.1 hs).1
    have hread := (SymbolCode.ofText_toStr (code_raw_lt s) hvalid).2
    rw [← hcode] at hread
    have hzero : SymbolCode.ofText (Text.decimal (0 : Nat)) = .ok ⟨0x30⟩ := rfl
    have hsym : s = ⟨0x3000⟩ := Symbol.eq_of_code (Except.ok.inj (hread.symm.trans hzero)) hprec
    rw [hsym]
  · intro h
    have hsym : s = ⟨0x3000⟩ := congrArg Symbol.mk h
    rw [hsym]
    exact ⟨2, "0,0".toList, rfl, rfl, by decide⟩

/-- `8,WICC` is never printed, and `0,WICC` as `WICC,WICC`. -/
theorem wicc_not_printed :
    (⟨0x4343495708⟩ : Symbol).isValid = true ∧ (∀ n, (⟨0x4343495708⟩ : Symbol).toStr n true = none) ∧
      ¬(⟨0x4343495708⟩ : Symbol).Printed ∧
      (⟨0x4343495700⟩ : Symbol).toStr 2 true = some "WICC,WICC".toList ∧
      ¬(⟨0x4343495700⟩ : Symbol).Printed := by
  have hne : (⟨0x4343495708⟩ : Symbol).precision ≠ 0 := by decide
  refine ⟨rfl, Symbol.toStr_runs hne, fun h => ?_, rfl, fun h => ?_⟩
  · obtain ⟨n, text, hprint, -⟩ := h
    exact hne (Symbol.toStr_eq_some hprint).1
  · obtain ⟨n, text, hprint, htext, -⟩ := h
    have := htext.symm.trans (Symbol.toStr_eq_some hprint).2
    exact absurd this (by decide)

theorem printed_zero : (⟨0x3000⟩ : Symbol).Printed ↔ (⟨0x3000⟩ : Symbol).raw = 0x3000 :=
  printed_iff (by decide)

end

/-! ## The reader -/

/-- A text that is not empty, of digits. -/
def IsNumeral (p : Text) : Prop := p ≠ [] ∧ Text.IsDigits p

/-- The text is, up to blanks and tabs around it, the precision and the code of the symbol. -/
def IsSymbolOf (s : Text) (sym : Symbol) : Prop :=
  ∃ w₁ p code w₂, s = w₁ ++ (p ++ ',' :: code) ++ w₂ ∧ IsPadding w₁ ∧ IsPadding w₂ ∧
    IsNumeral p ∧ Nat.ofDigitChars 10 p 0 ≤ maxPrecision ∧ IsSymbolText code ∧
    sym.precision = Nat.ofDigitChars 10 p 0 ∧ SymbolCode.ofText code = .ok sym.code

/-- The text has a comma with up to seven allowed characters behind it and with a number before it that
is in the range as a byte; but there are no characters behind it, or it is not a number that is before
it, or the number is not in the range. -/
def Misread (s : Text) : Prop :=
  ∃ a code, s = a ++ ',' :: code ∧ ',' ∉ a ∧
    Text.leadingInt a % 256 ≤ maxPrecision ∧ code.length ≤ 7 ∧
    (∀ c ∈ code, validCharacterInSymbolName c = true) ∧
    (code = [] ∨ ¬IsNumeral (ltrim a) ∨ (maxPrecision : Int) < Text.leadingInt a)

section
variable {s a p w code : Text}

theorem toNat_byte (x : Int) : (BitVec.ofInt 8 (Text.int32 x)).toNat = x % 256 := by
  rw [BitVec.toNat_ofInt, Text.int32_eq]
  omega

theorem not_isPadding_of_isDigit {c : Char} (h : Text.isDigit c = true) : isPadding c = false := by
  cases hpad : isPadding c with
  | false => rfl
  | true =>
    simp only [isPadding, Bool.or_eq_true, beq_iff_eq] at hpad
    rcases hpad with rfl | rfl <;> cases h

/-- `ltrim` stops at a number. -/
theorem ltrim_numeral (hw : IsPadding w) (hp : IsNumeral p) : ltrim (w ++ p) = p := by
  obtain ⟨hne, hdig⟩ := hp
  obtain ⟨c, t, rfl⟩ := List.exists_cons_of_ne_nil hne
  rw [ltrim_append hw, ltrim, List.dropWhile_cons_of_neg]
  rw [not_isPadding_of_isDigit (hdig c (.head _))]
  exact Bool.false_ne_true

theorem exists_ltrim (a : Text) : ∃ w, IsPadding w ∧ a = w ++ ltrim a :=
  ⟨a.takeWhile isPadding, fun _ hc => List.mem_takeWhile_imp hc,
    List.takeWhile_append_dropWhile.symm⟩

/-- The number before the comma, where it is one. -/
theorem leadingInt_ltrim (h : IsNumeral (ltrim a)) :
    Text.leadingInt a = (Nat.ofDigitChars 10 (ltrim a) 0 : Nat) := by
  obtain ⟨w, hw, ha⟩ := exists_ltrim a
  have hread := Text.leadingInt_digits h.2
  rwa [← leadingInt_padded hw, ← ha] at hread

/-- What is not misread is read exactly. -/
theorem symbol_exact {sym : Symbol} (hs : ¬Misread s) (h : Symbol.fromString s = .ok sym) :
    IsSymbolOf s sym := by
  obtain ⟨a, code, rfl, ha, hof⟩ := Symbol.fromString_eq_ok_iff.1 h
  obtain ⟨hcode, hle, hprec⟩ := Symbol.ofText_eq_ok_iff.1 hof
  obtain ⟨hlen, hmem, -⟩ := SymbolCode.ofText_eq_ok_iff.1 hcode
  have hbyte := toNat_byte (Text.leadingInt a)
  rw [← Text.atoi_eq_leadingInt] at hbyte
  have hright : ¬(code = [] ∨ ¬IsNumeral (ltrim a) ∨ (maxPrecision : Int) < Text.leadingInt a) :=
    fun hbad => hs ⟨a, code, rfl, ha, by rw [← hbyte]; exact_mod_cast hle, hlen, hmem, hbad⟩
  simp only [not_or, not_not, not_lt] at hright
  obtain ⟨hne, hnum, hrange⟩ := hright
  obtain ⟨w, hw, hsplit⟩ := exists_ltrim a
  have hread := leadingInt_ltrim hnum
  refine ⟨w, ltrim a, code, [], ?_, hw, by simp [IsPadding], hnum, ?_, ⟨hne, hlen, hmem⟩, ?_, hcode⟩
  · rw [List.append_nil, ← List.append_assoc, ← hsplit]
  · omega
  · have hmax : (maxPrecision : Int) < 256 := by decide
    omega

theorem IsSymbolOf.not_misread {sym : Symbol} (h : IsSymbolOf s sym) : ¬Misread s := by
  intro hs
  obtain ⟨a, code, rfl, ha, -, -, -, hbad⟩ := hs
  obtain ⟨w₁, p, code', w₂, hs, hw₁, -, hnum, hrange, hcode, -⟩ := h
  have hfree : ',' ∉ w₁ ++ p := List.not_mem_append (hw₁.not_mem rfl) (hnum.2.not_mem rfl)
  have hsplit : a ++ ',' :: code = (w₁ ++ p) ++ ',' :: (code' ++ w₂) := by
    rw [hs]
    simp
  obtain ⟨rfl, rfl⟩ := split_unique ha hfree hsplit
  have htrim := ltrim_numeral hw₁ hnum
  rcases hbad with hnil | hnot | hlarge
  · exact hcode.1 (List.append_eq_nil_iff.1 hnil).1
  · rw [htrim] at hnot
    exact hnot hnum
  · rw [leadingInt_ltrim (by rwa [htrim]), htrim] at hlarge
    omega

/-- What is misread makes a symbol that is not the one of the text. -/
theorem Misread.wrong (h : Misread s) :
    ∃ sym, Symbol.fromString s = .ok sym ∧ ¬IsSymbolOf s sym := by
  have hread := h
  obtain ⟨a, code, rfl, ha, hbyte, hlen, hmem, -⟩ := hread
  have hle : (BitVec.ofInt 8 (Text.atoi a)).toNat ≤ maxPrecision := by
    have := toNat_byte (Text.leadingInt a)
    rw [← Text.atoi_eq_leadingInt] at this
    omega
  obtain ⟨sym, hsym⟩ := isSymbolPair_iff.1 ⟨a, code, rfl, ha, hle, hlen, hmem⟩
  exact ⟨sym, hsym, fun hof => hof.not_misread h⟩

/-- **When `symbol::from_string` is exact**: the symbols it makes are those whose text it was given,
except where the text is misread. -/
theorem symbol_exact_iff (s : Text) :
    (∀ sym, Symbol.fromString s = .ok sym → IsSymbolOf s sym) ↔ ¬Misread s := by
  constructor
  · intro h hs
    obtain ⟨sym, hsym, hwrong⟩ := hs.wrong
    exact hwrong (h sym hsym)
  · intro hs sym h
    exact symbol_exact hs h

/-- A number that is in the range as a byte, a text that is no number, and no code. -/
theorem misread_samples :
    (∃ sym, Symbol.fromString "256,WICC".toList = .ok sym ∧ ¬IsSymbolOf "256,WICC".toList sym) ∧
      (∃ sym, Symbol.fromString "WICC,WICC".toList = .ok sym ∧ ¬IsSymbolOf "WICC,WICC".toList sym) ∧
      ∃ sym, Symbol.fromString "8,".toList = .ok sym ∧ ¬IsSymbolOf "8,".toList sym := by
  have hcode : ∀ c ∈ "WICC".toList, validCharacterInSymbolName c = true :=
    List.all_eq_true.1 (by decide)
  have hbyte : Misread "256,WICC".toList := ⟨"256".toList, "WICC".toList, rfl, by decide, by decide,
    by decide, hcode, .inr (.inr (by decide))⟩
  have htext : Misread "WICC,WICC".toList := ⟨"WICC".toList, "WICC".toList, rfl, by decide, by decide,
    by decide, hcode, .inr (.inl fun h => absurd h.2 (by decide))⟩
  have hnone : Misread "8,".toList :=
    ⟨"8".toList, [], rfl, by decide, by decide, by decide, by simp, .inl rfl⟩
  exact ⟨hbyte.wrong, htext.wrong, hnone.wrong⟩

end

end Wasmlib
