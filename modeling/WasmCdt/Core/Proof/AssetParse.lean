import WasmCdt.Core.Proof.SymbolCode

/-!
# What `asset::from_string` accepts

`from_string` cuts the text at its first blank and the number at its first point, counts the
characters behind the point in eight bits, and hands both pieces to `atoi`, which stops at the
first character that is no digit and wraps at 32 bits.

* `fromString_eq`: the result, from the numbers the two pieces start with (`wrappedAmount`).
* `fromString_cases`: which texts are refused, fault, or are accepted, and as what.
* `fromString_exact_iff`: exactly when a text is refused or read as the number it denotes.
-/

namespace Wasmlib

open Asset

/-! ## Decimal numbers -/

inductive Sign
  | none
  | plus
  | minus
  deriving DecidableEq, Repr

def Sign.text : Sign → Text
  | none => []
  | plus => ['+']
  | minus => ['-']

def Sign.apply : Sign → Int → Int
  | minus, x => -x
  | _, x => x

theorem Sign.apply_eq (s : Sign) (x : Int) : s.apply x = if s = .minus then -x else x := by
  cases s <;> rfl

/-- A decimal number: a sign or none, integer digits, and after a point fraction digits. -/
structure Decimal where
  sign : Sign
  whole : Text
  fraction : Text
  whole_digits : Text.IsDigits whole
  whole_ne : whole ≠ []
  fraction_digits : Text.IsDigits fraction

namespace Decimal

def text (n : Decimal) : Text :=
  n.sign.text ++ n.whole ++ if n.fraction = [] then [] else '.' :: n.fraction

def wholePart (n : Decimal) : Nat := Nat.ofDigitChars 10 n.whole 0

def fractionPart (n : Decimal) : Nat := Nat.ofDigitChars 10 n.fraction 0

/-- The number's value times ten to the count of its fraction digits. -/
def scaled (n : Decimal) : Int := n.sign.apply (Nat.ofDigitChars 10 (n.whole ++ n.fraction) 0 : Nat)

end Decimal

/-- The text is refused, or is a number and a code, and read as these. -/
def ExactOrRefused (s : Text) : Prop :=
  (∃ msg, fromString s = .error (.abort msg)) ∨
    ∃ (n : Decimal) (code : Text) (r : Asset), s = n.text ++ ' ' :: code ∧
      n.fraction.length ≤ 18 ∧ IsSymbolText code ∧ fromString s = .ok r ∧
      r.symbol.precision = n.fraction.length ∧ SymbolCode.ofText code = .ok r.symbol.code ∧
      r.amount.val = n.scaled ∧ |n.scaled| ≤ maxAmount

/-! ## The pieces of the number -/

def beforePoint (amt : Text) : Text := amt.takeWhile (· ≠ '.')

def afterPoint (amt : Text) : Text := (amt.dropWhile (· ≠ '.')).tail

/-- The characters counted for the precision: those after the point, or all of them. -/
def precisionLength (amt : Text) : Nat :=
  if '.' ∈ amt then (afterPoint amt).length else amt.length

/-- The numbers that the two pieces start with, each reduced to 32 bits, the first one scaled as
64 bits; the second one has the sign of the text. -/
def wrappedAmount (amt : Text) : Int :=
  let fraction := Text.int32 (Text.leadingInt (afterPoint amt))
  (SInt.wrap 64 amountBits_pos (Text.int32 (Text.leadingInt (beforePoint amt)) *
      10 ^ (precisionLength amt % 256))).val +
    if amt.head? = some '-' then -fraction else fraction

/-- What the checks of the text ask for. -/
structure Reads (amt code : Text) : Prop where
  point : '.' ∈ amt → afterPoint amt ≠ []
  length : code.length ≤ 7
  chars : ∀ c ∈ code, validCharacterInSymbolName c = true
  precision : precisionLength amt % 256 ≤ 18

/-- The texts that are refused: by a check of the text, or, with an amount in the word, by its
range or the empty code. -/
def Refused (amt code : Text) : Prop :=
  ¬Reads amt code ∨
    SInt.InRange 64 (wrappedAmount amt) ∧ (maxAmount < |wrappedAmount amt| ∨ code = [])

theorem beforePoint_append {w : Text} (h : '.' ∉ w) (f : Text) :
    beforePoint (w ++ '.' :: f) = w ∧ afterPoint (w ++ '.' :: f) = f := by
  have hw : ∀ c ∈ w, decide (c ≠ '.') = true := fun c hc => decide_eq_true fun he => h (he ▸ hc)
  unfold beforePoint afterPoint
  rw [List.takeWhile_append_of_pos hw, List.dropWhile_append_of_pos hw]
  simp

theorem beforePoint_of_not_mem {amt : Text} (h : '.' ∉ amt) :
    beforePoint amt = amt ∧ afterPoint amt = [] := by
  have hw : ∀ c ∈ amt, decide (c ≠ '.') = true := fun c hc => decide_eq_true fun he => h (he ▸ hc)
  refine ⟨List.takeWhile_eq_self_iff.2 hw, ?_⟩
  rw [afterPoint, List.dropWhile_eq_nil_iff.2 hw, List.tail_nil]

/-- A text is cut at its first blank in one way. -/
theorem split_unique {c : Char} {s t s' t' : Text} (hs : c ∉ s) (hs' : c ∉ s')
    (h : s ++ c :: t = s' ++ c :: t') : s = s' ∧ t = t' := by
  have hfind := congrArg (Text.find · c) h
  simp only [Text.find_append hs, Text.find_append hs', Option.some.injEq] at hfind
  obtain ⟨h1, h2⟩ := List.append_inj h hfind
  exact ⟨h1, (List.cons.inj h2).2⟩

theorem exists_split {c : Char} {s : Text} (h : c ∈ s) : ∃ t u, s = t ++ c :: u ∧ c ∉ t := by
  induction s with
  | nil => cases h
  | cons d s ih =>
    by_cases hd : d = c
    · exact ⟨[], s, by rw [hd]; rfl, List.not_mem_nil⟩
    · obtain ⟨t, u, rfl, ht⟩ := ih ((List.mem_cons.1 h).resolve_left (Ne.symm hd))
      exact ⟨d :: t, u, rfl, fun hc => (List.mem_cons.1 hc).elim (Ne.symm hd) ht⟩

/-! ## Reading -/

theorem Symbol.code_mk {c : BitVec 64} (hc : c.toNat < 256 ^ 7) (p : BitVec 8) :
    (⟨(c <<< 8) ||| p.setWidth 64⟩ : Symbol).code = ⟨c⟩ := by
  unfold Symbol.code
  congr 1
  apply BitVec.eq_of_toNat_eq
  have hp := p.isLt
  have hup : c.toNat <<< 8 % 2 ^ 64 = c.toNat <<< 8 := by
    rw [Nat.shiftLeft_eq]
    omega
  rw [toNat_shift, BitVec.toNat_or, BitVec.toNat_shiftLeft, BitVec.toNat_setWidth, hup,
    Nat.mod_eq_of_lt (a := p.toNat) (by omega), ← Nat.shiftLeft_add_eq_or_of_lt hp,
    Nat.shiftLeft_eq]
  omega

/-- The symbol made of a code and a precision. -/
theorem Symbol.ofText_eq_ok_iff {code : Text} {p : BitVec 8} {sym : Symbol} :
    Symbol.ofText code p = .ok sym ↔
      SymbolCode.ofText code = .ok sym.code ∧ p.toNat ≤ 18 ∧ sym.precision = p.toNat := by
  unfold Symbol.ofText
  constructor
  · intro h
    obtain ⟨c, hc, h⟩ := bind_eq_ok h
    rw [check_bind] at h
    split at h
    · rename_i hp
      cases h
      have hlt : c.raw.toNat < 256 ^ 7 := by
        obtain ⟨hlen, hmem, hraw⟩ := SymbolCode.ofText_eq_ok_iff.1 hc
        have := (symbolEncoding_lt hmem).trans_le (Nat.pow_le_pow_right (by decide) hlen)
        rw [hraw, BitVec.toNat_ofNat]
        omega
      exact ⟨hc.trans (congrArg Except.ok (Symbol.code_mk hlt p).symm), of_decide_eq_true hp,
        Symbol.precision_mk _ _⟩
    · cases h
  · rintro ⟨hc, hp, hprec⟩
    rw [hc, ok_bind, check_bind, if_pos (decide_eq_true (show p.toNat ≤ maxPrecision from hp))]
    exact congrArg Except.ok (Symbol.eq_of_precision hprec.symm)

theorem bind_congr_ok {α β : Type} {x : Exec α} {f g : α → Exec β}
    (h : ∀ a, x = .ok a → f a = g a) : x >>= f = x >>= g := by
  cases x with
  | error e => rfl
  | ok a => exact h a rfl

/-- **What `from_string` computes** from the two sides of the first blank. -/
theorem fromString_eq {amt : Text} (hamt : ' ' ∉ amt) (code : Text) :
    fromString (amt ++ ' ' :: code) =
      if '.' ∈ amt ∧ afterPoint amt = [] then
        .error (.abort "Missing decimal fraction after decimal point. ex. 98.00000000 WICC")
      else (do
        let sym ← Symbol.ofText code (BitVec.ofNat 8 (precisionLength amt))
        let amount ← defined (SInt.ofInt? 64 (wrappedAmount amt))
        Asset.new amount sym) := by
  have hscale : ∀ {sym : Symbol}, Symbol.ofText code (BitVec.ofNat 8 (precisionLength amt)) = .ok sym →
      ∃ p10, sym.precisionIn10 = .ok p10 ∧ (p10.toNat : Int) = 10 ^ (precisionLength amt % 256) := by
    intro sym hsym
    obtain ⟨-, hp, hprec⟩ := Symbol.ofText_eq_ok_iff.1 hsym
    have hp10 := precisionIn10_eq (hprec.trans_le hp)
    rwa [hprec, BitVec.toNat_ofNat] at hp10
  have hfind : Text.find (amt ++ ' ' :: code) ' ' = some amt.length := Text.find_append hamt code
  by_cases hdot : '.' ∈ amt
  · obtain ⟨w, f, rfl, hw⟩ := exists_split hdot
    obtain ⟨hbefore, hafter⟩ := beforePoint_append hw f
    have hpos : Text.find (w ++ '.' :: f) '.' = some w.length := Text.find_append hw f
    have hlen : BitVec.ofInt 8 (((w ++ '.' :: f).length : Int) - w.length - 1) =
        BitVec.ofNat 8 (precisionLength (w ++ '.' :: f)) := by
      rw [precisionLength, if_pos hdot, hafter, ← BitVec.ofInt_natCast]
      simp
    have hlast : (some w.length ≠ some ((w ++ '.' :: f).length - 1)) ↔ f ≠ [] := by
      simp [List.length_eq_zero_iff]
    simp only [fromString, trim, hfind, Option.getD_some, Option.isSome_some, Text.substr_append,
      Text.drop_append_cons, hpos, hlen, hlast, check_bind, hafter, hdot, true_and, if_true]
    by_cases hf : f = []
    · rw [if_neg (by simpa using hf), if_pos hf]
    rw [if_pos (decide_eq_true hf), if_neg hf]
    refine bind_congr_ok fun sym hsym => ?_
    obtain ⟨p10, hp10, hval⟩ := hscale hsym
    rw [hp10, ok_bind, hval, wrappedAmount, hbefore, hafter, Text.atoi_eq_leadingInt,
      Text.atoi_eq_leadingInt]
  · obtain ⟨hbefore, hafter⟩ := beforePoint_of_not_mem hdot
    have hpos : Text.find amt '.' = none := Text.find_eq_none hdot
    -- `npos` and the one after it make a multiple of the byte
    have hlen : BitVec.ofInt 8 ((amt.length : Int) - (npos : Nat) - 1) =
        BitVec.ofNat 8 (precisionLength amt) := by
      apply BitVec.eq_of_toNat_eq
      rw [precisionLength, if_neg hdot, BitVec.toNat_ofInt, BitVec.toNat_ofNat, npos]
      omega
    simp only [fromString, trim, hfind, Option.getD_some, Option.getD_none, Option.isSome_some,
      Text.substr_append, Text.drop_append_cons, hpos, hlen, check_bind, hdot, false_and,
      if_false, ne_eq, reduceCtorEq, not_false_eq_true, decide_true, if_true]
    refine bind_congr_ok fun sym hsym => ?_
    obtain ⟨p10, hp10, hval⟩ := hscale hsym
    have hzero : Text.int32 (Text.leadingInt []) = 0 := rfl
    rw [hp10, ok_bind, hval, wrappedAmount, hbefore, hafter, Text.atoi_eq_leadingInt, hzero,
      neg_zero, ite_self]

/-! ## Outcomes -/

theorem symbolCodeLoop_error : ∀ {str : Text} {e : Stop}, symbolCodeLoop str = .error e →
    ∃ msg, e = .abort msg
  | [], _, h => by cases h
  | c :: str, e, h => by
    rw [symbolCodeLoop] at h
    cases hv : symbolCodeLoop str with
    | error e' =>
      rw [hv] at h
      cases h
      exact symbolCodeLoop_error hv
    | ok v =>
      rw [hv, ok_bind, check_bind] at h
      split at h <;> cases h
      exact ⟨_, rfl⟩

/-- The constructor of a symbol aborts or yields. -/
theorem Symbol.ofText_error {code : Text} {p : BitVec 8} {e : Stop}
    (h : Symbol.ofText code p = .error e) : ∃ msg, e = .abort msg := by
  unfold Symbol.ofText SymbolCode.ofText at h
  rw [check_bind] at h
  split at h
  · cases hv : symbolCodeLoop code with
    | error e' =>
      rw [hv] at h
      cases h
      exact symbolCodeLoop_error hv
    | ok v =>
      rw [hv, ok_bind, pure_eq_ok, ok_bind, check_bind] at h
      split at h <;> cases h
      exact ⟨_, rfl⟩
  · cases h
    exact ⟨_, rfl⟩

/-- A code that the constructor made is valid unless it is empty. -/
theorem SymbolCode.isValid_ofText {code : Text} {c : SymbolCode}
    (h : SymbolCode.ofText code = .ok c) : c.isValid = true ↔ code ≠ [] := by
  obtain ⟨hlen, hmem, hraw⟩ := SymbolCode.ofText_eq_ok_iff.1 h
  rw [SymbolCode.isValid, hraw]
  constructor
  · intro hvalid hnil
    rw [hnil] at hvalid
    exact absurd hvalid (by decide)
  · intro hne
    exact isValidLoop_encoding hne hlen (Nat.le_refl 7) hmem

/-- A text that does not read aborts. -/
theorem fromString_not_reads {amt : Text} (hamt : ' ' ∉ amt) {code : Text}
    (h : ¬Reads amt code) : ∃ msg, fromString (amt ++ ' ' :: code) = .error (.abort msg) := by
  rw [fromString_eq hamt]
  split
  · exact ⟨_, rfl⟩
  rename_i hpoint
  cases hsym : Symbol.ofText code (BitVec.ofNat 8 (precisionLength amt)) with
  | error e =>
    obtain ⟨msg, rfl⟩ := Symbol.ofText_error hsym
    exact ⟨msg, rfl⟩
  | ok sym =>
    obtain ⟨hcode, hp, -⟩ := Symbol.ofText_eq_ok_iff.1 hsym
    obtain ⟨hlen, hmem, -⟩ := SymbolCode.ofText_eq_ok_iff.1 hcode
    rw [BitVec.toNat_ofNat] at hp
    exact absurd ⟨fun hdot hnil => hpoint ⟨hdot, hnil⟩, hlen, hmem, hp⟩ h

/-- A text that reads has a symbol, and an amount if that is within the word. -/
theorem fromString_reads {amt : Text} (hamt : ' ' ∉ amt) {code : Text} (h : Reads amt code) :
    ∃ sym : Symbol, SymbolCode.ofText code = .ok sym.code ∧
      sym.precision = precisionLength amt % 256 ∧ (sym.isValid = true ↔ code ≠ []) ∧
      fromString (amt ++ ' ' :: code) = (do
        let amount ← defined (SInt.ofInt? 64 (wrappedAmount amt))
        Asset.new amount sym) := by
  have hcode : SymbolCode.ofText code = .ok ⟨BitVec.ofNat 64 (symbolEncoding code)⟩ :=
    SymbolCode.ofText_eq_ok_iff.2 ⟨h.length, h.chars, rfl⟩
  have hp : (BitVec.ofNat 8 (precisionLength amt)).toNat = precisionLength amt % 256 :=
    BitVec.toNat_ofNat _ _
  cases hsym : Symbol.ofText code (BitVec.ofNat 8 (precisionLength amt)) with
  | error e =>
    rw [Symbol.ofText, hcode, ok_bind, check_bind, hp,
      if_pos (decide_eq_true (show _ ≤ maxPrecision from h.precision))] at hsym
    cases hsym
  | ok sym =>
    obtain ⟨hc, -, hprec⟩ := Symbol.ofText_eq_ok_iff.1 hsym
    rw [hp] at hprec
    refine ⟨sym, hc, hprec, ?_, ?_⟩
    · have hle : sym.precision ≤ maxPrecision := hprec.trans_le h.precision
      rw [Symbol.isValid, Bool.and_eq_true, SymbolCode.isValid_ofText hc, decide_eq_true_iff]
      exact and_iff_left hle
    · rw [fromString_eq hamt, if_neg fun hpoint => h.point hpoint.1 hpoint.2, hsym, ok_bind]

/-- **The outcomes of `from_string`**: refused, fault, or an asset. -/
theorem fromString_cases {amt : Text} (hamt : ' ' ∉ amt) (code : Text) :
    (Refused amt code ∧ ∃ msg, fromString (amt ++ ' ' :: code) = .error (.abort msg)) ∨
    (¬Refused amt code ∧ ¬SInt.InRange 64 (wrappedAmount amt) ∧
      fromString (amt ++ ' ' :: code) = .error .fault) ∨
    (¬Refused amt code ∧ Reads amt code ∧ code ≠ [] ∧ |wrappedAmount amt| ≤ maxAmount ∧
      ∃ r, fromString (amt ++ ' ' :: code) = .ok r ∧ r.amount.val = wrappedAmount amt ∧
        r.symbol.precision = precisionLength amt % 256 ∧
        SymbolCode.ofText code = .ok r.symbol.code) := by
  by_cases hreads : Reads amt code
  · obtain ⟨sym, hcode, hprec, hvalid, heq⟩ := fromString_reads hamt hreads
    rw [heq]
    by_cases hword : SInt.InRange 64 (wrappedAmount amt)
    · rw [SInt.ofInt?_of_inRange hword, defined_some, ok_bind, Asset.new, check_bind, check_bind]
      have hrange : Asset.isAmountWithinRange ⟨⟨wrappedAmount amt, hword⟩, sym⟩ = true ↔
          |wrappedAmount amt| ≤ maxAmount := isAmountWithinRange_iff
      by_cases hmax : |wrappedAmount amt| ≤ maxAmount
      · rw [if_pos (hrange.2 hmax)]
        by_cases hne : code = []
        · exact .inl ⟨.inr ⟨hword, .inr hne⟩, "invalid symbol name",
            if_neg fun hv => hvalid.1 hv hne⟩
        · refine .inr (.inr ⟨?_, hreads, hne, hmax, ⟨⟨wrappedAmount amt, hword⟩, sym⟩, ?_, rfl,
            hprec, hcode⟩)
          · intro hrefused
            rcases hrefused with hr | ⟨-, hlarge | hnil⟩
            · exact hr hreads
            · exact absurd hmax (not_le.2 hlarge)
            · exact hne hnil
          · rw [if_pos (hvalid.2 hne)]
            rfl
      · exact .inl ⟨.inr ⟨hword, .inl (not_le.1 hmax)⟩,
          "magnitude of asset amount must be less than 2^62", if_neg fun hr => hmax (hrange.1 hr)⟩
    · refine .inr (.inl ⟨?_, hword, ?_⟩)
      · intro hrefused
        exact hrefused.elim (fun hr => hr hreads) fun hr => hword hr.1
      · rw [SInt.ofInt?, dif_neg hword]
        rfl
  · exact .inl ⟨.inl hreads, fromString_not_reads hamt hreads⟩

/-! ## Numbers -/

namespace Decimal

theorem not_mem_signed (n : Decimal) {c : Char} (hd : Text.isDigit c = false)
    (hc : c ≠ '+' ∧ c ≠ '-') : c ∉ n.sign.text ++ n.whole := by
  have hwhole := n.whole_digits.not_mem hd
  cases n.sign <;> simp [Sign.text, hwhole, hc]

theorem no_blank (n : Decimal) : ' ' ∉ n.text := by
  have hsigned := n.not_mem_signed (c := ' ') (by decide) (by decide)
  have hfrac : ' ' ∉ n.fraction := n.fraction_digits.not_mem (by decide)
  rw [text, List.mem_append]
  split <;> simp_all

/-- The integer part of the text with its sign. -/
theorem leadingInt_signed (n : Decimal) :
    Text.leadingInt (n.sign.text ++ n.whole) = n.sign.apply n.wholePart := by
  cases n.sign with
  | none => exact Text.leadingInt_digits n.whole_digits
  | plus =>
    have := Text.leadingNat_digits n.whole_digits
    exact congrArg Int.ofNat this
  | minus =>
    have := Text.leadingNat_digits n.whole_digits
    exact congrArg (fun k : Nat => -(k : Int)) this

theorem head?_text (n : Decimal) : n.text.head? = some '-' ↔ n.sign = .minus := by
  obtain ⟨d, w, hw⟩ := List.exists_cons_of_ne_nil n.whole_ne
  have hd : d ≠ '-' := by
    rintro rfl
    have := n.whole_digits '-' (by rw [hw]; exact .head _)
    exact absurd this (by decide)
  rw [text, hw]
  cases n.sign <;> simp [Sign.text, hd]

/-- The pieces that `from_string` cuts a number into. -/
theorem pieces (n : Decimal) : beforePoint n.text = n.sign.text ++ n.whole ∧
    afterPoint n.text = n.fraction ∧ ('.' ∈ n.text ↔ n.fraction ≠ []) := by
  have hsigned := n.not_mem_signed (c := '.') (by decide) (by decide)
  unfold text
  by_cases hf : n.fraction = []
  · rw [if_pos hf, List.append_nil, hf]
    obtain ⟨h1, h2⟩ := beforePoint_of_not_mem hsigned
    exact ⟨h1, h2, by simpa using hsigned⟩
  · rw [if_neg hf]
    obtain ⟨h1, h2⟩ := beforePoint_append hsigned n.fraction
    exact ⟨h1, h2, by simp [hf]⟩

theorem wrappedAmount_text (n : Decimal) : wrappedAmount n.text =
    (SInt.wrap 64 amountBits_pos (Text.int32 (n.sign.apply n.wholePart) *
      10 ^ (precisionLength n.text % 256))).val + n.sign.apply (Text.int32 n.fractionPart) := by
  obtain ⟨hbefore, hafter, -⟩ := n.pieces
  rw [wrappedAmount, hbefore, hafter, leadingInt_signed, Text.leadingInt_digits n.fraction_digits,
    if_congr n.head?_text rfl rfl, Sign.apply_eq n.sign (Text.int32 _),
    fractionPart]

theorem scaled_eq (n : Decimal) : n.scaled =
    n.sign.apply ((n.wholePart * 10 ^ n.fraction.length + n.fractionPart : Nat)) := by
  rw [scaled, Nat.ofDigitChars_append, Nat.ofDigitChars_eq_ofDigitChars_zero, mul_comm]
  rfl

theorem precisionLength_text (n : Decimal) : precisionLength n.text =
    if n.fraction = [] then n.text.length else n.fraction.length := by
  obtain ⟨-, hafter, hdot⟩ := n.pieces
  rw [precisionLength, hafter, if_congr hdot rfl rfl, ite_not]

/-- The numbers that survive the narrowing of their parts: up to 18 fraction digits, integer and
fraction part within 32 bits, the amount in range. One without a point is counted as of precision
`0` where its length is a multiple of 256. -/
def Fits (n : Decimal) : Prop :=
  n.fraction.length ≤ 18 ∧ (n.fraction = [] → 256 ∣ n.text.length) ∧
    SInt.InRange 32 (n.sign.apply n.wholePart) ∧ n.fractionPart < 2 ^ 31 ∧ |n.scaled| ≤ maxAmount

theorem precision_iff {n : Decimal} (h : n.fraction.length ≤ 18) :
    precisionLength n.text % 256 = n.fraction.length ↔ (n.fraction = [] → 256 ∣ n.text.length) := by
  rw [precisionLength_text]
  by_cases hf : n.fraction = []
  · simp [hf, Nat.dvd_iff_mod_eq_zero]
  · rw [if_neg hf, Nat.mod_eq_of_lt (by omega)]
    exact iff_of_true rfl fun h0 => absurd h0 hf

end Decimal

theorem wrap_of_abs_le {x : Int} (h : |x| ≤ 2 ^ 62) : (SInt.wrap 64 amountBits_pos x).val = x :=
  SInt.bmod_of_inRange amountBits_pos (SInt.inRange_of_abs_le h (by decide))

theorem int32_eq_iff {x : Int} : Text.int32 x = x ↔ SInt.InRange 32 x := by
  rw [Text.int32_eq, SInt.InRange]
  omega

theorem Sign.abs_apply (s : Sign) (x : Int) : |s.apply x| = |x| := by
  rw [Sign.apply_eq]
  split
  · exact abs_neg x
  · rfl

theorem Sign.apply_add_mul (s : Sign) (x y k : Int) :
    s.apply (x * k + y) = s.apply x * k + s.apply y := by
  simp only [Sign.apply_eq]
  split
  · ring
  · rfl

theorem Sign.apply_inj {s : Sign} {x y : Int} : s.apply x = s.apply y ↔ x = y := by
  simp only [Sign.apply_eq]
  split
  · exact neg_inj
  · rfl

/-- **What 32-bit parts lose.** With an amount in range the parts add up to it exactly if both
are within 32 bits. -/
theorem parts_eq_iff {s : Sign} {w f p : Nat} (hf : f < 10 ^ p)
    (hmax : |s.apply ((w * 10 ^ p + f : Nat))| ≤ maxAmount) :
    (SInt.wrap 64 amountBits_pos (Text.int32 (s.apply w) * 10 ^ p)).val +
        s.apply (Text.int32 f) = s.apply ((w * 10 ^ p + f : Nat)) ↔
      SInt.InRange 32 (s.apply w) ∧ f < 2 ^ 31 := by
  have hmaxv : maxAmount = 2 ^ 62 - 1 := rfl
  have hsum : w * 10 ^ p + f ≤ 2 ^ 62 - 1 := by
    rw [Sign.abs_apply, Int.abs_eq_natAbs, Int.natAbs_natCast] at hmax
    omega
  have hsplit : s.apply ((w * 10 ^ p + f : Nat)) = s.apply w * 10 ^ p + s.apply f := by
    push_cast
    exact Sign.apply_add_mul s w f (10 ^ p)
  have hfrac : Text.int32 f = f ↔ f < 2 ^ 31 := by
    rw [int32_eq_iff, SInt.InRange]
    omega
  have hpos : (0 : Int) < 10 ^ p := by positivity
  rw [hsplit, ← hfrac, ← int32_eq_iff]
  rcases Nat.lt_or_ge p 10 with hp | hp
  · -- the fraction fits, and the product cannot wrap
    have hpow : 10 ^ p ≤ 10 ^ 9 := Nat.pow_le_pow_right (by decide) (by omega)
    have hfit : Text.int32 f = f := hfrac.2 (by omega)
    have h32 : |Text.int32 (s.apply w)| ≤ 2 ^ 31 := by
      rw [Text.int32_eq]
      exact abs_le.2 ⟨by omega, by omega⟩
    have hprod : |Text.int32 (s.apply w) * 10 ^ p| ≤ 2 ^ 62 := by
      have hpow' : (10 : Int) ^ p ≤ 10 ^ 9 := by exact_mod_cast hpow
      rw [abs_mul, abs_of_pos hpos]
      exact (mul_le_mul h32 hpow' hpos.le (by decide)).trans (by norm_num)
    rw [wrap_of_abs_le hprod, hfit, add_left_inj, mul_left_inj' hpos.ne']
    exact (and_iff_left rfl).symm
  · -- the integer part fits, and its product is in range
    have hpow : 10 ^ 10 ≤ 10 ^ p := Nat.pow_le_pow_right (by decide) hp
    have hw : w * 10 ^ 10 ≤ 2 ^ 62 - 1 :=
      (Nat.mul_le_mul_left w hpow).trans ((Nat.le_add_right _ _).trans hsum)
    have hfit : Text.int32 (s.apply w) = s.apply w := by
      rw [int32_eq_iff]
      refine SInt.inRange_of_abs_le (b := 2 ^ 29) ?_ (by decide)
      rw [Sign.abs_apply, Int.abs_eq_natAbs, Int.natAbs_natCast]
      omega
    have hprod : |s.apply w * 10 ^ p| ≤ 2 ^ 62 := by
      rw [abs_mul, Sign.abs_apply, abs_of_pos hpos, Int.abs_eq_natAbs, Int.natAbs_natCast]
      have : w * 10 ^ p ≤ 2 ^ 62 := by omega
      exact_mod_cast this
    rw [hfit, wrap_of_abs_le hprod, add_right_inj, Sign.apply_inj]
    exact (and_iff_right rfl).symm

/-- A number reads as its own value exactly if it fits. -/
theorem Decimal.wrappedAmount_eq_iff {n : Decimal} (hmax : |n.scaled| ≤ maxAmount)
    (hprec : precisionLength n.text % 256 = n.fraction.length) :
    wrappedAmount n.text = n.scaled ↔
      SInt.InRange 32 (n.sign.apply n.wholePart) ∧ n.fractionPart < 2 ^ 31 := by
  rw [n.scaled_eq] at hmax ⊢
  rw [n.wrappedAmount_text, hprec]
  exact parts_eq_iff (Text.ofDigitChars_lt n.fraction_digits) hmax

/-- **When parsing is exact.** A text is refused, or read as the number and code it consists of,
exactly if it has no blank, or its pieces are refused, or its number fits. -/
theorem fromString_exact_iff (s : Text) : ExactOrRefused s ↔
    ' ' ∉ s ∨ ∃ amt code, s = amt ++ ' ' :: code ∧ ' ' ∉ amt ∧
      (Refused amt code ∨ ∃ n : Decimal, amt = n.text ∧ n.Fits) := by
  by_cases hblank : ' ' ∈ s
  swap
  · -- the first check fails
    have hfind : Text.find s ' ' = none := Text.find_eq_none hblank
    have habort : fromString s = .error (.abort
        "Asset's amount and symbol should be separated with space. ex. 98.00000000 WICC") := by
      unfold fromString
      simp only [trim, hfind, check_bind, Option.isSome_none, Bool.false_eq_true, if_false]
    exact iff_of_true (.inl ⟨_, habort⟩) (.inl hblank)
  obtain ⟨amt, code, rfl, hamt⟩ := exists_split hblank
  constructor
  · intro h
    refine .inr ⟨amt, code, rfl, hamt, ?_⟩
    rcases fromString_cases hamt code with ⟨hrefused, -⟩ | ⟨-, -, hfault⟩ |
      ⟨-, -, -, -, r, hok, hval, hprec, -⟩
    · exact .inl hrefused
    · -- a fault is neither an abort nor a result
      rcases h with ⟨msg, habort⟩ | ⟨n, code', r, -, -, -, hok, -⟩
      · rw [hfault] at habort
        cases habort
      · rw [hfault] at hok
        cases hok
    · rcases h with ⟨msg, habort⟩ | ⟨n, code', r', heq, hlen, -, hok', hprec', -, hval', hmax⟩
      · rw [hok] at habort
        cases habort
      · obtain ⟨rfl, rfl⟩ := split_unique hamt n.no_blank heq
        rw [hok] at hok'
        cases hok'
        have hprecision := hprec.symm.trans hprec'
        have hparts := (n.wrappedAmount_eq_iff hmax hprecision).1 (hval.symm.trans hval')
        exact .inr ⟨n, rfl, hlen, (Decimal.precision_iff hlen).1 hprecision, hparts.1, hparts.2,
          hmax⟩
  · intro h
    rcases h with hno | ⟨amt', code', heq, hamt', hcond⟩
    · exact absurd hblank hno
    obtain ⟨rfl, rfl⟩ := split_unique hamt hamt' heq
    rcases fromString_cases hamt code with ⟨-, habort⟩ | ⟨hnot, hword, -⟩ |
      ⟨hnot, hreads, hne, hmax, r, hok, hval, hprec, hcode⟩
    · exact .inl habort
    · obtain ⟨n, rfl, hlen, hdvd, hwhole, hfrac, hmax⟩ := hcond.resolve_left hnot
      have heq := (n.wrappedAmount_eq_iff hmax ((Decimal.precision_iff hlen).2 hdvd)).2
        ⟨hwhole, hfrac⟩
      rw [heq] at hword
      exact absurd (SInt.inRange_of_abs_le hmax (by decide)) hword
    · obtain ⟨n, rfl, hlen, hdvd, hwhole, hfrac, hmax⟩ := hcond.resolve_left hnot
      have hprecision := (Decimal.precision_iff hlen).2 hdvd
      have heq := (n.wrappedAmount_eq_iff hmax hprecision).2 ⟨hwhole, hfrac⟩
      exact .inr ⟨n, code, r, rfl, hlen, ⟨hne, hreads.length, hreads.chars⟩, hok,
        hprec.trans hprecision, hcode, hval.trans heq, hmax⟩

/-- Three billion units, read as a negative amount. -/
theorem fromString_large_whole :
    fromString "3000000000.0 WICC".toList = .ok ⟨⟨-12949672960, by decide⟩, wicc1⟩ ∧
      ¬ExactOrRefused "3000000000.0 WICC".toList := by
  have hok : fromString "3000000000.0 WICC".toList = .ok ⟨⟨-12949672960, by decide⟩, wicc1⟩ := by
    decide +kernel
  refine ⟨hok, fun h => ?_⟩
  rcases h with ⟨msg, habort⟩ | ⟨n, code, r, heq, -, -, hok', -, -, hval, -⟩
  · rw [hok] at habort
    cases habort
  · rw [hok] at hok'
    cases hok'
    have hsplit : "3000000000.0".toList ++ ' ' :: "WICC".toList = n.text ++ ' ' :: code := heq
    obtain ⟨htext, -⟩ := split_unique (by decide) n.no_blank hsplit
    have hsign : n.sign ≠ .minus := fun hminus => by
      have := n.head?_text.2 hminus
      rw [← htext] at this
      exact absurd this (by decide)
    rw [Decimal.scaled, Sign.apply_eq, if_neg hsign] at hval
    change (-12949672960 : Int) = _ at hval
    omega

end Wasmlib
