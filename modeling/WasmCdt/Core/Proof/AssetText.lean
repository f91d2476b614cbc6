import WasmCdt.Core.Proof.AssetArith

/-!
# The text form of assets

What `to_string` prints and `from_string` makes of it.

* `toStr_eq`: a valid asset prints its quotient and remainder by the power of ten.
* `fromString_text`: the text parses to the integer and the fraction part, each through the 32-bit
  `atoi`, with the sign of the integer part's text.
* `fromString_toStr_iff`: exactly when an asset survives the round trip.
-/

namespace Wasmlib

open Asset

/-! ## Symbols -/

theorem toNat_low (v : BitVec 64) : (v &&& 0xff).toNat = v.toNat % 256 := by
  rw [BitVec.toNat_and]
  exact Nat.and_two_pow_sub_one_eq_mod _ 8

theorem toNat_shift (v : BitVec 64) : (v >>> 8).toNat = v.toNat / 256 := by
  rw [BitVec.toNat_ushiftRight, Nat.shiftRight_eq_div_pow]

/-- A word is its upper bytes and its lowest one. -/
theorem shift_or_low (v : BitVec 64) : ((v >>> 8) <<< 8) ||| (v &&& 0xff) = v := by
  apply BitVec.eq_of_toNat_eq
  have hlt := v.isLt
  have hlow : v.toNat % 256 < 2 ^ 8 := Nat.mod_lt _ (by decide)
  have hup : (v.toNat / 256) <<< 8 % 2 ^ 64 = (v.toNat / 256) <<< 8 := by
    rw [Nat.shiftLeft_eq]
    omega
  rw [BitVec.toNat_or, BitVec.toNat_shiftLeft, toNat_shift, toNat_low, hup,
    ← Nat.shiftLeft_add_eq_or_of_lt hlow, Nat.shiftLeft_eq]
  omega

theorem lowChar_toNat (v : BitVec 64) : (lowChar v).toNat = (v &&& 0xff).toNat := by
  have hlt : (v &&& 0xff).toNat < 256 := by
    rw [toNat_low]
    omega
  have hvalid : (v &&& 0xff).toNat.isValidChar := .inl (by omega)
  unfold lowChar Char.ofNat
  rw [dif_pos hvalid]
  rfl

/-- A word of which `zeroTail` has seen all bytes is zero. -/
theorem zeroTail_eq_zero : ∀ {n : Nat} {v : BitVec 64}, v.toNat < 256 ^ (n + 1) →
    v &&& 0xff = 0 → zeroTail n v = true → v = 0
  | 0, v, hv, h0, _ => by
    have h := congrArg BitVec.toNat h0
    rw [toNat_low] at h
    exact BitVec.eq_of_toNat_eq ((Nat.mod_eq_of_lt hv).symm.trans h)
  | n + 1, v, hv, h0, hz => by
    rw [zeroTail] at hz
    split at hz
    · cases hz
    · rename_i hlow
      have hshift : v >>> 8 = 0 := zeroTail_eq_zero (n := n) (by
        rw [toNat_shift]
        exact Nat.div_lt_of_lt_mul (by rw [Nat.mul_comm, ← pow_succ]; exact hv)) (not_not.1 hlow) hz
      have := shift_or_low v
      rw [hshift, h0] at this
      exact this.symm

/-- **A valid code reads back from its text.** -/
theorem symbolCodeLoop_writeAsString : ∀ {n : Nat} {v : BitVec 64}, n ≤ 7 → v.toNat < 256 ^ n →
    isValidLoop n v = true → symbolCodeLoop (writeAsString n v) = .ok v ∧
      (writeAsString n v).length ≤ n ∧
      ∀ c ∈ writeAsString n v, validCharacterInSymbolName c = true
  | 0, v, _, hv, _ => by
    obtain rfl : v = 0 := BitVec.eq_of_toNat_eq (by simpa using hv)
    exact ⟨rfl, Nat.le_refl _, by simp [writeAsString]⟩
  | n + 1, v, hn, hv, h => by
    rw [isValidLoop] at h
    split at h
    · cases h
    rename_i hchar
    have hchar : validCharacterInSymbolName (lowChar v) = true := by simpa using hchar
    have hne : v ≠ 0 := by
      rintro rfl
      exact absurd hchar (by decide)
    have hshift : (v >>> 8).toNat < 256 ^ n := by
      rw [toNat_shift]
      exact Nat.div_lt_of_lt_mul (by rw [Nat.mul_comm, ← pow_succ]; exact hv)
    -- the rest of the text is empty, or valid
    have hrest : symbolCodeLoop (writeAsString n (v >>> 8)) = .ok (v >>> 8) ∧
        (writeAsString n (v >>> 8)).length ≤ n ∧
        ∀ c ∈ writeAsString n (v >>> 8), validCharacterInSymbolName c = true := by
      split at h
      · rename_i hlow
        have hzero : v >>> 8 = 0 := zeroTail_eq_zero (hshift.trans_le
          (Nat.pow_le_pow_right (by decide) (by omega))) hlow h
        rw [hzero]
        cases n <;> exact ⟨rfl, by simp [writeAsString], by simp [writeAsString]⟩
      · exact symbolCodeLoop_writeAsString (by omega) hshift h
    obtain ⟨hloop, hlen, hmem⟩ := hrest
    rw [writeAsString, if_neg hne]
    refine ⟨?_, by simpa using hlen, List.forall_mem_cons.2 ⟨hchar, hmem⟩⟩
    rw [symbolCodeLoop, hloop, ok_bind, check_bind, if_pos hchar, lowChar_toNat,
      BitVec.ofNat_toNat, BitVec.setWidth_eq]
    exact congrArg Except.ok (shift_or_low v)

theorem code_raw_lt (s : Symbol) : s.code.raw.toNat < 256 ^ 7 := by
  have := s.raw.isLt
  simp only [Symbol.code, toNat_shift]
  omega

theorem precision_lt (s : Symbol) : s.precision < 256 := by
  rw [Symbol.precision, toNat_low]
  omega

/-- A code's text with a precision makes the symbol of that precision. -/
theorem Symbol.ofText_code {s : Symbol} (hs : s.isValid = true) (p : BitVec 8) :
    Symbol.ofText s.code.toStr p = if p.toNat ≤ maxPrecision then
      .ok ⟨(s.code.raw <<< 8) ||| p.setWidth 64⟩
    else .error (.abort "precision should be <= 18") := by
  obtain ⟨hloop, hlen, -⟩ := symbolCodeLoop_writeAsString (Nat.le_refl 7) (code_raw_lt s)
    (Bool.and_eq_true_iff.1 hs).1
  rw [Symbol.ofText, SymbolCode.ofText, SymbolCode.toStr, check_bind, if_pos (by simpa using hlen),
    hloop, ok_bind, pure_eq_ok, ok_bind, check_bind]
  simp

theorem Symbol.precision_mk (c : BitVec 64) (p : BitVec 8) :
    (⟨(c <<< 8) ||| p.setWidth 64⟩ : Symbol).precision = p.toNat := by
  have hp := p.isLt
  have hup : c.toNat <<< 8 % 2 ^ 64 % 2 ^ 8 = 0 := by
    rw [Nat.shiftLeft_eq]
    omega
  rw [Symbol.precision, toNat_low, BitVec.toNat_or, BitVec.toNat_shiftLeft, BitVec.toNat_setWidth,
    show 256 = 2 ^ 8 from rfl, Nat.or_mod_two_pow, hup, Nat.zero_or]
  omega

theorem Symbol.eq_of_precision {s : Symbol} {p : BitVec 8} (hp : p.toNat = s.precision) :
    (⟨(s.code.raw <<< 8) ||| p.setWidth 64⟩ : Symbol) = s := by
  have hlow : p.setWidth 64 = s.raw &&& 0xff := by
    apply BitVec.eq_of_toNat_eq
    rw [BitVec.toNat_setWidth, hp, Nat.mod_eq_of_lt ((precision_lt s).trans (by decide))]
    rfl
  rw [hlow]
  exact congrArg Symbol.mk (shift_or_low s.raw)

/-! ## Printing -/

theorem pow10Loop_eq : ∀ {p : Nat} {x : SInt 64}, 0 ≤ x.val → x.val * 10 ^ p < 2 ^ 63 →
    ∃ y : SInt 64, Asset.pow10Loop p x = .ok y ∧ y.val = x.val * 10 ^ p
  | 0, x, _, _ => ⟨x, rfl, by simp⟩
  | p + 1, x, h0, hlt => by
    rw [pow_succ, mul_comm (10 ^ p), ← mul_assoc] at hlt
    have hpow : (1 : Int) ≤ 10 ^ p := one_le_pow₀ (by decide)
    have hten : x.val * 10 ≤ x.val * 10 * 10 ^ p := le_mul_of_one_le_right (by omega) hpow
    have hr : SInt.InRange 64 (x.val * Asset.ten.val) := ⟨by change _ ≤ x.val * 10; omega, by
      change x.val * 10 < _
      omega⟩
    obtain ⟨y, hy, hval⟩ := pow10Loop_eq (p := p) (x := ⟨_, hr⟩) (by change 0 ≤ x.val * 10; omega)
      hlt
    refine ⟨y, ?_, ?_⟩
    · rw [Asset.pow10Loop, SInt.mul, SInt.ofInt?_of_inRange hr, defined_some, ok_bind]
      exact hy
    · rw [hval, pow_succ, mul_comm (10 ^ p), ← mul_assoc]
      rfl

theorem digit_isDigit {d : Nat} (hd : d < 10) :
    Text.isDigit (Char.ofNat ('0'.toNat + d)) = true ∧
      (Char.ofNat ('0'.toNat + d)).toNat - '0'.toNat = d := by
  revert d
  decide

/-- The last digit of a fraction, and the others. -/
theorem fractionLoop_succ (p c : Nat) (str : Text) : fractionLoop (p + 1) c str =
    fractionLoop p ((c / 10 : Nat) : Int) (Char.ofNat ('0'.toNat + c % 10) :: str) := by
  rw [fractionLoop]
  rfl

theorem fractionLoop_append : ∀ (p c : Nat) (str : Text),
    fractionLoop p c str = fractionLoop p c [] ++ str
  | 0, _, _ => rfl
  | p + 1, c, str => by
    rw [fractionLoop_succ, fractionLoop_succ, fractionLoop_append p _ (_ :: str),
      fractionLoop_append p _ [_], List.append_assoc]
    rfl

theorem fractionLoop_spec : ∀ (p c : Nat), Text.IsDigits (fractionLoop p c []) ∧
    (fractionLoop p c []).length = p ∧ Nat.ofDigitChars 10 (fractionLoop p c []) 0 = c % 10 ^ p
  | 0, c => ⟨by simp [fractionLoop, Text.IsDigits], rfl, by simp [fractionLoop, Nat.mod_one]⟩
  | p + 1, c => by
    obtain ⟨hdig, hlen, hval⟩ := fractionLoop_spec p (c / 10)
    have hd := digit_isDigit (Nat.mod_lt c (show 0 < 10 by decide))
    rw [fractionLoop_succ, fractionLoop_append]
    refine ⟨fun d hd' => ?_, by rw [List.length_append, hlen]; rfl, ?_⟩
    · rcases List.mem_append.1 hd' with hd' | hd'
      · exact hdig d hd'
      · exact List.mem_singleton.1 hd' ▸ hd.1
    · rw [Nat.ofDigitChars_append, hval, Nat.ofDigitChars_cons, Nat.ofDigitChars_nil, hd.2,
        pow_succ, mul_comm (10 ^ p), Nat.mod_mul]
      omega

/-- The remainder with its sign taken off. -/
theorem tmod_mul_sign (x : Int) (m : Nat) :
    x.tmod m * (if x < 0 then -1 else 1) = ((x.natAbs % m : Nat) : Int) := by
  obtain ⟨n, rfl | rfl⟩ := x.eq_nat_or_neg
  · rw [if_neg (by omega), mul_one, Int.natAbs_natCast]
    rfl
  · rw [Int.natAbs_neg, Int.natAbs_natCast, Int.neg_tmod]
    rcases Nat.eq_zero_or_pos n with rfl | hn
    · simp
    · rw [if_pos (by omega), neg_mul_neg, mul_one]
      rfl

theorem length_decimal {x : Int} (h : x.natAbs < 10 ^ 19) : (Text.decimal x).length ≤ 20 := by
  have hlen := (Nat.length_toDigits_le_iff (b := 10) (by decide) (by decide)).2 h
  unfold Text.decimal
  split
  · rw [List.length_cons]
    omega
  · omega

def Asset.wholePart (a : Asset) : Int := a.amount.val.tdiv (10 ^ a.symbol.precision)

def Asset.fractionPart (a : Asset) : Nat := a.amount.val.natAbs % 10 ^ a.symbol.precision

/-- The digits after the point. -/
def fractionText (a : Asset) : Text := fractionLoop a.symbol.precision a.fractionPart []

/-- The number of an asset's text. -/
def amountText (a : Asset) : Text :=
  Text.decimal a.wholePart ++
    if a.symbol.precision = 0 then [] else '.' :: fractionText a

theorem fractionText_spec (a : Asset) : Text.IsDigits (fractionText a) ∧
    (fractionText a).length = a.symbol.precision ∧ Nat.ofDigitChars 10 (fractionText a) 0 =
      a.fractionPart := by
  obtain ⟨hdig, hlen, hval⟩ := fractionLoop_spec a.symbol.precision
    (a.fractionPart)
  exact ⟨hdig, hlen, hval.trans (Nat.mod_mod _ _)⟩

theorem isValid_iff {a : Asset} : a.isValid = true ↔
    a.InRange ∧ a.symbol.code.isValid = true ∧ a.symbol.precision ≤ 18 := by
  rw [Asset.isValid, Symbol.isValid, Bool.and_eq_true, Bool.and_eq_true, isAmountWithinRange_iff,
    decide_eq_true_iff]
  rfl

theorem length_amountText {a : Asset} (ha : a.InRange) :
    (amountText a).length ≤ 21 + a.symbol.precision := by
  have hq : |a.wholePart| ≤ maxAmount := (SInt.abs_tdiv_le _ _).trans ha
  have hdec : (Text.decimal a.wholePart).length ≤ 20 := by
    refine length_decimal ?_
    have h := (Int.abs_eq_natAbs _).symm.trans_le hq
    have hmax : maxAmount < 10 ^ 19 := by decide
    omega
  unfold amountText
  split
  · simp only [List.append_nil]
    omega
  · simp only [List.length_append, List.length_cons, (fractionText_spec a).2.1]
    omega

/-- **What a valid asset prints.** -/
theorem toStr_eq {a : Asset} (ha : a.isValid = true) :
    a.toStr = .ok (amountText a ++ ' ' :: a.symbol.code.toStr) := by
  obtain ⟨hrange, hcode, hprec⟩ := isValid_iff.1 ha
  have hpow : (10 : Int) ^ a.symbol.precision ≤ 10 ^ 18 := pow_le_pow_right₀ (by decide) hprec
  have hpos : (0 : Int) < 10 ^ a.symbol.precision := by positivity
  obtain ⟨p10, hp10, hval⟩ := pow10Loop_eq (p := a.symbol.precision) (x := ⟨1, by decide⟩)
    (by decide) (by rw [one_mul]; omega)
  rw [one_mul] at hval
  have hcast : ((10 ^ a.symbol.precision : Nat) : Int) = 10 ^ a.symbol.precision := by
    push_cast
    rfl
  have hne : p10.val ≠ 0 := by omega
  have hlt : a.fractionPart < 10 ^ a.symbol.precision := Nat.mod_lt _ (by positivity)
  obtain ⟨rem, hrem, hremval⟩ := SInt.mod_of_pos a.amount (hval ▸ hpos)
  obtain ⟨change, hchange, hchangeval⟩ : ∃ change : SInt 64,
      rem.mul (if a.amount.val < 0 then ⟨-1, by decide⟩ else ⟨1, by decide⟩) = some change ∧
      change.val = ((a.fractionPart : Nat) : Int) := by
    have hsign := tmod_mul_sign a.amount.val (10 ^ a.symbol.precision)
    rw [hcast, ← hval, ← hremval] at hsign
    have hif : (if a.amount.val < 0 then (⟨-1, by decide⟩ : SInt 64) else ⟨1, by decide⟩).val =
        if a.amount.val < 0 then -1 else 1 := by split <;> rfl
    exact SInt.mul_of_inRange (hif ▸ hsign) ⟨by omega, by omega⟩
  obtain ⟨whole, hwhole, hwholeval, hwholerange⟩ := div_eq hrange hne
  simp only [toStr, hp10, ok_bind, hrem, defined_some, hchange, hwhole, pure_eq_ok]
  have hfrac : fractionLoop a.symbol.precision change.val [] = fractionText a := by
    rw [hchangeval]
    rfl
  have htext : Text.decimal whole.val ++ (if fractionText a ≠ [] then ['.'] else []) ++
      fractionText a = amountText a := by
    have hlen := (fractionText_spec a).2.1
    rw [show whole.val = a.wholePart by rw [hwholeval, hval]; rfl, amountText, List.append_assoc]
    by_cases h0 : a.symbol.precision = 0
    · rw [h0] at hlen
      simp [h0, List.length_eq_zero_iff.1 hlen]
    · have hfne : fractionText a ≠ [] := fun he => h0 (by rw [← hlen, he]; rfl)
      simp [h0, hfne]
  -- the buffer holds the text
  have hfits : (amountText a ++ ' ' :: a.symbol.code.toStr).length ≤ a.symbol.precision + 31 := by
    have h1 := length_amountText hrange
    have h2 := (symbolCodeLoop_writeAsString (Nat.le_refl 7) (code_raw_lt a.symbol) hcode).2.1
    rw [List.length_append, List.length_cons, SymbolCode.toStr]
    omega
  rw [hfrac, htext, snprintf]
  exact congrArg Except.ok (List.take_of_length_le hfits)

/-! ## Parsing -/

theorem blank_not_mem_amountText (a : Asset) : ' ' ∉ amountText a := by
  unfold amountText
  have hdec := Text.not_mem_decimal (c := ' ') (by decide) (by decide)
    a.wholePart
  have hfrac : ' ' ∉ fractionText a := (fractionText_spec a).1.not_mem (by decide)
  split <;> simp [hdec, hfrac]

/-- The sign of the number is the quotient's. -/
theorem head?_amountText (a : Asset) : (amountText a).head? = some '-' ↔ a.wholePart < 0 := by
  rw [← Text.head?_decimal, amountText, List.head?_append_of_ne_nil]
  exact Text.decimal_ne_nil _

/-- The blank in front of the code is the first one. -/
theorem find_blank (a : Asset) (t : Text) :
    Text.find (amountText a ++ ' ' :: t) ' ' = some (amountText a).length :=
  Text.find_append (blank_not_mem_amountText a) t

theorem amountBits_pos : 0 < 64 := by decide

/-- The amount that a text with precision `p` parses to: integer part `i`, fraction part `f`. -/
def parsedAmount (p : Nat) (i f : Int) : Exec (SInt 64) :=
  defined (SInt.ofInt? 64 ((SInt.wrap 64 amountBits_pos (i * 10 ^ p)).val + f))

theorem precisionLoop_toNat : ∀ {p : Nat} {x : BitVec 64}, x.toNat * 10 ^ p < 2 ^ 64 →
    (precisionLoop p x).toNat = x.toNat * 10 ^ p
  | 0, x, _ => by simp [precisionLoop]
  | p + 1, x, h => by
    rw [pow_succ, mul_comm (10 ^ p), ← mul_assoc] at h ⊢
    have hpow : 1 ≤ 10 ^ p := Nat.one_le_pow _ _ (by decide)
    have hten : x.toNat * 10 ≤ x.toNat * 10 * 10 ^ p := Nat.le_mul_of_pos_right _ hpow
    have hx : (x * 10).toNat = x.toNat * 10 := by
      rw [BitVec.toNat_mul]
      exact Nat.mod_eq_of_lt (hten.trans_lt h)
    rw [precisionLoop, precisionLoop_toNat (by rwa [hx]), hx]

theorem precisionIn10_eq {s : Symbol} (h : s.precision ≤ 18) :
    ∃ p10, s.precisionIn10 = .ok p10 ∧ (p10.toNat : Int) = 10 ^ s.precision := by
  refine ⟨precisionLoop s.precision 1, ?_, ?_⟩
  · rw [Symbol.precisionIn10, check_bind, if_pos (decide_eq_true (show _ ≤ maxPrecision from h))]
    rfl
  · have hpow : 10 ^ s.precision ≤ 10 ^ 18 := Nat.pow_le_pow_right (by decide) h
    have hone : (1 : BitVec 64).toNat = 1 := rfl
    rw [precisionLoop_toNat (by rw [hone]; omega), hone]
    simp

theorem new_eq_ok {x : SInt 64} {s : Symbol} {r : Asset} (h : Asset.new x s = .ok r) :
    r = ⟨x, s⟩ := by
  rw [Asset.new, check_bind] at h
  split at h
  · rw [check_bind] at h
    split at h
    · exact (Except.ok.inj h).symm
    · cases h
  · cases h

/-- **What the text of a valid asset parses to**, when it has a point. -/
theorem fromString_text {a : Asset} (ha : a.isValid = true) (hp : a.symbol.precision ≠ 0) :
    fromString (amountText a ++ ' ' :: a.symbol.code.toStr) = (do
      let amount ← parsedAmount a.symbol.precision (Text.int32 a.wholePart)
        (if a.wholePart < 0 then -Text.int32 a.fractionPart else Text.int32 a.fractionPart)
      Asset.new amount a.symbol) := by
  obtain ⟨hrange, hcode, hprec⟩ := isValid_iff.1 ha
  obtain ⟨hdig, hlen, hvalue⟩ := fractionText_spec a
  have hamount : amountText a = Text.decimal a.wholePart ++ '.' :: fractionText a := by
    rw [amountText, if_neg hp]
  have hdot : Text.find (amountText a) '.' = some (Text.decimal a.wholePart).length := by
    rw [hamount]
    exact Text.find_append (Text.not_mem_decimal (by decide) (by decide) _) _
  have hsize : (amountText a).length =
      (Text.decimal a.wholePart).length + 1 + a.symbol.precision := by
    rw [hamount, List.length_append, List.length_cons, hlen]
    omega
  -- the digits after the point make the precision
  have hprec8 : (BitVec.ofInt 8 (((amountText a).length : Int) -
      (Text.decimal a.wholePart).length - 1)).toNat = a.symbol.precision := by
    rw [hsize, BitVec.toNat_ofInt]
    omega
  obtain ⟨p10, hp10, hp10val⟩ := precisionIn10_eq hprec
  have hsym := Symbol.ofText_code (Bool.and_eq_true_iff.1 ha).2 (BitVec.ofInt 8
    (((amountText a).length : Int) - (Text.decimal a.wholePart).length - 1))
  rw [hprec8, if_pos (show _ ≤ maxPrecision from hprec), Symbol.eq_of_precision hprec8] at hsym
  have hdotne : some (Text.decimal a.wholePart).length ≠ some ((amountText a).length - 1) :=
    fun h => by have := Option.some.inj h; omega
  have hbefore : Text.substr (amountText a) 0 (Text.decimal a.wholePart).length =
      Text.decimal a.wholePart := by rw [hamount, Text.substr_append]
  have hafter : (amountText a).drop ((Text.decimal a.wholePart).length + 1) = fractionText a := by
    rw [hamount, Text.drop_append_cons]
  simp only [fromString, trim, find_blank, Option.getD_some, Text.substr_append,
    Text.drop_append_cons, hdot, hdotne, hsym, hp10, ok_bind, check_bind, Option.isSome_some,
    hbefore, hafter, head?_amountText, Text.atoi_decimal, Text.atoi_digits hdig, hvalue,
    ne_eq, not_false_eq_true, decide_true, if_true]
  rw [hp10val]
  rfl

/-- Without a point the length of the number is taken for the precision. -/
theorem fromString_no_point {a : Asset} (ha : a.isValid = true) (hp : a.symbol.precision = 0) :
    fromString (amountText a ++ ' ' :: a.symbol.code.toStr) ≠ .ok a := by
  obtain ⟨hrange, -, -⟩ := isValid_iff.1 ha
  have hamount : amountText a = Text.decimal a.wholePart := by
    rw [amountText, if_pos hp, List.append_nil]
  have hdot : Text.find (amountText a) '.' = none := by
    rw [hamount]
    exact Text.find_eq_none (Text.not_mem_decimal (by decide) (by decide) _)
  have hlen : 0 < (amountText a).length ∧ (amountText a).length ≤ 21 := by
    refine ⟨?_, by have := length_amountText hrange; omega⟩
    rw [hamount]
    exact List.length_pos_of_ne_nil (Text.decimal_ne_nil _)
  have hprec8 : (BitVec.ofInt 8 (((amountText a).length : Int) - (npos : Nat) - 1)).toNat =
      (amountText a).length := by
    rw [BitVec.toNat_ofInt, npos]
    omega
  intro h
  simp only [fromString, trim, find_blank, Option.getD_some, Option.getD_none, Text.substr_append,
    Text.drop_append_cons, hdot, check_bind, Option.isSome_some, ne_eq, reduceCtorEq,
    not_false_eq_true, decide_true, if_true] at h
  obtain ⟨sym, hsym, h⟩ := bind_eq_ok h
  obtain ⟨p10, -, h⟩ := bind_eq_ok h
  obtain ⟨amount, -, h⟩ := bind_eq_ok h
  have hsa : sym = a.symbol := (congrArg Asset.symbol (new_eq_ok h)).symm
  rw [Symbol.ofText_code (Bool.and_eq_true_iff.1 ha).2, hprec8] at hsym
  split at hsym
  · have hlow : sym.precision = (amountText a).length := by
      cases hsym
      rw [Symbol.precision_mk, hprec8]
    rw [hsa, hp] at hlow
    omega
  · cases hsym

/-! ## The round trip -/

/-- The assets that survive: precision at least one, an integer part within 32 bits, a fraction
below `2 ^ 31`, and no negative amount smaller than one unit, whose sign is not printed. (At
`-2 ^ 31` with ten digits or more the lost sign and the overflow of `atoi` cancel.) -/
def Asset.RoundTrips (a : Asset) : Prop :=
  1 ≤ a.symbol.precision ∧ SInt.InRange 32 a.wholePart ∧
    ((a.fractionPart < 2 ^ 31 ∧ ¬(a.amount.val < 0 ∧ a.amount.val.natAbs < 10 ^ a.symbol.precision)) ∨
      (a.amount.val = -2 ^ 31 ∧ 10 ≤ a.symbol.precision))

/-- Integer and fraction part, with the signs division gives them. -/
theorem amount_split (a : Asset) : a.amount.val = a.wholePart * 10 ^ a.symbol.precision +
      (if a.amount.val < 0 then -(a.fractionPart : Int) else a.fractionPart) ∧
    a.fractionPart < 10 ^ a.symbol.precision ∧
    (a.wholePart < 0 ↔ a.amount.val < 0 ∧ 10 ^ a.symbol.precision ≤ a.amount.val.natAbs) := by
  have hpos : 0 < 10 ^ a.symbol.precision := Nat.pow_pos (by decide)
  have hcast : ((10 ^ a.symbol.precision : Nat) : Int) = 10 ^ a.symbol.precision := by
    push_cast
    rfl
  have hsign := tmod_mul_sign a.amount.val (10 ^ a.symbol.precision)
  have hdiv := Int.mul_tdiv_add_tmod a.amount.val (10 ^ a.symbol.precision)
  rw [hcast] at hsign
  have hsplit : a.amount.val = a.wholePart * 10 ^ a.symbol.precision +
      (if a.amount.val < 0 then -(a.fractionPart : Int) else a.fractionPart) := by
    rw [mul_comm] at hdiv
    split at hsign <;> rename_i h0 <;> simp only [h0, if_true, if_false] <;>
      unfold Asset.wholePart Asset.fractionPart <;> omega
  have hlt : a.fractionPart < 10 ^ a.symbol.precision := Nat.mod_lt _ hpos
  refine ⟨hsplit, hlt, ?_⟩
  have hneg : a.wholePart < 0 → a.wholePart * 10 ^ a.symbol.precision ≤ -10 ^ a.symbol.precision :=
    fun h => by nlinarith
  have hnonneg : 0 ≤ a.wholePart → 0 ≤ a.wholePart * 10 ^ a.symbol.precision :=
    fun h => mul_nonneg h (by positivity)
  split at hsplit <;> omega

theorem whole_mul_le (a : Asset) :
    |a.wholePart * 10 ^ a.symbol.precision| ≤ |a.amount.val| := by
  rw [Int.abs_eq_natAbs, Int.abs_eq_natAbs, Int.natAbs_mul, Asset.wholePart, Int.natAbs_tdiv]
  exact_mod_cast Nat.div_mul_le_self _ _

/-- Ten digits leave an integer part of 32 bits. -/
theorem wholePart_small {a : Asset} (ha : a.InRange) (hp : 10 ≤ a.symbol.precision) :
    SInt.InRange 32 a.wholePart := by
  have hpow : (10 : Int) ^ 10 ≤ 10 ^ a.symbol.precision := pow_le_pow_right₀ (by decide) hp
  have hmul := (whole_mul_le a).trans ha
  rw [abs_mul, abs_of_pos (show (0 : Int) < 10 ^ a.symbol.precision by positivity)] at hmul
  have hle : |a.wholePart| * 10 ^ 10 ≤ maxAmount :=
    (mul_le_mul_of_nonneg_left hpow (abs_nonneg _)).trans hmul
  have hmax : maxAmount = 2 ^ 62 - 1 := rfl
  exact SInt.inRange_of_abs_le (b := 2 ^ 29) (by omega) (by decide)

theorem int32_of_inRange {x : Int} (h : SInt.InRange 32 x) : Text.int32 x = x :=
  SInt.bmod_of_inRange (by decide) h

/-- The parsed parts stay in the word, so that only `atoi` can lose anything. -/
theorem parsedAmount_eq {a : Asset} (ha : a.InRange) (f : Int) :
    parsedAmount a.symbol.precision (Text.int32 a.wholePart) f =
      defined (SInt.ofInt? 64 (Text.int32 a.wholePart * 10 ^ a.symbol.precision + f)) := by
  have hfit : |Text.int32 a.wholePart * 10 ^ a.symbol.precision| ≤ 2 ^ 62 := by
    rcases Nat.lt_or_ge a.symbol.precision 10 with hp | hp
    · have hpow : (10 : Int) ^ a.symbol.precision ≤ 10 ^ 9 :=
        pow_le_pow_right₀ (by decide) (by omega)
      have h32 : |Text.int32 a.wholePart| ≤ 2 ^ 31 := by
        rw [Text.int32_eq]
        exact abs_le.2 ⟨by omega, by omega⟩
      rw [abs_mul, abs_of_pos (show (0 : Int) < 10 ^ a.symbol.precision by positivity)]
      exact (mul_le_mul h32 hpow (by positivity) (by decide)).trans (by norm_num)
    · rw [int32_of_inRange (wholePart_small ha hp)]
      exact ((whole_mul_le a).trans ha).trans (by decide)
  have hwrap : (SInt.wrap 64 amountBits_pos
      (Text.int32 a.wholePart * 10 ^ a.symbol.precision)).val =
        Text.int32 a.wholePart * 10 ^ a.symbol.precision :=
    SInt.bmod_of_inRange amountBits_pos (SInt.inRange_of_abs_le hfit (by decide))
  rw [parsedAmount, hwrap]

/-- The parsed amount is the asset's exactly on the assets that survive. -/
theorem parsed_eq_iff {a : Asset} (ha : a.InRange) (hp : a.symbol.precision ≠ 0) :
    Text.int32 a.wholePart * 10 ^ a.symbol.precision +
        (if a.wholePart < 0 then -Text.int32 a.fractionPart else Text.int32 a.fractionPart) =
      a.amount.val ↔ a.RoundTrips := by
  obtain ⟨hsplit, hlt, hsign⟩ := amount_split a
  have hpos : 0 < 10 ^ a.symbol.precision := Nat.pow_pos (by decide)
  have hcast : ((10 ^ a.symbol.precision : Nat) : Int) = 10 ^ a.symbol.precision := by
    push_cast
    rfl
  have hfrac := Text.int32_eq a.fractionPart
  have hzero : a.wholePart = 0 → a.wholePart * 10 ^ a.symbol.precision = 0 := fun h => by simp [h]
  have hunit : 0 < a.wholePart →
      (10 : Int) ^ a.symbol.precision ≤ a.wholePart * 10 ^ a.symbol.precision := fun h => by nlinarith
  rw [Asset.RoundTrips]
  rcases Nat.lt_or_ge a.symbol.precision 10 with h10 | h10
  · -- the fraction fits, so only the integer part and the sign count
    have hpow : 10 ^ a.symbol.precision ≤ 10 ^ 9 := Nat.pow_le_pow_right (by decide) (by omega)
    have hfit : Text.int32 a.fractionPart = a.fractionPart := by omega
    have hwhole := Text.int32_eq a.wholePart
    obtain ⟨k, hk⟩ : ∃ k, Text.int32 a.wholePart = a.wholePart - 2 ^ 32 * k :=
      ⟨(a.wholePart + 2 ^ 31) / 2 ^ 32, by omega⟩
    have hmul : Text.int32 a.wholePart * 10 ^ a.symbol.precision =
        a.wholePart * 10 ^ a.symbol.precision - 2 ^ 32 * (k * 10 ^ a.symbol.precision) := by
      rw [hk]
      ring
    have hkpos : 0 < k → (10 : Int) ^ a.symbol.precision ≤ k * 10 ^ a.symbol.precision :=
      fun h => by nlinarith
    have hkneg : k < 0 → k * 10 ^ a.symbol.precision ≤ -(10 : Int) ^ a.symbol.precision :=
      fun h => by nlinarith
    have hk0 : k = 0 → k * 10 ^ a.symbol.precision = 0 := fun h => by simp [h]
    have hin : SInt.InRange 32 a.wholePart ↔ k = 0 := by
      unfold SInt.InRange
      omega
    rw [hin, hmul, hfit]
    split at hsplit <;> split <;> omega
  · have hin := wholePart_small ha h10
    rw [int32_of_inRange hin]
    split at hsplit <;> split <;> simp only [hin, true_and] <;> omega

/-- **Which assets survive the round trip.** -/
theorem fromString_toStr_iff {a : Asset} (ha : a.isValid = true) :
    (∃ text, a.toStr = .ok text ∧ fromString text = .ok a) ↔ a.RoundTrips := by
  obtain ⟨hrange, hcode, hprec⟩ := isValid_iff.1 ha
  rw [toStr_eq ha]
  simp only [Except.ok.injEq, exists_eq_left']
  rcases eq_or_ne a.symbol.precision 0 with h0 | h0
  · refine iff_of_false (fromString_no_point ha h0) fun h => ?_
    have := h.1
    omega
  rw [← parsed_eq_iff hrange h0, fromString_text ha h0, parsedAmount_eq hrange]
  have hnew : ∀ x : SInt 64, Asset.new x a.symbol = .ok a ↔ x = a.amount := by
    intro x
    refine ⟨fun h => (congrArg Asset.amount (new_eq_ok h)).symm, ?_⟩
    rintro rfl
    obtain ⟨h1, h2⟩ := Bool.and_eq_true_iff.1 ha
    rw [Asset.new, check_bind, if_pos h1, check_bind, if_pos h2]
    rfl
  constructor
  · intro h
    obtain ⟨amount, hamount, h⟩ := bind_eq_ok h
    obtain rfl := (hnew amount).1 h
    unfold defined at hamount
    split at hamount
    · rename_i y hy
      cases hamount
      exact (SInt.ofInt?_eq_some hy).symm
    · cases hamount
  · intro h
    rw [h, SInt.ofInt?_of_inRange a.amount.inRange, defined_some, ok_bind]
    exact (hnew _).2 rfl

/-- `WICC` with one digit. -/
def wicc1 : Symbol := ⟨0x4343495701⟩

/-- Minus half a unit comes back as plus half a unit. -/
theorem fromString_toStr_minus_half :
    (⟨⟨-5, by decide⟩, wicc1⟩ : Asset).isValid = true ∧
      (⟨⟨-5, by decide⟩, wicc1⟩ : Asset).toStr = .ok "0.5 WICC".toList ∧
      fromString "0.5 WICC".toList = .ok ⟨⟨5, by decide⟩, wicc1⟩ :=
  ⟨by decide, rfl, rfl⟩

/-- Minus one and a half units come back. -/
theorem fromString_toStr_minus_one_half :
    ∃ text, (⟨⟨-15, by decide⟩, wicc1⟩ : Asset).toStr = .ok text ∧
      fromString text = .ok ⟨⟨-15, by decide⟩, wicc1⟩ :=
  (fromString_toStr_iff (a := ⟨⟨-15, by decide⟩, wicc1⟩) (by decide)).2
    ⟨by decide, by decide, .inl ⟨by decide, by decide⟩⟩

end Wasmlib
