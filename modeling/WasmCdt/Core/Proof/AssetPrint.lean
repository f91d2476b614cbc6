import WasmCdt.Core.Proof.AssetParse

/-!
# What `asset::to_string` prints

The integer part is the quotient by the power of ten, printed with its own sign, and the digits of
the fraction are printed without one: a quotient of zero has no sign.

* `toStr_exact_iff`: exactly when the printed number is the asset's amount.
-/

namespace Wasmlib

open Asset

/-- The number is `x` with a point in front of its last `p` digits: a sign where `x` is negative, the
digits of the integer part, and `p` digits behind the point. -/
structure Decimal.Writes (n : Decimal) (x : Int) (p : Nat) : Prop where
  sign : n.sign = if x < 0 then .minus else .none
  whole : n.whole = Nat.toDigits 10 (x.natAbs / 10 ^ p)
  digits : n.fraction.length = p
  value : n.scaled = x

/-- The asset prints its amount, with a point in front of as many digits as its precision, and its
symbol code. -/
def PrintsExactly (a : Asset) : Prop :=
  ∃ (n : Decimal) (code : Text), a.toStr = .ok (n.text ++ ' ' :: code) ∧
    n.Writes a.amount.val a.symbol.precision ∧ SymbolCode.ofText code = .ok a.symbol.code

/-- The number of a valid asset, with the sign it should have. -/
def exactNumber (a : Asset) : Decimal where
  sign := if a.amount.val < 0 then .minus else .none
  whole := Nat.toDigits 10 (a.amount.val.natAbs / 10 ^ a.symbol.precision)
  fraction := fractionText a
  whole_digits := Text.isDigits_toDigits _
  whole_ne := Nat.toDigits_ne_nil
  fraction_digits := (fractionText_spec a).1

theorem exactNumber_writes (a : Asset) :
    (exactNumber a).Writes a.amount.val a.symbol.precision where
  sign := rfl
  whole := rfl
  digits := (fractionText_spec a).2.1
  value := by
    have hwhole : (exactNumber a).wholePart = a.amount.val.natAbs / 10 ^ a.symbol.precision :=
      Nat.ofDigitChars_ten_toDigits
    have hfrac : (exactNumber a).fractionPart = a.amount.val.natAbs % 10 ^ a.symbol.precision :=
      (fractionText_spec a).2.2
    have hlen : (exactNumber a).fraction.length = a.symbol.precision := (fractionText_spec a).2.1
    rw [Decimal.scaled_eq, hwhole, hfrac, hlen, Nat.div_add_mod', Sign.apply_eq]
    by_cases hneg : a.amount.val < 0
    · have hsign : (exactNumber a).sign = .minus := if_pos hneg
      rw [if_pos hsign]
      omega
    · have hsign : (exactNumber a).sign = .none := if_neg hneg
      rw [if_neg (by rw [hsign]; decide)]
      omega

/-- The sign is the quotient's, which has one unless it is zero. -/
theorem amountText_eq {a : Asset}
    (h : ¬(a.amount.val < 0 ∧ a.amount.val.natAbs < 10 ^ a.symbol.precision)) :
    amountText a = (exactNumber a).text := by
  obtain ⟨-, -, hneg⟩ := amount_split a
  have hsign : a.wholePart < 0 ↔ a.amount.val < 0 := by
    rw [hneg]
    omega
  have hlen := (fractionText_spec a).2.1
  have habs : a.wholePart.natAbs = a.amount.val.natAbs / 10 ^ a.symbol.precision := by
    rw [Asset.wholePart, Int.natAbs_tdiv, Int.natAbs_pow]
    rfl
  have hpoint : fractionText a = [] ↔ a.symbol.precision = 0 := by
    rw [← List.length_eq_zero_iff, hlen]
  rw [amountText, Text.decimal, habs, if_congr hsign rfl rfl, Decimal.text, exactNumber,
    if_congr hpoint rfl rfl]
  split_ifs <;> rfl

/-- **When printing is exact.** A valid asset prints its amount exactly if it is not a negative amount
of less than one unit. -/
theorem toStr_exact_iff {a : Asset} (ha : a.isValid = true) :
    PrintsExactly a ↔ ¬(a.amount.val < 0 ∧ a.amount.val.natAbs < 10 ^ a.symbol.precision) := by
  constructor
  · rintro ⟨n, code, htext, hwrites, -⟩ ⟨hneg, hsmall⟩
    rw [toStr_eq ha, Except.ok.injEq] at htext
    obtain ⟨hnumber, -⟩ := split_unique (blank_not_mem_amountText a) n.no_blank htext
    have hminus : n.text.head? = some '-' := n.head?_text.2 (by rw [hwrites.sign, if_pos hneg])
    rw [← hnumber, head?_amountText, (amount_split a).2.2] at hminus
    omega
  · intro h
    obtain ⟨-, hcode, -⟩ := isValid_iff.1 ha
    refine ⟨exactNumber a, a.symbol.code.toStr, ?_, exactNumber_writes a,
      (SymbolCode.ofText_toStr (code_raw_lt a.symbol) hcode).2⟩
    rw [toStr_eq ha, amountText_eq h]

/-- Minus one and a half units are printed as such. -/
theorem toStr_exact_minus_one_half : PrintsExactly ⟨⟨-15, by decide⟩, wicc1⟩ :=
  (toStr_exact_iff (a := ⟨⟨-15, by decide⟩, wicc1⟩) (by decide)).2 (by decide)

/-- Minus half a unit is printed as `0.5`. -/
theorem toStr_loses_sign :
    (⟨⟨-5, by decide⟩, wicc1⟩ : Asset).isValid = true ∧
      (⟨⟨-5, by decide⟩, wicc1⟩ : Asset).toStr = .ok "0.5 WICC".toList ∧
      ¬PrintsExactly ⟨⟨-5, by decide⟩, wicc1⟩ := by
  have htext : (⟨⟨-5, by decide⟩, wicc1⟩ : Asset).toStr = .ok "0.5 WICC".toList := rfl
  refine ⟨by decide, htext, ?_⟩
  rintro ⟨n, code, hprint, hwrites, -⟩
  rw [htext, Except.ok.injEq] at hprint
  have hminus : n.text.head? = some '-' := n.head?_text.2 (by rw [hwrites.sign]; rfl)
  have hhead : "0.5 WICC".toList.head? = some '-' := by rw [hprint, List.head?_append, hminus]; rfl
  exact absurd hhead (by decide)

end Wasmlib
