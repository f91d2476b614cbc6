import WasmCdt.Core.Numeral
import WasmCdt.Core.Proof.Divide

/-!
# Decimal numerals of 128-bit words

* `printLoop_eq`: the loop writes the digits in front of what is in the buffer.
* `ofString_decimal`: the constructor reads a numeral of digits.
* `decimal_conversions`: **every conversion, in any run, gives the decimal numeral**, and the constructor
  makes the number of it.
-/

namespace Wasmlib

open Uint128

/-! ## The string of a number -/

/-- The digits of a number, none for 0. -/
def digitsOf (n : Nat) : Text := if n = 0 then [] else Nat.toDigits 10 n

theorem digitsOf_pos {n : Nat} (h : n ≠ 0) : digitsOf n = digitsOf (n / 10) ++ [(n % 10).digitChar] := by
  rw [digitsOf, if_neg h, Nat.toDigits_eq_if (by decide)]
  split
  · rename_i hlt
    rw [Nat.div_eq_of_lt hlt, Nat.mod_eq_of_lt hlt]
    rfl
  · rw [digitsOf, if_neg (by omega)]

theorem getD_digits {d : Nat} (h : d < 10) : digits.getD d '\x00' = d.digitChar := by
  revert d
  decide

/-- A round of the loop takes the last digit off. -/
theorem divide_ten {fuel : Nat} (hfuel : 128 ≤ fuel) (σ : Objects PrintVar) :
    ∃ τ : Objects PrintVar, (σ.assign .remainder (.temporary ⟨0, 0⟩)).divide fuel (.object .ii)
        (.temporary (.ofInt32 10)) .ii .remainder = (.ok (some ()), τ) ∧
      (τ .ii).toNat = (σ .ii).toNat / 10 ∧ (τ .remainder).toNat = (σ .ii).toNat % 10 := by
  have hten : (ofInt32 10).toNat = 10 := by decide
  have hne : PrintVar.ii ≠ .remainder := by decide
  have hlt := (σ .ii).toNat_lt
  have hii : (Operand.object PrintVar.ii).read (σ.assign .remainder (.temporary ⟨0, 0⟩)) = σ .ii :=
    Function.update_of_ne hne (⟨0, 0⟩ : Uint128) σ
  refine ⟨_, Objects.divide_eq _ _ _ _ _ hfuel (by rw [Operand.read, hten]; decide), ?_, ?_⟩
  · rw [Function.update_of_ne hne, Function.update_self, hii, Operand.read, hten,
      toNat_ofNat ((Nat.div_le_self _ 10).trans_lt hlt)]
  · rw [Function.update_self, hii, Operand.read, hten,
      toNat_ofNat ((Nat.mod_le _ 10).trans_lt hlt)]

theorem drop_set {sz : Text} {i : Nat} (hi : i < sz.length) (c : Char) :
    (sz.set i c).drop i = c :: sz.drop (i + 1) := by
  rw [List.drop_eq_getElem_cons (by rwa [List.length_set]), List.getElem_set_self,
    List.drop_set_of_lt (Nat.lt_succ_self i)]

/-- **The loop writes the digits** in front of what is in the buffer from `i` on. -/
theorem printLoop_eq {fuel i : Nat} (hfuel : 128 ≤ fuel) (σ : Objects PrintVar) (sz : Text)
    (hi : i < sz.length) (hlt : (σ .ii).toNat < 10 ^ i) :
    ∃ i' sz', printLoop fuel i σ sz = .ok (some (i', sz')) ∧
      sz'.drop i' = digitsOf (σ .ii).toNat ++ sz.drop i ∧ sz'.drop i = sz.drop i := by
  induction i generalizing σ sz with
  | zero =>
    have hzero : (σ .ii).toNat = 0 := by simpa using hlt
    refine ⟨0, sz, rfl, ?_, rfl⟩
    rw [hzero]
    rfl
  | succ i ih =>
    unfold printLoop
    by_cases hzero : (σ .ii).toNat = 0
    · have hii : σ .ii = .ofInt32 0 := toNat_inj.1 (hzero.trans Division.toNat_zero.symm)
      refine ⟨i + 1, sz, ?_, ?_, rfl⟩
      · rw [if_neg (not_not.2 hii)]
        rfl
      · rw [hzero]
        rfl
    · have hii : σ .ii ≠ .ofInt32 0 := fun h => hzero (by rw [h, Division.toNat_zero])
      obtain ⟨τ, hdiv, hquot, hrem⟩ := divide_ten hfuel σ
      have hdigit : digits.getD (τ .remainder).toInteger.toNat '\x00' =
          ((σ .ii).toNat % 10).digitChar := by
        have hten : (τ .remainder).toNat < 10 := by omega
        rw [toInteger_toNat (by omega), getD_digits hten, hrem]
      obtain ⟨i', sz', hloop, hdrop, hkeep⟩ := ih τ
        (sz.set i ((σ .ii).toNat % 10).digitChar)
        (by rw [List.length_set]; omega) (by rw [hquot]; omega)
      refine ⟨i', sz', ?_, ?_, ?_⟩
      · rw [if_pos hii]
        simp only [hdiv, hdigit]
        exact hloop
      · rw [hdrop, hquot, drop_set (by omega), digitsOf_pos hzero]
        simp
      · have hdrop' := congrArg (List.drop 1) hkeep
        rwa [drop_set (by omega), List.drop_drop, List.drop_one, List.tail_cons] at hdrop'

/-! ## A run of conversions -/

/-- The two bytes behind the digits stay 0. -/
def IsBuffer (sz : Text) : Prop := sz.drop 127 = ['\x00', '\x00']

theorem isBuffer_set {sz : Text} (h : IsBuffer sz) :
    IsBuffer (sz.set 128 '\x00') ∧ (sz.set 128 '\x00').length = 129 := by
  unfold IsBuffer at h ⊢
  have hlen := congrArg List.length h
  rw [List.length_drop] at hlen
  refine ⟨?_, ?_⟩
  · rw [List.drop_set, if_neg (by decide), h]
    rfl
  · rw [List.length_set]
    simp at hlen
    omega

theorem toText_eq {fuel : Nat} (hfuel : 128 ≤ fuel) (v : Uint128) {sz : Text} (hsz : IsBuffer sz) :
    ∃ sz', v.toText fuel sz = .ok (some (Nat.toDigits 10 v.toNat, sz')) ∧ IsBuffer sz' := by
  unfold Uint128.toText
  by_cases hzero : v = .ofInt32 0
  · rw [if_pos hzero]
    refine ⟨sz, ?_, hsz⟩
    rw [hzero, Division.toNat_zero, Nat.toDigits_zero]
    rfl
  · obtain ⟨hset, hlen⟩ := isBuffer_set hsz
    have hlt : v.toNat < 10 ^ 127 := v.toNat_lt.trans (by norm_num)
    obtain ⟨i, sz', hloop, hdrop, hkeep⟩ := printLoop_eq hfuel (printVars v) (sz.set 128 '\x00')
      (by rw [hlen]; decide) hlt
    have hne : v.toNat ≠ 0 := fun h => hzero (toNat_inj.1 (h.trans Division.toNat_zero.symm))
    have hdigits : ∀ c ∈ Nat.toDigits 10 v.toNat, decide (c ≠ '\x00') = true := fun c hc =>
      decide_eq_true fun h => (Text.isDigits_toDigits v.toNat).not_mem (by decide) (h ▸ hc)
    have htext : cString sz' i = Nat.toDigits 10 v.toNat := by
      change sz'.drop i = digitsOf v.toNat ++ _ at hdrop
      rw [cString, hdrop, digitsOf, if_neg hne, hset, List.takeWhile_append_of_pos hdigits]
      simp
    refine ⟨sz', ?_, hkeep.trans hset⟩
    rw [if_neg hzero, ← htext]
    change (printLoop fuel 127 (printVars v) (sz.set 128 '\x00') >>= _) = _
    rw [hloop]
    rfl

theorem conversions_eq {fuel : Nat} (hfuel : 128 ≤ fuel) (vs : List Uint128) {sz : Text}
    (hsz : IsBuffer sz) :
    conversions fuel vs sz = .ok (some (vs.map fun v => Nat.toDigits 10 v.toNat)) := by
  induction vs generalizing sz with
  | nil => rfl
  | cons v vs ih =>
    obtain ⟨sz', htext, hsz'⟩ := toText_eq hfuel v hsz
    unfold conversions
    rw [htext, ok_bind]
    simp only [ih hsz', ok_bind]
    rfl

/-! ## The number of a string -/

theorem digitOf_digit {radix : Nat} {c : Char} (h : Text.isDigit c = true) (hr : 10 ≤ radix) :
    digitOf radix c = some (BitVec.ofNat 32 (c.toNat - '0'.toNat)) := by
  simp only [Text.isDigit, Bool.and_eq_true, decide_eq_true_iff] at h
  obtain ⟨hlo, hhi⟩ := h
  have hle : c.toNat ≤ '9'.toNat := hhi
  have hvalue : c.toNat - '0'.toNat < radix := by
    have hnine : '9'.toNat - '0'.toNat = 9 := rfl
    omega
  have hupper : ¬('A' ≤ c ∧ c ≤ 'Z') := fun h => absurd (h.1.trans hhi) (by decide)
  have hlower : ¬('a' ≤ c ∧ c ≤ 'z') := fun h => absurd (h.1.trans hhi) (by decide)
  rw [digitOf, if_neg hupper, if_neg hlower, if_pos ⟨hlo, hhi⟩, if_pos hvalue]

/-- The digits to come only see what is there modulo the word. -/
theorem ofDigitChars_mod (s : Text) (n m : Nat) :
    Nat.ofDigitChars 10 s (n % m) % m = Nat.ofDigitChars 10 s n % m := by
  have hsplit : ∀ i, Nat.ofDigitChars 10 s i = 10 ^ s.length * i + Nat.ofDigitChars 10 s 0 := fun i =>
    Nat.ofDigitChars_eq_ofDigitChars_zero
  rw [hsplit, hsplit n, Nat.add_mod, Nat.mul_mod, Nat.mod_mod, ← Nat.mul_mod, ← Nat.add_mod]

theorem digitLoop_toNat {s : Text} (h : Text.IsDigits s) (v : Uint128) :
    (digitLoop 10 s v).toNat = Nat.ofDigitChars 10 s v.toNat % 2 ^ 128 := by
  induction s generalizing v with
  | nil => exact (Nat.mod_eq_of_lt v.toNat_lt).symm
  | cons c s ih =>
    have hc := h c (.head _)
    have hten : (ofInt32 (BitVec.ofNat 32 10)).toNat = 10 := by decide
    have hdigit : (ofUInt32 (BitVec.ofNat 32 (c.toNat - '0'.toNat))).toNat = c.toNat - '0'.toNat := by
      have hle : c.toNat ≤ '9'.toNat := of_decide_eq_true (Bool.and_eq_true_iff.1 hc).2
      have hnine : '9'.toNat - '0'.toNat = 9 := rfl
      rw [ofUInt32, toNat_zero_hi, BitVec.toNat_setWidth, BitVec.toNat_ofNat]
      omega
    unfold digitLoop
    simp only [digitOf_digit hc (Nat.le_refl 10)]
    rw [ih fun d hd => h d (.tail _ hd), add_toNat, mul_toNat, hten, hdigit, ofDigitChars_mod,
      Nat.ofDigitChars_cons, ← ofDigitChars_mod, Nat.mod_add_mod, ofDigitChars_mod, Nat.mul_comm]

/-- A numeral has no leading zero. -/
theorem head?_toDigits {n : Nat} (h : n ≠ 0) : (Nat.toDigits 10 n).head? ≠ some '0' := by
  induction n using Nat.strongRecOn with
  | ind n ih =>
    rw [Nat.toDigits_eq_if (by decide)]
    split
    · rename_i hlt
      have hchar : ∀ d < 10, d ≠ 0 → [d.digitChar].head? ≠ some '0' := by decide
      exact hchar n hlt h
    · rw [List.head?_append_of_ne_nil _ Nat.toDigits_ne_nil]
      exact ih (n / 10) (by omega) (by omega)

/-- A text that does not start like a number of another kind is read as a decimal one. -/
theorem ofString_of_head {s : Text} (hminus : s.head? ≠ some '-') (hzero : s.head? ≠ some '0') :
    Uint128.ofString s = digitLoop 10 s ⟨0, 0⟩ := by
  cases s with
  | nil => rfl
  | cons c s =>
    unfold Uint128.ofString
    split
    · rename_i heq
      cases heq
    · rename_i heq
      rw [heq] at hminus
      exact absurd rfl hminus
    · unfold prefixed
      split
      · rename_i heq
        cases heq
      · rename_i heq
        rw [heq] at hzero
        exact absurd rfl hzero
      · rename_i heq
        rw [heq] at hzero
        exact absurd rfl hzero
      · rfl

/-- The constructor reads a number that it is given in digits. -/
theorem ofString_decimal (v : Uint128) : Uint128.ofString (Nat.toDigits 10 v.toNat) = v := by
  by_cases hzero : v.toNat = 0
  · rw [hzero, Nat.toDigits_zero]
    exact toNat_inj.1 hzero.symm
  · have hdig := Text.isDigits_toDigits v.toNat
    have hminus : (Nat.toDigits 10 v.toNat).head? ≠ some '-' := fun h =>
      hdig.not_mem (by decide) (List.mem_of_mem_head? h)
    rw [ofString_of_head hminus (head?_toDigits hzero), ← toNat_inj, digitLoop_toNat hdig]
    exact (congrArg (· % 2 ^ 128) Nat.ofDigitChars_ten_toDigits).trans (Nat.mod_eq_of_lt v.toNat_lt)

/-- **The string of a number is its decimal numeral**, whatever was converted before; and the number
made of it is the same. -/
theorem decimal_conversions :
    (∀ vs, ∀ fuel ≥ 128, conversions fuel vs staticBuffer =
      .ok (some (vs.map fun v => Nat.toDigits 10 v.toNat))) ∧
    ∀ v : Uint128, Uint128.ofString (Nat.toDigits 10 v.toNat) = v :=
  ⟨fun vs _ hfuel => conversions_eq hfuel vs rfl, ofString_decimal⟩

end Wasmlib
