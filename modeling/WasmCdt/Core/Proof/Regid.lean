import WasmCdt.Core.Regid

/-!
# The text of account ids

A text `height-index` is parsed by two calls of `atoi`, so what an account id loses in its text is
what a 32-bit height loses in a 44-bit field (`heightWord_eq_iff`).

* `ofText_text`: the word of a well-formed text.
* `regid_text_iff`: which words survive the round trip, and which texts are parsed as they read.
-/

namespace Wasmlib

/-- `s` is `height-index` in decimal. -/
def DenotesRegid (s : Text) (height index : Nat) : Prop :=
  ∃ a b, s = a ++ '-' :: b ∧ Text.IsDigits a ∧ a ≠ [] ∧ Text.IsDigits b ∧ b ≠ [] ∧
    Nat.ofDigitChars 10 a 0 = height ∧ Nat.ofDigitChars 10 b 0 = index

/-- The heights that an `int` shifted into 44 bits still tells. -/
def HeightFits (height : Nat) : Prop :=
  height < 2 ^ 31 ∨ (2 ^ 44 - 2 ^ 31 ≤ height ∧ height < 2 ^ 44)

instance (height : Nat) : Decidable (HeightFits height) :=
  inferInstanceAs (Decidable (_ ∨ _))

/-- The word that the two numbers of a text make. -/
def atoiWord (height index : Int) : BitVec 64 :=
  (BitVec.ofInt 64 (Text.int32 height) <<< 20) + BitVec.ofInt 64 (Text.int32 index)

/-- The canonical text. -/
def regidText (height index : Nat) : Text :=
  Text.decimal height ++ '-' :: Text.decimal index

theorem toNat_atoiWord (height index : Int) : ((atoiWord height index).toNat : Int) =
    (Text.int32 height * 2 ^ 20 + Text.int32 index) % 2 ^ 64 := by
  simp only [atoiWord, BitVec.toNat_add, BitVec.toNat_shiftLeft, BitVec.toNat_ofInt,
    Nat.shiftLeft_eq]
  push_cast
  omega

/-- **When a word is the one its fields were.** -/
theorem heightWord_eq_iff {height index : Nat} (hh : height < 2 ^ 44) (hi : index < 2 ^ 20) :
    atoiWord height index = BitVec.ofNat 64 (height * 2 ^ 20 + index) ↔ HeightFits height := by
  have hword := toNat_atoiWord height index
  rw [← BitVec.toNat_inj, BitVec.toNat_ofNat, HeightFits]
  rw [Text.int32_eq, Text.int32_eq] at hword
  omega

theorem DenotesRegid.find {s : Text} {height index : Nat} (h : DenotesRegid s height index) :
    ∃ p, s.find '-' = some p ∧ p ≠ 0 ∧ Text.atoi s = Text.int32 height ∧
      Text.atoi (s.substr 0 p) = Text.int32 height ∧
      Text.atoi (s.drop (p + 1)) = Text.int32 index := by
  obtain ⟨a, b, rfl, ha, hane, hb, -, rfl, rfl⟩ := h
  refine ⟨a.length, Text.find_append (ha.not_mem (by decide)) b,
    fun h => hane (List.length_eq_zero_iff.1 h), ?_, ?_, ?_⟩
  · exact Text.atoi_digits_append ha hane (by simp [Text.isDigit])
  · rw [Text.substr_append, Text.atoi_digits ha]
  · rw [Text.drop_append_cons, Text.atoi_digits hb]

theorem denotesRegid_regidText (height index : Nat) :
    DenotesRegid (regidText height index) height index := by
  have hdec : ∀ n : Nat, Text.decimal n = Nat.toDigits 10 n := fun n => by
    rw [Text.decimal, if_neg (by omega), Int.natAbs_natCast]
  refine ⟨Text.decimal height, Text.decimal index, rfl, ?_, Text.decimal_ne_nil _, ?_,
    Text.decimal_ne_nil _, ?_, ?_⟩
  · exact hdec height ▸ Text.isDigits_toDigits height
  · exact hdec index ▸ Text.isDigits_toDigits index
  · rw [hdec, Nat.ofDigitChars_ten_toDigits]
  · rw [hdec, Nat.ofDigitChars_ten_toDigits]

/-- The fields of a word. -/
theorem toInt_height (v : BitVec 64) : (v >>> 20).toInt = (v.toNat / 2 ^ 20 : Nat) := by
  have hlt := v.isLt
  rw [BitVec.toInt_eq_toNat_of_lt, BitVec.toNat_ushiftRight, Nat.shiftRight_eq_div_pow]
  rw [BitVec.toNat_ushiftRight, Nat.shiftRight_eq_div_pow]
  omega

theorem toInt_index (v : BitVec 64) : (v &&& 0xFFFFF).toInt = (v.toNat % 2 ^ 20 : Nat) := by
  have hand : (v &&& 0xFFFFF).toNat = v.toNat % 2 ^ 20 := by
    rw [BitVec.toNat_and]
    exact Nat.and_two_pow_sub_one_eq_mod _ 20
  rw [BitVec.toInt_eq_toNat_of_lt (by rw [hand]; omega), hand]

namespace Regid

theorem toStr_eq (r : Regid) :
    r.toStr = regidText (r.value.toNat / 2 ^ 20) (r.value.toNat % 2 ^ 20) := by
  simp only [toStr, toInt_height, toInt_index, regidText]

/-- **What a well-formed text is parsed to.** -/
theorem ofText_text {s : Text} {height index : Nat} (h : DenotesRegid s height index) :
    ofText s = .ok ⟨atoiWord height index⟩ := by
  obtain ⟨p, hfind, hp, hheight, -, hindex⟩ := h.find
  simp only [ofText, hfind, check_bind, hheight, hindex]
  rw [if_pos (by simpa using hp)]
  rfl

theorem find_eq_zero_iff (s : Text) : s.find '-' = some 0 ↔ s.head? = some '-' := by
  cases s with
  | nil => simp [Text.find]
  | cons c s =>
    by_cases hc : c = '-' <;> simp [Text.find, List.findIdx?_cons, hc]

/-- The only strings refused start with the separator. -/
theorem ofText_abort_iff (s : Text) :
    (∃ msg, ofText s = .error (.abort msg)) ↔ s.head? = some '-' := by
  rw [← find_eq_zero_iff, ofText]
  simp only [check_bind]
  by_cases h : s.find '-' = some 0 <;> simp [h]

theorem ofText_text_iff {s : Text} {height index : Nat} (h : DenotesRegid s height index)
    (hh : height < 2 ^ 44) (hi : index < 2 ^ 20) :
    ofText s = .ok ⟨BitVec.ofNat 64 (height * 2 ^ 20 + index)⟩ ↔ HeightFits height := by
  rw [ofText_text h, ← heightWord_eq_iff hh hi]
  simp

theorem ofText_toStr_iff (v : Regid) :
    ofText v.toStr = .ok v ↔ HeightFits (v.value.toNat / 2 ^ 20) := by
  have hlt := v.value.isLt
  have hiff := ofText_text_iff (denotesRegid_regidText (v.value.toNat / 2 ^ 20)
    (v.value.toNat % 2 ^ 20)) (by omega) (by omega)
  have hword : BitVec.ofNat 64 (v.value.toNat / 2 ^ 20 * 2 ^ 20 + v.value.toNat % 2 ^ 20) =
      v.value := by
    apply BitVec.eq_of_toNat_eq
    rw [BitVec.toNat_ofNat]
    omega
  rw [hword] at hiff
  rw [toStr_eq]
  exact hiff

/-- **Which ids and texts the codec is exact on.** A word survives its text if `atoi` and the shift
keep its height; a string is refused, or parsed to the fields it reads as, exactly if it starts
with the separator or reads as such fields; and strings that read as different fields of this kind
are parsed to different words. -/
theorem regid_text_iff (v : Regid) (s s' : Text) :
    (ofText v.toStr = .ok v ↔ HeightFits (v.value.toNat / 2 ^ 20)) ∧
    (((∃ msg, ofText s = .error (.abort msg)) ∨
        ∃ height index, DenotesRegid s height index ∧ height < 2 ^ 44 ∧ index < 2 ^ 20 ∧
          ofText s = .ok ⟨BitVec.ofNat 64 (height * 2 ^ 20 + index)⟩) ↔
      (s.head? = some '-' ∨
        ∃ height index, DenotesRegid s height index ∧ HeightFits height ∧ index < 2 ^ 20)) ∧
    (∀ height index height' index' : Nat,
      DenotesRegid s height index → HeightFits height → index < 2 ^ 20 →
      DenotesRegid s' height' index' → HeightFits height' → index' < 2 ^ 20 →
      ofText s = ofText s' → height = height' ∧ index = index') := by
  have hfits : ∀ {height : Nat}, HeightFits height → height < 2 ^ 44 := fun h => by
    rcases h with h | h <;> omega
  refine ⟨ofText_toStr_iff v, ?_, ?_⟩
  · rw [ofText_abort_iff]
    refine or_congr_right ⟨?_, ?_⟩
    · rintro ⟨height, index, h, hh, hi, hok⟩
      exact ⟨height, index, h, (ofText_text_iff h hh hi).1 hok, hi⟩
    · rintro ⟨height, index, h, hh, hi⟩
      exact ⟨height, index, h, hfits hh, hi, (ofText_text_iff h (hfits hh) hi).2 hh⟩
  · intro height index height' index' h hh hi h' hh' hi' heq
    rw [(ofText_text_iff h (hfits hh) hi).2 hh, (ofText_text_iff h' (hfits hh') hi').2 hh'] at heq
    have hnat := congrArg BitVec.toNat (Regid.mk.inj (Except.ok.inj heq))
    rw [BitVec.toNat_ofNat, BitVec.toNat_ofNat] at hnat
    have hlt := hfits hh
    have hlt' := hfits hh'
    omega

/-- An index that runs over into the height makes the word of another account, a string without a
separator is read twice, and a height of `2 ^ 31` comes back changed. -/
theorem regid_text_collisions :
    (DenotesRegid "1-1048577".toList 1 1048577 ∧ DenotesRegid "2-1".toList 2 1 ∧
      ofText "1-1048577".toList = .ok ⟨2097153⟩ ∧ ofText "2-1".toList = .ok ⟨2097153⟩) ∧
    ofText "7".toList = ofText "7-7".toList ∧
    ofText (toStr ⟨0x8000000000001⟩) ≠ .ok ⟨0x8000000000001⟩ := by
  refine ⟨⟨⟨"1".toList, "1048577".toList, rfl, ?_⟩, ⟨"2".toList, "1".toList, rfl, ?_⟩, ?_, ?_⟩,
    ?_, fun h => ?_⟩
  · decide
  · decide
  · decide
  · decide
  · decide
  · exact absurd ((ofText_toStr_iff _).1 h) (by decide)

end Regid

end Wasmlib
