import WasmCdt.Core.Proof.AssetText

/-!
# Valid symbol codes

Which raw words `is_valid` accepts. A text of one to seven allowed characters, as the number its
bytes denote (`symbolEncoding`), is accepted and printed back. So is, by the loop that stops after
the seventh byte, a word with seven allowed characters and any eighth byte: `isValid_exact_iff`.
-/

namespace Wasmlib

/-- The texts that a code stands for. -/
def IsSymbolText (str : Text) : Prop :=
  str ≠ [] ∧ str.length ≤ 7 ∧ ∀ c ∈ str, validCharacterInSymbolName c = true

/-- The number with the text's bytes, the first one lowest. -/
def symbolEncoding : Text → Nat
  | [] => 0
  | c :: str => c.toNat + 256 * symbolEncoding str

/-- The characters are ASCII, without the NUL. -/
theorem ascii_of_valid {c : Char} (h : validCharacterInSymbolName c = true) :
    0 < c.toNat ∧ c.toNat < 128 := by
  simp only [validCharacterInSymbolName, Bool.or_eq_true, Bool.and_eq_true, decide_eq_true_iff,
    beq_iff_eq] at h
  rcases h with ((((((h | h) | h) | h) | h) | h) | h)
  · exact ⟨Nat.lt_of_lt_of_le (show 0 < '0'.toNat by decide) h.1,
      Nat.lt_of_le_of_lt h.2 (show '9'.toNat < 128 by decide)⟩
  · exact ⟨Nat.lt_of_lt_of_le (show 0 < 'A'.toNat by decide) h.1,
      Nat.lt_of_le_of_lt h.2 (show 'Z'.toNat < 128 by decide)⟩
  · exact ⟨Nat.lt_of_lt_of_le (show 0 < 'a'.toNat by decide) h.1,
      Nat.lt_of_le_of_lt h.2 (show 'z'.toNat < 128 by decide)⟩
  all_goals exact h ▸ by decide

theorem toNat_of_valid {c : Char} (h : validCharacterInSymbolName c = true) :
    0 < c.toNat ∧ c.toNat < 256 :=
  ⟨(ascii_of_valid h).1, (ascii_of_valid h).2.trans (by decide)⟩

/-! ## Encoding -/

section
variable {str : Text} (hstr : ∀ c ∈ str, validCharacterInSymbolName c = true)
include hstr

theorem symbolEncoding_lt : symbolEncoding str < 256 ^ str.length := by
  induction str with
  | nil => simp [symbolEncoding]
  | cons c str ih =>
    have hc := (toNat_of_valid (hstr c (.head _))).2
    have := ih fun d hd => hstr d (.tail _ hd)
    rw [symbolEncoding, List.length_cons, pow_succ]
    omega

/-- The constructor's loop computes the encoding. -/
theorem symbolCodeLoop_eq (hlen : str.length ≤ 7) :
    symbolCodeLoop str = .ok (BitVec.ofNat 64 (symbolEncoding str)) := by
  induction str with
  | nil => rfl
  | cons c str ih =>
    have hmem : ∀ d ∈ str, validCharacterInSymbolName d = true := fun d hd => hstr d (.tail _ hd)
    have hc := (toNat_of_valid (hstr c (.head _))).2
    have hlt : symbolEncoding str < 256 ^ 6 := (symbolEncoding_lt hmem).trans_le
      (Nat.pow_le_pow_right (by decide) (Nat.le_of_succ_le_succ hlen))
    rw [symbolCodeLoop, ih hmem (by simp at hlen; omega), ok_bind, check_bind,
      if_pos (hstr c (.head _)), pure_eq_ok, symbolEncoding]
    congr 1
    apply BitVec.eq_of_toNat_eq
    have hshift : symbolEncoding str <<< 8 % 2 ^ 64 = symbolEncoding str <<< 8 := by
      rw [Nat.shiftLeft_eq]
      omega
    rw [BitVec.toNat_or, BitVec.toNat_shiftLeft, BitVec.toNat_ofNat, BitVec.toNat_ofNat,
      BitVec.toNat_ofNat, Nat.mod_eq_of_lt (a := symbolEncoding str) (by omega), hshift,
      Nat.mod_eq_of_lt (a := c.toNat) (by omega),
      ← Nat.shiftLeft_add_eq_or_of_lt (show c.toNat < 2 ^ 8 from hc), Nat.shiftLeft_eq]
    omega

end

theorem symbolCodeLoop_eq_ok : ∀ {str : Text} {v : BitVec 64}, symbolCodeLoop str = .ok v →
    ∀ c ∈ str, validCharacterInSymbolName c = true
  | [], _, _ => by simp
  | c :: str, v, h => by
    rw [symbolCodeLoop] at h
    obtain ⟨w, hw, h⟩ := bind_eq_ok h
    rw [check_bind] at h
    split at h
    · exact List.forall_mem_cons.2 ⟨by assumption, symbolCodeLoop_eq_ok hw⟩
    · cases h

/-- **What the constructor accepts**, and its value. -/
theorem SymbolCode.ofText_eq_ok_iff {str : Text} {s : SymbolCode} : SymbolCode.ofText str = .ok s ↔
    str.length ≤ 7 ∧ (∀ c ∈ str, validCharacterInSymbolName c = true) ∧
      s.raw = BitVec.ofNat 64 (symbolEncoding str) := by
  rw [SymbolCode.ofText, check_bind]
  constructor
  · intro h
    split at h
    · rename_i hlen
      obtain ⟨v, hv, h⟩ := bind_eq_ok h
      have hmem := symbolCodeLoop_eq_ok hv
      rw [symbolCodeLoop_eq hmem (of_decide_eq_true hlen)] at hv
      cases hv
      cases h
      exact ⟨of_decide_eq_true hlen, hmem, rfl⟩
    · cases h
  · rintro ⟨hlen, hmem, hraw⟩
    rw [if_pos (decide_eq_true hlen), symbolCodeLoop_eq hmem hlen, ok_bind, ← hraw]
    rfl

/-! ## The validator -/

theorem lowChar_ofNat_encoding {c : Char} {str : Text} (hc : c.toNat < 256)
    (hlt : symbolEncoding (c :: str) < 2 ^ 64) :
    lowChar (BitVec.ofNat 64 (symbolEncoding (c :: str))) = c := by
  apply Char.toNat_inj.1
  rw [lowChar_toNat, toNat_low, BitVec.toNat_ofNat, Nat.mod_eq_of_lt hlt, symbolEncoding]
  omega

theorem shift_ofNat_encoding {c : Char} {str : Text} (hc : c.toNat < 256)
    (hlt : symbolEncoding (c :: str) < 2 ^ 64) :
    BitVec.ofNat 64 (symbolEncoding (c :: str)) >>> 8 = BitVec.ofNat 64 (symbolEncoding str) := by
  apply BitVec.eq_of_toNat_eq
  rw [symbolEncoding] at hlt ⊢
  rw [toNat_shift, BitVec.toNat_ofNat, BitVec.toNat_ofNat, Nat.mod_eq_of_lt hlt]
  omega

theorem zeroTail_zero : ∀ n, zeroTail n 0 = true
  | 0 => rfl
  | n + 1 => by
    rw [zeroTail]
    exact zeroTail_zero n

/-- The validator accepts the encoding of a text. -/
theorem isValidLoop_encoding : ∀ {n : Nat} {str : Text}, str ≠ [] → str.length ≤ n → n ≤ 7 →
    (∀ c ∈ str, validCharacterInSymbolName c = true) →
    isValidLoop n (BitVec.ofNat 64 (symbolEncoding str)) = true
  | 0, str, hne, hlen, _, _ => absurd (List.length_eq_zero_iff.1 (Nat.le_zero.1 hlen)) hne
  | n + 1, [], hne, _, _, _ => absurd rfl hne
  | n + 1, c :: str, _, hlen, hn, hmem => by
    have hstr : ∀ d ∈ str, validCharacterInSymbolName d = true := fun d hd => hmem d (.tail _ hd)
    have hc : c.toNat < 256 := (toNat_of_valid (hmem c (.head _))).2
    have hlt : symbolEncoding (c :: str) < 2 ^ 64 := (symbolEncoding_lt hmem).trans_le
      ((Nat.pow_le_pow_right (by decide) (hlen.trans hn)).trans (by decide))
    rw [isValidLoop, lowChar_ofNat_encoding hc hlt, shift_ofNat_encoding hc hlt,
      if_neg (by simp [hmem c (.head _)])]
    cases str with
    | nil => exact (if_pos rfl).trans (zeroTail_zero _)
    | cons d t =>
      have hd := toNat_of_valid (hmem d (.tail _ (.head _)))
      have htl : symbolEncoding (d :: t) < 2 ^ 64 := by
        rw [symbolEncoding] at hlt
        omega
      have hlow : ¬BitVec.ofNat 64 (symbolEncoding (d :: t)) &&& 0xff = 0 := fun h0 => by
        have h := congrArg BitVec.toNat h0
        rw [← lowChar_toNat, lowChar_ofNat_encoding hd.2 htl] at h
        exact absurd h hd.1.ne'
      rw [if_neg hlow]
      exact isValidLoop_encoding (by simp) (Nat.le_of_succ_le_succ hlen) (by omega) hstr

/-- An accepted word of at most `n` bytes is what its text encodes. -/
theorem SymbolCode.ofText_toStr {s : SymbolCode} (hlt : s.raw.toNat < 256 ^ 7)
    (h : s.isValid = true) : IsSymbolText s.toStr ∧ SymbolCode.ofText s.toStr = .ok s := by
  obtain ⟨hloop, hlen, hmem⟩ := symbolCodeLoop_writeAsString (Nat.le_refl 7) hlt h
  refine ⟨⟨fun hnil => ?_, hlen, hmem⟩, ?_⟩
  · -- the empty text is the word `0`, whose first byte is refused
    rw [SymbolCode.toStr] at hnil
    rw [hnil] at hloop
    have hraw : s.raw = 0 := (Except.ok.inj hloop).symm
    rw [SymbolCode.isValid, hraw] at h
    exact absurd h (by decide)
  · have hle : s.toStr.length ≤ 7 := hlen
    rw [SymbolCode.ofText, check_bind, if_pos (decide_eq_true hle), SymbolCode.toStr, hloop]
    rfl

/-- A word with a byte beyond the loop is accepted for its first `n` bytes alone. -/
theorem isValidLoop_full : ∀ {n : Nat} {v : BitVec 64}, 256 ^ n ≤ v.toNat →
    v.toNat < 256 ^ (n + 1) → (isValidLoop n v = true ↔
      ∀ i < n, validCharacterInSymbolName (lowChar (v >>> (8 * i))) = true)
  | 0, _, _, _ => by simp [isValidLoop]
  | n + 1, v, hle, hlt => by
    have hshift : (v >>> 8).toNat = v.toNat / 256 := toNat_shift v
    have hle' : 256 ^ n ≤ (v >>> 8).toNat := by
      rw [hshift, Nat.le_div_iff_mul_le (by decide)]
      exact hle
    have hlt' : (v >>> 8).toNat < 256 ^ (n + 1) := by
      rw [hshift]
      exact Nat.div_lt_of_lt_mul (by rw [Nat.mul_comm, ← pow_succ]; exact hlt)
    have hbyte : ∀ i, (v >>> 8) >>> (8 * i) = v >>> (8 * (i + 1)) := fun i => by
      rw [show 8 * (i + 1) = 8 + 8 * i by omega, BitVec.shiftRight_add]
    have hsplit : (∀ i < n + 1, validCharacterInSymbolName (lowChar (v >>> (8 * i))) = true) ↔
        validCharacterInSymbolName (lowChar v) = true ∧
          ∀ i < n, validCharacterInSymbolName (lowChar ((v >>> 8) >>> (8 * i))) = true := by
      rw [Nat.forall_lt_succ_left]
      simp only [hbyte, Nat.mul_zero, BitVec.ushiftRight_zero]
    rw [hsplit, isValidLoop]
    by_cases hchar : validCharacterInSymbolName (lowChar v) = true
    · simp only [hchar, Bool.not_true, Bool.false_eq_true, if_false, true_and]
      split
      · -- a zero inside the text: the tail is not zero, and no character is
        rename_i hlow
        refine iff_of_false (fun hz => ?_) fun hall => ?_
        · have h0 := zeroTail_eq_zero (n := n + 1) (hlt'.trans
            (Nat.pow_lt_pow_right (by decide) (by omega))) hlow hz
          rw [h0] at hle'
          exact absurd hle' (by simp)
        · have hzero := congrArg BitVec.toNat hlow
          rw [toNat_low] at hzero
          rcases Nat.eq_zero_or_pos n with rfl | hn
          · rw [Nat.mod_eq_of_lt (by simpa using hlt')] at hzero
            exact absurd (hle'.trans_eq hzero) (by decide)
          · have hvalid := toNat_of_valid (hall 0 hn)
            rw [lowChar_toNat, Nat.mul_zero, BitVec.ushiftRight_zero, toNat_low] at hvalid
            exact absurd hzero hvalid.1.ne'
      · exact isValidLoop_full hle' hlt'
    · simp [hchar]

/-- No text makes a word with an eighth byte. -/
theorem no_text_of_large {r : BitVec 64} (hle : 2 ^ 56 ≤ r.toNat) :
    ¬∃ str, IsSymbolText str ∧ SymbolCode.ofText str = .ok ⟨r⟩ := by
  rintro ⟨str, ⟨-, hlen, hmem⟩, hok⟩
  have hraw : r = BitVec.ofNat 64 (symbolEncoding str) := (SymbolCode.ofText_eq_ok_iff.1 hok).2.2
  have hlt : symbolEncoding str < 256 ^ 7 :=
    (symbolEncoding_lt hmem).trans_le (Nat.pow_le_pow_right (by decide) hlen)
  rw [hraw, BitVec.toNat_ofNat] at hle
  omega

/-- **When validity is exact.** A raw word is valid exactly if it encodes a text, and then it is
read back from its own text, unless seven allowed characters stand below an eighth byte. -/
theorem isValid_exact_iff (r : BitVec 64) :
    ((SymbolCode.isValid ⟨r⟩ = true ↔
        ∃ str, IsSymbolText str ∧ SymbolCode.ofText str = .ok ⟨r⟩) ∧
      (SymbolCode.isValid ⟨r⟩ = true →
        SymbolCode.ofText (SymbolCode.toStr ⟨r⟩) = .ok ⟨r⟩)) ↔
    ¬(2 ^ 56 ≤ r.toNat ∧
      ∀ i < 7, validCharacterInSymbolName (lowChar (r >>> (8 * i))) = true) := by
  rcases Nat.lt_or_ge r.toNat (2 ^ 56) with hlt | hle
  · -- no eighth byte: validator, constructor and printer agree
    refine iff_of_true ⟨⟨fun h => ?_, ?_⟩, fun h => (SymbolCode.ofText_toStr hlt h).2⟩
      fun h => absurd hlt (Nat.not_lt.2 h.1)
    · exact ⟨_, SymbolCode.ofText_toStr hlt h⟩
    · rintro ⟨str, ⟨hne, hlen, hmem⟩, hok⟩
      have hraw : r = BitVec.ofNat 64 (symbolEncoding str) :=
        (SymbolCode.ofText_eq_ok_iff.1 hok).2.2
      rw [SymbolCode.isValid, hraw]
      exact isValidLoop_encoding hne hlen (Nat.le_refl 7) hmem
  · have hfull := isValidLoop_full (n := 7) hle r.isLt
    have hnone := no_text_of_large hle
    rw [← hfull]
    constructor
    · rintro ⟨hiff, -⟩ ⟨-, hvalid⟩
      exact hnone (hiff.1 hvalid)
    · intro hnot
      have hinvalid : ¬SymbolCode.isValid ⟨r⟩ = true := fun h => hnot ⟨hle, h⟩
      exact ⟨iff_of_false hinvalid hnone, fun h => absurd h hinvalid⟩

/-- Eight letters are a valid code, which prints as the first seven of them. -/
theorem isValid_eight_letters :
    SymbolCode.isValid ⟨0x4241414141414141⟩ = true ∧
      (¬∃ str, IsSymbolText str ∧ SymbolCode.ofText str = .ok ⟨0x4241414141414141⟩) ∧
      SymbolCode.ofText (SymbolCode.toStr ⟨0x4241414141414141⟩) = .ok ⟨0x41414141414141⟩ :=
  ⟨by decide, no_text_of_large (by decide), by decide⟩

end Wasmlib
