import WasmCdt.Core.Hash256

/-!
# Hashes and their texts

The constructor of `hash256` from a text against `to_string`.

* `flatMap_pairs`: a list written two at a time.
* `toStr_digest`: what `to_string` makes of 64 characters, each on its own (`readBack`): a digit of the
  map stays, any other character is `0`.
* `digest_toStr`: the bytes come back from the text.
* `ofText_of_length`, `ofText_of_ne`: the constructor behind the prefix and the length check.
* `hash_text_iff`: **the texts for which the constructor is exact or refuses**, and the round trip.
-/

namespace Wasmlib

namespace Hash256

/-- `s` without an optional `0x`. -/
def unprefixed : Text → Text
  | c :: x :: s => if c = '0' ∧ x.toLower = 'x' then s else c :: x :: s
  | s => s

/-- Of either case. -/
def IsHexDigit (c : Char) : Prop := c.toLower ∈ hexDigits

/-- The constructor refuses `s`, or `s` is 64 hexadecimal digits and they are what `to_string` writes
of the hash. -/
def ExactOrRefused (past : Nat → Char) (s : Text) : Prop :=
  (∃ msg, ofText past s = .error (.abort msg)) ∨
    ∃ h, ofText past s = .ok h ∧ (unprefixed s).length = 64 ∧ (∀ c ∈ unprefixed s, IsHexDigit c) ∧
      h.toStr = (unprefixed s).map Char.toLower

/-! ## Digits -/

/-- A character through the map of the constructor and the digits of `to_string`. -/
def readBack (c : Char) : Char := hexDigit (hexValue c)

theorem hexValue_lt (c : Char) : hexValue c < 16 := by
  unfold hexValue
  cases hl : hexMap.lookup c with
  | none => decide
  | some x =>
    have hall : hexMap.all (fun p => decide (p.2 < 16)) = true := by decide
    obtain ⟨pre, post, hsplit, -⟩ := List.lookup_eq_some_iff.1 hl
    have hmem : (c, x) ∈ hexMap := by
      rw [hsplit]
      exact List.mem_append_right _ (.head _)
    exact of_decide_eq_true (List.all_eq_true.1 hall (c, x) hmem)

theorem hexValue_hexDigit (x : BitVec 8) (hx : x < 16) : hexValue (hexDigit x) = x := by
  have hall : ∀ n < 16, hexValue (hexDigit (BitVec.ofNat 8 n)) = BitVec.ofNat 8 n := by decide
  have hn := hall x.toNat hx
  rwa [BitVec.ofNat_toNat, BitVec.setWidth_eq] at hn

theorem hexDigit_mem (x : BitVec 8) (hx : x < 16) : hexDigit x ∈ hexDigits := by
  have hall : ∀ n < 16, hexDigit (BitVec.ofNat 8 n) ∈ hexDigits := by decide
  have hn := hall x.toNat hx
  rwa [BitVec.ofNat_toNat, BitVec.setWidth_eq] at hn

theorem readBack_of_mem {c : Char} (h : c ∈ hexDigits) : readBack c = c := by
  have hall : hexDigits.all (fun c => decide (readBack c = c)) = true := by decide
  exact of_decide_eq_true (List.all_eq_true.1 hall c h)

theorem toLower_of_mem {c : Char} (h : c ∈ hexDigits) : c.toLower = c := by
  have hall : hexDigits.all (fun c => decide (c.toLower = c)) = true := by decide
  exact of_decide_eq_true (List.all_eq_true.1 hall c h)

theorem readBack_of_not_mem {c : Char} (h : c ∉ hexDigits) : readBack c = '0' := by
  have hkeys : hexMap.map Prod.fst = hexDigits := by decide
  have hl : hexMap.lookup c = none := by
    rw [List.lookup_eq_none_iff]
    intro p hp
    rw [bne_iff_ne]
    intro he
    subst he
    exact h (hkeys ▸ List.mem_map_of_mem hp)
  unfold readBack hexValue
  rw [hl]
  decide

theorem toLower_eq_zero {c : Char} (h : c.toLower = '0') : c = '0' := by
  unfold Char.toLower at h
  split at h
  · rename_i hup
    -- the lower case of a capital is behind the digits
    have hlo : 65 ≤ c.val.toNat := UInt32.le_iff_toNat_le.1 hup.1
    have hhi : c.val.toNat ≤ 90 := UInt32.le_iff_toNat_le.1 hup.2
    have hval : (c.val + 32).toNat = 48 := congrArg Char.toNat h
    rw [UInt32.toNat_add] at hval
    change (c.val.toNat + 32) % 2 ^ 32 = 48 at hval
    omega
  · exact h

/-- Only the digits of the map keep their value. -/
theorem readBack_eq_toLower {c : Char} : readBack c = c.toLower ↔ c ∈ hexDigits := by
  constructor
  · intro h
    by_contra hc
    rw [readBack_of_not_mem hc] at h
    rw [toLower_eq_zero h.symm] at hc
    exact hc (by decide)
  · intro h
    rw [readBack_of_mem h, toLower_of_mem h]

/-! ## The text of a hash -/

theorem flatMap_pairs {α : Type} (f : Nat → α) (n : Nat) :
    ((List.range n).flatMap fun i => [f (2 * i), f (2 * i + 1)]) = (List.range (2 * n)).map f := by
  induction n with
  | zero => rfl
  | succ n ih =>
    have h2 : 2 * (n + 1) = 2 * n + 1 + 1 := by omega
    rw [List.range_succ, List.flatMap_append, ih, h2, List.range_succ, List.range_succ]
    simp

theorem map_range_getD {α β : Type} (g : α → β) (s : List α) (d : α) :
    (List.range s.length).map (fun k => g (s.getD k d)) = s.map g := by
  apply List.ext_getElem
  · simp
  · intro k hk _
    simp only [List.length_map, List.length_range] at hk
    simp [hk]

/-- The two halves of a byte. -/
theorem halves (h l : BitVec 8) (hh : h < 16) (hl : l < 16) :
    (l ||| h <<< 4) >>> 4 = h ∧ (l ||| h <<< 4) &&& 0xf = l := by
  have hall : ∀ a < 16, ∀ b < 16,
      (BitVec.ofNat 8 b ||| BitVec.ofNat 8 a <<< 4) >>> 4 = BitVec.ofNat 8 a ∧
        (BitVec.ofNat 8 b ||| BitVec.ofNat 8 a <<< 4) &&& 0xf = BitVec.ofNat 8 b := by decide
  have hn := hall h.toNat hh l.toNat hl
  simpa only [BitVec.ofNat_toNat, BitVec.setWidth_eq] using hn

theorem toStr_digest {s : Text} (h : s.length = 64) : (digest s).toStr = s.map readBack := by
  have hpair : ∀ i ∈ List.range 32,
      [hexDigit ((digest s).value[32 - i - 1] >>> 4), hexDigit ((digest s).value[32 - i - 1] &&& 0xf)]
        = [readBack (s.getD (2 * i) '\x00'), readBack (s.getD (2 * i + 1) '\x00')] := by
    intro i hi
    have hi : i < 32 := List.mem_range.1 hi
    have hpos : s.length - 2 * (32 - i - 1 + 1) = 2 * i := by omega
    obtain ⟨hh, hl⟩ := halves _ _ (hexValue_lt (s.getD (2 * i) '\x00'))
      (hexValue_lt (s.getD (2 * i + 1) '\x00'))
    simp only [digest, Vector.getElem_ofFn, hpos, hh, hl, readBack]
  have hlen : 2 * 32 = s.length := by omega
  unfold toStr
  rw [List.flatMap_congr hpair, flatMap_pairs fun k => readBack (s.getD k '\x00'), hlen,
    map_range_getD]

/-- The digits of `to_string`, by their place. -/
theorem toStr_eq (h : Hash256) :
    h.toStr = (List.range 64).map fun k =>
      hexDigit (if k % 2 = 0 then h.value[32 - k / 2 - 1] >>> 4 else h.value[32 - k / 2 - 1] &&& 0xf) := by
  unfold toStr
  rw [← flatMap_pairs _ 32]
  apply List.flatMap_congr
  intro i hi
  have h0 : 2 * i / 2 = i := by omega
  have h1 : (2 * i + 1) / 2 = i := by omega
  have hodd : (2 * i + 1) % 2 ≠ 0 := by omega
  simp only [h0, h1, Nat.mul_mod_right, if_pos, if_neg hodd]

theorem half_lt (b : BitVec 8) : b >>> 4 < 16 ∧ b &&& 15#8 < 16 := by
  revert b
  decide

theorem length_toStr (h : Hash256) : h.toStr.length = 64 := by simp [toStr_eq]

theorem mem_toStr {h : Hash256} {c : Char} (hc : c ∈ h.toStr) : c ∈ hexDigits := by
  rw [toStr_eq] at hc
  obtain ⟨k, -, rfl⟩ := List.mem_map.1 hc
  apply hexDigit_mem
  split
  · exact (half_lt _).1
  · exact (half_lt _).2

theorem digest_toStr (h : Hash256) : digest h.toStr = h := by
  have hjoin : ∀ b : BitVec 8, (b &&& 15#8) ||| (b >>> 4) <<< 4 = b := by decide
  have hval : (digest h.toStr).value = h.value := by
    apply Vector.ext
    intro i hi
    have hpos : 64 - 2 * (i + 1) = 2 * (31 - i) := by omega
    have hlt : 2 * (31 - i) + 1 < 64 := by omega
    have hlt' : 2 * (31 - i) < 64 := by omega
    have hdiv : (2 * (31 - i) + 1) / 2 = 31 - i := by omega
    have hdiv' : 2 * (31 - i) / 2 = 31 - i := by omega
    have hodd : (2 * (31 - i) + 1) % 2 ≠ 0 := by omega
    have hback : 32 - (31 - i) - 1 = i := by omega
    simp only [digest, Vector.getElem_ofFn, length_toStr, hpos]
    rw [toStr_eq]
    simp [hlt, hlt', hdiv, hdiv', hback]
    rw [hexValue_hexDigit _ (half_lt _).1, hexValue_hexDigit _ (half_lt _).2, hjoin]
  exact congrArg Hash256.mk hval

/-! ## The constructor -/

/-- With two characters to look at, nothing behind the text is read. -/
theorem ofText_cons_cons (past : Nat → Char) (c x : Char) (s : Text) :
    ofText past (c :: x :: s)
      = (check ((unprefixed (c :: x :: s)).length = 64) "Hex string for hash256 must be 64 bytes" >>=
        fun _ => .ok (digest (unprefixed (c :: x :: s)))) := by
  unfold ofText dropPrefix
  simp only [List.getD_cons_zero, List.getD_cons_succ]
  by_cases hpre : c = '0' ∧ x.toLower = 'x'
  · have hun : unprefixed (c :: x :: s) = s := if_pos hpre
    have hlen : ¬ (c :: x :: s).length < 2 := by simp
    rw [if_pos hpre, if_neg hlen, hun]
    rfl
  · have hun : unprefixed (c :: x :: s) = c :: x :: s := if_neg hpre
    rw [if_neg hpre, hun]
    rfl

/-- A shorter text is refused, whatever lies behind it. -/
theorem ofText_short (past : Nat → Char) {s : Text} (h : s.length < 2) :
    ∃ msg, ofText past s = .error (.abort msg) := by
  unfold ofText dropPrefix
  rw [if_pos h]
  split
  · exact ⟨_, rfl⟩
  · have hne : s.length ≠ 64 := by omega
    simp only [pure_eq_ok, ok_bind, check_bind, decide_eq_false hne]
    exact ⟨_, rfl⟩

theorem ofText_of_length (past : Nat → Char) {s : Text} (h : (unprefixed s).length = 64) :
    ofText past s = .ok (digest (unprefixed s)) := by
  match s, h with
  | c :: x :: s, h => rw [ofText_cons_cons, check_bind, decide_eq_true h, if_pos rfl]

theorem ofText_of_ne (past : Nat → Char) {s : Text} (h : (unprefixed s).length ≠ 64) :
    ∃ msg, ofText past s = .error (.abort msg) := by
  match s, h with
  | [], _ => exact ofText_short past (by decide)
  | [_], _ => exact ofText_short past (by simp)
  | c :: x :: s, h =>
    rw [ofText_cons_cons, check_bind, decide_eq_false h]
    exact ⟨_, rfl⟩

theorem unprefixed_toStr (h : Hash256) : unprefixed h.toStr = h.toStr := by
  have hlen := length_toStr h
  have hmem := fun c (hc : c ∈ h.toStr) => mem_toStr hc
  match h.toStr, hlen, hmem with
  | c :: x :: s, _, hmem =>
    have hx := hmem x (.tail _ (.head _))
    refine if_neg fun hpre => ?_
    rw [toLower_of_mem hx] at hpre
    rw [hpre.2] at hx
    revert hx
    decide

theorem exactOrRefused_iff (past : Nat → Char) (s : Text) :
    ExactOrRefused past s ↔ (unprefixed s).length ≠ 64 ∨ ∀ c ∈ unprefixed s, c ∈ hexDigits := by
  by_cases hlen : (unprefixed s).length = 64
  · have hok := ofText_of_length past hlen
    have hback := toStr_digest hlen
    constructor
    · intro hex
      obtain ⟨msg, hmsg⟩ | ⟨h, hh, -, -, hlow⟩ := hex
      · rw [hok] at hmsg
        cases hmsg
      · rw [hok] at hh
        rw [← Except.ok.inj hh, hback] at hlow
        exact .inr fun c hc => readBack_eq_toLower.1 (List.map_inj_left.1 hlow c hc)
    · intro hd
      have hall := hd.resolve_left (not_not_intro hlen)
      refine .inr ⟨_, hok, hlen, fun c hc => ?_, ?_⟩
      · unfold IsHexDigit
        rw [toLower_of_mem (hall c hc)]
        exact hall c hc
      · rw [hback]
        exact List.map_congr_left fun c hc => readBack_eq_toLower.2 (hall c hc)
  · exact ⟨fun _ => .inl hlen, fun _ => .inl (ofText_of_ne past hlen)⟩

theorem ofText_toStr (past : Nat → Char) (h : Hash256) : ofText past h.toStr = .ok h := by
  have hun := unprefixed_toStr h
  rw [ofText_of_length past (by rw [hun, length_toStr]), hun, digest_toStr]

/-- `hash256` of a text is exact or refused where the text without its prefix has another length than
64 or digits of the map only; and the text of a hash is read back. -/
theorem hash_text_iff (past : Nat → Char) (s : Text) (h : Hash256) :
    (ExactOrRefused past s ↔
      (unprefixed s).length ≠ 64 ∨ ∀ c ∈ unprefixed s, c ∈ hexDigits) ∧
    ofText past h.toStr = .ok h :=
  ⟨exactOrRefused_iff past s, ofText_toStr past h⟩

/-- A text of 64 other characters than digits is accepted, and not exact. -/
theorem not_exact_of_not_mem {past : Nat → Char} {s : Text} (hlen : (unprefixed s).length = 64)
    {c : Char} (hc : c ∈ unprefixed s) (hdigit : c ∉ hexDigits) : ¬ ExactOrRefused past s := by
  intro hex
  rcases (exactOrRefused_iff past s).1 hex with hne | hall
  · exact hne hlen
  · exact hdigit (hall c hc)

/-- 64 times `A`, and 64 times `z`, are accepted. -/
theorem not_exact_capitals :
    (¬ ExactOrRefused (fun _ => '\x00') (List.replicate 64 'A')) ∧
      (¬ ExactOrRefused (fun _ => '\x00') (List.replicate 64 'z')) ∧
      ofText (fun _ => '\x00') (List.replicate 64 'A') = .ok ⟨.replicate 32 0⟩ ∧
      ofText (fun _ => '\x00') (List.replicate 64 'z') = .ok ⟨.replicate 32 0⟩ := by
  have hcapital : 'A' ∈ unprefixed (List.replicate 64 'A') := by decide
  have hletter : 'z' ∈ unprefixed (List.replicate 64 'z') := by decide
  exact ⟨not_exact_of_not_mem rfl hcapital (by decide), not_exact_of_not_mem rfl hletter (by decide),
    rfl, rfl⟩

end Hash256

end Wasmlib
