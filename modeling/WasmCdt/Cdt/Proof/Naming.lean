import WasmCdt.Cdt.Utils
import WasmCdt.Core.Proof.Name

/-!
# The toolchain's names are the library's

The toolchain encodes a name as the library does, decodes it from the other end, and accepts the
texts that the library writes.

* `stringToName_eq`: the two encoders are one function.
* `trimPadding_nameText`: the toolchain's decoder writes what the library writes.
* `naming_agrees`: the accepted texts, and their value for all three encoders.
* `nameToString_agrees_iff`: `name_to_string` writes the same, except for the name 0.
-/

namespace Cdt

open Wasmlib (Name symbol place room valueFrom Fits)

/-! ## The encoders -/

theorem stringToNameLoop_eq : ∀ (i : Nat) (str : Text) (name : BitVec 64),
    stringToNameLoop i str name = Wasmlib.stringToNameLoop i str name
  | _, [], _ => rfl
  | i, c :: str, name => by
    rw [stringToNameLoop, Wasmlib.stringToNameLoop, stringToNameLoop_eq (i + 1) str]
    rfl

theorem stringToName_eq (str : Text) : stringToName str = Wasmlib.stringToName str :=
  stringToNameLoop_eq 0 str 0

/-! ## The decoder -/

/-- The groups taken from the low end are the characters. -/
theorem nameChars_eq : ∀ {n : Nat} {q str : Text} {tmp : BitVec 64}, (∀ c ∈ q, c ∈ Name.charmap) →
    q.length = n → n ≤ 12 → tmp.toNat * room n = valueFrom 0 q → nameChars n tmp str = q ++ str
  | 0, q, str, tmp, _, hlen, _, _ => by
    rw [List.length_eq_zero_iff.1 hlen]
    rfl
  | n + 1, q, str, tmp, hmem, hlen, hn, htmp => by
    obtain ⟨q, d, rfl⟩ : ∃ q' d, q = q' ++ [d] :=
      ⟨q.dropLast, q.getLast (List.ne_nil_of_length_pos (by omega)),
        (List.dropLast_append_getLast _).symm⟩
    rw [List.length_append, List.length_singleton] at hlen
    have hmem' : ∀ c ∈ q, c ∈ Name.charmap := fun c hc => hmem c (List.mem_append_left _ hc)
    have hd : d ∈ Name.charmap := hmem d (List.mem_append_right _ List.mem_cons_self)
    have hsymbol := Wasmlib.symbol_lt hd
    obtain ⟨r, -, hr⟩ := Name.packLoop_eq 0 0 hmem' (by omega) (by decide)
    have hq : q.length = n := by omega
    rw [hq, Nat.zero_add, show BitVec.toNat (0 : BitVec 64) = 0 from rfl, Nat.zero_mul,
      Nat.zero_add] at hr
    have hroom := Wasmlib.room_eq (show n ≤ 12 by omega)
    have hplace : 0 < place n := Nat.two_pow_pos _
    have hsum : tmp.toNat = r.toNat * 32 + symbol d := by
      rw [Wasmlib.room_succ (by omega), Wasmlib.valueFrom_append, hq, Nat.zero_add, valueFrom, valueFrom,
        Nat.add_zero, ← hr, hroom, if_neg (by omega), ← Nat.mul_assoc, ← Nat.add_mul] at htmp
      exact Nat.eq_of_mul_eq_mul_right hplace htmp
    have hlow : (tmp &&& 0x1f).toNat = symbol d := by
      have hmask : (0x1f : BitVec 64).toNat = 2 ^ 5 - 1 := by decide
      rw [BitVec.toNat_and, hmask, Nat.and_two_pow_sub_one_eq_mod]
      omega
    have hhigh : (tmp >>> 5).toNat = r.toNat := by
      rw [BitVec.toNat_ushiftRight, Nat.shiftRight_eq_div_pow]
      omega
    have hchar : charmap.getD (symbol d) '_' = d := Wasmlib.getD_symbol hd
    rw [nameChars, nameChars_eq hmem' hq (by omega) (by rw [hhigh, hr]), hlow, hchar]
    simp

theorem nameText_eq {p : Text} (h : Fits 0 p) (hlen : p.length = 13) :
    nameText (BitVec.ofNat 64 (valueFrom 0 p)) = p := by
  have hlt : valueFrom 0 p < 2 ^ 64 := Wasmlib.valueFrom_lt h
  rcases Name.drop_of_fits h with ⟨hnil, -⟩ | ⟨c, hdrop, -, -, hc, hsymbol⟩
  · have hzero : (p.drop 12).length = 0 := by rw [hnil, List.length_nil]
    rw [List.length_drop] at hzero
    omega
  · have hsplit : p = p.take 12 ++ [c] := by rw [← hdrop, List.take_append_drop]
    have htake : (p.take 12).length = 12 := by
      rw [List.length_take]
      omega
    have hmem : ∀ d ∈ p.take 12, d ∈ Name.charmap := fun d hd => h.mem d (List.mem_of_mem_take hd)
    obtain ⟨r, -, hr⟩ := Name.packLoop_eq 0 0 hmem (by omega) (by decide)
    rw [htake, Nat.zero_add, show BitVec.toNat (0 : BitVec 64) = 0 from rfl, Nat.zero_mul,
      Nat.zero_add, show room 12 = 16 from rfl] at hr
    have hvalue : valueFrom 0 p = r.toNat * 16 + symbol c := by
      rw [hsplit, Wasmlib.valueFrom_append, htake, ← hr, valueFrom, valueFrom,
        show place (0 + 12) = 1 from rfl, Nat.mul_one, Nat.add_zero]
    have hlow : (BitVec.ofNat 64 (valueFrom 0 p) &&& 0x0f).toNat = symbol c := by
      have hmask : (0x0f : BitVec 64).toNat = 2 ^ 4 - 1 := by decide
      rw [BitVec.toNat_and, hmask, Nat.and_two_pow_sub_one_eq_mod, BitVec.toNat_ofNat]
      omega
    have hhigh : (BitVec.ofNat 64 (valueFrom 0 p) >>> 4).toNat = r.toNat := by
      rw [BitVec.toNat_ushiftRight, Nat.shiftRight_eq_div_pow, BitVec.toNat_ofNat]
      omega
    have hchar : charmap.getD (symbol c) '_' = c := Wasmlib.getD_symbol hc
    have htmp : (BitVec.ofNat 64 (valueFrom 0 p) >>> 4).toNat * room 12 = valueFrom 0 (p.take 12) := by
      rw [hhigh, ← hr]
      rfl
    rw [nameText, nameChars_eq hmem htake (Nat.le_refl _) htmp, hlow, hchar, ← hsplit]

theorem trimPadding_append {str : Text} (h : str.getLast? ≠ some '_') (k : Nat) :
    trimPadding (str ++ List.replicate k '_') = str := by
  have hdrop : str.reverse.dropWhile (· = '_') = str.reverse := by
    cases hrev : str.reverse with
    | nil => rfl
    | cons c rest =>
      have hlast : str.getLast? = some c := by rw [← List.head?_reverse, hrev]; rfl
      have hne : ¬c = '_' := fun heq => h (heq ▸ hlast)
      simp [hne]
  rw [trimPadding, List.reverse_append, List.reverse_replicate, List.dropWhile_append_of_pos]
  · rw [hdrop, List.reverse_reverse]
  · intro c hc
    simpa using List.eq_of_mem_replicate hc

/-- Padding is worth nothing, and fits. -/
theorem padding_spec : ∀ (k i : Nat), i + k ≤ 13 →
    Fits i (List.replicate k '_') ∧ valueFrom i (List.replicate k '_') = 0
  | 0, _, _ => ⟨trivial, rfl⟩
  | k + 1, i, hi => by
    obtain ⟨hfits, hvalue⟩ := padding_spec k (i + 1) (by omega)
    have hsymbol : symbol '_' = 0 := by decide
    refine ⟨⟨by omega, by decide, fun _ => by decide, hfits⟩, ?_⟩
    rw [List.replicate_succ, valueFrom, hsymbol, hvalue, Nat.zero_mul]

/-- **The toolchain writes a name as the library does.** -/
theorem trimPadding_nameText (value : BitVec 64) :
    trimPadding (nameText value) = (Name.mk value).toString := by
  obtain ⟨hfits, hvalue, hpad⟩ := (Name.mk value).toString_spec
  have hlen := hfits.length_le (by decide)
  obtain ⟨hfits', hzero⟩ := padding_spec (13 - (Name.mk value).toString.length)
    (0 + (Name.mk value).toString.length) (by omega)
  have hpadded := Wasmlib.fits_append.2 ⟨hfits, hfits'⟩
  have htext := nameText_eq hpadded (by
    rw [List.length_append, List.length_replicate]
    omega)
  rw [Wasmlib.valueFrom_append, hzero, Nat.add_zero, hvalue, BitVec.ofNat_toNat,
    BitVec.setWidth_eq] at htext
  rw [htext, trimPadding_append hpad]

/-! ## Agreement -/

theorem stringToName_toString (nm : Name) : stringToName nm.toString = nm.value := by
  obtain ⟨hfits, hvalue, -⟩ := nm.toString_spec
  rw [stringToName_eq, Wasmlib.stringToName_eq hfits, hvalue, BitVec.ofNat_toNat, BitVec.setWidth_eq]

theorem validateName_iff (str : Text) : validateName str = true ↔ ∃ v, str = (Name.mk v).toString := by
  constructor
  · intro h
    unfold validateName at h
    split_ifs at h
    exact ⟨stringToName str, by rw [← trimPadding_nameText, of_decide_eq_true h]⟩
  · rintro ⟨v, rfl⟩
    have hlen := (Name.mk v).toString_spec.1.length_le (by decide)
    rw [validateName, if_neg (by omega), stringToName_toString, trimPadding_nameText]
    exact decide_eq_true rfl

/-- The library reads an accepted text as the toolchain does. -/
theorem ofString_of_validateName {str : Text} (h : validateName str = true) :
    Name.ofString str = .ok ⟨stringToName str⟩ := by
  obtain ⟨v, rfl⟩ := (validateName_iff str).1 h
  rw [Name.ofString_toString, stringToName_toString]

/-- Accepted texts with one value are one text. -/
theorem validateName_inj {s t : Text} (hs : validateName s = true) (ht : validateName t = true)
    (heq : stringToName s = stringToName t) : s = t := by
  obtain ⟨v, rfl⟩ := (validateName_iff s).1 hs
  obtain ⟨w, rfl⟩ := (validateName_iff t).1 ht
  rw [stringToName_toString, stringToName_toString] at heq
  exact congrArg (fun v => (Name.mk v).toString) heq

/-- **The toolchain accepts the texts that names are written as**, and all encoders agree on them. -/
theorem naming_agrees : (∀ str, validateName str = true ↔ ∃ v, str = (Name.mk v).toString) ∧
    ∀ str, validateName str = true → stringToName str = Wasmlib.stringToName str ∧
      Name.ofString str = .ok ⟨Wasmlib.stringToName str⟩ := by
  refine ⟨validateName_iff, fun str h => ⟨stringToName_eq str, ?_⟩⟩
  rw [← stringToName_eq]
  exact ofString_of_validateName h

/-! ## The printer -/

/-- The two trimmers differ on padding alone. -/
theorem trimRightDots_eq (str : Text) :
    trimRightDots str = if trimPadding str = [] then str else trimPadding str := by
  unfold trimRightDots findLastNotOf
  cases hfind : str.reverse.findIdx? (· ≠ '_') with
  | none =>
    have hall : ∀ c ∈ str.reverse, decide (c = '_') = true := by
      simpa using hfind
    rw [trimPadding, List.dropWhile_eq_nil_iff.2 hall]
    rfl
  | some i =>
    obtain ⟨hlt, hidx⟩ := List.findIdx?_eq_some_iff_findIdx_eq.1 hfind
    have hnot : (fun c : Char => !decide (c = '_')) = fun c => decide (c ≠ '_') := by
      funext c
      simp
    have htrim : trimPadding str = str.take (str.length - i) := by
      rw [trimPadding, List.dropWhile_eq_drop_findIdx_not, hnot, hidx, List.drop_reverse,
        List.reverse_reverse]
    rw [List.length_reverse] at hlt
    have hpos : str.length - 1 - i + 1 = str.length - i := by omega
    have hne : trimPadding str ≠ [] := by
      rw [htrim]
      refine List.ne_nil_of_length_pos ?_
      rw [List.length_take]
      omega
    rw [if_neg hne, htrim, ← hpos]
    rfl

theorem toString_eq_nil {v : BitVec 64} (h : (Name.mk v).toString = []) : v = 0 := by
  have hread := stringToName_toString ⟨v⟩
  rw [h] at hread
  exact hread.symm

/-- **Where `name_to_string` agrees with the library**: for every name but the empty one, which is
written as thirteen padding characters. -/
theorem nameToString_agrees_iff (v : BitVec 64) :
    (nameToString v = (Name.mk v).toString ∧ stringToName (nameToString v) = v) ↔ v ≠ 0 := by
  constructor
  · rintro ⟨h, -⟩ rfl
    cases h
  · intro h
    have htext : nameToString v = (Name.mk v).toString := by
      rw [nameToString, trimRightDots_eq, trimPadding_nameText,
        if_neg fun hnil => h (toString_eq_nil hnil)]
    exact ⟨htext, by rw [htext, stringToName_toString]⟩

theorem nameToString_zero : nameToString 0 = List.replicate 13 '_' ∧ (Name.mk 0).toString = [] ∧
    ¬(nameToString 0 = (Name.mk 0).toString ∧ stringToName (nameToString 0) = 0) :=
  ⟨rfl, rfl, fun h => absurd h.1 (by decide)⟩

end Cdt
