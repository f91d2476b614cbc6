import WasmCdt.Core.Name
import Mathlib.Tactic.IntervalCases

/-!
# The name codec

A text is worth the sum of its characters' symbols, each at the place of its group. The encoders
compute this sum and the decoder takes it apart again.

* `valueFrom`, `Fits`: the sum, and the texts with at most 13 characters of the name alphabet.
* `stringToName_eq`, `Name.ofString_eq`: the encoders.
* `Name.writeLoop_valueFrom`, `Name.valueFrom_writeLoop`: the decoder, in both directions.
* `Name.ofString_toString`, `Name.toString_ofString`: the codec is a bijection.
-/

namespace Wasmlib

open Name

/-! ## Symbols -/

def symbol (c : Char) : Nat := (charToSymbol c).toNat

/-- The place of group `i`, as the power of two of its lowest bit. -/
def place (i : Nat) : Nat := 2 ^ (59 - 5 * i)

/-- A test of the whole alphabet. -/
theorem forall_mem_charmap {p : Char → Prop} [DecidablePred p]
    (h : charmap.all (fun c => p c) = true) : ∀ c ∈ charmap, p c := by
  intro c hc
  exact of_decide_eq_true (List.all_eq_true.1 h c hc)

theorem symbol_lt {c : Char} (h : c ∈ charmap) : symbol c < 32 := by
  revert c
  apply forall_mem_charmap
  decide

theorem getD_symbol {c : Char} (h : c ∈ charmap) : charmap.getD (symbol c) '_' = c := by
  revert c
  apply forall_mem_charmap
  decide

theorem symbol_getD {d : Nat} (h : d < 32) : symbol (charmap.getD d '_') = d := by
  revert d
  decide

theorem getD_mem {d : Nat} (h : d < 32) : charmap.getD d '_' ∈ charmap := by
  revert d
  decide

theorem symbol_eq_zero {c : Char} (h : c ∈ charmap) : symbol c = 0 ↔ c = '_' := by
  revert c
  apply forall_mem_charmap
  decide

theorem ne_nul {c : Char} (h : c ∈ charmap) : c ≠ '\x00' := by
  rintro rfl
  revert h
  decide

theorem charToValue_eq {c : Char} (h : c ∈ charmap) :
    charToValue c = .ok (BitVec.ofNat 8 (symbol c)) := by
  revert c
  apply forall_mem_charmap
  decide

/-- Letters and digits of the alphabet are in it. -/
theorem mem_charmap_of_range {c : Char} (h : 'a' ≤ c ∧ c ≤ 'z' ∨ '1' ≤ c ∧ c ≤ '5') :
    c ∈ charmap := by
  have hofNat : c = Char.ofNat c.toNat := (Char.ofNat_toNat c).symm
  have hrange : 97 ≤ c.toNat ∧ c.toNat ≤ 122 ∨ 49 ≤ c.toNat ∧ c.toNat ≤ 53 := h
  rw [hofNat]
  rcases hrange with ⟨hlo, hhi⟩ | ⟨hlo, hhi⟩ <;> interval_cases c.toNat <;> decide

theorem charToValue_ok {c : Char} {v : BitVec 8} (h : charToValue c = .ok v) : c ∈ charmap := by
  unfold charToValue at h
  split_ifs at h with hpad hdigit hletter
  · rw [hpad]
    decide
  · exact mem_charmap_of_range (.inr hdigit)
  · exact mem_charmap_of_range (.inl hletter)

/-! ## The value of a text -/

/-- The value of the characters from group `i` on. -/
def valueFrom : Nat → Text → Nat
  | _, [] => 0
  | i, c :: str => symbol c * place i + valueFrom (i + 1) str

/-- Characters of the alphabet for the groups from `i` on; the last group has four bits. -/
def Fits : Nat → Text → Prop
  | _, [] => True
  | i, c :: str => i ≤ 12 ∧ c ∈ charmap ∧ (i = 12 → symbol c < 16) ∧ Fits (i + 1) str

/-- The values that fit the groups from `i` on. -/
def room (i : Nat) : Nat := 2 ^ (64 - 5 * i)

theorem room_eq {i : Nat} (h : i ≤ 12) : room i = (if i = 12 then 16 else 32) * place i := by
  interval_cases i <;> decide

theorem room_succ {i : Nat} (h : i ≤ 12) : room (i + 1) = place i := by
  interval_cases i <;> decide

theorem room_pos (i : Nat) : 0 < room i := Nat.two_pow_pos _

theorem valueFrom_lt : ∀ {i : Nat} {str : Text}, Fits i str → valueFrom i str < room i
  | i, [], _ => room_pos i
  | i, c :: str, ⟨hi, hc, hlast, hstr⟩ => by
    have hlt := valueFrom_lt hstr
    have hsymbol := symbol_lt hc
    rw [room_succ hi] at hlt
    rw [valueFrom, room_eq hi]
    split_ifs with heq
    · have hle : (symbol c + 1) * place i ≤ 16 * place i := Nat.mul_le_mul_right _ (hlast heq)
      rw [Nat.succ_mul] at hle
      omega
    · have hle : (symbol c + 1) * place i ≤ 32 * place i := Nat.mul_le_mul_right _ hsymbol
      rw [Nat.succ_mul] at hle
      omega

theorem valueFrom_append : ∀ (i : Nat) (s t : Text),
    valueFrom i (s ++ t) = valueFrom i s + valueFrom (i + s.length) t
  | i, [], t => by simp [valueFrom]
  | i, c :: s, t => by
    rw [List.cons_append, valueFrom, valueFrom, valueFrom_append (i + 1) s t, List.length_cons,
      show i + 1 + s.length = i + (s.length + 1) by omega, Nat.add_assoc]

theorem fits_append : ∀ {i : Nat} {s t : Text},
    Fits i (s ++ t) ↔ Fits i s ∧ Fits (i + s.length) t
  | i, [], t => by simp [Fits]
  | i, c :: s, t => by
    rw [List.cons_append, Fits, Fits, fits_append, List.length_cons,
      show i + 1 + s.length = i + (s.length + 1) by omega]
    tauto

theorem Fits.mem : ∀ {i : Nat} {str : Text}, Fits i str → ∀ c ∈ str, c ∈ charmap
  | _, _ :: _, ⟨_, hc, _, hstr⟩, d, hd => by
    rcases List.mem_cons.1 hd with rfl | hd
    · exact hc
    · exact hstr.mem d hd

theorem Fits.length_le : ∀ {i : Nat} {str : Text}, Fits i str → i ≤ 13 → i + str.length ≤ 13
  | _, [], _, hi => hi
  | _, _ :: _, ⟨hi, _, _, hstr⟩, _ => by
    have hlen := hstr.length_le (by omega)
    rw [List.length_cons]
    omega

/-- Up to group 12, every text of the alphabet fits. -/
theorem fits_of_mem : ∀ {i : Nat} {str : Text}, (∀ c ∈ str, c ∈ charmap) → i + str.length ≤ 12 →
    Fits i str
  | _, [], _, _ => trivial
  | i, c :: str, hmem, hlen => by
    rw [List.length_cons] at hlen
    exact ⟨by omega, hmem c List.mem_cons_self, by omega,
      fits_of_mem (fun d hd => hmem d (List.mem_cons_of_mem _ hd)) (by omega)⟩

/-- A text that does not end in padding is not worth nothing. -/
theorem valueFrom_pos : ∀ {i : Nat} {str : Text}, Fits i str → str ≠ [] →
    str.getLast? ≠ some '_' → 0 < valueFrom i str
  | i, [c], ⟨_, hc, _, _⟩, _, hpad => by
    have hsymbol : symbol c ≠ 0 := by
      rw [Ne, symbol_eq_zero hc]
      rintro rfl
      exact hpad rfl
    have hmul := Nat.mul_pos (Nat.pos_of_ne_zero hsymbol) (Nat.two_pow_pos (59 - 5 * i))
    rw [valueFrom]
    exact Nat.lt_of_lt_of_le hmul (Nat.le_add_right _ _)
  | i, c :: d :: str, ⟨_, _, _, hstr⟩, _, hpad => by
    rw [List.getLast?_cons_cons] at hpad
    have hpos := valueFrom_pos hstr (List.cons_ne_nil d str) hpad
    rw [valueFrom]
    omega

/-! ## Words -/

/-- A group is put behind the ones in front of it. -/
theorem toNat_or_shiftLeft {w k : Nat} {a b : BitVec w} (ha : a.toNat % 2 ^ (k + 5) = 0)
    (hb : b.toNat < 32) (hw : k + 5 ≤ w) :
    (a ||| b <<< k).toNat = a.toNat + b.toNat * 2 ^ k := by
  have hpow : 2 ^ (k + 5) ≤ 2 ^ w := Nat.pow_le_pow_right (by decide) hw
  have hsplit : 2 ^ (k + 5) = 32 * 2 ^ k := by rw [Nat.pow_add, Nat.mul_comm]
  have hlt : b.toNat * 2 ^ k < 2 ^ (k + 5) := by
    rw [hsplit]
    exact Nat.mul_lt_mul_of_pos_right hb (Nat.two_pow_pos k)
  have hshift : (b <<< k).toNat = b.toNat * 2 ^ k := by
    rw [BitVec.toNat_shiftLeft, Nat.shiftLeft_eq, Nat.mod_eq_of_lt (by omega)]
  have ha' : a.toNat = 2 ^ (k + 5) * (a.toNat / 2 ^ (k + 5)) := by
    have hdiv := Nat.div_add_mod a.toNat (2 ^ (k + 5))
    omega
  rw [BitVec.toNat_or, hshift, ha', Nat.two_pow_add_eq_or_of_lt hlt]

/-! ## The encoders -/

theorem toNat_and_group {c : Char} (h : c ∈ charmap) :
    (charToSymbol c &&& 0x1f).toNat = symbol c := by
  revert c
  apply forall_mem_charmap
  decide

theorem toNat_and_last {c : Char} (h : symbol c < 16) :
    (charToSymbol c &&& 0x0f).toNat = symbol c := by
  have hmod : symbol c &&& (2 ^ 4 - 1) = symbol c % 2 ^ 4 := Nat.and_two_pow_sub_one_eq_mod _ 4
  rw [BitVec.toNat_and]
  exact hmod.trans (Nat.mod_eq_of_lt h)

/-- The loop of `string_to_name` adds the value of the characters to come. -/
theorem stringToNameLoop_eq : ∀ {i : Nat} {str : Text} {name : BitVec 64}, Fits i str → i ≤ 13 →
    name.toNat % room i = 0 →
    (stringToNameLoop i str name).toNat = name.toNat + valueFrom i str
  | i, [], name, _, _, _ => rfl
  | i, c :: str, name, ⟨hi, hc, hlast, hstr⟩, _, hname => by
    rw [stringToNameLoop, if_neg (ne_nul hc), valueFrom]
    rcases Nat.lt_or_ge i 12 with hlt | hge
    · have hshift : 64 - 5 * (i + 1) = 59 - 5 * i := by omega
      have hroom : 2 ^ (59 - 5 * i + 5) = room i := by
        rw [room, show 59 - 5 * i + 5 = 64 - 5 * i by omega]
      have hor := toNat_or_shiftLeft (k := 59 - 5 * i) (b := charToSymbol c &&& 0x1f)
        (hroom.symm ▸ hname) (by rw [toNat_and_group hc]; exact symbol_lt hc) (by omega)
      rw [toNat_and_group hc] at hor
      have hnext : (name ||| (charToSymbol c &&& 0x1f) <<< (59 - 5 * i)).toNat % room (i + 1) = 0 := by
        have heq := room_eq hi
        rw [if_neg (by omega)] at heq
        rw [hor, room_succ hi]
        refine Nat.mod_eq_zero_of_dvd (Nat.dvd_add ?_ (Dvd.intro_left _ rfl))
        exact (Dvd.intro_left _ heq.symm).trans (Nat.dvd_of_mod_eq_zero hname)
      rw [if_pos hlt, hshift, stringToNameLoop_eq hstr (by omega) hnext, hor, Nat.add_assoc]
      rfl
    · obtain rfl : i = 12 := by omega
      have hnil : str = [] := by
        cases str with
        | nil => rfl
        | cons d str => exact absurd hstr.1 (by decide)
      have hsymbol := hlast rfl
      have hname' : name.toNat = 2 ^ 4 * (name.toNat / 2 ^ 4) := by
        have hdiv := Nat.div_add_mod name.toNat (2 ^ 4)
        have hzero : name.toNat % 2 ^ 4 = 0 := hname
        omega
      rw [if_neg (by decide), BitVec.toNat_or, toNat_and_last hsymbol, hnil, valueFrom,
        show place 12 = 1 from rfl, Nat.mul_one, Nat.add_zero]
      rw [hname', ← Nat.two_pow_add_eq_or_of_lt (show symbol c < 2 ^ 4 from hsymbol)]

theorem stringToName_eq {str : Text} (h : Fits 0 str) :
    stringToName str = BitVec.ofNat 64 (valueFrom 0 str) := by
  have hloop : (stringToNameLoop 0 str 0).toNat = 0 + valueFrom 0 str :=
    stringToNameLoop_eq h (by decide) (Nat.zero_mod _)
  apply BitVec.eq_of_toNat_eq
  have hlt : valueFrom 0 str < 2 ^ 64 := valueFrom_lt h
  rw [stringToName, hloop, BitVec.toNat_ofNat, Nat.mod_eq_of_lt hlt]
  exact Nat.zero_add _

namespace Name

/-- The loop of the constructor shifts the groups to their places. -/
theorem packLoop_eq : ∀ (i : Nat) {str : Text} (value : BitVec 64), (∀ c ∈ str, c ∈ charmap) →
    i + str.length ≤ 12 → value.toNat < 32 ^ i →
    ∃ r, packLoop str value = .ok r ∧
      r.toNat * room (i + str.length) = value.toNat * room i + valueFrom i str
  | i, [], value, _, _, _ => ⟨value, rfl, rfl⟩
  | i, c :: str, value, hmem, hlen, hvalue => by
    rw [List.length_cons] at hlen
    have hc := hmem c List.mem_cons_self
    have hsymbol := symbol_lt hc
    have hpow : 32 ^ (i + 1) ≤ 2 ^ 64 :=
      (Nat.pow_le_pow_right (by decide) (show i + 1 ≤ 12 by omega)).trans (by decide)
    have hsucc : 32 ^ (i + 1) = 32 * 32 ^ i := by rw [Nat.pow_succ, Nat.mul_comm]
    have hshift : (value <<< 5).toNat = value.toNat * 32 := by
      rw [BitVec.toNat_shiftLeft, Nat.shiftLeft_eq, Nat.mod_eq_of_lt (by omega)]
    have hword : ((BitVec.ofNat 8 (symbol c)).setWidth 64).toNat = symbol c := by
      rw [BitVec.toNat_setWidth, BitVec.toNat_ofNat]
      omega
    have hor := toNat_or_shiftLeft (k := 0) (a := value <<< 5)
      (b := (BitVec.ofNat 8 (symbol c)).setWidth 64) (by rw [hshift]; omega) (by omega) (by decide)
    rw [BitVec.shiftLeft_zero, hshift, hword, Nat.pow_zero, Nat.mul_one] at hor
    obtain ⟨r, hr, heq⟩ := packLoop_eq (i + 1)
      (value <<< 5 ||| (BitVec.ofNat 8 (symbol c)).setWidth 64)
      (fun d hd => hmem d (List.mem_cons_of_mem _ hd)) (by omega) (by rw [hor]; omega)
    refine ⟨r, by rw [packLoop, charToValue_eq hc, ok_bind, hr], ?_⟩
    have hroom := room_eq (show i ≤ 12 by omega)
    rw [if_neg (by omega)] at hroom
    rw [List.length_cons, show i + (str.length + 1) = i + 1 + str.length by omega, heq, hor,
      room_succ (by omega), hroom, valueFrom, Nat.add_mul, Nat.mul_assoc, Nat.add_assoc]

theorem mem_of_packLoop : ∀ {str : Text} {value r : BitVec 64}, packLoop str value = .ok r →
    ∀ c ∈ str, c ∈ charmap
  | c :: str, value, r, h, d, hd => by
    obtain ⟨v, hv, hrest⟩ := bind_eq_ok h
    rcases List.mem_cons.1 hd with rfl | hd
    · exact charToValue_ok hv
    · exact mem_of_packLoop hrest d hd

/-- The thirteenth character stands alone behind the first twelve. -/
theorem drop_of_fits {str : Text} (h : Fits 0 str) :
    (str.drop 12 = [] ∧ str[12]? = none) ∨
    ∃ c, str.drop 12 = [c] ∧ str[12]? = some c ∧ str.length = 13 ∧ c ∈ charmap ∧ symbol c < 16 := by
  have hlen := h.length_le (by decide)
  have hhead : (str.drop 12).head? = str[12]? := List.head?_drop
  rw [← List.take_append_drop 12 str, fits_append] at h
  cases hdrop : str.drop 12 with
  | nil => exact .inl ⟨rfl, by rw [← hhead, hdrop]; rfl⟩
  | cons c rest =>
    have hcount : (str.drop 12).length = rest.length + 1 := by rw [hdrop, List.length_cons]
    rw [List.length_drop] at hcount
    obtain rfl : rest = [] := List.length_eq_zero_iff.1 (by omega)
    have htake : (str.take 12).length = 12 := by
      rw [List.length_take]
      omega
    obtain ⟨-, hc, hlast, -⟩ := hdrop ▸ htake ▸ h.2
    exact .inr ⟨c, rfl, by rw [← hhead, hdrop]; rfl, by omega, hc, hlast (by omega)⟩

/-- **The constructor computes the value of a text that fits.** -/
theorem ofString_eq {str : Text} (h : Fits 0 str) :
    ofString str = .ok ⟨BitVec.ofNat 64 (valueFrom 0 str)⟩ := by
  have hlen := h.length_le (by decide)
  rw [Nat.zero_add] at hlen
  rcases Nat.eq_zero_or_pos str.length with hzero | hpos
  · obtain rfl := List.length_eq_zero_iff.1 hzero
    rfl
  · have htake : str.take 12 = str.take (min str.length 12) := by
      rw [List.take_eq_take_iff]
      omega
    have hcount : (str.take (min str.length 12)).length = min str.length 12 := by
      rw [List.length_take]
      omega
    have hvalue : valueFrom 0 str = valueFrom 0 (str.take (min str.length 12)) +
        valueFrom (min str.length 12) (str.drop 12) := by
      conv_lhs => rw [← List.take_append_drop 12 str, valueFrom_append, htake, hcount, Nat.zero_add]
    have hmem : ∀ c ∈ str.take (min str.length 12), c ∈ charmap :=
      fun c hc => h.mem c (List.mem_of_mem_take hc)
    obtain ⟨r, hr, heq⟩ := packLoop_eq 0 0 hmem (by omega) (by decide)
    have hlt : valueFrom 0 str < 2 ^ 64 := valueFrom_lt h
    rw [hcount, Nat.zero_add, show BitVec.toNat (0 : BitVec 64) = 0 from rfl, Nat.zero_mul,
      Nat.zero_add] at heq
    have hshift : (r <<< (4 + 5 * (12 - min str.length 12))).toNat =
        valueFrom 0 (str.take (min str.length 12)) := by
      rw [BitVec.toNat_shiftLeft, Nat.shiftLeft_eq,
        show 4 + 5 * (12 - min str.length 12) = 64 - 5 * min str.length 12 by omega]
      change r.toNat * room (min str.length 12) % 2 ^ 64 = _
      rw [heq, Nat.mod_eq_of_lt (by omega)]
    rw [ofString, if_neg (by omega), if_neg (by omega)]
    simp only [hr, ok_bind]
    rcases drop_of_fits h with ⟨hnil, hnone⟩ | ⟨c, hsingle, hsome, hthirteen, hc, hsymbol⟩
    · rw [hnone]
      simp only [pure_eq_ok, Except.ok.injEq, Name.mk.injEq]
      apply BitVec.eq_of_toNat_eq
      rw [hshift, BitVec.toNat_ofNat, Nat.mod_eq_of_lt hlt, hvalue, hnil]
      rfl
    · have hword : ((BitVec.ofNat 8 (symbol c)).setWidth 64).toNat = symbol c := by
        rw [BitVec.toNat_setWidth, BitVec.toNat_ofNat]
        omega
      have hcheck : BitVec.ofNat 8 (symbol c) ≤ 0x0f := by
        rw [BitVec.le_def, BitVec.toNat_ofNat]
        simp only [BitVec.reduceToNat]
        omega
      have hmin : min str.length 12 = 12 := by omega
      rw [hsome]
      simp only [charToValue_eq hc, ok_bind, check_bind, hcheck, decide_true, ↓reduceIte, pure_eq_ok,
        Except.ok.injEq, Name.mk.injEq]
      apply BitVec.eq_of_toNat_eq
      have hlow : (r <<< (4 + 5 * (12 - min str.length 12))).toNat = 2 ^ 4 * r.toNat := by
        rw [hshift, ← heq, hmin, Nat.mul_comm]
        rfl
      have hsum := hvalue
      rw [hsingle, hmin, valueFrom, valueFrom, show place 12 = 1 from rfl, Nat.mul_one, Nat.add_zero,
        ← hmin, ← hshift, hlow] at hsum
      rw [BitVec.toNat_or, hword, hlow, ← Nat.two_pow_add_eq_or_of_lt (by omega), BitVec.toNat_ofNat,
        Nat.mod_eq_of_lt hlt, hsum]

/-- What the constructor accepts fits. -/
theorem fits_of_ofString {str : Text} {nm : Name} (h : ofString str = .ok nm) : Fits 0 str := by
  unfold ofString at h
  split_ifs at h with hlong hzero
  · rw [List.length_eq_zero_iff.1 hzero]
    trivial
  · obtain ⟨value, hpack, hrest⟩ := bind_eq_ok h
    have htake : str.take 12 = str.take (min str.length 12) := by
      rw [List.take_eq_take_iff]
      omega
    rw [← htake] at hpack
    have hmem := mem_of_packLoop hpack
    have hfits : Fits 0 (str.take 12) := fits_of_mem hmem (by rw [List.length_take]; omega)
    rw [← List.take_append_drop 12 str, fits_append]
    refine ⟨hfits, ?_⟩
    have hhead : (str.drop 12).head? = str[12]? := List.head?_drop
    cases hdrop : str.drop 12 with
    | nil => trivial
    | cons c rest =>
      have hcount : (str.drop 12).length = rest.length + 1 := by rw [hdrop, List.length_cons]
      rw [List.length_drop] at hcount
      obtain rfl : rest = [] := List.length_eq_zero_iff.1 (by omega)
      rw [show str[12]? = some c by rw [← hhead, hdrop]; rfl] at hrest
      obtain ⟨v, hv, hcheck⟩ := bind_eq_ok hrest
      have hc := charToValue_ok hv
      rw [charToValue_eq hc] at hv
      obtain rfl := Except.ok.inj hv
      rw [check_bind] at hcheck
      split_ifs at hcheck with hle
      have hsymbol := of_decide_eq_true hle
      rw [BitVec.le_def, BitVec.toNat_ofNat] at hsymbol
      simp only [BitVec.reduceToNat] at hsymbol
      have hlt := symbol_lt hc
      have hlen : (str.take 12).length = 12 := by
        rw [List.length_take]
        omega
      rw [hlen]
      exact ⟨by decide, hc, by omega, trivial⟩

/-! ## The decoder -/

theorem toNat_high (v : BitVec 64) : ((v &&& mask) >>> 59).toNat = v.toNat / 2 ^ 59 := by
  have hlt := v.isLt
  have hmask : mask.toNat >>> 59 = 2 ^ 5 - 1 := by decide
  rw [BitVec.toNat_ushiftRight, BitVec.toNat_and, Nat.shiftRight_and_distrib, hmask,
    Nat.and_two_pow_sub_one_eq_mod, Nat.shiftRight_eq_div_pow]
  omega

theorem toNat_high_last (v : BitVec 64) : ((v &&& mask) >>> 60).toNat = v.toNat / 2 ^ 60 := by
  have hlt := v.isLt
  have hmask : mask.toNat >>> 60 = 2 ^ 4 - 1 := by decide
  rw [BitVec.toNat_ushiftRight, BitVec.toNat_and, Nat.shiftRight_and_distrib, hmask,
    Nat.and_two_pow_sub_one_eq_mod, Nat.shiftRight_eq_div_pow]
  omega

/-- The group at the high end of a word, and the word without it. -/
theorem group_eq {n i : Nat} (hn : i + (n + 1) = 13) {v : BitVec 64} {d rest : Nat}
    (hv : v.toNat = (d * place i + rest) * 32 ^ i) (hrest : rest < place i) :
    ((v &&& mask) >>> (if n = 0 then 60 else 59)).toNat = d ∧
      (v <<< 5).toNat = rest * 32 ^ (i + 1) := by
  have hlt := v.isLt
  have hindex : ((v &&& mask) >>> (if n = 0 then 60 else 59)).toNat =
      v.toNat / 2 ^ (if n = 0 then 60 else 59) := by
    split_ifs
    · exact toNat_high_last v
    · exact toNat_high v
  have hi : i ≤ 12 := by omega
  have hn' : n = 12 - i := by omega
  subst hn'
  rw [hindex, BitVec.toNat_shiftLeft, Nat.shiftLeft_eq]
  interval_cases i <;> simp only [place] at hv hrest <;> norm_num at hv hrest ⊢ <;> omega

/-- **Writing a value out gives the text that has it**, without trailing padding. -/
theorem writeLoop_valueFrom : ∀ {n i : Nat} {str : Text} {v : BitVec 64}, i + n = 13 → Fits i str →
    str.getLast? ≠ some '_' → v.toNat = valueFrom i str * 32 ^ i → writeLoop n v = str
  | 0, i, [], v, _, _, _, _ => rfl
  | 0, i, c :: str, v, hn, ⟨hi, _⟩, _, _ => by omega
  | n + 1, i, [], v, _, _, _, hv => by
    have hzero : v = 0 := BitVec.eq_of_toNat_eq (by rw [hv, valueFrom, Nat.zero_mul]; rfl)
    rw [writeLoop, if_pos hzero]
  | n + 1, i, c :: str, v, hn, hfits, hpad, hv => by
    have hpos := valueFrom_pos hfits (List.cons_ne_nil c str) hpad
    obtain ⟨hi, hc, hlast, hstr⟩ := hfits
    have hrest := valueFrom_lt hstr
    rw [room_succ hi] at hrest
    have hne : v ≠ 0 := by
      rintro rfl
      have hmul := Nat.mul_pos hpos (Nat.pow_pos (show 0 < 32 by decide) (n := i))
      rw [← hv] at hmul
      exact absurd hmul (by decide)
    obtain ⟨hindex, hnext⟩ := group_eq hn hv hrest
    have hpad' : str.getLast? ≠ some '_' := by
      cases str with
      | nil => simp
      | cons d str => rwa [List.getLast?_cons_cons] at hpad
    rw [writeLoop, if_neg hne]
    simp only [hindex, getD_symbol hc]
    rw [writeLoop_valueFrom (by omega) hstr hpad' hnext]

/-- **What is written out has the value**, fits, and has no trailing padding. -/
theorem valueFrom_writeLoop : ∀ {n i w : Nat} {v : BitVec 64}, i + n = 13 → w < room i →
    v.toNat = w * 32 ^ i →
    Fits i (writeLoop n v) ∧ valueFrom i (writeLoop n v) = w ∧ (writeLoop n v).getLast? ≠ some '_'
  | 0, i, w, v, hn, hw, hv => by
    obtain rfl : i = 13 := by omega
    exact ⟨trivial, (Nat.lt_one_iff.1 hw).symm, by simp [writeLoop]⟩
  | n + 1, i, w, v, hn, hw, hv => by
    rcases Nat.eq_zero_or_pos w with rfl | hpos
    · have hzero : v = 0 := BitVec.eq_of_toNat_eq (by rw [hv, Nat.zero_mul]; rfl)
      rw [writeLoop, if_pos hzero]
      exact ⟨trivial, rfl, by simp⟩
    · have hi : i ≤ 12 := by omega
      have hplace : 0 < place i := Nat.two_pow_pos _
      have hsum : w / place i * place i + w % place i = w := Nat.div_add_mod' w (place i)
      have hrest := Nat.mod_lt w hplace
      have hgroup : w / place i < if i = 12 then 16 else 32 := by
        rw [Nat.div_lt_iff_lt_mul hplace, ← room_eq hi]
        exact hw
      have hlt : w / place i < 32 := Nat.lt_of_lt_of_le hgroup (by split_ifs <;> decide)
      have hne : v ≠ 0 := by
        rintro rfl
        have hmul := Nat.mul_pos hpos (Nat.pow_pos (show 0 < 32 by decide) (n := i))
        rw [← hv] at hmul
        exact absurd hmul (by decide)
      obtain ⟨hindex, hnext⟩ := group_eq hn (by rw [hsum]; exact hv) hrest
      obtain ⟨hfits, hvalue, hpad⟩ := valueFrom_writeLoop (n := n) (i := i + 1) (by omega)
        (by rw [room_succ hi]; exact hrest) hnext
      rw [writeLoop, if_neg hne]
      simp only [hindex]
      refine ⟨⟨hi, getD_mem hlt, ?_, hfits⟩, ?_, ?_⟩
      · intro heq
        rw [symbol_getD hlt]
        rwa [if_pos heq] at hgroup
      · rw [valueFrom, symbol_getD hlt, hvalue, hsum]
      · cases hstr : writeLoop n (v <<< 5) with
        | nil =>
          rw [hstr, valueFrom] at hvalue
          intro hlast
          have hsymbol : symbol (charmap.getD (w / place i) '_') = 0 :=
            (symbol_eq_zero (getD_mem hlt)).2 (by simpa using hlast)
          rw [symbol_getD hlt] at hsymbol
          rw [hsymbol, ← hvalue] at hsum
          omega
        | cons c str =>
          rw [List.getLast?_cons_cons]
          rwa [hstr] at hpad

/-! ## The codec -/

/-- What a name is written as. -/
theorem toString_spec (nm : Name) : Fits 0 nm.toString ∧ valueFrom 0 nm.toString = nm.value.toNat ∧
    nm.toString.getLast? ≠ some '_' :=
  valueFrom_writeLoop (by decide) nm.value.isLt (Nat.mul_one _).symm

/-- **A name is read back from what it is written as.** -/
theorem ofString_toString (nm : Name) : ofString nm.toString = .ok nm := by
  obtain ⟨hfits, hvalue, -⟩ := nm.toString_spec
  rw [ofString_eq hfits, hvalue, BitVec.ofNat_toNat, BitVec.setWidth_eq]

/-- **An accepted text without trailing padding is what its name is written as.** -/
theorem toString_ofString {str : Text} {nm : Name} (h : ofString str = .ok nm)
    (hpad : str.getLast? ≠ some '_') : nm.toString = str := by
  have hfits := fits_of_ofString h
  rw [ofString_eq hfits] at h
  obtain rfl := Except.ok.inj h
  have hlt : valueFrom 0 str < 2 ^ 64 := valueFrom_lt hfits
  refine writeLoop_valueFrom (by decide) hfits hpad ?_
  rw [BitVec.toNat_ofNat, Nat.mod_eq_of_lt hlt]
  exact (Nat.mul_one _).symm

/-- **The codec is a bijection** between words and accepted texts without trailing padding. -/
theorem codec_bijective : (∀ nm : Name, ofString nm.toString = .ok nm) ∧
    (∀ str nm, ofString str = .ok nm → str.getLast? ≠ some '_' → nm.toString = str) ∧
    ∀ s t nm, ofString s = .ok nm → ofString t = .ok nm → s.getLast? ≠ some '_' →
      t.getLast? ≠ some '_' → s = t := by
  refine ⟨ofString_toString, fun str nm => toString_ofString, ?_⟩
  intro s t nm hs ht hpads hpadt
  rw [← toString_ofString hs hpads, toString_ofString ht hpadt]

end Name

end Wasmlib
