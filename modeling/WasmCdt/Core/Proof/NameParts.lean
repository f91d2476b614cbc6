import WasmCdt.Core.Proof.Name

/-!
# The length and the suffix of a name

Both are read off the packed groups of five bits.

* `lengthLoop_eq`: the last group that is not zero is the last character.
* `suffixLoop_eq`: the bits behind the last separator in front of a character; the separators at the
  end are no part of the text.
* `name_parts`: the length and the suffix are those of the text.
-/

namespace Wasmlib

open Name

section
variable {n i w : Nat} {str q s u : Text} {v : BitVec 64}

/-! ## The length -/

/-- The mask takes the five highest bits. -/
theorem and_mask_eq_zero (h : v.toNat < 2 ^ 59) : v &&& mask = 0 := by
  have hlow : ∀ k < 59, mask.getLsbD k = false := by decide
  apply BitVec.eq_of_getLsbD_eq
  intro k _
  rw [BitVec.getLsbD_and]
  rcases Nat.lt_or_ge k 59 with hk | hk
  · rw [hlow k hk, Bool.and_false]
    simp
  · have hv : v.getLsbD k = false :=
      Nat.testBit_lt_two_pow (h.trans_le (Nat.pow_le_pow_right (by decide) hk))
    rw [hv, Bool.false_and]
    simp

theorem and_mask_pos_iff (hn : i + (n + 1) = 13) {d rest : Nat}
    (hv : v.toNat = (d * place i + rest) * 32 ^ i) (hrest : rest < place i) :
    v &&& mask > 0 ↔ d ≠ 0 := by
  constructor
  · intro hpos hd
    rw [hd, Nat.zero_mul, Nat.zero_add] at hv
    have hlt : v.toNat < 2 ^ 59 := by
      have hi : i ≤ 12 := by omega
      clear hpos hn
      interval_cases i <;> simp only [place] at hv hrest <;> norm_num at hv hrest ⊢ <;> omega
    rw [and_mask_eq_zero hlt] at hpos
    exact absurd hpos (by decide)
  · intro hd
    obtain ⟨hindex, -⟩ := group_eq hn hv hrest
    refine (BitVec.pos_iff_ne_zero _).2 fun hzero => hd ?_
    rw [hzero] at hindex
    rw [← hindex]
    exact congrArg BitVec.toNat (BitVec.zero_ushiftRight)

theorem getLast?_tail {c : Char} (hpad : (c :: str).getLast? ≠ some '_') :
    str.getLast? ≠ some '_' := by
  cases str with
  | nil => simp
  | cons d str => rwa [List.getLast?_cons_cons] at hpad

/-- The loop keeps the last character's place. -/
theorem lengthLoop_eq {l : Nat} (hn : i + n = 13) (hfits : Fits i str)
    (hpad : str.getLast? ≠ some '_') (hv : v.toNat = valueFrom i str * 32 ^ i) :
    lengthLoop n v l = if str = [] then l else i + str.length - 1 := by
  induction n generalizing i str v l with
  | zero =>
    cases str with
    | nil => rfl
    | cons c str =>
      have := hfits.1
      omega
  | succ n ih =>
    unfold lengthLoop
    cases str with
    | nil =>
      have hzero : v = 0 := BitVec.eq_of_toNat_eq (by rw [hv, valueFrom, Nat.zero_mul]; rfl)
      rw [hzero, if_neg (by decide), ih (by omega) (show Fits (i + 1) [] from trivial) hpad]
      · rfl
      · rw [valueFrom, Nat.zero_mul]
        rfl
    | cons c str =>
      obtain ⟨hi, hc, -, hstr⟩ := hfits
      have hrest := valueFrom_lt hstr
      rw [room_succ hi] at hrest
      obtain ⟨-, hnext⟩ := group_eq hn hv hrest
      rw [ih (by omega) hstr (getLast?_tail hpad) hnext, if_neg (List.cons_ne_nil c str),
        List.length_cons]
      split_ifs with hnil hpos
      · rw [hnil, List.length_nil]
        omega
      · -- the last character is not the separator
        have hsymbol : symbol c = 0 := not_not.1 fun hne => hpos ((and_mask_pos_iff hn hv hrest).2 hne)
        rw [symbol_eq_zero hc] at hsymbol
        rw [hnil, hsymbol] at hpad
        exact absurd rfl hpad
      · omega

theorem Name.length_eq (nm : Name) : nm.length = nm.toString.length := by
  obtain ⟨hfits, hvalue, hpad⟩ := nm.toString_spec
  have hloop := lengthLoop_eq (n := 13) (v := nm.value) (l := 0) (by decide) hfits hpad
    (by rw [hvalue, Nat.pow_zero, Nat.mul_one])
  unfold Name.length
  rw [hloop]
  by_cases hnil : nm.toString = []
  · rw [hnil] at hvalue
    have hzero : nm.value = 0 := BitVec.eq_of_toNat_eq (hvalue.symm.trans rfl)
    rw [if_pos hzero, hnil, List.length_nil]
  · have hlen := List.length_pos_of_ne_nil hnil
    have hne : nm.value ≠ 0 := by
      intro hzero
      have hpos := valueFrom_pos hfits hnil hpad
      rw [hvalue, hzero] at hpos
      exact absurd hpos (by decide)
    rw [if_neg hne, if_neg hnil]
    omega

/-! ## The suffix -/

/-- The part behind the last separator, or all. -/
def afterLast (str : Text) : Text := str.rtakeWhile (· ≠ '_')

/-- The bits behind the last separator of the characters from group `i` on; `tmp` if there is none. -/
def bitsAfterLast : Nat → Text → Nat → Nat
  | _, [], tmp => tmp
  | i, c :: str, tmp => bitsAfterLast (i + 1) str (if c = '_' then 59 - 5 * i else tmp)

theorem bitsAfterLast_of_not_mem {tmp : Nat} (h : '_' ∉ s) : bitsAfterLast i s tmp = tmp := by
  induction s generalizing i with
  | nil => rfl
  | cons c s ih =>
    obtain ⟨hc, hs⟩ := List.ne_and_not_mem_of_not_mem_cons h
    rw [bitsAfterLast, if_neg hc.symm, ih hs]

theorem bitsAfterLast_append {tmp : Nat} (h : '_' ∉ s) :
    bitsAfterLast i (u ++ '_' :: s) tmp = 59 - 5 * (i + u.length) := by
  induction u generalizing i tmp with
  | nil =>
    rw [List.nil_append, bitsAfterLast, if_pos rfl, bitsAfterLast_of_not_mem h]
    rfl
  | cons c u ih =>
    rw [List.cons_append, bitsAfterLast, ih, List.length_cons]
    congr 2
    omega

/-- Group `i` of a word whose lower bits are worth a text. -/
theorem group_of_value {c : Char} (hi : i < 12) (hfits : Fits i (c :: str))
    (hv : v.toNat % room i = valueFrom i (c :: str)) :
    ((v >>> (59 - 5 * i)) &&& 0x1f).toNat = symbol c ∧
      v.toNat % room (i + 1) = valueFrom (i + 1) str := by
  obtain ⟨-, hc, -, hstr⟩ := hfits
  have hrest := valueFrom_lt hstr
  have hroom := room_eq (show i ≤ 12 by omega)
  rw [if_neg (by omega)] at hroom
  rw [room_succ (by omega)] at hrest ⊢
  have hplace : 0 < place i := Nat.two_pow_pos _
  rw [valueFrom] at hv
  have hmask : (0x1f : BitVec 64).toNat = 2 ^ 5 - 1 := by decide
  rw [BitVec.toNat_and, hmask, Nat.and_two_pow_sub_one_eq_mod, BitVec.toNat_ushiftRight,
    Nat.shiftRight_eq_div_pow]
  change v.toNat / place i % 32 = symbol c ∧ _
  rw [hroom, Nat.mul_comm 32] at hv
  constructor
  · rw [← Nat.mod_mul_right_div_self, hv, Nat.mul_comm, Nat.mul_add_div hplace,
      Nat.div_eq_of_lt hrest, Nat.add_zero]
  · rw [← Nat.mod_mod_of_dvd v.toNat (Nat.dvd_mul_right (place i) 32), hv, Nat.mul_comm,
      Nat.mul_add_mod, Nat.mod_eq_of_lt hrest]

/-- A group is zero where the text has the separator. -/
theorem group_eq_zero_iff {c : Char} (hi : i < 12) (hfits : Fits i (c :: str))
    (hv : v.toNat % room i = valueFrom i (c :: str)) :
    (v >>> (59 - 5 * i)) &&& 0x1f = 0 ↔ c = '_' := by
  rw [← symbol_eq_zero hfits.2.1, ← (group_of_value hi hfits hv).1]
  exact BitVec.toNat_inj.symm

theorem thirteenth_toNat (v : BitVec 64) : (v &&& 0x0f).toNat = v.toNat % 16 := by
  have hmask : (0x0f : BitVec 64).toNat = 2 ^ 4 - 1 := by decide
  rw [BitVec.toNat_and, hmask, Nat.and_two_pow_sub_one_eq_mod]

/-- Separators count where a character comes behind them. -/
theorem suffixLoop_eq (tmp last : Nat) (hn : i + n = 12) (hfits : Fits i q)
    (hpad : q.getLast? ≠ some '_') (hv : v.toNat % room i = valueFrom i q) :
    (if v &&& 0x0f ≠ 0 then (suffixLoop n v tmp last).1 else (suffixLoop n v tmp last).2) =
      if q = [] then last else bitsAfterLast i q tmp := by
  induction n generalizing i q tmp last with
  | zero =>
    obtain rfl : i = 12 := by omega
    have hlow : (v &&& 0x0f).toNat = valueFrom 12 q := (thirteenth_toNat v).trans hv
    cases q with
    | nil =>
      have hzero : v &&& 0x0f = 0 := BitVec.eq_of_toNat_eq hlow
      rw [if_neg (not_not.2 hzero)]
      rfl
    | cons c q =>
      have hpos := valueFrom_pos hfits (List.cons_ne_nil c q) hpad
      have hne : v &&& 0x0f ≠ 0 := by
        intro hzero
        rw [← hlow, hzero] at hpos
        exact absurd hpos (by decide)
      have hnil : q = [] := by
        cases q with
        | nil => rfl
        | cons d q => exact absurd hfits.2.2.2.1 (by decide)
      have hc : c ≠ '_' := fun heq => hpad (by rw [hnil, heq]; rfl)
      rw [if_pos hne, if_neg (List.cons_ne_nil c q), hnil, bitsAfterLast, if_neg hc]
      rfl
  | succ n ih =>
    have hbits : 5 * n + 4 = 59 - 5 * i := by omega
    unfold suffixLoop
    rw [hbits]
    cases q with
    | nil =>
      -- the groups behind the text are separators
      have hfits' : Fits i ['_'] := ⟨by omega, by decide, by omega, trivial⟩
      have hv' : v.toNat % room i = valueFrom i ['_'] := by
        rw [hv, valueFrom, valueFrom, (symbol_eq_zero (by decide)).2 rfl, Nat.zero_mul]
        rfl
      have hnext := (group_of_value (by omega) hfits' hv').2
      rw [if_pos ((group_eq_zero_iff (by omega) hfits' hv').2 rfl),
        ih _ _ (by omega) (show Fits (i + 1) [] from trivial) hpad hnext]
      rfl
    | cons c q =>
      have hnext := (group_of_value (by omega) hfits hv).2
      have hstr := hfits.2.2.2
      rw [if_neg (List.cons_ne_nil c q), bitsAfterLast]
      by_cases hc : c = '_'
      · have hne : q ≠ [] := by
          intro hnil
          rw [hnil, hc] at hpad
          exact hpad rfl
        rw [if_pos ((group_eq_zero_iff (by omega) hfits hv).2 hc), if_pos hc,
          ih _ _ (by omega) hstr (getLast?_tail hpad) hnext, if_neg hne]
      · rw [if_neg fun h => hc ((group_eq_zero_iff (by omega) hfits hv).1 h), if_neg hc,
          ih _ _ (by omega) hstr (getLast?_tail hpad) hnext]
        split_ifs with hnil
        · rw [hnil]
          rfl
        · rfl

/-- The groups from `d` on, moved to the front. -/
theorem valueFrom_front {d : Nat} (hlen : i + d + s.length ≤ 12) :
    valueFrom (i + d) s * 32 ^ d = valueFrom i s := by
  induction s generalizing i with
  | nil => rw [valueFrom, valueFrom, Nat.zero_mul]
  | cons c s ih =>
    rw [List.length_cons] at hlen
    have hplace : place (i + d) * 32 ^ d = place i := by
      rw [place, place, show 32 = 2 ^ 5 from rfl, ← Nat.pow_mul, ← Nat.pow_add]
      congr 1
      omega
    have hrest := ih (i := i + 1) (by omega)
    rw [show i + 1 + d = i + d + 1 by omega] at hrest
    rw [valueFrom, valueFrom, Nat.add_mul, Nat.mul_assoc, hplace, hrest]

/-- Only the thirteenth character is in the four lowest bits. -/
theorem dvd_valueFrom (hlen : i + s.length ≤ 12) : 16 ∣ valueFrom i s := by
  induction s generalizing i with
  | nil => exact Nat.dvd_zero 16
  | cons c s ih =>
    rw [List.length_cons] at hlen
    have hplace : 2 ^ 4 ∣ place i := Nat.pow_dvd_pow 2 (by omega)
    exact Nat.dvd_add (hplace.mul_left (symbol c)) (ih (by omega))

/-- The two parts of the suffix: the groups of five bits, and the thirteenth character. -/
theorem valueFrom_suffix (hi : i ≤ 11) (hs : Fits (i + 1) s) :
    valueFrom (i + 1) s / 16 * 16 * 2 ^ (5 * i + 5) + valueFrom (i + 1) s % 16 * 2 ^ (5 * i + 4) =
      valueFrom 0 s := by
  have hlen := hs.length_le (by omega)
  have hpow : 2 ^ (5 * i + 5) = 32 ^ (i + 1) := by
    rw [show 32 = 2 ^ 5 from rfl, ← Nat.pow_mul, Nat.mul_add, Nat.mul_one]
  have hfront : ∀ {t : Text}, i + 1 + t.length ≤ 12 →
      valueFrom (i + 1) t / 16 * 16 = valueFrom (i + 1) t ∧
      valueFrom (i + 1) t * 2 ^ (5 * i + 5) = valueFrom 0 t := by
    intro t ht
    have hmove := valueFrom_front (s := t) (i := 0) (d := i + 1) (by omega)
    rw [Nat.zero_add] at hmove
    exact ⟨Nat.div_mul_cancel (dvd_valueFrom ht), by rw [hpow, hmove]⟩
  rcases Nat.lt_or_ge (i + 1 + s.length) 13 with hlt | hge
  · obtain ⟨hdiv, hmove⟩ := hfront (t := s) (by omega)
    rw [hdiv, hmove, Nat.mod_eq_zero_of_dvd (dvd_valueFrom (by omega)), Nat.zero_mul, Nat.add_zero]
  · obtain ⟨t, c, rfl⟩ : ∃ t c, s = t ++ [c] :=
      ⟨s.dropLast, s.getLast (List.ne_nil_of_length_pos (by omega)),
        (List.dropLast_append_getLast _).symm⟩
    rw [List.length_append, List.length_singleton] at hge hlen
    obtain ⟨hdiv, hmove⟩ := hfront (t := t) (by omega)
    have hlast : Fits (i + 1 + t.length) [c] := (fits_append.1 hs).2
    have hc : symbol c < 16 := hlast.2.2.1 (by omega)
    have hgroup : i + 1 + t.length = 12 := by omega
    have hvalue : valueFrom (i + 1) (t ++ [c]) = valueFrom (i + 1) t + symbol c := by
      rw [valueFrom_append, hgroup, valueFrom, valueFrom, show place 12 = 1 from rfl, Nat.mul_one,
        Nat.add_zero (symbol c)]
    have hplace : place (0 + t.length) = 2 ^ (5 * i + 4) := by
      rw [place]
      congr 1
      omega
    rw [valueFrom_append 0, valueFrom, valueFrom, hplace, ← hmove, hvalue]
    have hquot : (valueFrom (i + 1) t + symbol c) / 16 * 16 = valueFrom (i + 1) t := by omega
    have hrem : (valueFrom (i + 1) t + symbol c) % 16 = symbol c := by omega
    rw [hquot, hrem, Nat.add_zero (symbol c * _)]

/-- A mask moved up takes what is above. -/
theorem and_shiftLeft_eq (x m b : Nat) : x &&& m <<< b = ((x >>> b) &&& m) <<< b := by
  apply Nat.eq_of_testBit_eq
  intro k
  rcases Nat.lt_or_ge k b with hk | hk
  · simp [Nat.not_le.2 hk]
  · simp [hk]

/-- The mask of the suffix takes the `r` lowest bits but the four lowest. -/
theorem toNat_and_bits {r : Nat} (hr : 4 ≤ r) (hlt : r < 64) :
    (v &&& (((1 : BitVec 64) <<< r) - 16)).toNat = v.toNat % 2 ^ r / 16 * 16 := by
  have hpow : 2 ^ r = 2 ^ 4 * 2 ^ (r - 4) := by rw [← Nat.pow_add, Nat.add_sub_cancel' hr]
  have hword : 2 ^ r < 2 ^ 64 := Nat.pow_lt_pow_right (by decide) hlt
  have hbits : (((1 : BitVec 64) <<< r) - 16).toNat = (2 ^ (r - 4) - 1) <<< 4 := by
    have hone : ((1 : BitVec 64) <<< r).toNat = 2 ^ r := by
      rw [BitVec.toNat_shiftLeft, Nat.shiftLeft_eq]
      exact (Nat.mod_eq_of_lt (by simpa using hword)).trans (Nat.one_mul _)
    have hle : (16 : BitVec 64) ≤ (1 : BitVec 64) <<< r := by
      rw [BitVec.le_def, hone, hpow]
      exact Nat.le_mul_of_pos_right 16 (Nat.two_pow_pos _)
    rw [BitVec.toNat_sub_of_le hle, hone, hpow, Nat.shiftLeft_eq, Nat.sub_mul, Nat.one_mul,
      Nat.mul_comm]
    rfl
  rw [BitVec.toNat_and, hbits, and_shiftLeft_eq, Nat.and_two_pow_sub_one_eq_mod, Nat.shiftRight_eq_div_pow,
    Nat.shiftLeft_eq, hpow, show 16 = 2 ^ 4 from rfl, Nat.mod_mul_right_div_self]

/-- What the groups behind a text are worth. -/
theorem value_behind (hfits : Fits i (u ++ s)) (hi : i + u.length ≤ 12)
    (hv : v.toNat % room i = valueFrom i (u ++ s)) :
    v.toNat % room (i + u.length) = valueFrom (i + u.length) s := by
  induction u generalizing i with
  | nil => exact hv
  | cons c u ih =>
    rw [List.length_cons] at hi
    have hnext := (group_of_value (by omega) hfits hv).2
    have hbehind := ih hfits.2.2.2 (by omega) hnext
    rwa [List.length_cons, ← Nat.add_assoc, Nat.add_right_comm]

theorem afterLast_append (h : '_' ∉ s) : afterLast (u ++ '_' :: s) = s := by
  have hpos : ∀ c ∈ s.reverse, decide (c ≠ '_') = true := by
    intro c hc
    exact decide_eq_true fun heq => h (heq ▸ List.mem_reverse.1 hc)
  rw [afterLast, List.rtakeWhile, List.reverse_append, List.reverse_cons, List.append_assoc,
    List.takeWhile_append_of_pos hpos]
  simp

/-- What the bits of the suffix are worth. -/
theorem Name.suffix_value {nm : Name} (hfits : Fits 0 (u ++ '_' :: s)) (hs : '_' ∉ s) (hne : s ≠ [])
    (hpad : (u ++ '_' :: s).getLast? ≠ some '_')
    (hvalue : valueFrom 0 (u ++ '_' :: s) = nm.value.toNat) :
    nm.suffix.value.toNat = valueFrom 0 s := by
  have hlen := hfits.length_le (by decide)
  have hpos := List.length_pos_of_ne_nil hne
  rw [List.length_append, List.length_cons] at hlen
  have hi : u.length ≤ 11 := by omega
  have hloop := suffixLoop_eq 0 0 (by decide : 0 + 12 = 12) hfits hpad
    ((Nat.mod_eq_of_lt nm.value.isLt).trans hvalue.symm)
  have hcons : u ++ '_' :: s ≠ [] := by simp
  rw [if_neg hcons, bitsAfterLast_append hs, Nat.zero_add] at hloop
  -- the groups behind the separator
  rw [show u ++ '_' :: s = (u ++ ['_']) ++ s by simp] at hfits hvalue
  have hcount : 0 + (u ++ ['_']).length = u.length + 1 := by simp
  have hbehind := value_behind (v := nm.value) hfits (by omega)
    ((Nat.mod_eq_of_lt nm.value.isLt).trans hvalue.symm)
  have htail := (fits_append.1 hfits).2
  rw [hcount] at hbehind htail
  have hroom : room (u.length + 1) = 2 ^ (59 - 5 * u.length) := by
    rw [room]
    congr 1
    omega
  rw [hroom] at hbehind
  have hsum := valueFrom_suffix hi htail
  have hmod : nm.value.toNat % 16 = valueFrom (u.length + 1) s % 16 := by
    rw [← hbehind]
    exact (Nat.mod_mod_of_dvd _ (Nat.pow_dvd_pow 2 (show 4 ≤ 59 - 5 * u.length by omega))).symm
  have hlt : valueFrom 0 s < 2 ^ 64 := valueFrom_lt (i := 0)
    (fits_of_mem (fun c hc => htail.mem c hc) (by omega))
  unfold Name.suffix
  simp only [hloop]
  rw [if_neg (by omega), BitVec.toNat_add, BitVec.toNat_shiftLeft, BitVec.toNat_shiftLeft,
    toNat_and_bits (by omega) (by omega), thirteenth_toNat, hbehind, hmod, Nat.shiftLeft_eq,
    Nat.shiftLeft_eq, show 64 - (59 - 5 * u.length) = 5 * u.length + 5 by omega,
    show 5 * u.length + 5 - 1 = 5 * u.length + 4 by omega, ← Nat.add_mod, hsum, Nat.mod_eq_of_lt hlt]

/-- **The suffix of a name is the part of its text behind the last separator.** -/
theorem Name.suffix_toString (nm : Name) : nm.suffix.toString = afterLast nm.toString := by
  obtain ⟨hfits, hvalue, hpad⟩ := nm.toString_spec
  by_cases hsep : '_' ∈ nm.toString
  · obtain ⟨a, b, hrev, ha⟩ := List.eq_append_cons_of_mem (List.mem_reverse.2 hsep)
    have hsplit : nm.toString = b.reverse ++ '_' :: a.reverse := by
      rw [← List.reverse_reverse nm.toString, hrev]
      simp
    rw [List.mem_reverse.symm] at ha
    rw [hsplit] at hfits hvalue hpad
    rw [hsplit, afterLast_append ha]
    have hne : a.reverse ≠ [] := by
      intro hnil
      rw [hnil] at hpad
      simp at hpad
    have htail : a.reverse.getLast? ≠ some '_' := by
      intro hlast
      rw [List.getLast?_append_cons, List.getLast?_cons, hlast] at hpad
      exact hpad rfl
    have hlen := hfits.length_le (by decide)
    rw [List.length_append, List.length_cons] at hlen
    have hshort : Fits 0 a.reverse := fits_of_mem
      (fun c hc => hfits.mem c (List.mem_append_right _ (List.mem_cons_of_mem _ hc))) (by omega)
    refine writeLoop_valueFrom (i := 0) (by decide) hshort htail ?_
    rw [Name.suffix_value hfits ha hne hpad hvalue, Nat.pow_zero, Nat.mul_one]
  · have hloop := suffixLoop_eq 0 0 (by decide : 0 + 12 = 12) hfits hpad
      ((Nat.mod_eq_of_lt nm.value.isLt).trans hvalue.symm)
    rw [bitsAfterLast_of_not_mem hsep, ite_self] at hloop
    have hself : nm.suffix = nm := by
      unfold Name.suffix
      simp only [hloop]
      rfl
    have hall : ∀ c ∈ nm.toString, decide (c ≠ '_') = true := by
      intro c hc
      exact decide_eq_true fun heq => hsep (heq ▸ hc)
    rw [hself, afterLast, List.rtakeWhile_eq_self_iff.2 hall]

/-- **The length and the suffix of a name** are those of its text. -/
theorem name_parts (v : BitVec 64) : (Name.mk v).length = (Name.mk v).toString.length ∧
    (Name.mk v).suffix.toString = afterLast (Name.mk v).toString :=
  ⟨Name.length_eq ⟨v⟩, Name.suffix_toString ⟨v⟩⟩

end

end Wasmlib
