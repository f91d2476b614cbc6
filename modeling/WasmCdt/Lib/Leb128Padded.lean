import WasmCdt.Lib.Leb128

/-!
# LEB128 groups that are not shortest

An encoder may pad a number to a given number of bytes, so that a later pass can overwrite it in
place. Every group of a number reads back, however long it is, while its bits fit the reader.

* `IsGroup.decodeU`, `IsGroup.decodeS`: **a group reads as its value**, whatever follows it.
* `encodeUPad_group`, `encodeSPad_group`: a padded encoding is a group of its value.
* `encodeUPad_length`, `encodeSPad_length`: it has the length asked for, if that is enough.
-/

namespace Leb128

/-! ## Groups read back -/

theorem IsGroup.decodeU : ∀ {g : List UInt8} {N : Nat} (rest : List UInt8), IsGroup g →
    value g < 2 ^ N → 7 * (g.length - 1) < N → decodeU N (g ++ rest) = some (value g, rest)
  | b :: bs, N, rest, hg, hval, hlen => by
    rw [IsGroup] at hg
    rw [value] at hval ⊢
    split_ifs at hg with hb
    · subst hg
      have hsmall : b.toNat < 2 ^ N := by simpa [value, Nat.mod_eq_of_lt hb] using hval
      simp [Leb128.decodeU, hb, hsmall, value, Nat.mod_eq_of_lt hb]
    · have hpos := hg.length_pos
      rw [List.length_cons] at hlen
      have hN : 7 < N := by omega
      have hpow : 2 ^ N = 2 ^ (N - 7) * 128 := by
        rw [show 128 = 2 ^ 7 by rfl, ← Nat.pow_add, Nat.sub_add_cancel (by omega)]
      have htail : value bs < 2 ^ (N - 7) := by omega
      have hbyte := b.toNat_lt
      rw [List.cons_append, Leb128.decodeU, if_neg hb, if_pos hN,
        IsGroup.decodeU rest hg htail (by omega)]
      simp only [Option.map_some, Option.some.injEq, Prod.mk.injEq, and_true]
      omega

/-- Seven bits a byte are enough for the value. -/
theorem value_lt : ∀ g : List UInt8, value g < 2 ^ (7 * g.length)
  | [] => by decide
  | b :: bs => by
    have htail := value_lt bs
    have hpow : 2 ^ (7 * (b :: bs).length) = 2 ^ (7 * bs.length) * 128 := by
      rw [List.length_cons, show 7 * (bs.length + 1) = 7 * bs.length + 7 by omega, Nat.pow_add]
    rw [value, hpow]
    omega

/-- The value of a group whose last seven bits are signed. -/
def valueS : List UInt8 → Int
  | [] => 0
  | b :: bs =>
    if b.toNat < 64 then b.toNat
    else if b.toNat < 128 then b.toNat - 128
    else (b.toNat - 128) + 128 * valueS bs

theorem IsGroup.decodeS : ∀ {g : List UInt8} {N : Nat} (rest : List UInt8), IsGroup g →
    -2 ^ (N - 1) ≤ valueS g → valueS g < 2 ^ (N - 1) → 7 * (g.length - 1) < N →
    decodeS N (g ++ rest) = some (valueS g, rest)
  | b :: bs, N, rest, hg, hlo, hhi, hlen => by
    rw [IsGroup] at hg
    rw [valueS] at hlo hhi ⊢
    rw [List.cons_append, Leb128.decodeS]
    rcases Nat.lt_or_ge b.toNat 64 with h64 | h64
    · rw [if_pos (by omega)] at hg
      subst hg
      rw [if_pos h64] at hhi
      have hfits : b.toNat < 2 ^ (N - 1) := by exact_mod_cast hhi
      simp [h64, hfits]
    · rw [if_neg (by omega)] at hlo hhi
      rcases Nat.lt_or_ge b.toNat 128 with h128 | h128
      · rw [if_pos h128] at hg hlo
        subst hg
        have hfits : 128 ≤ b.toNat + 2 ^ (N - 1) := by
          zify
          omega
        simp [Nat.not_lt.2 h64, h128, hfits]
      · rw [if_neg (by omega)] at hg hlo hhi
        have hpos := hg.length_pos
        have hbyte := b.toNat_lt
        rw [List.length_cons] at hlen
        have hN : 7 < N := by omega
        have hpow : (2 : Int) ^ (N - 1) = 2 ^ (N - 7 - 1) * 128 := by
          rw [show N - 1 = N - 7 - 1 + 7 by omega, pow_add]
          norm_num
        rw [IsGroup.decodeS rest hg (by omega) (by omega) (by omega)]
        simp only [Nat.not_lt.2 h64, Nat.not_lt.2 h128, hN, ↓reduceIte, Option.map_some,
          Option.some.injEq, Prod.mk.injEq, and_true]
        omega

/-! ## Padding -/

/-- Bytes with the top bit set before a last one without. -/
theorem isGroup_append : ∀ {g bytes : List UInt8}, (∀ b ∈ bytes, 128 ≤ b.toNat) → IsGroup g →
    IsGroup (bytes ++ g)
  | _, [], _, hg => hg
  | _, b :: bytes, h, hg => by
    have hb : ¬ b.toNat < 128 := by
      have := h b List.mem_cons_self
      omega
    rw [List.cons_append, IsGroup, if_neg hb]
    exact isGroup_append (fun c hc => h c (List.mem_cons_of_mem _ hc)) hg

/-- The bytes behind the number: `n` of them, the last one without the top bit. -/
def padding (fill : UInt8) : Nat → List UInt8
  | 0 => []
  | n + 1 => List.replicate n (fill ||| 0x80) ++ [fill]

@[simp] theorem padding_length (fill : UInt8) (n : Nat) : (padding fill n).length = n := by
  cases n <;> simp [padding]

theorem padding_succ (fill : UInt8) (n : Nat) :
    padding fill (n + 2) = (fill ||| 0x80) :: padding fill (n + 1) := by
  simp [padding, List.replicate_succ]

theorem padding_zero_group : ∀ n : Nat, IsGroup (padding 0 (n + 1)) ∧ value (padding 0 (n + 1)) = 0
  | 0 => by simp [padding, IsGroup, value]
  | n + 1 => by
    obtain ⟨hg, hv⟩ := padding_zero_group n
    rw [padding_succ]
    exact ⟨by simpa [IsGroup] using hg, by simpa [value] using hv⟩

theorem padding_signed_group (neg : Bool) : ∀ n : Nat,
    IsGroup (padding (if neg then 0x7f else 0) (n + 1)) ∧
      valueS (padding (if neg then 0x7f else 0) (n + 1)) = if neg then -1 else 0
  | 0 => by cases neg <;> simp [padding, IsGroup, valueS]
  | n + 1 => by
    obtain ⟨hg, hv⟩ := padding_signed_group neg n
    rw [padding_succ]
    cases neg with
    | false => exact ⟨by simpa [IsGroup] using hg, by simpa [valueS] using hv⟩
    | true =>
      simp only [↓reduceIte] at hg hv ⊢
      exact ⟨by simpa [IsGroup] using hg, by simp [valueS, hv]⟩

/-! ## The padding encoders -/

/-- The unsigned encoder, with `count` bytes out: the last byte of the number has its top bit set if
padding follows. -/
def encodeUPad (padTo count value : Nat) : List UInt8 :=
  if value / 128 = 0 then
    if count + 1 < padTo then byte (value % 128 + 128) :: padding 0 (padTo - (count + 1))
    else [byte (value % 128)]
  else byte (value % 128 + 128) :: encodeUPad padTo (count + 1) (value / 128)
termination_by value

/-- The signed encoder; the padding repeats the sign. -/
def encodeSPad (padTo count : Nat) (value : Int) : List UInt8 :=
  if (value / 128 = 0 ∧ value % 128 < 64) ∨ (value / 128 = -1 ∧ 64 ≤ value % 128) then
    if count + 1 < padTo then
      byte ((value % 128).toNat + 128) ::
        padding (if value / 128 < 0 then 0x7f else 0) (padTo - (count + 1))
    else [byte (value % 128).toNat]
  else byte ((value % 128).toNat + 128) :: encodeSPad padTo (count + 1) (value / 128)
termination_by value.natAbs
decreasing_by omega

theorem encodeUPad_group (padTo count val : Nat) :
    IsGroup (encodeUPad padTo count val) ∧ value (encodeUPad padTo count val) = val := by
  have hmod := Nat.mod_lt val (show 128 > 0 by decide)
  have hbyte := byte_toNat (show val % 128 + 128 < 256 by omega)
  fun_induction encodeUPad padTo count val with
  | case1 count val hdiv hpad =>
    obtain ⟨n, hn⟩ : ∃ n, padTo - (count + 1) = n + 1 := ⟨padTo - (count + 1) - 1, by omega⟩
    obtain ⟨hg, hv⟩ := padding_zero_group n
    rw [hn, IsGroup, value, hbyte, if_neg (by omega), hv]
    exact ⟨hg, by omega⟩
  | case2 count val hdiv hpad =>
    rw [IsGroup, value, value, byte_toNat (by omega), if_pos hmod]
    exact ⟨rfl, by omega⟩
  | case3 count val hdiv ih =>
    have hmod' := Nat.mod_lt (val / 128) (show 128 > 0 by decide)
    obtain ⟨hg, hv⟩ := ih hmod' (byte_toNat (by omega))
    rw [IsGroup, value, hbyte, if_neg (by omega), hv]
    exact ⟨hg, by omega⟩

theorem encodeSPad_group (padTo count : Nat) (val : Int) :
    IsGroup (encodeSPad padTo count val) ∧ valueS (encodeSPad padTo count val) = val := by
  have hbyte := byte_toNat (show (val % 128).toNat + 128 < 256 by omega)
  fun_induction encodeSPad padTo count val with
  | case1 count val hlast hpad =>
    obtain ⟨n, hn⟩ : ∃ n, padTo - (count + 1) = n + 1 := ⟨padTo - (count + 1) - 1, by omega⟩
    obtain ⟨hg, hv⟩ := padding_signed_group (decide (val / 128 < 0)) n
    simp only [decide_eq_true_eq] at hg hv
    rw [hn, IsGroup, valueS, hbyte, hv]
    refine ⟨by rwa [if_neg (by omega)], ?_⟩
    split_ifs <;> omega
  | case2 count val hlast hpad =>
    rw [IsGroup, valueS, byte_toNat (by omega), if_pos (by omega)]
    refine ⟨rfl, ?_⟩
    split_ifs <;> omega
  | case3 count val hlast ih =>
    obtain ⟨hg, hv⟩ := ih (byte_toNat (by omega))
    rw [IsGroup, valueS, hbyte, hv]
    refine ⟨by rwa [if_neg (by omega)], ?_⟩
    split_ifs <;> omega

/-- Without padding the encoders are those of the shortest form. -/
theorem encodeUPad_zero (count val : Nat) : encodeUPad 0 count val = encodeU val := by
  fun_induction encodeUPad 0 count val with
  | case1 count val hdiv hpad => omega
  | case2 count val hdiv hpad => rw [encodeU_lt (by omega), Nat.mod_eq_of_lt (by omega)]
  | case3 count val hdiv ih => rw [encodeU_ge (by omega), ih]

theorem encodeSPad_zero (count : Nat) (val : Int) : encodeSPad 0 count val = encodeS val := by
  fun_induction encodeSPad 0 count val with
  | case1 count val hlast hpad => omega
  | case2 count val hlast hpad => rw [encodeS_last (by omega) (by omega)]
  | case3 count val hlast ih => rw [encodeS_more (by omega), ih]

theorem encodeUPad_length {padTo n : Nat} : ∀ {count val : Nat}, count + n = padTo → 0 < n →
    val < 2 ^ (7 * n) → (encodeUPad padTo count val).length = n := by
  induction n with
  | zero => intro count val _ hn; omega
  | succ n ih =>
    intro count val hcount _ hval
    rw [Nat.mul_add, Nat.pow_add] at hval
    rw [encodeUPad]
    split_ifs with hdiv hpad
    · simp only [List.length_cons, padding_length]
      omega
    · simp only [List.length_singleton]
      omega
    · have hn : 0 < n := by
        rcases Nat.eq_zero_or_pos n with rfl | hn
        · norm_num at hval
          omega
        · exact hn
      rw [List.length_cons, ih (by omega) hn ((Nat.div_lt_iff_lt_mul (by decide)).2 hval)]

theorem encodeSPad_length {padTo n : Nat} : ∀ {count : Nat} {val : Int}, count + n = padTo → 0 < n →
    -2 ^ (7 * n - 1) ≤ val → val < 2 ^ (7 * n - 1) → (encodeSPad padTo count val).length = n := by
  induction n with
  | zero => intro count val _ hn; omega
  | succ n ih =>
    intro count val hcount _ hlo hhi
    by_cases hlast : (val / 128 = 0 ∧ val % 128 < 64) ∨ (val / 128 = -1 ∧ 64 ≤ val % 128)
    · rw [encodeSPad, if_pos hlast]
      by_cases hpad : count + 1 < padTo
      · rw [if_pos hpad, List.length_cons, padding_length]
        omega
      · rw [if_neg hpad, List.length_singleton]
        omega
    · have hn : 0 < n := by
        rcases Nat.eq_zero_or_pos n with rfl | hn
        · norm_num at hlo hhi
          omega
        · exact hn
      have hpow : (2 : Int) ^ (7 * (n + 1) - 1) = 2 ^ (7 * n - 1) * 128 := by
        rw [show 7 * (n + 1) - 1 = 7 * n - 1 + 7 by omega, pow_add]
        norm_num
      rw [encodeSPad, if_neg hlast, List.length_cons, ih (by omega) hn (by omega) (by omega)]

end Leb128
