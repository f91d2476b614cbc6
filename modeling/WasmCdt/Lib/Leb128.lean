import Mathlib.Tactic.Ring
import Mathlib.Tactic.Linarith

/-!
# LEB128

The variable-length integers of the WebAssembly binary format, unsigned and signed, least
significant group of seven bits first. `encodeU`/`encodeS` are the canonical encoders (shortest
form); `decodeU N`/`decodeS N` read an `N`-bit integer from the front of a byte sequence as the
format's grammar `uN`/`sN` does, refusing what does not fit.

* `decodeU_encodeU`, `decodeS_encodeS`: decoding an encoding followed by any bytes gives the
  value and those bytes back.
-/

namespace Leb128

/-- The byte of value `n % 256`. -/
abbrev byte (n : Nat) : UInt8 := UInt8.ofNat n

theorem byte_toNat {n : Nat} (h : n < 256) : (byte n).toNat = n := by
  simp [byte, Nat.mod_eq_of_lt h]

/-! ## Unsigned -/

/-- The encoder's loop; `fuel` bounds the groups after the first. -/
def encodeULoop : Nat → Nat → List UInt8
  | 0, value => [byte (value % 128)]
  | fuel + 1, value =>
    if value / 128 = 0 then [byte (value % 128)]
    else byte (value % 128 + 128) :: encodeULoop fuel (value / 128)

/-- The unsigned encoding of `value`. -/
def encodeU (value : Nat) : List UInt8 := encodeULoop value value

theorem encodeULoop_fuel : ∀ (f g value : Nat), value ≤ f → value ≤ g →
    encodeULoop f value = encodeULoop g value
  | 0, 0, _, _, _ => rfl
  | 0, g + 1, value, hf, _ => by simp [encodeULoop, show value = 0 by omega]
  | f + 1, 0, value, _, hg => by simp [encodeULoop, show value = 0 by omega]
  | f + 1, g + 1, value, hf, hg => by
    simp only [encodeULoop]
    split
    · rfl
    · rw [encodeULoop_fuel f g (value / 128) (by omega) (by omega)]

theorem encodeU_lt {value : Nat} (h : value < 128) : encodeU value = [byte value] := by
  cases value with
  | zero => rfl
  | succ n => simp [encodeU, encodeULoop, Nat.div_eq_of_lt h, Nat.mod_eq_of_lt h]

theorem encodeU_ge {value : Nat} (h : 128 ≤ value) :
    encodeU value = byte (value % 128 + 128) :: encodeU (value / 128) := by
  obtain ⟨n, rfl⟩ : ∃ n, value = n + 1 := ⟨value - 1, by omega⟩
  have hne : (n + 1) / 128 ≠ 0 := by omega
  simp only [encodeU, encodeULoop, hne, ↓reduceIte]
  rw [encodeULoop_fuel n ((n + 1) / 128) _ (by omega) (Nat.le_refl _)]

/-- Reads an unsigned `N`-bit integer. -/
def decodeU : Nat → List UInt8 → Option (Nat × List UInt8)
  | _, [] => none
  | N, b :: bs =>
    if b.toNat < 128 then
      if b.toNat < 2 ^ N then some (b.toNat, bs) else none
    else if 7 < N then
      (decodeU (N - 7) bs).map fun p => (128 * p.1 + (b.toNat - 128), p.2)
    else none

/-- **An unsigned encoding reads back**, whatever follows it. -/
theorem decodeU_encodeU (value : Nat) : ∀ {N : Nat} (rest : List UInt8), value < 2 ^ N →
    decodeU N (encodeU value ++ rest) = some (value, rest) := by
  induction value using Nat.strongRecOn with
  | ind value ih =>
    intro N rest hN
    rcases Nat.lt_or_ge value 128 with h | h
    · simp [encodeU_lt h, decodeU, byte_toNat (show value < 256 by omega), h, hN]
    · have hN7 : 7 < N := by
        by_contra hle
        have : 2 ^ N ≤ 2 ^ 7 := Nat.pow_le_pow_right (by omega) (by omega)
        omega
      have hdiv : value / 128 < 2 ^ (N - 7) := by
        rw [Nat.div_lt_iff_lt_mul (by omega), show 128 = 2 ^ 7 by rfl, ← Nat.pow_add]
        rwa [Nat.sub_add_cancel (by omega)]
      have hb := byte_toNat (show value % 128 + 128 < 256 by omega)
      rw [encodeU_ge h, List.cons_append, decodeU, hb,
        ih (value / 128) (by omega) rest hdiv]
      simp only [show ¬ (value % 128 + 128 < 128) by omega, hN7, ↓reduceIte, Option.map_some,
        Option.some.injEq, Prod.mk.injEq, and_true]
      omega

/-! ## Groups of bytes -/

/-- Seven bits a byte, least significant group first. -/
def value : List UInt8 → Nat
  | [] => 0
  | b :: bs => b.toNat % 128 + 128 * value bs

/-- The last byte has its top bit clear, and the others have it set. -/
def IsGroup : List UInt8 → Prop
  | [] => False
  | b :: bs => if b.toNat < 128 then bs = [] else IsGroup bs

theorem IsGroup.length_pos : ∀ {g : List UInt8}, IsGroup g → 0 < g.length
  | _ :: _, _ => Nat.succ_pos _

/-- Bytes start with a group, or none of them ends one. -/
theorem exists_group : ∀ bytes : List UInt8,
    (∃ g rest, bytes = g ++ rest ∧ IsGroup g) ∨ ∀ b ∈ bytes, 128 ≤ b.toNat
  | [] => .inr (by simp)
  | b :: bs => by
    rcases Nat.lt_or_ge b.toNat 128 with h | h
    · exact .inl ⟨[b], bs, rfl, by simp [IsGroup, h]⟩
    · rcases exists_group bs with ⟨g, rest, rfl, hg⟩ | hall
      · exact .inl ⟨b :: g, rest, rfl, by rwa [IsGroup, if_neg (by omega)]⟩
      · exact .inr (List.forall_mem_cons.2 ⟨h, hall⟩)

/-- The group at the front of bytes is one of a kind. -/
theorem IsGroup.append_inj : ∀ {g g' rest rest' : List UInt8}, IsGroup g → IsGroup g' →
    g ++ rest = g' ++ rest' → g = g' ∧ rest = rest'
  | b :: g, b' :: g', rest, rest', h, h', heq => by
    obtain ⟨rfl, htail⟩ := List.cons.inj heq
    rw [IsGroup] at h h'
    split_ifs at h h' with hb
    · subst h h'
      exact ⟨rfl, htail⟩
    · obtain ⟨rfl, hrest⟩ := append_inj h h' htail
      exact ⟨rfl, hrest⟩

/-- The bytes of a group before its last one. -/
theorem IsGroup.take : ∀ {g : List UInt8} {k : Nat}, IsGroup g → k < g.length →
    ∀ b ∈ g.take k, 128 ≤ b.toNat
  | b :: bs, 0, _, _ => by simp
  | b :: bs, k + 1, h, hk => by
    rw [IsGroup] at h
    rw [List.length_cons] at hk
    rw [List.take_succ_cons]
    split_ifs at h with hb
    · subst h
      exact absurd hk (by simp)
    · exact List.forall_mem_cons.2 ⟨by omega, h.take (by omega)⟩

/-- A group has a byte below 128. -/
theorem IsGroup.exists_last : ∀ {g : List UInt8}, IsGroup g → ∃ b ∈ g, b.toNat < 128
  | b :: bs, h => by
    rw [IsGroup] at h
    split_ifs at h with hb
    · exact ⟨b, List.mem_cons_self, hb⟩
    · obtain ⟨c, hc, hlt⟩ := exists_last h
      exact ⟨c, List.mem_cons_of_mem _ hc, hlt⟩

/-- An encoding is a group of its value. -/
theorem encodeU_group (n : Nat) : IsGroup (encodeU n) ∧ value (encodeU n) = n := by
  induction n using Nat.strongRecOn with
  | ind n ih =>
    rcases Nat.lt_or_ge n 128 with h | h
    · have hb := byte_toNat (show n < 256 by omega)
      rw [encodeU_lt h, IsGroup, value, value, hb, if_pos h]
      exact ⟨rfl, by omega⟩
    · obtain ⟨hg, hv⟩ := ih (n / 128) (by omega)
      have hb := byte_toNat (show n % 128 + 128 < 256 by omega)
      rw [encodeU_ge h, IsGroup, value, hv, hb, if_neg (by omega)]
      exact ⟨hg, by omega⟩

/-- **No group of the same value is shorter than the encoding.** -/
theorem encodeU_value_length : ∀ {g : List UInt8}, IsGroup g →
    (encodeU (value g)).length ≤ g.length
  | b :: bs, h => by
    rw [IsGroup] at h
    rcases Nat.lt_or_ge (value (b :: bs)) 128 with hv | hv
    · rw [encodeU_lt hv]
      exact Nat.succ_le_succ (Nat.zero_le _)
    · rw [value] at hv ⊢
      split_ifs at h with hb
      · subst h
        rw [value] at hv
        omega
      · have hdiv : (b.toNat % 128 + 128 * value bs) / 128 = value bs := by omega
        rw [encodeU_ge hv, hdiv]
        exact Nat.succ_le_succ (encodeU_value_length h)

/-- The bytes of an encoding. -/
theorem encodeU_length : ∀ {n val : Nat}, val < 2 ^ (7 * n) → 0 < n →
    (encodeU val).length ≤ n
  | n + 1, val, h, _ => by
    rcases Nat.lt_or_ge val 128 with hv | hv
    · simp [encodeU_lt hv]
    · have hn : 0 < n := by
        rcases Nat.eq_zero_or_pos n with rfl | hn
        · omega
        · exact hn
      have hval : val / 128 < 2 ^ (7 * n) := by
        rw [Nat.div_lt_iff_lt_mul (by decide)]
        calc val < 2 ^ (7 * (n + 1)) := h
          _ = 2 ^ (7 * n) * 128 := by rw [Nat.mul_add, Nat.pow_add]
      rw [encodeU_ge hv]
      simpa using encodeU_length hval hn

/-! ## Signed -/

/-- The encoder's loop; `fuel` bounds the groups after the first. The shift right is
arithmetic. -/
def encodeSLoop : Nat → Int → List UInt8
  | 0, value => [byte (value % 128).toNat]
  | fuel + 1, value =>
    if (value / 128 = 0 ∧ value % 128 < 64) ∨ (value / 128 = -1 ∧ 64 ≤ value % 128) then
      [byte (value % 128).toNat]
    else byte ((value % 128).toNat + 128) :: encodeSLoop fuel (value / 128)

/-- The signed encoding of `value`. -/
def encodeS (value : Int) : List UInt8 := encodeSLoop value.natAbs value

theorem encodeSLoop_fuel : ∀ (f g : Nat) (value : Int), value.natAbs ≤ f → value.natAbs ≤ g →
    encodeSLoop f value = encodeSLoop g value
  | 0, 0, _, _, _ => rfl
  | 0, g + 1, value, hf, _ => by simp [encodeSLoop, show value = 0 by omega]
  | f + 1, 0, value, _, hg => by simp [encodeSLoop, show value = 0 by omega]
  | f + 1, g + 1, value, hf, hg => by
    simp only [encodeSLoop]
    split
    · rfl
    · rw [encodeSLoop_fuel f g (value / 128) (by omega) (by omega)]

theorem encodeS_last {value : Int} (h : -64 ≤ value) (h' : value < 64) :
    encodeS value = [byte (value % 128).toNat] := by
  unfold encodeS
  cases hn : value.natAbs with
  | zero => rfl
  | succ n =>
    rw [encodeSLoop, if_pos]
    omega

theorem encodeS_more {value : Int} (h : value < -64 ∨ 64 ≤ value) :
    encodeS value = byte ((value % 128).toNat + 128) :: encodeS (value / 128) := by
  unfold encodeS
  obtain ⟨n, hn⟩ : ∃ n, value.natAbs = n + 1 := ⟨value.natAbs - 1, by omega⟩
  rw [hn, encodeSLoop, if_neg (by omega),
    encodeSLoop_fuel n (value / 128).natAbs _ (by omega) (Nat.le_refl _)]

/-- Reads a signed `N`-bit integer. -/
def decodeS : Nat → List UInt8 → Option (Int × List UInt8)
  | _, [] => none
  | N, b :: bs =>
    if b.toNat < 64 then
      if b.toNat < 2 ^ (N - 1) then some (b.toNat, bs) else none
    else if b.toNat < 128 then
      if 128 ≤ b.toNat + 2 ^ (N - 1) then some (b.toNat - 128, bs) else none
    else if 7 < N then
      (decodeS (N - 7) bs).map fun p => (128 * p.1 + (b.toNat - 128), p.2)
    else none

/-- **A signed encoding reads back**, whatever follows it. -/
theorem decodeS_encodeS (value : Int) : ∀ {N : Nat} (rest : List UInt8), -2 ^ (N - 1) ≤ value →
    value < 2 ^ (N - 1) → decodeS N (encodeS value ++ rest) = some (value, rest) := by
  induction hn : value.natAbs using Nat.strongRecOn generalizing value with
  | ind n ih =>
    intro N rest hlo hhi
    by_cases hs : -64 ≤ value ∧ value < 64
    · have hb := byte_toNat (show (value % 128).toNat < 256 by omega)
      rw [encodeS_last hs.1 hs.2, List.cons_append, List.nil_append, decodeS, hb]
      rcases lt_or_ge value 0 with hneg | hpos
      · have h1 : ¬ (value % 128).toNat < 64 := by omega
        have h2 : (value % 128).toNat < 128 := by omega
        have h3 : 128 ≤ (value % 128).toNat + 2 ^ (N - 1) := by zify; omega
        simp only [h1, h2, h3, ↓reduceIte, Option.some.injEq, Prod.mk.injEq, and_true]
        omega
      · have h1 : (value % 128).toNat < 64 := by omega
        have h3 : (value % 128).toNat < 2 ^ (N - 1) := by zify; omega
        simp only [h1, h3, ↓reduceIte, Option.some.injEq, Prod.mk.injEq, and_true]
        omega
    · have hN7 : 7 < N := by
        by_contra hle
        have h6 : (2 : Int) ^ (N - 1) ≤ 2 ^ 6 := pow_le_pow_right₀ (by norm_num) (by omega)
        omega
      have hpow : (2 : Int) ^ (N - 1) = 2 ^ (N - 7 - 1) * 128 := by
        rw [show N - 1 = N - 7 - 1 + 7 by omega, pow_add]
        norm_num
      have hb := byte_toNat (show (value % 128).toNat + 128 < 256 by omega)
      rw [encodeS_more (by omega), List.cons_append, decodeS, hb,
        ih _ (by omega) (value / 128) rfl rest (by omega) (by omega)]
      simp only [show ¬ ((value % 128).toNat + 128 < 64) by omega,
        show ¬ ((value % 128).toNat + 128 < 128) by omega, hN7, ↓reduceIte, Option.map_some,
        Option.some.injEq, Prod.mk.injEq, and_true]
      omega

end Leb128
