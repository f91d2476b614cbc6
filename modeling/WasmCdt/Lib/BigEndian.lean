import Mathlib.Data.List.Induction
import Mathlib.Tactic.Tauto
import Mathlib.Algebra.Order.Ring.Nat

/-!
# Big-endian bytes

The `k` lowest bytes of a number, the highest of them first, and the number that a sequence of words of
`w` bytes denotes.
-/

namespace BigEndian

def bytes : Nat → Nat → List UInt8
  | 0, _ => []
  | k + 1, n => bytes k (n / 256) ++ [UInt8.ofNat n]

/-- Words of `w` bytes, the first one highest. -/
def pack (w : Nat) (ws : List Nat) : Nat := ws.foldl (fun n x => n * 256 ^ w + x) 0

variable {k m n w : Nat}

@[simp] theorem zero_bytes (n : Nat) : bytes 0 n = [] := rfl

theorem bytes_succ (k n : Nat) : bytes (k + 1) n = bytes k (n / 256) ++ [UInt8.ofNat n] := rfl

@[simp] theorem pack_nil (w : Nat) : pack w [] = 0 := rfl

theorem pack_append_singleton (w : Nat) (ws : List Nat) (x : Nat) :
    pack w (ws ++ [x]) = pack w ws * 256 ^ w + x := List.foldl_append

theorem base_pos (k : Nat) : 0 < 256 ^ k := Nat.pow_pos (by decide)

@[simp] theorem bytes_length : ∀ (k n : Nat), (bytes k n).length = k
  | 0, _ => rfl
  | k + 1, n => by
    rw [bytes_succ, List.length_append, bytes_length k, List.length_singleton]

/-- The upper bytes, and the lower ones. -/
theorem bytes_add (a b n : Nat) : bytes (a + b) n = bytes a (n / 256 ^ b) ++ bytes b n := by
  induction b generalizing n with
  | zero => rw [pow_zero, Nat.div_one, zero_bytes, List.append_nil, Nat.add_zero]
  | succ b ih =>
    rw [← Nat.add_assoc, bytes_succ, ih, bytes_succ, List.append_assoc, Nat.div_div_eq_div_mul,
      pow_succ, Nat.mul_comm (256 ^ b)]

@[simp] theorem bytes_zero (k : Nat) : bytes k 0 = List.replicate k 0 := by
  induction k with
  | zero => rfl
  | succ k ih =>
    rw [bytes_succ, ih, List.replicate_succ']
    rfl

/-- **Numbers with the same bytes** are the same, up to what does not fit. -/
theorem bytes_inj : bytes k n = bytes k m ↔ n % 256 ^ k = m % 256 ^ k := by
  induction k generalizing n m with
  | zero => simp [Nat.mod_one]
  | succ k ih =>
    have hsplit : ∀ x, x % 256 ^ (k + 1) = x % 256 + 256 * (x / 256 % 256 ^ k) := fun x => by
      rw [pow_succ, Nat.mul_comm (256 ^ k), Nat.mod_mul]
    have hbyte : UInt8.ofNat n = UInt8.ofNat m ↔ n % 256 = m % 256 := by
      rw [← UInt8.toNat_inj, UInt8.toNat_ofNat', UInt8.toNat_ofNat']
    rw [bytes_succ, bytes_succ, List.append_singleton_inj, ih, hbyte, hsplit n, hsplit m]
    omega

/-- The order of two texts in a dictionary, by their first parts if these are as long. -/
theorem append_lt_append_iff {α : Type} [LT α] {x y u v : List α}
    (h : x.length = y.length) : x ++ u < y ++ v ↔ x < y ∨ x = y ∧ u < v := by
  induction x generalizing y with
  | nil =>
    obtain rfl := List.length_eq_zero_iff.1 h.symm
    simp
  | cons a x ih =>
    cases y with
    | nil => cases h
    | cons b y =>
      rw [List.cons_append, List.cons_append, List.cons_lt_cons_iff, List.cons_lt_cons_iff,
        ih (Nat.succ.inj h), List.cons.injEq]
      tauto

/-- **The order of numbers** is that of their bytes in a dictionary. -/
theorem bytes_lt : bytes k n < bytes k m ↔ n % 256 ^ k < m % 256 ^ k := by
  induction k generalizing n m with
  | zero => simp [Nat.mod_one]
  | succ k ih =>
    have hsplit : ∀ x, x % 256 ^ (k + 1) = x % 256 + 256 * (x / 256 % 256 ^ k) := fun x => by
      rw [pow_succ, Nat.mul_comm (256 ^ k), Nat.mod_mul]
    have hbyte : [UInt8.ofNat n] < [UInt8.ofNat m] ↔ n % 256 < m % 256 := by
      have hnil : ¬ ([] : List UInt8) < [] := List.not_lt_nil _
      rw [List.cons_lt_cons_iff, or_iff_left (not_and_of_not_right _ hnil), UInt8.lt_iff_toNat_lt,
        UInt8.toNat_ofNat', UInt8.toNat_ofNat']
    rw [bytes_succ, bytes_succ, append_lt_append_iff (by rw [bytes_length, bytes_length]), ih,
      bytes_inj, hbyte, hsplit n, hsplit m]
    have hn := Nat.mod_lt n (show 256 > 0 by decide)
    have hm := Nat.mod_lt m (show 256 > 0 by decide)
    omega

/-- A number moved up leaves zeros. -/
theorem bytes_mul_pow (k b n : Nat) : bytes (k + b) (n * 256 ^ b) = bytes k n ++ List.replicate b 0 := by
  have hlow : bytes b (n * 256 ^ b) = bytes b 0 := bytes_inj.2 (by simp)
  rw [bytes_add, Nat.mul_div_cancel _ (base_pos b), hlow, bytes_zero]

theorem pack_lt {ws : List Nat} (h : ∀ x ∈ ws, x < 256 ^ w) : pack w ws < 256 ^ (w * ws.length) := by
  induction ws using List.reverseRecOn with
  | nil => simp
  | append_singleton ws x ih =>
    have hx := h x (by simp)
    have hws := ih fun y hy => h y (List.mem_append_left _ hy)
    rw [pack_append_singleton, List.length_append, List.length_singleton, Nat.mul_add, Nat.mul_one,
      pow_add]
    calc pack w ws * 256 ^ w + x < pack w ws * 256 ^ w + 256 ^ w := Nat.add_lt_add_left hx _
      _ = (pack w ws + 1) * 256 ^ w := (Nat.succ_mul _ _).symm
      _ ≤ 256 ^ (w * ws.length) * 256 ^ w := Nat.mul_le_mul_right _ hws

/-- **The bytes of a sequence of words** are those of its words. -/
theorem bytes_pack {ws : List Nat} (h : ∀ x ∈ ws, x < 256 ^ w) :
    bytes (w * ws.length) (pack w ws) = ws.flatMap (bytes w) := by
  induction ws using List.reverseRecOn with
  | nil => simp
  | append_singleton ws x ih =>
    have hx := h x (by simp)
    have hlow : bytes w (pack w ws * 256 ^ w + x) = bytes w x := bytes_inj.2 (by simp)
    rw [pack_append_singleton, List.length_append, List.length_singleton, Nat.mul_add, Nat.mul_one,
      bytes_add, hlow, Nat.mul_comm (pack w ws), Nat.mul_add_div (base_pos w), Nat.div_eq_of_lt hx,
      Nat.add_zero, ih fun y hy => h y (List.mem_append_left _ hy), List.flatMap_append,
      List.flatMap_singleton]

theorem pack_eq_zero_iff {ws : List Nat} : pack w ws = 0 ↔ ∀ x ∈ ws, x = 0 := by
  induction ws using List.reverseRecOn with
  | nil => simp
  | append_singleton ws x ih =>
    rw [pack_append_singleton, Nat.add_eq_zero_iff, Nat.mul_eq_zero, or_iff_left (base_pos w).ne', ih]
    simp [List.mem_append, or_imp, forall_and]

end BigEndian
