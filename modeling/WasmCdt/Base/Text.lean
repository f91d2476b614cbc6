import Mathlib.Data.Char
import Mathlib.Data.Int.Cast.Basic
import Mathlib.Tactic.NormNum
import Mathlib.Data.List.Lex
import Mathlib.Data.List.TakeWhile

/-!
# C++ text

`std::string` as a list of characters (one a byte), and the library functions the tools and the
contract library call on it: `find`, `substr` and the C library's `atoi`
(`libraries/libc/musl/src/stdlib/atoi.c`).
-/

abbrev Text := List Char

/-- The equality of texts by which membership in a list of them is tested. -/
instance : LawfulBEq Text := inferInstance

namespace Text

/-- `std::string::find` of a character; `none` is `npos`. -/
def find (s : Text) (c : Char) : Option Nat := s.findIdx? (· == c)

/-- `std::string::substr(pos, len)` for a `pos` within the string. -/
def substr (s : Text) (pos len : Nat) : Text := (s.drop pos).take len

theorem find_eq_none {s : Text} {c : Char} (h : c ∉ s) : find s c = none := by
  rw [find, List.findIdx?_eq_none_iff]
  intro x hx
  exact beq_eq_false_iff_ne.2 fun he => h (he ▸ hx)

theorem find_append {s : Text} {c : Char} (h : c ∉ s) (t : Text) :
    find (s ++ c :: t) c = some s.length := by
  have hs : s.findIdx? (· == c) = none := find_eq_none h
  simp [find, List.findIdx?_append, hs, List.findIdx?_cons]

/-- The piece before a character found. -/
@[simp] theorem substr_append (s t : Text) : substr (s ++ t) 0 s.length = s := by
  simp [substr]

/-- The piece after it. -/
@[simp] theorem drop_append_cons (s t : Text) (c : Char) : (s ++ c :: t).drop (s.length + 1) = t := by
  rw [← List.drop_drop, List.drop_left]
  rfl

/-! ## `atoi` -/

def isSpace (c : Char) : Bool := c == ' ' || ('\t' ≤ c && c ≤ '\r')

def isDigit (c : Char) : Bool := '0' ≤ c && c ≤ '9'

def digitVal (c : Char) : Int := (c.toNat : Int) - '0'.toNat

/-- A 32-bit `int` operation, wrapping as compiled. -/
def int32 (x : Int) : Int := x.bmod (2 ^ 32)

/-- The loop of `atoi`: the digits as a negative number. -/
def atoiLoop : Int → Text → Int
  | n, [] => n
  | n, c :: s => if isDigit c then atoiLoop (int32 (10 * n - digitVal c)) s else n

def atoi (s : Text) : Int :=
  match s.dropWhile isSpace with
  | '-' :: s => atoiLoop 0 s
  | '+' :: s => int32 (-atoiLoop 0 s)
  | s => int32 (-atoiLoop 0 s)

/-! ## Decimals -/

/-- `%lld`. -/
def decimal (x : Int) : Text :=
  if x < 0 then '-' :: Nat.toDigits 10 x.natAbs else Nat.toDigits 10 x.natAbs

/-- A text of digits. -/
def IsDigits (s : Text) : Prop := ∀ c ∈ s, isDigit c = true

instance (s : Text) : Decidable (IsDigits s) := List.decidableBAll _ s

theorem isDigit_iff {c : Char} : isDigit c = true ↔ c.isDigit = true := by
  simp [isDigit, Char.isDigit, Char.le_def]

theorem isDigits_toDigits (n : Nat) : IsDigits (Nat.toDigits 10 n) :=
  fun _ hc => isDigit_iff.2 (Nat.isDigit_of_mem_toDigits (by decide) (by decide) hc)

theorem IsDigits.not_mem {s : Text} (h : IsDigits s) {c : Char} (hc : isDigit c = false) : c ∉ s :=
  fun hmem => by simp [h c hmem] at hc

theorem digitVal_eq {c : Char} (h : isDigit c = true) :
    digitVal c = ((c.toNat - '0'.toNat : Nat) : Int) := by
  have hle : '0'.toNat ≤ c.toNat := by
    have := (Bool.and_eq_true_iff.1 h).1
    exact of_decide_eq_true this
  rw [digitVal]
  omega

theorem ofDigitChars_lt {s : Text} (h : IsDigits s) : Nat.ofDigitChars 10 s 0 < 10 ^ s.length := by
  induction s with
  | nil => simp
  | cons c s ih =>
    have hc : c.toNat ≤ '9'.toNat := of_decide_eq_true (Bool.and_eq_true_iff.1 (h c (.head _))).2
    have hval : c.toNat - '0'.toNat ≤ 9 := by
      have h9 : '9'.toNat - '0'.toNat = 9 := rfl
      omega
    have hs := ih fun d hd => h d (.tail _ hd)
    have hmul := Nat.mul_le_mul_left (10 ^ s.length) hval
    rw [Nat.ofDigitChars_cons, Nat.mul_zero, Nat.zero_add, Nat.ofDigitChars_eq_ofDigitChars_zero,
      List.length_cons, pow_succ]
    omega

theorem int32_eq (x : Int) : int32 x = (x + 2 ^ 31) % 2 ^ 32 - 2 ^ 31 := by
  have hmod : x % ((2 ^ 32 : Nat) : Int) = x % 4294967296 := rfl
  rw [int32, Int.bmod_def, hmod]
  push_cast
  split <;> omega

/-- The loop computes the negated number, modulo the word. -/
theorem atoiLoop_digits : ∀ {s : Text}, IsDigits s → ∀ (m : Nat),
    atoiLoop (int32 (-m)) s = int32 (-(Nat.ofDigitChars 10 s m : Nat))
  | [], _, _ => by simp [atoiLoop]
  | c :: s, h, m => by
    have hc : isDigit c = true := h c (.head _)
    have hstep : int32 (10 * int32 (-(m : Int)) - digitVal c) =
        int32 (-((10 * m + (c.toNat - '0'.toNat) : Nat) : Int)) := by
      rw [digitVal_eq hc]
      simp only [int32_eq]
      push_cast
      omega
    rw [atoiLoop, if_pos hc, hstep, atoiLoop_digits (fun d hd => h d (.tail _ hd)),
      Nat.ofDigitChars_cons]

theorem atoiLoop_zero {s : Text} (h : IsDigits s) :
    atoiLoop 0 s = int32 (-(Nat.ofDigitChars 10 s 0 : Nat)) :=
  atoiLoop_digits h 0

theorem dropWhile_isSpace {c : Char} {s : Text} (h : isSpace c = false) :
    (c :: s).dropWhile isSpace = c :: s := by
  simp [h]

theorem not_isSpace_of_isDigit {c : Char} (h : isDigit c = true) : isSpace c = false := by
  have hle : '0' ≤ c := of_decide_eq_true (Bool.and_eq_true_iff.1 h).1
  have h1 : c ≠ ' ' := fun he => absurd (he ▸ hle) (by decide)
  have h2 : ¬c ≤ '\r' := fun he => absurd (le_trans hle he) (by decide)
  simp [isSpace, h1, h2]

theorem atoiLoop_append {s t : Text} (hs : IsDigits s) (ht : ∀ c ∈ t.head?, isDigit c = false)
    (n : Int) : atoiLoop n (s ++ t) = atoiLoop n s := by
  induction s generalizing n with
  | nil =>
    cases t with
    | nil => rfl
    | cons c t => simp [atoiLoop, ht c rfl]
  | cons c s ih =>
    have hc : isDigit c = true := hs c (.head _)
    rw [List.cons_append, atoiLoop, atoiLoop, if_pos hc, if_pos hc]
    exact ih (fun d hd => hs d (.tail _ hd)) _

/-- The number of the digits that a text starts with. -/
def leadingNat (s : Text) : Nat := Nat.ofDigitChars 10 (s.takeWhile isDigit) 0

/-- The number that a text starts with: blanks, a sign, digits. -/
def leadingInt (s : Text) : Int :=
  match s.dropWhile isSpace with
  | '-' :: s => -leadingNat s
  | '+' :: s => leadingNat s
  | s => leadingNat s

theorem atoiLoop_leading (s : Text) : atoiLoop 0 s = int32 (-(leadingNat s : Int)) := by
  have hdig : IsDigits (s.takeWhile isDigit) := fun _ hc => List.mem_takeWhile_imp hc
  have hrest : ∀ c ∈ (s.dropWhile isDigit).head?, isDigit c = false := by
    intro c hc
    have := List.head?_dropWhile_not isDigit s
    rw [Option.mem_def.1 hc] at this
    simpa using this
  have h := atoiLoop_append hdig hrest 0
  rw [List.takeWhile_append_dropWhile] at h
  rw [h, atoiLoop_zero hdig, leadingNat]

theorem int32_neg_int32_neg (x : Int) : int32 (-int32 (-x)) = int32 x := by
  simp only [int32_eq]
  omega

/-- **`atoi` reads the number that its text starts with**, modulo its word. -/
theorem atoi_eq_leadingInt (s : Text) : atoi s = int32 (leadingInt s) := by
  unfold atoi leadingInt
  split
  · exact atoiLoop_leading _
  · rw [atoiLoop_leading, int32_neg_int32_neg]
  · rw [atoiLoop_leading, int32_neg_int32_neg]

theorem leadingNat_append {s t : Text} (hs : IsDigits s) (ht : ∀ c ∈ t.head?, isDigit c = false) :
    leadingNat (s ++ t) = Nat.ofDigitChars 10 s 0 := by
  have hrest : t.takeWhile isDigit = [] := by
    cases t with
    | nil => rfl
    | cons c t => simp [ht c rfl]
  rw [leadingNat, List.takeWhile_append_of_pos hs, hrest, List.append_nil]

theorem leadingNat_digits {s : Text} (h : IsDigits s) : leadingNat s = Nat.ofDigitChars 10 s 0 := by
  rw [leadingNat, List.takeWhile_eq_self_iff.2 h]

/-- Without a sign or a blank in front, the digits start at once. -/
theorem leadingInt_cons_digit {c : Char} (h : isDigit c = true) (s : Text) :
    leadingInt (c :: s) = leadingNat (c :: s) := by
  have hminus : c ≠ '-' := fun he => absurd (he ▸ h) (by decide)
  have hplus : c ≠ '+' := fun he => absurd (he ▸ h) (by decide)
  rw [leadingInt, dropWhile_isSpace (not_isSpace_of_isDigit h)]
  split
  · rename_i heq
    exact absurd (List.cons.inj heq).1 hminus
  · rename_i heq
    exact absurd (List.cons.inj heq).1 hplus
  · rfl

/-- A text of digits starts with its own number. -/
theorem leadingInt_digits {s : Text} (h : IsDigits s) :
    leadingInt s = (Nat.ofDigitChars 10 s 0 : Nat) := by
  rw [← leadingNat_digits h]
  cases s with
  | nil => rfl
  | cons c s => exact leadingInt_cons_digit (h c (.head _)) s

/-- So does a printed number. -/
theorem leadingInt_decimal (x : Int) : leadingInt (decimal x) = x := by
  have hdig := isDigits_toDigits x.natAbs
  unfold decimal
  split
  · rw [leadingInt, dropWhile_isSpace (by decide)]
    simp only [leadingNat_digits hdig, Nat.ofDigitChars_ten_toDigits]
    omega
  · rw [leadingInt_digits hdig, Nat.ofDigitChars_ten_toDigits]
    omega

/-- `atoi` stops where the digits do. -/
theorem atoi_digits_append {s t : Text} (hs : IsDigits s) (hne : s ≠ [])
    (ht : ∀ c ∈ t.head?, isDigit c = false) :
    atoi (s ++ t) = int32 (Nat.ofDigitChars 10 s 0 : Nat) := by
  rw [atoi_eq_leadingInt, ← leadingNat_append hs ht]
  obtain ⟨c, u, rfl⟩ := List.exists_cons_of_ne_nil hne
  rw [List.cons_append, leadingInt_cons_digit (hs c (.head _))]

/-- `atoi` of a digit text. -/
theorem atoi_digits {s : Text} (h : IsDigits s) :
    atoi s = int32 (Nat.ofDigitChars 10 s 0 : Nat) := by
  rw [atoi_eq_leadingInt, leadingInt_digits h]

/-- **`atoi` reads a printed number back**, modulo its word. -/
theorem atoi_decimal (x : Int) : atoi (decimal x) = int32 x := by
  rw [atoi_eq_leadingInt, leadingInt_decimal]

/-- The characters of a printed number. -/
theorem not_mem_decimal {c : Char} (hd : isDigit c = false) (hm : c ≠ '-') (x : Int) :
    c ∉ decimal x := by
  unfold decimal
  have hdig := (isDigits_toDigits x.natAbs).not_mem hd
  split
  · simp [hm, hdig]
  · exact hdig

theorem decimal_ne_nil (x : Int) : decimal x ≠ [] := by
  unfold decimal
  split
  · simp
  · exact Nat.toDigits_ne_nil

theorem head?_decimal (x : Int) : (decimal x).head? = some '-' ↔ x < 0 := by
  unfold decimal
  split
  · simp [*]
  · rename_i hneg
    refine ⟨fun h => ?_, fun h => absurd h hneg⟩
    have := isDigits_toDigits x.natAbs '-' (List.mem_of_mem_head? h)
    cases this

end Text
