import WasmCdt.Lib.Cursor
import Mathlib.Data.List.Forall2

/-!
# Readers with a position

A reader moves a position through what it reads from and may stop with an error. `Accepts r p xs a`:
where the input has `xs` at `p`, whatever comes behind, `r` gives `a` and stops right behind `xs`.

* `bind_ok`, `Advances.bind`: what a sequence of readers gives, and that positions only grow.
* `accepts_pure`, `Accepts.bind`, `Accepts.map`, `Accepts.peek`: readers one after the other.
* `accepts_times`, `accepts_times_map`: **a counted loop reads the elements that were written** one
  after the other.
* `Accepts.whole`: a reader on just what it accepts.
-/

namespace Reading

open Cursor

variable {E ε τ α β : Type}

/-- Reads from an `E`, at a position. -/
def Reader (E ε α : Type) : Type := E → Nat → Except ε (α × Nat)

instance : Monad (Reader E ε) where
  pure a := fun _ p => .ok (a, p)
  bind r f := fun e p =>
    match r e p with
    | .error err => .error err
    | .ok (a, q) => f a e q

/-- Stops with an error. -/
def fail (err : ε) : Reader E ε α := fun _ _ => .error err

/-- Stops with an error if `c`. -/
def failIf (c : Prop) [Decidable c] (err : ε) : Reader E ε Unit := if c then fail err else pure ()

/-- `while (Count--)`, with the results in order. -/
def times (r : Reader E ε α) : Nat → Reader E ε (List α)
  | 0 => pure []
  | n + 1 => do
    let a ← r
    let rest ← times r n
    pure (a :: rest)

theorem bind_ok {r : Reader E ε α} {f : α → Reader E ε β} {e : E} {p q : Nat} {b : β} :
    (r >>= f) e p = .ok (b, q) ↔ ∃ a k, r e p = .ok (a, k) ∧ f a e k = .ok (b, q) := by
  change (match r e p with
    | Except.error err => Except.error err
    | .ok (a, q) => f a e q) = _ ↔ _
  cases r e p with
  | error err => simp
  | ok pair =>
    obtain ⟨a, k⟩ := pair
    simp

/-! ## Positions only grow -/

def Advances (r : Reader E ε α) : Prop := ∀ e p a q, r e p = .ok (a, q) → p ≤ q

theorem advances_pure (a : α) : Advances (pure a : Reader E ε α) := by
  intro e p b q h
  obtain ⟨-, rfl⟩ := Prod.mk.inj (Except.ok.inj h)
  exact Nat.le_refl p

theorem advances_fail (err : ε) : Advances (fail err : Reader E ε α) := fun _ _ _ _ h => nomatch h

theorem advances_failIf (c : Prop) [Decidable c] (err : ε) : Advances (failIf c err : Reader E ε Unit) := by
  unfold failIf
  split
  · exact advances_fail err
  · exact advances_pure ()

theorem Advances.bind {r : Reader E ε α} {f : α → Reader E ε β} (h : Advances r)
    (hf : ∀ a, Advances (f a)) : Advances (r >>= f) := by
  intro e p b q hok
  obtain ⟨a, k, hr, hrest⟩ := bind_ok.1 hok
  exact Nat.le_trans (h e p a k hr) (hf a e k b q hrest)

theorem Advances.ite {c : Prop} [Decidable c] {r r' : Reader E ε α} (h : Advances r)
    (h' : Advances r') : Advances (if c then r else r') := by
  split
  · exact h
  · exact h'

/-! ## Reading what was written -/

section
variable (content : E → List τ)

/-- A reader that has to end where the input ends. -/
def whole (r : Reader E ε α) (err : ε) : Reader E ε α := fun e p =>
  match r e p with
  | .error err => .error err
  | .ok (a, q) => if q = (content e).length then .ok (a, q) else .error err

def Accepts (r : Reader E ε α) (p : Nat) (xs : List τ) (a : α) : Prop :=
  ∀ e t, Reads (content e) p (xs ++ t) → r e p = .ok (a, p + xs.length)

variable {content} {r : Reader E ε α} {p : Nat} {xs ys : List τ} {a : α}

theorem accepts_pure (a : α) (p : Nat) : Accepts content (pure a : Reader E ε α) p [] a :=
  fun _ _ _ => rfl

theorem Accepts.bind {f : α → Reader E ε β} {b : β} (h : Accepts content r p xs a)
    (hf : Accepts content (f a) (p + xs.length) ys b) : Accepts content (r >>= f) p (xs ++ ys) b := by
  intro e t hreads
  rw [List.append_assoc] at hreads
  have hr := h e (ys ++ t) hreads
  have hb := hf e t hreads.advance
  change (match r e p with
    | Except.error err => Except.error err
    | .ok (a, q) => f a e q) = _
  rw [hr]
  change f a e (p + xs.length) = _
  rw [hb, List.length_append, Nat.add_assoc]

/-- The last reader of a sequence that only gives its result. -/
theorem Accepts.map {f : α → Reader E ε β} {b : β} (h : Accepts content r p xs a)
    (hf : f a = pure b) : Accepts content (r >>= f) p xs b := by
  rw [← List.append_nil xs]
  exact h.bind (hf ▸ accepts_pure b _)

/-- A reader that moves nowhere before another one. -/
theorem Accepts.peek {f : α → Reader E ε β} {b : β} (h : Accepts content r p [] a)
    (hf : Accepts content (f a) p ys b) : Accepts content (r >>= f) p ys b :=
  h.bind hf

/-- A check that passes. -/
theorem accepts_failIf {c : Prop} [Decidable c] {err : ε} (h : ¬ c) (p : Nat) :
    Accepts content (failIf c err : Reader E ε Unit) p [] () := by
  rw [failIf, if_neg h]
  exact accepts_pure () p

/-- **A counted loop** reads what was written element by element, each read as `Q` says. -/
theorem accepts_times {ι : Type} {bytes : ι → List τ} {Q : ι → α → Prop} {xs : List ι}
    (h : ∀ x ∈ xs, ∀ p, ∃ a, Q x a ∧ Accepts content r p (bytes x) a) (p : Nat) :
    ∃ as, List.Forall₂ Q xs as ∧ Accepts content (times r xs.length) p (xs.flatMap bytes) as := by
  induction xs generalizing p with
  | nil => exact ⟨[], .nil, accepts_pure [] p⟩
  | cons x xs ih =>
    obtain ⟨a, hQ, hr⟩ := h x List.mem_cons_self p
    obtain ⟨as, hQs, hrest⟩ := ih (fun y hy => h y (List.mem_cons_of_mem _ hy)) (p + (bytes x).length)
    exact ⟨a :: as, .cons hQ hQs, hr.bind (hrest.map rfl)⟩

/-- A counted loop whose elements do not depend on the position. -/
theorem accepts_times_map {ι : Type} {bytes : ι → List τ} {val : ι → α} {xs : List ι}
    (h : ∀ x ∈ xs, ∀ p, Accepts content r p (bytes x) (val x)) (p : Nat) :
    Accepts content (times r xs.length) p (xs.flatMap bytes) (xs.map val) := by
  obtain ⟨as, hQ, hr⟩ := accepts_times (Q := fun x a => a = val x)
    (fun x hx q => ⟨val x, rfl, h x hx q⟩) p
  have has : as = xs.map val := by
    rw [← List.forall₂_eq_eq_eq, List.forall₂_map_right_iff]
    exact hQ.flip
  exact has ▸ hr

/-- A reader on just what it accepts. -/
theorem Accepts.whole {e : E} {err : ε} (h : Accepts content r 0 (content e) a) :
    whole content r err e 0 = .ok (a, (content e).length) := by
  have hreads : Reads (content e) 0 (content e ++ []) := by
    rw [List.append_nil]
    exact reads_start _
  have hr := h e [] hreads
  rw [Nat.zero_add] at hr
  rw [Reading.whole, hr]
  exact if_pos rfl

end

end Reading
