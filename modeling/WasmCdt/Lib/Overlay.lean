import Mathlib.Data.List.Basic
import Mathlib.Data.List.Induction

/-!
# Writes over each other

A list of writes, seen from one place: `put w` is the value that `w` writes there, if it does. Some
of the writes write nothing but `blank`, which is there from the start; when do they go without
notice?

* `after_concat`: the last write that covers the place decides.
* `after_eq`: writes that agree on the place.
* `after_filter_or`: without them, a place that is not blank is as before.
* `after_filter_iff`: **they go without notice** where none of them blanks a value of its past for
  good (`Harmless`).
-/

namespace Overlay

section
variable {W B : Type} (put : W → Option B) (blank : B)

/-- The value after the writes. -/
def after (ws : List W) : B := ws.foldl (fun v w => (put w).getD v) blank

variable (drop : W → Bool)

/-- A place that a dropped write covers, and no kept one behind it, is blank before it. -/
def Harmless (ws : List W) : Prop :=
  ∀ before w behind, ws = before ++ w :: behind → drop w = true → (put w).isSome = true →
    (∀ u ∈ behind, drop u = false → put u = none) → after put blank before = blank

end

section
variable {W B : Type} {put : W → Option B} {blank : B} {drop : W → Bool}

@[simp] theorem after_nil : after put blank [] = blank := rfl

theorem after_concat (ws : List W) (w : W) :
    after put blank (ws ++ [w]) = (put w).getD (after put blank ws) := by
  rw [after, List.foldl_append]
  rfl

/-- Writes that agree on the place. -/
theorem after_eq {b : B} {ws : List W} (hall : ∀ w ∈ ws, ∀ b', put w = some b' → b' = b)
    (hone : blank = b ∨ ∃ w ∈ ws, (put w).isSome = true) : after put blank ws = b := by
  induction ws using List.reverseRecOn with
  | nil => simpa using hone
  | append_singleton ws w ih =>
    rw [after_concat]
    cases hput : put w with
    | some b' => exact hall w (by simp) b' hput
    | none =>
      refine ih (fun u hu => hall u (List.mem_append_left _ hu)) (hone.imp_right ?_)
      rintro ⟨u, hu, hsome⟩
      rcases List.mem_append.1 hu with hu | hu
      · exact ⟨u, hu, hsome⟩
      · rw [List.mem_singleton.1 hu, hput] at hsome
        cases hsome

theorem filter_concat (ws : List W) (w : W) :
    (ws ++ [w]).filter (fun u => !drop u)
      = ws.filter (fun u => !drop u) ++ if drop w then [] else [w] := by
  rw [List.filter_append, List.filter_singleton]
  cases drop w <;> rfl

theorem harmless_nil : Harmless put blank drop [] := by
  intro before w behind h
  cases before <;> cases h

/-- The last write alone, and the ones before it. -/
theorem harmless_concat {ws : List W} {w : W} :
    Harmless put blank drop (ws ++ [w]) ↔
      ((drop w = false ∧ (put w).isSome = true) ∨ Harmless put blank drop ws) ∧
        (drop w = true → (put w).isSome = true → after put blank ws = blank) := by
  constructor
  · intro h
    refine ⟨?_, fun hdrop hput => h ws w [] rfl hdrop hput fun u hu => nomatch hu⟩
    by_cases hkeep : drop w = false ∧ (put w).isSome = true
    · exact .inl hkeep
    · refine .inr fun before u behind hsplit hdrop hput hbehind => ?_
      refine h before u (behind ++ [w]) (by rw [hsplit]; simp) hdrop hput fun x hx hx0 => ?_
      rcases List.mem_append.1 hx with hx | hx
      · exact hbehind x hx hx0
      · obtain rfl := List.mem_singleton.1 hx
        exact Option.not_isSome_iff_eq_none.1 fun hsome => hkeep ⟨hx0, hsome⟩
  · intro h before u behind hsplit hdrop hput hbehind
    obtain ⟨hpast, hlast⟩ := h
    rcases List.eq_nil_or_concat behind with rfl | ⟨behind, x, rfl⟩
    · obtain ⟨rfl, hw⟩ := List.append_inj' hsplit rfl
      obtain ⟨rfl, -⟩ := List.cons.inj hw
      exact hlast hdrop hput
    · rw [List.concat_eq_append, ← List.cons_append, ← List.append_assoc] at hsplit
      obtain ⟨rfl, hx⟩ := List.append_inj' hsplit rfl
      obtain ⟨rfl, -⟩ := List.cons.inj hx
      rcases hpast with hkeep | hpast
      · have hnone := hbehind w (by simp) hkeep.1
        rw [hnone] at hkeep
        exact absurd hkeep.2 (by simp)
      · exact hpast before u behind rfl hdrop hput fun x hx => hbehind x (by simp [hx])

/-- A value that is not blank is there without the dropped writes too. -/
theorem after_filter_or (hblank : ∀ w b, drop w = true → put w = some b → b = blank) (ws : List W) :
    after put blank ws = blank ∨
      after put blank (ws.filter fun u => !drop u) = after put blank ws := by
  induction ws using List.reverseRecOn with
  | nil => exact .inl rfl
  | append_singleton ws w ih =>
    rw [filter_concat, after_concat]
    cases hdrop : drop w with
    | true =>
      cases hput : put w with
      | none => simpa using ih
      | some b => exact .inl (hblank w b hdrop hput)
    | false =>
      rw [if_neg Bool.false_ne_true, after_concat]
      cases hput : put w with
      | none => exact ih
      | some b => exact .inr rfl

/-- **The dropped writes go without notice** exactly where they are harmless. -/
theorem after_filter_iff (hblank : ∀ w b, drop w = true → put w = some b → b = blank)
    (ws : List W) :
    after put blank (ws.filter fun u => !drop u) = after put blank ws ↔
      Harmless put blank drop ws := by
  induction ws using List.reverseRecOn with
  | nil => exact iff_of_true rfl harmless_nil
  | append_singleton ws w ih =>
    rw [filter_concat, harmless_concat, after_concat]
    cases hdrop : drop w with
    | true =>
      rw [if_pos rfl, List.append_nil]
      cases hput : put w with
      | none => simpa using ih
      | some b =>
        have hb : b = blank := hblank w b hdrop hput
        subst hb
        simp only [Option.getD_some, Bool.true_eq_false, false_and, false_or, Option.isSome_some,
          forall_const]
        constructor
        · intro hgone
          have hpast : after put b ws = b := by
            rcases after_filter_or hblank ws with h | h
            · exact h
            · rw [← h, hgone]
          exact ⟨ih.1 (by rw [hgone, hpast]), hpast⟩
        · intro h
          rw [ih.2 h.1, h.2]
    | false =>
      rw [if_neg Bool.false_ne_true, after_concat]
      cases hput : put w with
      | none => simpa using ih
      | some b => simp

end

end Overlay
