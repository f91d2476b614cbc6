/-!
# Loops with fuel

`while (cond) body` over a state, with a body that may stop. `Reaches` collects rounds of the loop;
a state it leads to on which the condition fails is the loop's result for all large enough fuel
(`Reaches.run`). Where an invariant counts the rounds left, as many rounds are enough
(`run_of_rounds`). What every round keeps holds of the result (`run_keeps`), also of a value that is
only carried along (`run_ghost`).
-/

namespace Loop

variable {σ ε : Type} (cond : σ → Bool) (body : σ → Except ε σ)

/-- The loop; `none` is out of fuel. -/
def run : Nat → σ → Except ε (Option σ)
  | 0, s => if cond s then .ok none else .ok (some s)
  | fuel + 1, s => if cond s then body s >>= run fuel else .ok (some s)

/-- **Total correctness**: `I m` holds where at most `m` rounds are left, and each round keeps it with
fewer of them. -/
theorem run_of_rounds {cond : σ → Bool} {body : σ → Except ε σ} {I : Nat → σ → Prop}
    (hstep : ∀ {m s}, I m s → cond s = true → ∃ m' < m, ∃ s', body s = .ok s' ∧ I m' s')
    {m fuel : Nat} {s : σ} (h : I m s) (hf : m ≤ fuel) :
    ∃ m' t, run cond body fuel s = .ok (some t) ∧ I m' t ∧ cond t = false := by
  induction fuel generalizing m s with
  | zero =>
    cases hc : cond s with
    | false => exact ⟨m, s, by rw [run, hc]; rfl, h, hc⟩
    | true =>
      obtain ⟨m', hlt, -⟩ := hstep h hc
      omega
  | succ fuel ih =>
    cases hc : cond s with
    | false => exact ⟨m, s, by rw [run, hc]; rfl, h, hc⟩
    | true =>
      obtain ⟨m', hlt, s', hbody, h'⟩ := hstep h hc
      obtain ⟨k, t, hrun, hend⟩ := ih h' (by omega)
      exact ⟨k, t, by rw [run, if_pos hc, hbody]; exact hrun, hend⟩

/-- **Partial correctness**: what each round keeps holds at the end. -/
theorem run_keeps {cond : σ → Bool} {body : σ → Except ε σ} {I : σ → Prop}
    (hstep : ∀ {s t}, I s → cond s = true → body s = .ok t → I t) {fuel : Nat} {s t : σ}
    (h : I s) (hrun : run cond body fuel s = .ok (some t)) : I t := by
  induction fuel generalizing s with
  | zero =>
    rw [run] at hrun
    split at hrun
    · cases hrun
    · cases hrun
      exact h
  | succ fuel ih =>
    rw [run] at hrun
    split at hrun
    · rename_i hc
      cases hb : body s with
      | error e =>
        rw [hb] at hrun
        cases hrun
      | ok s' =>
        rw [hb] at hrun
        exact ih (hstep h hc hb) hrun
    · cases hrun
      exact h

/-- The body beside a value that it does not look at. -/
def ghost {γ : Type} (upd : σ → γ → γ) (body : σ → Except ε σ) (p : σ × γ) : Except ε (σ × γ) :=
  (body p.1).map fun s => (s, upd p.1 p.2)

/-- Such a value changes nothing else. -/
theorem run_ghost {γ : Type} (upd : σ → γ → γ) (fuel : Nat) (s : σ) (g : γ) :
    (run (fun p => cond p.1) (ghost upd body) fuel (s, g)).map (·.map Prod.fst) =
      run cond body fuel s := by
  induction fuel generalizing s g with
  | zero =>
    unfold run
    cases cond s <;> rfl
  | succ fuel ih =>
    unfold run
    cases cond s with
    | false => rfl
    | true =>
      unfold ghost
      cases body s with
      | error e => rfl
      | ok s' => exact ih s' (upd s g)

/-- A result comes with some such value. -/
theorem ghost_of_run {γ : Type} {upd : σ → γ → γ} {cond : σ → Bool} {body : σ → Except ε σ}
    {fuel : Nat} {s t : σ} (hrun : run cond body fuel s = .ok (some t)) (g : γ) :
    ∃ g', run (fun p => cond p.1) (ghost upd body) fuel (s, g) = .ok (some (t, g')) := by
  have hfst := run_ghost cond body upd fuel s g
  rw [hrun] at hfst
  cases hp : run (fun p => cond p.1) (ghost upd body) fuel (s, g) with
  | error e =>
    rw [hp] at hfst
    cases hfst
  | ok p =>
    rw [hp] at hfst
    cases p with
    | none => cases hfst
    | some p =>
      cases hfst
      exact ⟨p.2, rfl⟩

/-- Rounds lead from one state to the other. -/
inductive Reaches : σ → σ → Prop
  | here (s : σ) : Reaches s s
  | next {s s' t : σ} : cond s = true → body s = .ok s' → Reaches s' t → Reaches s t

namespace Reaches

variable {cond : σ → Bool} {body : σ → Except ε σ} {s t u : σ}

theorem trans (h : Reaches cond body s t) (h' : Reaches cond body t u) :
    Reaches cond body s u := by
  induction h with
  | here s => exact h'
  | next hc hb _ ih => exact .next hc hb (ih h')

theorem step (hc : cond s = true) (hb : body s = .ok t) : Reaches cond body s t :=
  .next hc hb (.here t)

/-- Where the condition fails the loop ends, with any fuel that suffices. -/
theorem run (h : Reaches cond body s t) (ht : cond t = false) :
    ∃ n, ∀ fuel ≥ n, run cond body fuel s = .ok (some t) := by
  induction h with
  | here s =>
    refine ⟨0, fun fuel _ => ?_⟩
    cases fuel <;> simp [Loop.run, ht]
  | @next s s' t hc hb _ ih =>
    obtain ⟨n, hn⟩ := ih ht
    refine ⟨n + 1, fun fuel hf => ?_⟩
    obtain ⟨fuel, rfl⟩ := Nat.exists_eq_succ_of_ne_zero (by omega : fuel ≠ 0)
    rw [Loop.run, if_pos hc, hb]
    exact hn fuel (by omega)

end Reaches

end Loop
