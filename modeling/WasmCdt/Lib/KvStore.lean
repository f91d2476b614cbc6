import Mathlib.Logic.Function.Basic

/-!
# Batches of writes to a key-value store

A store is a partial function from keys to values; a write sets a key or removes it. A batch whose
writes agree on every key can be read off the list, whatever its order.

* `apply_of_mem`, `apply_of_forall_ne`: what a key holds after a batch that agrees on it.
* `update_eq_update_iff`: when it does not matter which of two keys is written.
-/

namespace KvStore

variable {κ β : Type}

/-- A key and its new value; `none` removes the key. -/
abbrev Write (κ β : Type) : Type := κ × Option β

/-- The writes of the batch, first to last. -/
def apply [DecidableEq κ] (ws : List (Write κ β)) (s : κ → Option β) : κ → Option β :=
  ws.foldl (fun s w => Function.update s w.1 w.2) s

/-- The batch writes one thing to the key. -/
def Agrees (ws : List (Write κ β)) (k : κ) (v : Option β) : Prop :=
  ∀ w ∈ ws, w.1 = k → w.2 = v

variable [DecidableEq κ] {k : κ} {v : Option β}

theorem apply_cons (w : Write κ β) (ws : List (Write κ β)) (s : κ → Option β) :
    apply (w :: ws) s = apply ws (Function.update s w.1 w.2) := rfl

theorem apply_append (ws ws' : List (Write κ β)) (s : κ → Option β) :
    apply (ws ++ ws') s = apply ws' (apply ws s) := by
  simp [apply]

theorem apply_of_forall_ne : ∀ {ws : List (Write κ β)} {s : κ → Option β},
    (∀ w ∈ ws, w.1 ≠ k) → apply ws s k = s k
  | [], _, _ => rfl
  | w :: ws, s, h => by
    rw [apply_cons, apply_of_forall_ne fun w' hw' => h w' (List.mem_cons_of_mem _ hw'),
      Function.update_of_ne (h w List.mem_cons_self).symm]

/-- Once the key holds the value that the batch agrees on, it keeps it. -/
theorem apply_of_agrees : ∀ {ws : List (Write κ β)} {s : κ → Option β},
    Agrees ws k v → s k = v → apply ws s k = v
  | [], _, _, hs => hs
  | w :: ws, s, h, hs => by
    rw [apply_cons]
    refine apply_of_agrees (fun w' hw' => h w' (List.mem_cons_of_mem _ hw')) ?_
    by_cases hk : w.1 = k
    · subst hk
      rw [Function.update_self, h w List.mem_cons_self rfl]
    · rw [Function.update_of_ne (Ne.symm hk), hs]

theorem apply_of_mem : ∀ {ws : List (Write κ β)} {s : κ → Option β},
    Agrees ws k v → (k, v) ∈ ws → apply ws s k = v
  | w :: ws, s, h, hmem => by
    have htail : Agrees ws k v := fun w' hw' => h w' (List.mem_cons_of_mem _ hw')
    rw [apply_cons]
    rcases List.mem_cons.1 hmem with rfl | hmem
    · exact apply_of_agrees htail (Function.update_self _ _ _)
    · exact apply_of_mem htail hmem

/-- The same value written to two keys makes the same store only where it changes nothing, or the keys are
one. -/
theorem update_eq_update_iff {k' : κ} {s : κ → Option β} :
    Function.update s k' v = Function.update s k v ↔ k' = k ∨ s k' = v ∧ s k = v := by
  constructor
  · intro h
    by_cases hk : k' = k
    · exact .inl hk
    · have hk' := congrFun h k'
      have hk'' := congrFun h k
      rw [Function.update_self, Function.update_of_ne hk] at hk'
      rw [Function.update_self, Function.update_of_ne (Ne.symm hk)] at hk''
      exact .inr ⟨hk'.symm, hk''⟩
  · rintro (rfl | ⟨rfl, hk⟩)
    · rfl
    · rw [Function.update_eq_self, ← hk, Function.update_eq_self]

end KvStore
