import WasmCdt.Lib.WasmCode

/-!
# Chains of `if`/`else` on a constant

Code that compares a local with one constant after another and runs the body of the first that is
equal: `arms loc as tail` is the nest `if = k₁ then b₁ else if = k₂ then b₂ … else tail`, every
`else` opening the next test inside the previous `if`.

* `openings_arms`: a generator that emits the tests and bodies left to right, an `else` before all
  but the first, and closes all of them at the end, has emitted `arms`.
* `run_arms`: the chain runs the body of the first arm with the local's value, else the tail.
-/

namespace WasmCode

/-- A constant and the code for it. -/
structure Arm where
  key : BitVec 64
  body : List Instr

def Arm.test (loc : Nat) (a : Arm) : List Instr :=
  [.i64Const a.key.toInt, .localGet loc, .i64Eq]

/-- The nest of the arms `as`; without a tail, the last `if` has no `else`. -/
def arms (loc : Nat) : List Arm → Option (List Instr) → List Instr
  | [], tail => tail.getD []
  | [a], none => a.test loc ++ .if_ :: (a.body ++ [.end_])
  | a :: as, tail => a.test loc ++ .if_ :: (a.body ++ .else_ :: (arms loc as tail ++ [.end_]))

/-- The tests and bodies left to right, without the `end`s. -/
def openings (loc : Nat) : List Arm → Bool → List Instr
  | [], _ => []
  | a :: as, needElse =>
    (if needElse then [.else_] else []) ++ a.test loc ++ .if_ :: (a.body ++ openings loc as true)

theorem openings_true (loc : Nat) {as : List Arm} (h : as ≠ []) :
    openings loc as true = .else_ :: openings loc as false := by
  cases as with
  | nil => exact absurd rfl h
  | cons a as => rfl

/-- The tail of an emitted chain, opened by an `else`. -/
def elseTail : Option (List Instr) → List Instr
  | none => []
  | some t => .else_ :: t

/-- **The emitted chain is the nest.** -/
theorem openings_arms (loc : Nat) (tail : Option (List Instr)) : ∀ (a : Arm) (as : List Arm),
    openings loc (a :: as) false ++ elseTail tail ++ List.replicate (as.length + 1) .end_ =
      arms loc (a :: as) tail
  | a, [] => by
    cases tail <;> simp [openings, arms, elseTail]
  | a, b :: as => by
    have ih := openings_arms loc tail b as
    rw [openings, openings_true loc (by simp)]
    simp only [arms, ← ih, List.length_cons]
    rw [List.replicate_succ' (n := as.length + 1)]
    simp

theorem test_plain (loc : Nat) (a : Arm) : ∀ i ∈ a.test loc, i.isPlain = true := by
  simp [Arm.test, Instr.isPlain]

theorem arms_balanced (loc : Nat) : ∀ {as : List Arm} {tail : Option (List Instr)},
    (∀ a ∈ as, Balanced a.body) → (∀ t, tail = some t → Balanced t) → Balanced (arms loc as tail)
  | [], none, _, _ => .nil
  | [], some t, _, ht => ht t rfl
  | [a], none, h, _ => by
    simp only [arms]
    exact (Balanced.all_plain (test_plain loc a)).append (.ifThen (h a (.head _)) .nil)
  | [a], some t, h, ht => by
    simp only [arms]
    exact (Balanced.all_plain (test_plain loc a)).append (.ifElse (h a (.head _)) (ht t rfl) .nil)
  | a :: b :: as, tail, h, ht => by
    simp only [arms]
    exact (Balanced.all_plain (test_plain loc a)).append (.ifElse (h a (.head _))
      (arms_balanced loc (fun c hc => h c (.tail _ hc)) ht) .nil)

section
variable (E : Env) {locals : List Val} {loc : Nat} {v : BitVec 64}

theorem run_test (hl : locals[loc]? = some (.i64 v)) (a : Arm) (s : List Val) (tr : List Event) :
    run E locals ⟨.exec, s, tr⟩ (a.test loc) =
      ⟨.exec, .i32 (if v = a.key then 1 else 0) :: s, tr⟩ := by
  simp [Arm.test, step, execInstr, Cfg.push, hl, BitVec.ofInt_toInt]

/-- The code a chain runs at the value `v`. -/
def selected (as : List Arm) (tail : Option (List Instr)) (v : BitVec 64) : List Instr :=
  match as.find? (v = ·.key) with
  | some a => a.body
  | none => tail.getD []

theorem selected_map {α : Type} (f : α → Arm) (as : List α) (tail : Option (List Instr))
    (v : BitVec 64) : selected (as.map f) tail v =
      match as.find? (fun a => v = (f a).key) with
      | some a => (f a).body
      | none => tail.getD [] := by
  unfold selected
  rw [List.find?_map]
  change (match (as.find? fun a => v = (f a).key).map f with
    | some a => a.body
    | none => tail.getD []) = _
  cases as.find? fun a => v = (f a).key <;> rfl

/-- **A chain runs the first arm with the local's value**, else the tail. -/
theorem run_arms (hl : locals[loc]? = some (.i64 v)) : ∀ {as : List Arm}
    {tail : Option (List Instr)}, (∀ a ∈ as, Balanced a.body) →
    (∀ t, tail = some t → Balanced t) → ∀ (s : List Val) (tr : List Event),
      run E locals ⟨.exec, s, tr⟩ (arms loc as tail) =
        run E locals ⟨.exec, s, tr⟩ (selected as tail v)
  | [], tail, _, _, s, tr => by simp [arms, selected]
  | [a], none, h, _, s, tr => by
    simp only [arms]
    rw [run_append, run_test E hl, run_if E locals (h a (.head _))]
    by_cases hv : v = a.key <;> simp [hv, selected]
  | [a], some t, h, ht, s, tr => by
    simp only [arms, Option.getD_some]
    rw [run_append, run_test E hl, run_ite E locals (h a (.head _)) (ht t rfl)]
    by_cases hv : v = a.key <;> simp [hv, selected]
  | a :: b :: as, tail, h, ht, s, tr => by
    have h' : ∀ c ∈ b :: as, Balanced c.body := fun c hc => h c (.tail _ hc)
    simp only [arms]
    rw [run_append, run_test E hl, run_ite E locals (h a (.head _)) (arms_balanced loc h' ht)]
    by_cases hv : v = a.key
    · simp [hv, selected]
    · rw [run_nil, if_pos (by simp [hv]), run_arms hl h' ht]
      simp [selected, hv]

end

/-! ## Sequences of calls -/

/-- Every call of `evs` returns. -/
def returns (E : Env) (evs : List Event) : Bool :=
  evs.all fun e => (E.result e.func e.args).isSome

/-- The calls of `evs` that are made: in order, up to the first that traps. -/
def callSeq (E : Env) : List Event → List Event
  | [] => []
  | e :: evs => if (E.result e.func e.args).isSome then e :: callSeq E evs else [e]

theorem callSeq_append (E : Env) : ∀ (evs evs' : List Event), callSeq E (evs ++ evs') =
    if returns E evs then callSeq E evs ++ callSeq E evs' else callSeq E evs
  | [], evs' => by simp [returns, callSeq]
  | e :: evs, evs' => by
    rw [List.cons_append, callSeq, callSeq, callSeq_append E evs evs']
    by_cases he : (E.result e.func e.args).isSome
    · by_cases hr : returns E evs
      · have hr' : returns E (e :: evs) = true := by simpa [returns, he] using hr
        simp [he, hr, hr']
      · have hr' : returns E (e :: evs) = false := by simpa [returns, he] using hr
        simp [he, hr, hr']
    · have hr' : returns E (e :: evs) = false := by simp [returns, he]
      simp [he, hr']

theorem callSeq_subset (E : Env) : ∀ {evs : List Event}, callSeq E evs ⊆ evs
  | [], _, h => h
  | e :: evs, x, h => by
    rw [callSeq] at h
    split at h
    · rcases List.mem_cons.1 h with rfl | h
      · exact .head _
      · exact .tail _ (callSeq_subset E h)
    · exact List.mem_singleton.1 h ▸ .head _

/-- Run from an empty operand stack, `is` makes the calls of `evs` and leaves the stack empty,
unless a call traps. -/
def Calls (E : Env) (locals : List Val) (is : List Instr) (evs : List Event) : Prop :=
  ∀ tr, ∃ s, run E locals ⟨.exec, [], tr⟩ is =
      ⟨if returns E evs then .exec else .trapped, s, tr ++ callSeq E evs⟩ ∧
    (returns E evs = true → s = [])

section
variable {E : Env} {locals : List Val}

theorem Calls.nil : Calls E locals [] [] := fun _ => ⟨[], by simp [returns, callSeq], fun _ => rfl⟩

theorem Calls.append {is js : List Instr} {evs evs' : List Event} (hi : Calls E locals is evs)
    (hj : Calls E locals js evs') : Calls E locals (is ++ js) (evs ++ evs') := by
  intro tr
  obtain ⟨s, hs, hnil⟩ := hi tr
  have hret : returns E (evs ++ evs') = (returns E evs && returns E evs') := by simp [returns]
  rw [run_append, hs, callSeq_append, hret]
  by_cases hr : returns E evs
  · obtain ⟨s', hs', hnil'⟩ := hj (tr ++ callSeq E evs)
    obtain rfl := hnil hr
    refine ⟨s', ?_, ?_⟩
    · simpa [hr] using hs'
    · simpa [hr] using hnil'
  · refine ⟨s, ?_, ?_⟩
    · simp [hr, run_trapped]
    · simp [hr]

/-- Code that pushes its operands without touching anything else. -/
def Pushes (E : Env) (locals : List Val) (is : List Instr) (args : List Val) : Prop :=
  ∀ s tr, run E locals ⟨.exec, s, tr⟩ is = ⟨.exec, args.reverse ++ s, tr⟩

/-- A call of a function without results. -/
theorem Calls.call (is : List Instr) (args : List Val) {f : Nat} (hp : Pushes E locals is args)
    (har : E.arity f = args.length) (hres : ∀ vs, E.result f args = some vs → vs = []) :
    Calls E locals (is ++ [.call f]) [⟨f, args⟩] := by
  intro tr
  have htake : args.reverse.take args.length = args.reverse :=
    List.take_of_length_le (by simp)
  have hdrop : args.reverse.drop args.length = [] := List.drop_of_length_le (by simp)
  rw [run_append, hp [] tr]
  cases hr : E.result f args with
  | none =>
    refine ⟨args.reverse, ?_, ?_⟩
    · simp [step, execInstr, Cfg.call, har, htake, returns, hr, callSeq]
    · simp [returns, hr]
  | some vs =>
    obtain rfl := hres vs hr
    refine ⟨[], ?_, fun _ => rfl⟩
    simp [step, execInstr, Cfg.call, har, htake, hdrop, returns, hr, callSeq]

end

end WasmCode
