import WasmCdt.Contracts.Dispatcher

/-!
# One action under both dispatchers

`execute_action` and the generated stub do the same until they call a method, but for the buffer of 512
bytes of data; then `execute_action` calls the hooks.

* `readArgs_eq`: both decode the same arguments.
* `executeAction_iff`: when `execute_action` keeps the order of the hooks.
* `actionStub_iff`: when the stub shows what `execute_action` does.
-/

namespace Wasmlib

/-! ## Effects -/

namespace Effect

@[simp] theorem bind_ok {α : Type} (a : α) (next : α → Effect) : bind (.ok a) next = next a := rfl

@[simp] theorem bind_error {α : Type} (e : Stop) (next : α → Effect) :
    bind (.error e) next = ⟨[], .error e⟩ := rfl

@[simp] theorem observed_done : done.observed = some [] := rfl

@[simp] theorem observed_error (cs : List MethodCall) (e : Stop) :
    (⟨cs, .error e⟩ : Effect).observed = none := rfl

@[simp] theorem done_seq (o : Effect) : done.seq o = o := rfl

@[simp] theorem seq_done (o : Effect) : o.seq done = o := by
  obtain ⟨cs, x⟩ := o
  cases x with
  | error e => rfl
  | ok u => simp only [seq, done, List.append_nil]

theorem bind_bind {α β : Type} (x : Exec α) (f : α → Exec β) (next : β → Effect) :
    bind (x >>= f) next = bind x fun a => bind (f a) next := by
  cases x with
  | error e => rfl
  | ok a => rfl

theorem seq_assoc (o p q : Effect) : (o.seq p).seq q = o.seq (p.seq q) := by
  obtain ⟨cs, x⟩ := o
  obtain ⟨ds, y⟩ := p
  cases x with
  | error e => rfl
  | ok u =>
    cases y with
    | error e => rfl
    | ok v => simp only [seq, List.append_assoc]

theorem seq_of_error {o : Effect} {e : Stop} (h : o.result = .error e) (p q : Effect) :
    o.seq p = o.seq q := by
  unfold seq
  rw [h]

theorem seq_cancel {o : Effect} (h : o.result = .ok ()) {p q : Effect} :
    o.seq p = o.seq q ↔ p = q := by
  obtain ⟨cs, x⟩ := p
  obtain ⟨ds, y⟩ := q
  unfold seq
  rw [h]
  simp only [Effect.mk.injEq, List.append_cancel_left_eq]

/-- The first method stays the first. -/
theorem head?_seq {o : Effect} {m : MethodCall} (h : o.calls.head? = some m) (p : Effect) :
    (o.seq p).calls.head? = some m := by
  unfold seq
  split
  · rw [List.head?_append, h, Option.some_or]
  · exact h

theorem hook_result {call : Contract → MethodCall} {method : Option (Contract → Exec Unit)}
    {inst : Contract} :
    (hook call method inst).result = .ok () ↔ ∀ f ∈ method, f inst = .ok () := by
  cases method with
  | none => simp [hook, done]
  | some f => simp [hook]

theorem observed_seq (o p : Effect) :
    (o.seq p).observed = o.observed.bind fun cs => p.observed.map (cs ++ ·) := by
  obtain ⟨cs, x⟩ := o
  obtain ⟨ds, y⟩ := p
  cases x with
  | error e => rfl
  | ok u =>
    cases y with
    | error e => rfl
    | ok v => rfl

/-- A run between two that call no method. -/
theorem observed_between (x y : Exec Unit) (o : Effect) :
    ((⟨[], x⟩ : Effect).seq (o.seq ⟨[], y⟩)).observed =
      if x = .ok () ∧ y = .ok () then o.observed else none := by
  rw [observed_seq, observed_seq]
  cases x with
  | error e => simp
  | ok u =>
    cases y with
    | error e => simp
    | ok v => simp [observed]

end Effect

/-! ## Arguments -/

/-- A tuple is read as its elements are, one after the other. -/
theorem readArgs_eq {ρ σ : Type} : ∀ (ts : Types ρ σ) (ds : Datastream),
    readArgs ts ds = (Ty.tuple ts).extract ds
  | .nil, ds => by
    simp only [readArgs, Ty.extract, Ty.serial, Types.elements, Serial.nil]
  | .cons t ts, ds => by
    have ih : ∀ ds, readArgs ts ds = ts.elements.read ts.elements.make ds := fun ds => by
      rw [readArgs_eq ts ds, Ty.extract, Ty.serial]
    simp only [readArgs, ih, Ty.extract, Ty.serial, Types.elements, Serial.cons]

/-! ## One action -/

namespace ContractClass

variable {C : ContractClass} {R : Runtime} {self code : BitVec 64} {a : Action}

/-- Until the first method is called: the buffer, which may be on the heap, the arguments, the object. -/
def prepare (C : ContractClass) (R : Runtime) (self code : BitVec 64) (a : Action) (onHeap : Bool) :
    Exec (Contract × a.Args) := do
  let _ ← (if 0 < R.actionData.length ∧ onHeap then R.malloc R.actionData.length else pure ())
  let (args, ds) ← (Ty.tuple a.params).extract (.start R.actionData)
  C.construct ⟨self, code, ds⟩
  pure (⟨self, code, ds⟩, args)

/-- `execute_action` as its hooks are documented: one before the method, and one after it. -/
def executeInOrder (C : ContractClass) (R : Runtime) (self code : BitVec 64) (a : Action) : Effect :=
  .bind (C.prepare R self code a (maxStackBufferSize < R.actionData.length)) fun (inst, args) =>
  (Effect.hook .preAction C.preAction inst).seq
    ((a.call inst args).seq (Effect.hook .postAction C.postAction inst))

theorem executeAction_eq : C.executeAction R self code a =
    .bind (C.prepare R self code a (maxStackBufferSize < R.actionData.length)) fun (inst, args) =>
      (Effect.hook .preAction C.preAction inst).seq
        ((Effect.hook .postAction C.postAction inst).seq (a.call inst args)) := by
  simp only [executeAction, prepare, Effect.bind_bind, decide_eq_true_eq]
  rfl

theorem actionStub_eq : C.actionStub R self code a =
    .bind (C.prepare R self code a (maxStackSize ≤ R.actionData.length)) fun (inst, args) =>
      a.call inst args := by
  simp only [actionStub, prepare, readArgs_eq, Effect.bind_bind, decide_eq_true_eq]
  rfl

/-- The object is made, the arguments decode, and the hook before the method returns. -/
def PassesPre (C : ContractClass) (R : Runtime) (self code : BitVec 64) (a : Action) : Prop :=
  ∃ inst args, C.prepare R self code a (maxStackBufferSize < R.actionData.length) =
    .ok (inst, args) ∧ ∀ pre ∈ C.preAction, pre inst = .ok ()

/-- **When `execute_action` calls the hooks in order**: the class has no hook after the method, or the run
ends before that hook. -/
theorem executeAction_iff : C.executeAction R self code a = C.executeInOrder R self code a ↔
    C.postAction = none ∨ ¬C.PassesPre R self code a := by
  rw [executeAction_eq, executeInOrder, PassesPre]
  cases C.prepare R self code a (maxStackBufferSize < R.actionData.length) with
  | error e => simp
  | ok p =>
    obtain ⟨inst, args⟩ := p
    cases hpost : C.postAction with
    | none => simp [Effect.hook]
    | some post =>
      simp only [Effect.bind_ok, reduceCtorEq, false_or]
      cases hpre : (Effect.hook .preAction C.preAction inst).result with
      | error e =>
        refine iff_of_true (Effect.seq_of_error hpre _ _) ?_
        rintro ⟨inst', args', heq, hret⟩
        cases heq
        rw [Effect.hook_result.2 hret] at hpre
        cases hpre
      | ok u =>
        refine iff_of_false (fun heq => ?_)
          (not_not.2 ⟨inst, args, rfl, Effect.hook_result.1 hpre⟩)
        -- the first call after the hook differs
        have hrest := (Effect.seq_cancel hpre).1 heq
        have hpost : (((Effect.hook .postAction (some post) inst).seq
            (a.call inst args)).calls).head? = some (.postAction inst) := Effect.head?_seq rfl _
        rw [hrest, Effect.head?_seq (m := .action a inst args) rfl] at hpost
        cases hpost

/-- With the buffer on the stack, the arguments decode, the object is made, and the method returns. -/
def Completes (C : ContractClass) (R : Runtime) (self code : BitVec 64) (a : Action) : Prop :=
  ∃ inst args, C.prepare R self code a false = .ok (inst, args) ∧ a.body inst args = .ok ()

/-- The dispatchers choose another buffer for this data, and the one on the heap is not to be had. -/
def NoBuffer (R : Runtime) : Prop :=
  R.actionData.length = maxStackBufferSize ∧ R.malloc R.actionData.length ≠ .ok ()

theorem prepare_heap (hpos : 0 < R.actionData.length) : C.prepare R self code a true =
    R.malloc R.actionData.length >>= fun _ => C.prepare R self code a false := by
  simp only [prepare, hpos, Bool.false_eq_true, and_self, and_false, if_true, if_false, pure_eq_ok,
    ok_bind]

theorem observed_completes : (Effect.bind (C.prepare R self code a false) fun (inst, args) =>
    a.call inst args).observed = none ↔ ¬C.Completes R self code a := by
  unfold Completes
  cases C.prepare R self code a false with
  | error e => simp
  | ok p =>
    obtain ⟨inst, args⟩ := p
    have hobs : (a.call inst args).observed = none ↔ a.body inst args ≠ .ok () := by
      unfold Action.call Effect.observed
      cases a.body inst args with
      | error e => simp
      | ok u => simp
    simp only [Effect.bind_ok, hobs, Except.ok.injEq, Prod.mk.injEq]
    constructor
    · rintro hne ⟨inst', args', ⟨rfl, rfl⟩, hret⟩
      exact hne hret
    · intro hne hret
      exact hne ⟨inst, args, ⟨rfl, rfl⟩, hret⟩

/-- **When the stub shows what `execute_action` does**, for a class without hooks. -/
theorem actionStub_iff (hpre : C.preAction = none) (hpost : C.postAction = none) :
    (C.executeAction R self code a).observed = (C.actionStub R self code a).observed ↔
      ¬(NoBuffer R ∧ C.Completes R self code a) := by
  rw [executeAction_eq, actionStub_eq, hpre, hpost]
  simp only [Effect.hook, Effect.done_seq]
  by_cases hlen : R.actionData.length = 512
  · have hstack : decide (maxStackBufferSize < R.actionData.length) = false := by
      simp [maxStackBufferSize, hlen]
    have hheap : decide (maxStackSize ≤ R.actionData.length) = true := by
      simp [maxStackSize, hlen]
    rw [hstack, hheap, prepare_heap (by omega), Effect.bind_bind]
    cases hmalloc : R.malloc R.actionData.length with
    | ok u => simp [NoBuffer, hmalloc]
    | error e =>
      have hno : NoBuffer R := ⟨hlen, by simp [hmalloc]⟩
      rw [Effect.bind_error, Effect.observed_error, observed_completes]
      simp [hno]
  · have hsame : decide (maxStackBufferSize < R.actionData.length) =
        decide (maxStackSize ≤ R.actionData.length) := by
      rw [decide_eq_decide, maxStackBufferSize, maxStackSize]
      omega
    rw [hsame]
    exact iff_of_true rfl fun h => hlen h.1.1

end ContractClass

end Wasmlib
