import WasmCdt.Core.Serialize
import WasmCdt.Core.Name

/-!
# The hand-written dispatcher

`contracts/dispatcher.hpp`: `execute_action` decodes the data of an action, makes the contract object and
calls the action's method; `WASM_DISPATCH` picks the action. A run is what it shows: the methods called
on the contract object, and how it ends.
-/

namespace Wasmlib

/-! ## Contract classes -/

/-- `contract`: the object, with what it is constructed from. -/
structure Contract where
  self : BitVec 64
  firstReceiver : BitVec 64
  ds : Datastream

/-- An action: its name, its method, the types of the method's parameters, and what a call comes to,
which is that it returns or aborts. `Alt` is the index of `Types` that has no meaning here. -/
structure Action where
  name : Text
  method : Text
  Args : Type
  Alt : Type
  params : Types Args Alt
  body : Contract → Args → Exec Unit

/-- A class derived from `contract`. A hook that it does not define is the empty one of `contract`. -/
structure ContractClass where
  name : Text
  actions : List Action
  construct : Contract → Exec Unit
  preAction : Option (Contract → Exec Unit)
  postAction : Option (Contract → Exec Unit)

/-- What a call of `apply` finds: the data of the action, the allocator, and what the static constructors
and the finalizer come to. -/
structure Runtime where
  actionData : List UInt8
  malloc : Nat → Exec Unit
  ctors : Exec Unit
  dtors : Exec Unit

/-! ## Effects -/

/-- A call of a method of the contract object. -/
inductive MethodCall
  | preAction (inst : Contract)
  | action (a : Action) (inst : Contract) (args : a.Args)
  | postAction (inst : Contract)

/-- The methods that a run calls, in order, and how it ends. -/
structure Effect where
  calls : List MethodCall
  result : Exec Unit

namespace Effect

def done : Effect := ⟨[], .ok ()⟩

/-- A computation that calls no method, and then more of the run. -/
def bind {α : Type} (x : Exec α) (next : α → Effect) : Effect :=
  match x with
  | .ok a => next a
  | .error e => ⟨[], .error e⟩

/-- One run, and then the other. -/
def seq (o next : Effect) : Effect :=
  match o.result with
  | .ok () => ⟨o.calls ++ next.calls, next.result⟩
  | .error e => ⟨o.calls, .error e⟩

/-- A virtual method. -/
def hook (call : Contract → MethodCall) (method : Option (Contract → Exec Unit)) (inst : Contract) :
    Effect :=
  match method with
  | some f => ⟨[call inst], f inst⟩
  | none => done

/-- A transaction that fails leaves nothing. -/
def observed (o : Effect) : Option (List MethodCall) :=
  match o.result with
  | .ok () => some o.calls
  | .error _ => none

end Effect

/-! ## `dispatcher.hpp` -/

/-- `max_stack_buffer_size`. -/
def maxStackBufferSize : Nat := 512

/-- The call of the action's method. -/
def Action.call (a : Action) (inst : Contract) (args : a.Args) : Effect :=
  ⟨[.action a inst args], a.body inst args⟩

namespace ContractClass

/-- `execute_action`. The buffer is on the stack or on the heap; its contents are the same. -/
def executeAction (C : ContractClass) (R : Runtime) (self code : BitVec 64) (a : Action) : Effect :=
  let size := R.actionData.length
  .bind (if 0 < size ∧ maxStackBufferSize < size then R.malloc size else pure ()) fun _ =>
  .bind ((Ty.tuple a.params).extract (.start R.actionData)) fun (args, ds) =>
  let inst : Contract := ⟨self, code, ds⟩
  .bind (C.construct inst) fun _ =>
  -- `f2`, which calls the method, is only defined between the two hooks
  (Effect.hook .preAction C.preAction inst).seq
    ((Effect.hook .postAction C.postAction inst).seq (a.call inst args))

/-- The `switch` of `WASM_DISPATCH`, which has no default; `code` is the receiver. -/
def dispatch (C : ContractClass) (R : Runtime) (receiver code action : BitVec 64) : Effect :=
  if code = receiver then
    match C.actions.find? fun a => Name.ofString a.name = .ok ⟨action⟩ with
    | some a => C.executeAction R receiver code a
    | none => .done
  else .done

/-- `apply` of `WASM_DISPATCH`: in an entry function the compiler calls the static constructors first and
the finalizer last. -/
def apply (C : ContractClass) (R : Runtime) (receiver code action : BitVec 64) : Effect :=
  (⟨[], R.ctors⟩ : Effect).seq ((C.dispatch R receiver code action).seq ⟨[], R.dtors⟩)

end ContractClass

/-! ## The generated stub -/

/-- `max_stack_size` of `create_dispatch` (`tools/include/wasm/codegen.hpp`). -/
def maxStackSize : Nat := 512

/-- `T arg; ds >> arg;` for each parameter. -/
def readArgs {ρ σ : Type} : Types ρ σ → Datastream → Exec (ρ × Datastream)
  | .nil, ds => pure ((), ds)
  | .cons t ts, ds => do
    let (arg, ds) ← t.extract ds
    let (args, ds) ← readArgs ts ds
    pure ((arg, args), ds)

/-- The function that `create_dispatch` writes for an action. -/
def ContractClass.actionStub (C : ContractClass) (R : Runtime) (r c : BitVec 64) (a : Action) :
    Effect :=
  let as := R.actionData.length
  .bind (if 0 < as ∧ maxStackSize ≤ as then R.malloc as else pure ()) fun _ =>
  .bind (readArgs a.params (.start R.actionData)) fun (args, ds) =>
  let inst : Contract := ⟨r, c, ds⟩
  .bind (C.construct inst) fun _ => a.call inst args

end Wasmlib
