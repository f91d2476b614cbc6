import WasmCdt.Contracts.Proof.Dispatcher
import WasmCdt.Cdt.Proof.Naming
import WasmCdt.Lld.Proof.Routing
import Mathlib.Data.List.Find

/-!
# The two dispatchers of a contract

The dispatcher that a contract writes with `WASM_DISPATCH`, and the one that the linker emits and that
calls the generated stubs, over one contract class.

* `Program.observed_runs`: what a run of a module shows, from what its functions show.
* `Links.observed_runApply`: what a run of the emitted `apply` shows.
* `dispatchers_agree_iff`: **when both dispatchers show the same**, and when the hooks are in order.
-/

namespace Lld

open WasmCode Cdt
open Wasmlib hiding stringToName

/-! ## Linked contracts -/

/-- The functions of a linked module, without results: how many arguments each takes, and what a call
shows. -/
structure Program where
  arity : Nat → Nat
  call : Nat → List Val → Effect

namespace Program

def env (P : Program) : Env where
  arity := P.arity
  result f args :=
    match (P.call f args).result with
    | .ok () => some []
    | .error _ => none

/-- What a run of the module's code shows: if it does not trap, the methods that the called functions
call. -/
def observed (P : Program) (c : Cfg) : Option (List MethodCall) :=
  if c.mode = .exec then some (c.trace.flatMap fun e => (P.call e.func e.args).calls) else none

/-- The calls of `evs`, one after the other. -/
def runs (P : Program) : List Event → Effect
  | [] => .done
  | e :: evs => (P.call e.func e.args).seq (P.runs evs)

variable {P : Program}

theorem noResult {f n : Nat} (h : P.arity f = n) : NoResult P.env f n := by
  refine ⟨h, fun args vs hvs => ?_⟩
  unfold env at hvs
  dsimp only at hvs
  split at hvs
  · exact (Option.some.inj hvs).symm
  · cases hvs

theorem runs_append (evs evs' : List Event) : P.runs (evs ++ evs') = (P.runs evs).seq (P.runs evs') := by
  induction evs with
  | nil => rfl
  | cons e evs ih => rw [List.cons_append, runs, runs, ih, Effect.seq_assoc]

theorem runs_singleton (e : Event) : P.runs [e] = P.call e.func e.args := Effect.seq_done _

/-- A run that makes the calls of `evs` shows what they show. -/
theorem observed_runs (s : List Val) (evs : List Event) :
    P.observed ⟨if returns P.env evs then .exec else .trapped, s, callSeq P.env evs⟩ =
      (P.runs evs).observed := by
  induction evs with
  | nil => rfl
  | cons e evs ih =>
    have hret : returns P.env (e :: evs) =
        ((P.env.result e.func e.args).isSome && returns P.env evs) := rfl
    rw [runs, Effect.observed_seq, ← ih, hret, callSeq]
    cases hcall : (P.call e.func e.args).result with
    | error err =>
      have hnone : P.env.result e.func e.args = none := by
        simp only [env, hcall]
      simp [hnone, observed, Effect.observed, hcall]
    | ok u =>
      have hsome : P.env.result e.func e.args = some [] := by
        simp only [env, hcall]
      simp only [hsome, Option.isSome_some, Bool.true_and, if_true, Effect.observed, hcall,
        Option.bind_some, observed, List.flatMap_cons]
      split <;> simp

end Program

/-- The linked string of an action: its name and its stub. -/
def actionDecl (C : ContractClass) (a : Action) : HandlerDecl :=
  ⟨a.name, "__wasm_action_".toList ++ a.method ++ '_' :: C.name⟩

/-- `P` is linked from the stubs of `C`, without notification handlers, and is about to run. What is not
linked has nothing to do. A failed assertion stops the run. -/
structure Links (C : ContractClass) (R : Runtime) (S : Symtab) (P : Program) : Prop where
  actions : ∀ str, str ∈ S.objectFiles.flatMap ObjFile.wasmActions ↔
    ∃ a ∈ C.actions, (actionDecl C a).str = str
  notify : S.objectFiles.flatMap ObjFile.wasmNotify = []
  stub : ∀ a ∈ C.actions, P.arity (S.indexOf (actionDecl C a).stub) = 2 ∧
    ∀ r c, P.call (S.indexOf (actionDecl C a).stub) [.i64 r, .i64 c] = C.actionStub R r c a
  assert : ∀ idx, assertIdx S = some idx → P.arity idx = 2 ∧
    ∀ err, ∃ e, P.call idx [.i32 0, .i64 err] = ⟨[], .error e⟩
  ctors : ∀ sym, S.find ctorsName = some sym → P.arity sym.functionIndex = 0 ∧
    P.call sym.functionIndex [] = ⟨[], R.ctors⟩
  noCtors : ctorsEvents S = [] → R.ctors = .ok ()
  dtors : ∀ sym, S.find dtorsName = some sym → P.arity sym.functionIndex = 1 ∧
    P.call sym.functionIndex [.i32 0] = ⟨[], R.dtors⟩
  noDtors : dtorsEvents S = [] → R.dtors = .ok ()

/-- The actions' names are valid, and no two actions have the same. -/
structure ActionTable (C : ContractClass) : Prop where
  valid : ∀ a ∈ C.actions, validateName a.name = true
  distinct : (C.actions.map Action.name).Nodup

section

variable {C : ContractClass} {R : Runtime} {S : Symtab} {P : Program}

/-- An action is the only one with its word. -/
theorem ActionTable.eq (h : ActionTable C) {a b : Action} (ha : a ∈ C.actions) (hb : b ∈ C.actions)
    (heq : stringToName a.name = stringToName b.name) : a = b :=
  List.inj_on_of_nodup_map h.distinct ha hb (validateName_inj (h.valid a ha) (h.valid b hb) heq)

theorem ActionTable.beforeColon (h : ActionTable C) {a : Action} (ha : a ∈ C.actions) :
    beforeColon (actionDecl C a).str = a.name :=
  beforeColon_append (colon_not_mem_of_validateName (h.valid a ha)) _

theorem ActionTable.stubIndex (h : ActionTable C) {a : Action} (ha : a ∈ C.actions) :
    stubIndex S (actionDecl C a).str = S.indexOf (actionDecl C a).stub :=
  congrArg S.indexOf (afterColon_append (colon_not_mem_of_validateName (h.valid a ha)) _)

theorem notifs_nil (h : S.objectFiles.flatMap ObjFile.wasmNotify = []) : notifs S = [] := by
  rw [notifs, h]
  rfl

theorem Links.typed (h : Links C R S P) (ht : ActionTable C) : Typed S P.env where
  assert idx hidx := Program.noResult (h.assert idx hidx).1
  action str hstr := by
    obtain ⟨a, ha, rfl⟩ := (h.actions str).1 (mem_of_mem_notDispatched hstr)
    rw [ht.stubIndex ha]
    exact Program.noResult (h.stub a ha).1
  notify str hstr := by
    rw [notifs_nil h.notify] at hstr
    cases hstr
  ctors sym hsym := Program.noResult (h.ctors sym hsym).1
  dtors sym hsym := Program.noResult (h.dtors sym hsym).1

/-- The action that `action` selects. -/
def selected (C : ContractClass) (action : BitVec 64) : Option Action :=
  C.actions.find? fun a => stringToName a.name = action

/-- What the emitted dispatch shows: the selected stub, or the assertion. -/
def emittedDispatch (C : ContractClass) (R : Runtime) (noAction : Effect)
    (receiver code action : BitVec 64) : Effect :=
  if code = receiver then
    match selected C action with
    | some a => C.actionStub R receiver code a
    | none => noAction
  else .done

theorem handlerEvents_table (h : Links C R S P) (ht : ActionTable C) {tail : List Event}
    {receiver code action : BitVec 64} :
    P.runs (handlerEvents S (actions S) tail receiver code action) =
      match selected C action with
      | some a => C.actionStub R receiver code a
      | none => P.runs tail := by
  unfold handlerEvents actions selected
  rw [find?_notDispatched (by simp)]
  cases hsel : C.actions.find? (fun a => stringToName a.name = action) with
  | none =>
    have hnone : (S.objectFiles.flatMap ObjFile.wasmActions).find?
        (fun str => action = stringToName (beforeColon str)) = none := by
      refine List.find?_eq_none.2 fun str hstr => ?_
      obtain ⟨a, ha, rfl⟩ := (h.actions str).1 hstr
      have hne := List.find?_eq_none.1 hsel a ha
      rw [ht.beforeColon ha]
      simpa [eq_comm] using hne
    rw [hnone]
  | some a =>
    have ha := List.mem_of_find?_eq_some hsel
    have hval : stringToName a.name = action := by simpa using List.find?_some hsel
    cases hfind : (S.objectFiles.flatMap ObjFile.wasmActions).find?
        (fun str => action = stringToName (beforeColon str)) with
    | none =>
      have hne := List.find?_eq_none.1 hfind _ ((h.actions _).2 ⟨a, ha, rfl⟩)
      rw [ht.beforeColon ha] at hne
      simp [hval] at hne
    | some str =>
      obtain ⟨b, hb, rfl⟩ := (h.actions str).1 (List.mem_of_find?_eq_some hfind)
      have hval' : action = stringToName (Lld.beforeColon (actionDecl C b).str) := by
        simpa using List.find?_some hfind
      rw [ht.beforeColon hb] at hval'
      obtain rfl := ht.eq ha hb (hval.trans hval')
      rw [Program.runs_singleton, stubEvent, ht.stubIndex ha]
      exact (h.stub a ha).2 receiver code

theorem runs_mainEvents (h : Links C R S P) (ht : ActionTable C) {m : Handlers} {idx : Nat}
    (hm : groupHandlers (notifs S) [] = .ok m) {receiver code action : BitVec 64} :
    P.runs (mainEvents S m idx receiver code action) =
      emittedDispatch C R (P.call idx [.i32 0, .i64 WASM_ERROR_NO_ACTION]) receiver code action := by
  rw [notifs_nil h.notify] at hm
  cases hm
  unfold mainEvents emittedDispatch
  split
  · rw [handlerEvents_table h ht, Program.runs_singleton]
    rfl
  · rfl

/-- A function is called if it is linked, and has nothing to do otherwise. -/
theorem Program.runs_optional {p : Prop} [Decidable p] {f : Nat} {args : List Val} {x : Exec Unit}
    (hcall : P.call f args = ⟨[], x⟩) (hno : ¬p → x = .ok ()) :
    P.runs (if p then [⟨f, args⟩] else []) = ⟨[], x⟩ := by
  split
  · exact (Program.runs_singleton _).trans hcall
  · rename_i hp
    rw [hno hp]
    rfl

theorem runs_ctorsEvents (h : Links C R S P) : P.runs (ctorsEvents S) = ⟨[], R.ctors⟩ := by
  have hno := h.noCtors
  unfold ctorsEvents at hno ⊢
  split at hno
  · rename_i sym hsym
    exact Program.runs_optional (h.ctors sym hsym).2 fun hp => hno (if_neg hp)
  · rw [hno rfl]
    rfl

theorem runs_dtorsEvents (h : Links C R S P) : P.runs (dtorsEvents S) = ⟨[], R.dtors⟩ := by
  have hno := h.noDtors
  unfold dtorsEvents at hno ⊢
  split at hno
  · rename_i sym hsym
    exact Program.runs_optional (h.dtors sym hsym).2 fun hp => hno (if_neg hp)
  · rw [hno rfl]
    rfl

/-- **What a run of the emitted `apply` shows.** -/
theorem Links.observed_runApply (h : Links C R S P) (ht : ActionTable C) (hS : Linked S)
    (hpre : S.find preName = none) (hpost : S.find postName = none) :
    ∃ body noAction, bodyContent S = .ok body ∧ noAction.observed = none ∧
      ∀ receiver code action, ∃ c, runApply P.env body receiver code action = some c ∧
        P.observed c = ((⟨[], R.ctors⟩ : Effect).seq
          ((emittedDispatch C R noAction receiver code action).seq ⟨[], R.dtors⟩)).observed := by
  obtain ⟨body, m, idx, hbody, hm, hidx, hrun⟩ := runApply_eq hS hpre hpost
  obtain ⟨e, hassert⟩ := (h.assert idx hidx).2 WASM_ERROR_NO_ACTION
  refine ⟨body, _, hbody, congrArg Effect.observed hassert, fun receiver code action => ?_⟩
  obtain ⟨s, hs⟩ := hrun P.env (h.typed ht) receiver code action
  refine ⟨_, hs, ?_⟩
  rw [Program.observed_runs, Program.runs_append, Program.runs_append, runs_ctorsEvents h,
    runs_mainEvents h ht hm, runs_dtorsEvents h, Effect.seq_assoc]

/-! ## Both dispatchers -/

/-- The receiver is called for an action that is not in the table, or whose data only one of the
dispatchers has a buffer for although the method would return. -/
def Differs (C : ContractClass) (R : Runtime) (receiver code action : BitVec 64) : Prop :=
  code = receiver ∧ ((∀ a ∈ C.actions, stringToName a.name ≠ action) ∨
    ContractClass.NoBuffer R ∧ ∃ a ∈ C.actions, stringToName a.name = action ∧
      C.Completes R receiver code a)

/-- The labels of the `switch` are the words that the linker compares with. -/
theorem ActionTable.find?_eq (ht : ActionTable C) (action : BitVec 64) :
    C.actions.find? (fun a => Name.ofString a.name = .ok ⟨action⟩) = selected C action := by
  refine List.find?_congr fun a ha => ?_
  rw [ofString_of_validateName (ht.valid a ha), decide_eq_decide]
  simp

theorem dispatch_iff (ht : ActionTable C) (hpre : C.preAction = none) (hpost : C.postAction = none)
    {noAction : Effect} (hno : noAction.observed = none) (receiver code action : BitVec 64) :
    (C.dispatch R receiver code action).observed =
        (emittedDispatch C R noAction receiver code action).observed ↔
      ¬Differs C R receiver code action := by
  unfold ContractClass.dispatch emittedDispatch Differs
  rw [ht.find?_eq]
  by_cases hcode : code = receiver
  · rw [if_pos hcode, if_pos hcode]
    unfold selected
    cases hsel : C.actions.find? (fun a => stringToName a.name = action) with
    | none =>
      have hall : ∀ a ∈ C.actions, stringToName a.name ≠ action := fun a ha => by
        simpa using List.find?_eq_none.1 hsel a ha
      refine iff_of_false ?_ (not_not.2 ⟨hcode, .inl hall⟩)
      rw [hno]
      exact Option.some_ne_none _
    | some a =>
      have ha := List.mem_of_find?_eq_some hsel
      have hval : stringToName a.name = action := by simpa using List.find?_some hsel
      dsimp only
      rw [ContractClass.actionStub_iff hpre hpost, not_iff_not]
      constructor
      · rintro ⟨hbuf, hcompletes⟩
        exact ⟨hcode, .inr ⟨hbuf, a, ha, hval, hcompletes⟩⟩
      · rintro ⟨-, hall | ⟨hbuf, b, hb, hval', hcompletes⟩⟩
        · exact absurd hval (hall a ha)
        · obtain rfl := ht.eq ha hb (hval.trans hval'.symm)
          exact ⟨hbuf, hcompletes⟩
  · rw [if_neg hcode, if_neg hcode]
    exact iff_of_true rfl fun h => hcode h.1

/-- Without hooks the dispatchers show the same, unless they differ and the static constructors and the
finalizer return. -/
theorem apply_observed_iff (ht : ActionTable C) (h : Links C R S P) (hS : Linked S)
    (hpre : S.find preName = none) (hpost : S.find postName = none) (hnoPre : C.preAction = none)
    (hnoPost : C.postAction = none) (receiver code action : BitVec 64) :
    ∃ body c, bodyContent S = .ok body ∧ runApply P.env body receiver code action = some c ∧
      ((C.apply R receiver code action).observed = P.observed c ↔
        ¬(R.ctors = .ok () ∧ R.dtors = .ok () ∧ Differs C R receiver code action)) := by
  obtain ⟨body, noAction, hbody, hno, hrun⟩ := h.observed_runApply ht hS hpre hpost
  obtain ⟨c, hc, hobs⟩ := hrun receiver code action
  refine ⟨body, c, hbody, hc, ?_⟩
  rw [hobs, ContractClass.apply, Effect.observed_between, Effect.observed_between, ← and_assoc]
  by_cases hboth : R.ctors = .ok () ∧ R.dtors = .ok ()
  · rw [if_pos hboth, if_pos hboth, dispatch_iff ht hnoPre hnoPost hno]
    exact not_congr ⟨fun hd => ⟨hboth, hd⟩, And.right⟩
  · rw [if_neg hboth, if_neg hboth]
    exact iff_of_true rfl fun hd => hboth hd.1

/-- **When the dispatchers of a contract agree**: for a class without hooks, what they show; for every
class, the order in which `execute_action` calls the hooks. -/
theorem dispatchers_agree_iff (ht : ActionTable C) (h : Links C R S P) (hS : Linked S)
    (hpre : S.find preName = none) (hpost : S.find postName = none)
    (receiver code action : BitVec 64) :
    (C.preAction = none → C.postAction = none →
      ∃ body c, bodyContent S = .ok body ∧ runApply P.env body receiver code action = some c ∧
        ((C.apply R receiver code action).observed = P.observed c ↔
          ¬(R.ctors = .ok () ∧ R.dtors = .ok () ∧ Differs C R receiver code action))) ∧
    ∀ a, C.executeAction R receiver code a = C.executeInOrder R receiver code a ↔
      C.postAction = none ∨ ¬C.PassesPre R receiver code a :=
  ⟨fun hnoPre hnoPost => apply_observed_iff ht h hS hpre hpost hnoPre hnoPost receiver code action,
    fun _ => ContractClass.executeAction_iff⟩

end

/-! ### A contract with one action -/

def hiAction : Action where
  name := "hi".toList
  method := "hi".toList
  Args := Unit
  Alt := Empty
  params := .nil
  body _ _ := .ok ()

def helloClass (postAction : Option (Contract → Exec Unit)) : ContractClass :=
  ⟨"hello".toList, [hiAction], fun _ => .ok (), none, postAction⟩

def helloSymtab : Symtab :=
  symtabOf [⟨["hi:__wasm_action_hi_hello".toList], []⟩]
    [assertName, "__wasm_action_hi_hello".toList]

def helloProgram (R : Runtime) : Program where
  arity _ := 2
  call
    | 1, [.i64 r, .i64 c] => (helloClass none).actionStub R r c hiAction
    | _, _ => ⟨[], .error (.abort "wasm_assert_code")⟩

def helloRuntime (data : List UInt8) : Runtime := ⟨data, fun _ => .error .fault, .ok (), .ok ()⟩

theorem helloTable : ActionTable (helloClass none) := ⟨by decide, by decide⟩

theorem helloLinks (data : List UInt8) :
    Links (helloClass none) (helloRuntime data) helloSymtab (helloProgram (helloRuntime data)) where
  actions str := by
    have hlinked : helloSymtab.objectFiles.flatMap ObjFile.wasmActions =
        [(actionDecl (helloClass none) hiAction).str] := by decide
    rw [hlinked, List.mem_singleton]
    constructor
    · intro hstr
      exact ⟨hiAction, .head _, hstr.symm⟩
    · rintro ⟨a, ha, rfl⟩
      obtain rfl := List.mem_singleton.1 ha
      rfl
  notify := rfl
  stub a ha := by
    obtain rfl := List.mem_singleton.1 ha
    have hidx : helloSymtab.indexOf (actionDecl (helloClass none) hiAction).stub = 1 := by decide
    rw [hidx]
    exact ⟨rfl, fun r c => rfl⟩
  assert idx hidx := by
    obtain rfl : 0 = idx := Option.some.inj hidx
    exact ⟨rfl, fun err => ⟨_, rfl⟩⟩
  ctors _ hsym := by
    have hnone : helloSymtab.find ctorsName = none := rfl
    rw [hnone] at hsym
    cases hsym
  noCtors _ := rfl
  dtors _ hsym := by
    have hnone : helloSymtab.find dtorsName = none := rfl
    rw [hnone] at hsym
    cases hsym
  noDtors _ := rfl

theorem helloLinked : Linked helloSymtab where
  assert := ⟨0, by decide⟩
  action := by decide +kernel
  notify := by
    have hnil : notifs helloSymtab = [] := rfl
    simp [hnil]

theorem dispatchers_agree_hello :
    (∃ body c, bodyContent helloSymtab = .ok body ∧
      runApply (helloProgram (helloRuntime [])).env body 7 7 (stringToName "hi".toList) = some c ∧
      (((helloClass none).apply (helloRuntime []) 7 7 (stringToName "hi".toList)).observed =
          (helloProgram (helloRuntime [])).observed c ↔
        ¬((helloRuntime []).ctors = .ok () ∧ (helloRuntime []).dtors = .ok () ∧
          Differs (helloClass none) (helloRuntime []) 7 7 (stringToName "hi".toList)))) ∧
    ∀ a, (helloClass none).executeAction (helloRuntime []) 7 7 a =
        (helloClass none).executeInOrder (helloRuntime []) 7 7 a ↔
      (helloClass none).postAction = none ∨ ¬(helloClass none).PassesPre (helloRuntime []) 7 7 a := by
  have hagree := dispatchers_agree_iff helloTable (helloLinks []) helloLinked rfl rfl 7 7
    (stringToName "hi".toList)
  exact ⟨hagree.1 rfl rfl, hagree.2⟩

theorem helloCompletes (data : List UInt8) :
    (helloClass none).Completes (helloRuntime data) 7 7 hiAction := by
  refine ⟨⟨7, 7, .start data⟩, (), ?_, rfl⟩
  unfold ContractClass.prepare
  rw [if_neg (by simp)]
  rfl

/-- What the dispatchers show is not the same. -/
def HelloDiffers (data : List UInt8) (action : BitVec 64) : Prop :=
  ∃ body c, bodyContent helloSymtab = .ok body ∧
    runApply (helloProgram (helloRuntime data)).env body 7 7 action = some c ∧
    ((helloClass none).apply (helloRuntime data) 7 7 action).observed ≠
      (helloProgram (helloRuntime data)).observed c

theorem helloDiffers_of {data : List UInt8} {action : BitVec 64}
    (h : Differs (helloClass none) (helloRuntime data) 7 7 action) : HelloDiffers data action := by
  obtain ⟨body, c, hbody, hc, hiff⟩ := apply_observed_iff helloTable (helloLinks data) helloLinked
    rfl rfl rfl rfl 7 7 action
  exact ⟨body, c, hbody, hc, fun heq => hiff.1 heq ⟨rfl, rfl, h⟩⟩

/-- An action that is not in the table; 512 bytes of data without a heap; a hook that is called before
the method. -/
theorem dispatchers_differ_hello : HelloDiffers [] 0 ∧
    HelloDiffers (List.replicate 512 0) (stringToName "hi".toList) ∧
    (helloClass (some fun _ => .ok ())).executeAction (helloRuntime []) 7 7 hiAction ≠
      (helloClass (some fun _ => .ok ())).executeInOrder (helloRuntime []) 7 7 hiAction := by
  refine ⟨helloDiffers_of ⟨rfl, .inl fun a ha => ?_⟩,
    helloDiffers_of ⟨rfl, .inr ⟨⟨List.length_replicate, ?_⟩, hiAction, .head _, rfl, helloCompletes _⟩⟩,
    fun heq => ?_⟩
  · obtain rfl := List.mem_singleton.1 ha
    decide
  · intro hmalloc
    cases hmalloc
  · rcases ContractClass.executeAction_iff.1 heq with hnone | hpasses
    · cases hnone
    · exact hpasses ⟨_, _, rfl, by simp [helloClass]⟩

end Lld
