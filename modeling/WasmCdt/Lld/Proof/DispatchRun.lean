import WasmCdt.Lld.Proof.DispatchShape

/-!
# What the emitted `apply` calls

`runApply` decodes the emitted body and executes it. `runApply_trace`: without hooks the calls made
are the constructors', then the dispatch's (`mainEvents`), then the finalizer's, up to the first
that traps. `mainEvents` is read off the nests: the first arm equal to `action` if `code` is
`receiver`, else the notification nest's choice.
-/

namespace Lld

open WasmCode Leb128 Cdt

/-- The execution of the emitted body. -/
def runApply (E : Env) (body : List UInt8) (receiver code action : BitVec 64) : Option Cfg :=
  (decodeBody body).map
    (run E [.i64 receiver, .i64 code, .i64 action] ⟨.exec, [], []⟩)

/-- Function `f` takes `n` arguments and returns nothing. -/
def NoResult (E : Env) (f n : Nat) : Prop :=
  E.arity f = n ∧ ∀ args vs, E.result f args = some vs → vs = []

/-- The callees have the signatures they are declared with. -/
structure Typed (S : Symtab) (E : Env) : Prop where
  assert : ∀ idx, assertIdx S = some idx → NoResult E idx 2
  action : ∀ str ∈ actions S, NoResult E (stubIndex S str) 2
  notify : ∀ str ∈ notifs S, ∀ code rest, splitNotify str = .ok (code, rest) →
    NoResult E (stubIndex S rest) 2
  ctors : ∀ sym, S.find ctorsName = some sym → NoResult E sym.functionIndex 0
  dtors : ∀ sym, S.find dtorsName = some sym → NoResult E sym.functionIndex 1

def ctorsEvents (S : Symtab) : List Event :=
  match S.find ctorsName with
  | some sym => if sym.functionIndex ≠ 0 then [⟨sym.functionIndex, []⟩] else []
  | none => []

def dtorsEvents (S : Symtab) : List Event :=
  match S.find dtorsName with
  | some sym =>
    if sym.functionIndex ≠ 0 ∧ sym.functionIndex < S.symbols then
      [⟨sym.functionIndex, [.i32 0]⟩]
    else []
  | none => []

/-- The call of the stub behind a linked string. -/
def stubEvent (S : Symtab) (str : Text) (receiver code : BitVec 64) : Event :=
  ⟨stubIndex S str, [.i64 receiver, .i64 code]⟩

/-- A failed assertion. -/
def assertEvent (idx : Nat) (err : BitVec 64) : Event := ⟨idx, [.i32 0, .i64 err]⟩

/-! ## Call sequences of the parts -/

/-- The locals of `apply`. -/
def applyLocals (receiver code action : BitVec 64) : List Val :=
  [.i64 receiver, .i64 code, .i64 action]

theorem Calls.of_run_eq {E : Env} {locals : List Val} {is js : List Instr} {evs : List Event}
    (h : ∀ tr, run E locals ⟨.exec, [], tr⟩ is = run E locals ⟨.exec, [], tr⟩ js)
    (hj : Calls E locals js evs) : Calls E locals is evs := by
  intro tr
  rw [h tr]
  exact hj tr

section
variable {E : Env} {S : Symtab} {receiver code action : BitVec 64}

theorem stubCall_calls {str : Text} (h : NoResult E (stubIndex S str) 2) :
    Calls E (applyLocals receiver code action) (stubCall S str)
      [stubEvent S str receiver code] :=
  Calls.call [.localGet 0, .localGet 1] [.i64 receiver, .i64 code]
    (fun s tr => by simp [applyLocals, step, execInstr, Cfg.push]) h.1 (h.2 _)

theorem assertCall_calls {idx : Nat} (err : BitVec 64) (h : NoResult E idx 2) :
    Calls E (applyLocals receiver code action) (assertCall idx err) [assertEvent idx err] :=
  Calls.call [.i32Const 0, .i64Const err.toInt] [.i32 0, .i64 err]
    (fun s tr => by simp [step, execInstr, Cfg.push, BitVec.ofInt_toInt]) h.1 (h.2 _)

theorem ctorsCode_calls (hE : Typed S E) :
    Calls E (applyLocals receiver code action) (ctorsCode S) (ctorsEvents S) := by
  unfold ctorsCode ctorsEvents
  cases hf : S.find ctorsName with
  | none => exact Calls.nil
  | some sym =>
    dsimp only
    split
    · have h := hE.ctors sym hf
      exact Calls.call [] [] (fun s tr => rfl) h.1 (h.2 _)
    · exact Calls.nil

theorem dtorsCode_calls (hE : Typed S E) :
    Calls E (applyLocals receiver code action) (dtorsCode S) (dtorsEvents S) := by
  unfold dtorsCode dtorsEvents
  cases hf : S.find dtorsName with
  | none => exact Calls.nil
  | some sym =>
    dsimp only
    split
    · have h := hE.dtors sym hf
      exact Calls.call [.i32Const 0] [.i32 0]
        (fun s tr => by simp [step, execInstr, Cfg.push]) h.1 (h.2 _)
    · exact Calls.nil

/-- The events of the handler of `strs` that `action` selects. -/
def handlerEvents (S : Symtab) (strs : List Text) (tail : List Event)
    (receiver code action : BitVec 64) : List Event :=
  match strs.find? (fun str => action = stringToName (beforeColon str)) with
  | some str => [stubEvent S str receiver code]
  | none => tail

/-- A nest on `action` calls the selected handler, else does as its tail. -/
theorem handlerArms_calls {strs : List Text} (tail : Option (List Instr)) {evs : List Event}
    (hstub : ∀ str ∈ strs, NoResult E (stubIndex S str) 2)
    (hb : ∀ t, tail = some t → Balanced t)
    (ht : Calls E (applyLocals receiver code action) (tail.getD []) evs) :
    Calls E (applyLocals receiver code action) (handlerArms S strs tail)
      (handlerEvents S strs evs receiver code action) := by
  refine Calls.of_run_eq
    (fun tr => run_arms E (v := action) rfl (ifArm_balanced S strs) hb [] tr) ?_
  rw [selected_map]
  change Calls E _ _ (match strs.find? (fun str => action = (ifArm S str).key) with
    | some str => [stubEvent S str receiver code]
    | none => evs)
  cases hf : strs.find? (fun str => action = (ifArm S str).key) with
  | none => exact ht
  | some str => exact stubCall_calls (hstub str (List.mem_of_find?_eq_some hf))

theorem actionCode_calls {idx : Nat} (hE : Typed S E) (hidx : assertIdx S = some idx) :
    Calls E (applyLocals receiver code action) (actionCode S idx)
      (handlerEvents S (actions S) [assertEvent idx WASM_ERROR_NO_ACTION] receiver code action) :=
  handlerArms_calls (some _) hE.action (fun _ h => Option.some.inj h ▸ .all_plain (assertCall_plain _ _))
    (assertCall_calls _ (hE.assert idx hidx))

/-- The events of the notification nest: the first group with `code`, else the wildcard's. -/
def notifyEvents (S : Symtab) (m : Handlers) (receiver code action : BitVec 64) : List Event :=
  match (groupsOf m).find? (fun g => code = stringToRegid g.1) with
  | some g => handlerEvents S g.2 [] receiver code action
  | none => handlerEvents S (wildOf m) [] receiver code action

theorem notifyCode_calls {m : Handlers}
    (hstub : ∀ g ∈ m, ∀ str ∈ g.2, NoResult E (stubIndex S str) 2) :
    Calls E (applyLocals receiver code action) (notifyCode S m)
      (notifyEvents S m receiver code action) := by
  refine Calls.of_run_eq (fun tr => run_arms E (v := code) rfl (groupArm_balanced S _)
    (wildCode_balanced S m) [] tr) ?_
  rw [selected_map]
  change Calls E _ _ (match (groupsOf m).find? (fun g => code = (groupArm S g).key) with
    | some g => handlerEvents S g.2 [] receiver code action
    | none => handlerEvents S (wildOf m) [] receiver code action)
  cases hf : (groupsOf m).find? (fun g => code = (groupArm S g).key) with
  | some g =>
    have hg := (List.mem_filter.1 (List.mem_of_find?_eq_some hf)).1
    exact handlerArms_calls none (hstub g hg) (by simp) Calls.nil
  | none =>
    have hwild : ∀ str ∈ wildOf m, NoResult E (stubIndex S str) 2 := by
      intro str hstr
      unfold wildOf at hstr
      cases hw : m.lookup star with
      | none => simp [hw] at hstr
      | some v => exact hstub _ (mem_of_lookup hw) str (by simpa [hw] using hstr)
    unfold wildCode
    by_cases hnil : wildOf m = []
    · rw [if_pos hnil, hnil]
      exact Calls.nil
    · rw [if_neg hnil]
      exact handlerArms_calls none hwild (by simp) Calls.nil

/-- The events of the dispatch proper. -/
def mainEvents (S : Symtab) (m : Handlers) (idx : Nat) (receiver code action : BitVec 64) :
    List Event :=
  if code = receiver then
    handlerEvents S (actions S) [assertEvent idx WASM_ERROR_NO_ACTION] receiver code action
  else notifyEvents S m receiver code action

theorem mainCode_calls {m : Handlers} {idx : Nat} (hE : Typed S E) (hidx : assertIdx S = some idx)
    (hstub : ∀ g ∈ m, ∀ str ∈ g.2, NoResult E (stubIndex S str) 2) :
    Calls E (applyLocals receiver code action) (mainCode S m idx)
      (mainEvents S m idx receiver code action) := by
  have htest : ∀ tr, run E (applyLocals receiver code action) ⟨.exec, [], tr⟩
      [.localGet 0, .localGet 1, .i64Eq] =
        ⟨.exec, [.i32 (if code = receiver then 1 else 0)], tr⟩ := by
    intro tr
    simp [applyLocals, step, execInstr, Cfg.push]
  have hrun : ∀ tr, run E (applyLocals receiver code action) ⟨.exec, [], tr⟩ (mainCode S m idx) =
      run E (applyLocals receiver code action) ⟨.exec, [], tr⟩
        (if code = receiver then actionCode S idx else notifyCode S m) := by
    intro tr
    rw [mainCode, run_append, htest,
      run_ite E _ (actionCode_balanced S idx) (notifyCode_balanced S m)]
    by_cases hc : code = receiver <;> simp [hc]
  refine Calls.of_run_eq hrun ?_
  unfold mainEvents
  split
  · exact actionCode_calls hE hidx
  · exact notifyCode_calls hstub

end

/-! ## The whole body -/

theorem mem_push {code rest : Text} {g : Text × List Text} {str : Text} : ∀ {m : Handlers},
    g ∈ m.push code rest → str ∈ g.2 → (g.1 = code ∧ str = rest) ∨ ∃ g' ∈ m, g'.1 = g.1 ∧ str ∈ g'.2
  | [], hg, hstr => by
    obtain rfl := List.mem_singleton.1 hg
    exact .inl ⟨rfl, List.mem_singleton.1 hstr⟩
  | (k, v) :: m, hg, hstr => by
    rw [Handlers.push] at hg
    split at hg
    · rename_i hk
      rcases List.mem_cons.1 hg with rfl | hg
      · rcases List.mem_append.1 hstr with hstr | hstr
        · exact .inr ⟨(k, v), .head _, rfl, hstr⟩
        · exact .inl ⟨hk, List.mem_singleton.1 hstr⟩
      · exact .inr ⟨g, .tail _ hg, rfl, hstr⟩
    · split at hg
      · rcases List.mem_cons.1 hg with rfl | hg
        · exact .inl ⟨rfl, List.mem_singleton.1 hstr⟩
        · exact .inr ⟨g, hg, rfl, hstr⟩
      · rcases List.mem_cons.1 hg with rfl | hg
        · exact .inr ⟨(k, v), .head _, rfl, hstr⟩
        · rcases mem_push hg hstr with h | ⟨g', hg', h⟩
          · exact .inl h
          · exact .inr ⟨g', .tail _ hg', h⟩

/-- Every handler of the map comes from a linked string of its code. -/
theorem mem_groupHandlers {g : Text × List Text} {str : Text} : ∀ {strs : List Text}
    {m m' : Handlers}, groupHandlers strs m = .ok m' → g ∈ m' → str ∈ g.2 →
    (∃ notif ∈ strs, splitNotify notif = .ok (g.1, str)) ∨ ∃ g' ∈ m, g'.1 = g.1 ∧ str ∈ g'.2
  | [], m, m', h, hg, hstr => by
    cases h
    exact .inr ⟨g, hg, rfl, hstr⟩
  | notif :: strs, m, m', h, hg, hstr => by
    obtain ⟨⟨code, rest⟩, hsplit, h⟩ := Link.bind_ok h
    rcases mem_groupHandlers h hg hstr with ⟨n, hn, hs⟩ | ⟨g', hg', he, hs⟩
    · exact .inl ⟨n, .tail _ hn, hs⟩
    · rcases mem_push hg' hs with ⟨hc, rfl⟩ | ⟨g'', hg'', he', hs'⟩
      · exact .inl ⟨notif, .head _, by rw [hsplit, ← he, hc]⟩
      · exact .inr ⟨g'', hg'', he'.trans he, hs'⟩

/-- The whole run of the emitted body, without hooks. -/
theorem runApply_eq {S : Symtab} (hS : Linked S) (hpre : S.find preName = none)
    (hpost : S.find postName = none) :
    ∃ body m idx, bodyContent S = .ok body ∧ groupHandlers (notifs S) [] = .ok m ∧
      assertIdx S = some idx ∧ ∀ E, Typed S E → ∀ receiver code action, ∃ s,
        runApply E body receiver code action = some
          ⟨if returns E (ctorsEvents S ++ mainEvents S m idx receiver code action ++ dtorsEvents S)
            then .exec else .trapped, s,
          callSeq E (ctorsEvents S ++ mainEvents S m idx receiver code action ++ dtorsEvents S)⟩ := by
  obtain ⟨body, hbody⟩ := bodyContent_ok hS
  obtain ⟨m, idx, hm, hidx, rfl⟩ := bodyContent_eq hbody
  refine ⟨_, m, idx, hbody, hm, hidx, fun E hE receiver code action => ?_⟩
  have hstub : ∀ g ∈ m, ∀ str ∈ g.2, NoResult E (stubIndex S str) 2 := by
    intro g hg str hstr
    rcases mem_groupHandlers hm hg hstr with ⟨n, hn, hs⟩ | ⟨g', hg', -⟩
    · exact hE.notify n hn _ _ hs
    · cases hg'
  have hcalls : Calls E (applyLocals receiver code action) (ctorsCode S ++ dispatchCode S m idx)
      (ctorsEvents S ++ mainEvents S m idx receiver code action ++ dtorsEvents S) := by
    simp only [dispatchCode, hookCall, hpost, List.append_nil, ← List.append_assoc]
    exact ((ctorsCode_calls hE).append (mainCode_calls hE hidx hstub)).append (dtorsCode_calls hE)
  obtain ⟨s, hs, -⟩ := hcalls []
  refine ⟨s, ?_⟩
  rw [runApply, decodeBody_encode (bodyInstrs_fits S m (assertIdx_lt hidx))]
  simp only [bodyInstrs, hpre, Option.map_some, Option.some.injEq]
  change run E (applyLocals receiver code action) _ _ = _
  rw [run_append, hs]
  generalize returns E _ = r
  cases r <;> simp [step, execInstr]

/-- **The calls of the emitted body**, without hooks. -/
theorem runApply_trace {S : Symtab} (hS : Linked S) (hpre : S.find preName = none)
    (hpost : S.find postName = none) :
    ∃ body m idx, bodyContent S = .ok body ∧ groupHandlers (notifs S) [] = .ok m ∧
      assertIdx S = some idx ∧ ∀ E, Typed S E → ∀ receiver code action, ∃ c,
        runApply E body receiver code action = some c ∧
        c.trace = callSeq E (ctorsEvents S ++ mainEvents S m idx receiver code action ++
          dtorsEvents S) := by
  obtain ⟨body, m, idx, hbody, hm, hidx, hrun⟩ := runApply_eq hS hpre hpost
  refine ⟨body, m, idx, hbody, hm, hidx, fun E hE receiver code action => ?_⟩
  obtain ⟨s, hs⟩ := hrun E hE receiver code action
  exact ⟨_, hs, rfl⟩

end Lld
