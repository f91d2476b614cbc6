import WasmCdt.Cdt.Codegen

/-!
# Whether the ABI and the dispatcher list the same actions

* `mem_abiPass`: the ABI lists the names of the contract's annotated methods and records.
* `mem_visitMethods`: a contract's method has a stub exactly if it is the first annotated method
  visited with its full name, of whatever contract.
* `generate_consistent_iff`: when the two agree.
-/

namespace Cdt

/-! ## The ABI pass -/

theorem mem_insertAction {n : Text} {ret : AbiAction} : ∀ {as : List AbiAction},
    (∃ a ∈ insertAction ret as, a.name = n) ↔ ret.name = n ∨ ∃ a ∈ as, a.name = n
  | [] => by simp [insertAction]
  | a :: as => by
    rw [insertAction]
    split
    · simp
    · rename_i hlt
      split
      · have ih : (∃ a ∈ insertAction ret as, a.name = n) ↔ ret.name = n ∨ ∃ a ∈ as, a.name = n :=
          mem_insertAction
        simp only [List.mem_cons, exists_eq_or_imp, ih]
        exact or_left_comm
      · rename_i hgt
        have heq : a.name = ret.name := le_antisymm (not_lt.1 hlt) (not_lt.1 hgt)
        simp only [List.mem_cons, exists_eq_or_imp, heq]
        exact (or_iff_right_of_imp .inl).symm

/-- The declarations whose names the ABI lists. -/
def Decl.listed (cn : Text) : Decl → Option Text
  | .method m => if m.isActionOf cn then some m.actionName else none
  | .record r => if r.isActionOf cn then some r.actionName else none

theorem exists_listed_cons {cn n : Text} {d : Decl} {decls : List Decl} :
    (∃ d' ∈ d :: decls, d'.listed cn = some n) ↔
      d.listed cn = some n ∨ ∃ d' ∈ decls, d'.listed cn = some n := by
  simp only [List.mem_cons, exists_eq_or_imp]

theorem addActionRecord_eq_ok {rcs : Text → Text} {r : RecordDecl}
    {actions actions' : List AbiAction} (h : addActionRecord rcs r actions = .ok actions') :
    actions' = insertAction ⟨r.actionName, r.name, rcs r.actionName⟩ actions := by
  unfold addActionRecord at h
  split at h
  · exact (Except.ok.inj h).symm
  · cases h

/-- **The ABI lists the contract's annotated methods and records.** -/
theorem mem_abiPass {rcs : Text → Text} {cn n : Text} : ∀ {decls : List Decl}
    {actions out : List AbiAction}, abiPass rcs cn decls actions = .ok out →
    ((∃ a ∈ out, a.name = n) ↔ (∃ a ∈ actions, a.name = n) ∨ ∃ d ∈ decls, d.listed cn = some n)
  | [], actions, out, h => by
    cases h
    simp
  | .method m :: decls, actions, out, h => by
    rw [abiPass] at h
    rw [exists_listed_cons, Decl.listed]
    split at h
    · rename_i hm
      rw [mem_abiPass h, addActionMethod, mem_insertAction, if_pos hm, Option.some.injEq]
      exact or_assoc.trans or_left_comm
    · rename_i hm
      rw [mem_abiPass h, if_neg hm]
      simp
  | .record r :: decls, actions, out, h => by
    rw [abiPass] at h
    rw [exists_listed_cons, Decl.listed]
    split at h
    · rename_i hr
      cases hadd : addActionRecord rcs r actions with
      | error e =>
        rw [hadd] at h
        cases h
      | ok actions' =>
        rw [hadd] at h
        rw [mem_abiPass h, addActionRecord_eq_ok hadd, mem_insertAction, if_pos hr,
          Option.some.injEq]
        exact or_assoc.trans or_left_comm
    · rename_i hr
      rw [mem_abiPass h, if_neg hr]
      simp

theorem abiPass_ok_iff {rcs : Text → Text} {cn : Text} : ∀ {decls : List Decl}
    {actions : List AbiAction}, (∃ out, abiPass rcs cn decls actions = .ok out) ↔
    ∀ r, Decl.record r ∈ decls → r.isActionOf cn = true → validateName r.actionName = true
  | [], actions => by simp [abiPass]
  | .method m :: decls, actions => by
    rw [abiPass]
    split <;> simp [abiPass_ok_iff]
  | .record r :: decls, actions => by
    rw [abiPass]
    split
    · rename_i hr
      unfold addActionRecord
      by_cases hv : validateName r.actionName = true
      · simp [hv, abiPass_ok_iff]
      · simp [hv, hr]
    · rename_i hr
      simp [abiPass_ok_iff, hr]

theorem abiPass_ok (rcs : Text → Text) {cn : Text} {decls : List Decl}
    (h : ∀ r, Decl.record r ∈ decls → r.isActionOf cn = true →
      validateName r.actionName = true) : ∃ out, abiPass rcs cn decls [] = .ok out :=
  abiPass_ok_iff.2 h

/-! ## The code-generation pass -/

/-- The first annotated method with a full name. -/
def firstWithName (ms : List MethodDecl) (fullName : Text) : Option MethodDecl :=
  ms.find? fun m => m.wasmAction.isSome && decide (m.fullActionName = fullName)

theorem firstWithName_spec {ms : List MethodDecl} {k : Text} {m : MethodDecl}
    (h : firstWithName ms k = some m) :
    m ∈ ms ∧ m.wasmAction.isSome = true ∧ m.fullActionName = k := by
  have hp := List.find?_some h
  rw [Bool.and_eq_true, decide_eq_true_iff] at hp
  exact ⟨List.mem_of_find?_eq_some h, hp⟩

/-- **Which methods get a stub.** -/
theorem mem_visitMethods {cn : Text} {s : Stub} : ∀ {ms : List MethodDecl} {actions : List Text},
    s ∈ visitMethods cn ms actions ↔ ∃ m, firstWithName ms m.fullActionName = some m ∧
      m.fullActionName ∉ actions ∧ m.isWasmContract cn = true ∧ s = ⟨m, m.actionName, m.stubSymbol⟩
  | [], actions => by simp [visitMethods, firstWithName]
  | m :: ms, actions => by
    rw [visitMethods]
    by_cases ha : m.wasmAction.isSome = true
    · rw [if_pos ha, List.mem_append, mem_visitMethods]
      constructor
      · rintro (hs | ⟨m', hfirst, hnot, hcn, rfl⟩)
        · split at hs
          · cases hs
          · rename_i hnot
            unfold createActionDispatch at hs
            split at hs
            · rename_i hcn
              exact ⟨m, by simp [firstWithName, ha], hnot, hcn, List.mem_singleton.1 hs⟩
            · cases hs
        · have hne : m.fullActionName ≠ m'.fullActionName := fun he => hnot (he ▸ .head _)
          refine ⟨m', ?_, fun h => hnot (.tail _ h), hcn, rfl⟩
          rw [firstWithName, List.find?_cons, ha, decide_eq_false hne]
          exact hfirst
      · rintro ⟨m', hfirst, hnot, hcn, rfl⟩
        by_cases hne : m.fullActionName = m'.fullActionName
        · have hm : m = m' := by simpa [firstWithName, ha, hne] using hfirst
          subst hm
          exact .inl (by simp [hnot, createActionDispatch, hcn])
        · rw [firstWithName, List.find?_cons, ha, decide_eq_false hne] at hfirst
          exact .inr ⟨m', hfirst, by simp [hnot, Ne.symm hne], hcn, rfl⟩
    · rw [if_neg ha, mem_visitMethods]
      simp [firstWithName, ha]

/-! ## Both passes -/

/-- The names that the two passes check are valid. -/
structure TranslationUnit.NamesValid (tu : TranslationUnit) (cn : Text) : Prop where
  methods : ∀ m ∈ tu.methods, m.wasmAction.isSome = true → validateName m.actionName = true
  records : ∀ r, Decl.record r ∈ tu.decls → r.isActionOf cn = true →
    validateName r.actionName = true

/-- What the two passes publish fits together. -/
structure Output.Consistent (out : Output) (cn : Text) (tu : TranslationUnit) : Prop where
  names : ∀ n, (∃ a ∈ out.abiActions, a.name = n) ↔ ∃ s ∈ out.stubs, s.action = n
  stub : ∀ m ∈ tu.methods, m.isActionOf cn = true → ∃ s ∈ out.stubs, s.method = m
  symbols : ∀ s ∈ out.stubs, ∀ t ∈ out.stubs, s.method ≠ t.method → s.symbol ≠ t.symbol

/-- The declarations that the two passes treat alike. -/
structure TranslationUnit.Unambiguous (tu : TranslationUnit) (cn : Text) : Prop where
  /-- No other annotated method with the same full name is visited before a method. -/
  first : ∀ m ∈ tu.methods, m.isActionOf cn = true →
    firstWithName tu.methods m.fullActionName = some m
  /-- Distinct methods have distinct symbols. -/
  symbols : ∀ m ∈ tu.methods, ∀ m' ∈ tu.methods, m.isActionOf cn = true →
    m'.isActionOf cn = true → m ≠ m' → m.stubSymbol ≠ m'.stubSymbol
  /-- A record bears the name of a method's action. -/
  records : ∀ r, Decl.record r ∈ tu.decls → r.isActionOf cn = true →
    ∃ m ∈ tu.methods, m.isActionOf cn = true ∧ m.actionName = r.actionName

theorem mem_methods {tu : TranslationUnit} {m : MethodDecl} :
    m ∈ tu.methods ↔ Decl.method m ∈ tu.decls := by
  unfold TranslationUnit.methods methodsOf
  rw [List.mem_filterMap]
  constructor
  · rintro ⟨d, hd, h⟩
    cases d with
    | method m' => cases h; exact hd
    | record r => cases h
  · exact fun h => ⟨_, h, rfl⟩

theorem generate_eq_ok {rcs : Text → Text} {cn : Text} {tu : TranslationUnit} {out : Output}
    (h : generate rcs cn tu = .ok out) : abiPass rcs cn tu.decls [] = .ok out.abiActions ∧
      out.stubs = visitMethods cn tu.methods [] ∧ tu.NamesValid cn := by
  unfold generate at h
  cases habi : abiPass rcs cn tu.decls [] with
  | error e =>
    rw [habi] at h
    cases h
  | ok acts =>
    rw [habi] at h
    unfold codegenPass at h
    by_cases hv : (tu.methods.all fun m => !m.wasmAction.isSome || validateName m.actionName) = true
    · simp only [hv, if_true] at h
      cases h
      refine ⟨rfl, rfl, fun m hm ha => ?_, abiPass_ok_iff.1 ⟨_, habi⟩⟩
      simpa [ha] using List.all_eq_true.1 hv m hm
    · simp only [hv] at h
      cases h

theorem generate_ok (rcs : Text → Text) {cn : Text} {tu : TranslationUnit}
    (h : tu.NamesValid cn) : ∃ out, generate rcs cn tu = .ok out := by
  obtain ⟨acts, hacts⟩ := abiPass_ok rcs h.records
  have hv : (tu.methods.all fun m => !m.wasmAction.isSome || validateName m.actionName) = true := by
    rw [List.all_eq_true]
    intro m hm
    cases ha : m.wasmAction.isSome with
    | false => rfl
    | true => simpa using h.methods m hm ha
  exact ⟨⟨acts, visitMethods cn tu.methods []⟩, by
    rw [generate, hacts]
    simp only [codegenPass, hv, if_true]⟩

/-- The stubs of a run, by their methods. -/
theorem mem_stubs {rcs : Text → Text} {cn : Text} {tu : TranslationUnit} {out : Output}
    (h : generate rcs cn tu = .ok out) {s : Stub} : s ∈ out.stubs ↔
      ∃ m ∈ tu.methods, m.isActionOf cn = true ∧
        firstWithName tu.methods m.fullActionName = some m ∧ s = ⟨m, m.actionName, m.stubSymbol⟩ := by
  rw [(generate_eq_ok h).2.1, mem_visitMethods]
  constructor
  · rintro ⟨m, hfirst, -, hcn, rfl⟩
    obtain ⟨hmem, hann, -⟩ := firstWithName_spec hfirst
    exact ⟨m, hmem, by simp [MethodDecl.isActionOf, hann, hcn], hfirst, rfl⟩
  · rintro ⟨m, -, hact, hfirst, rfl⟩
    exact ⟨m, hfirst, by simp, (Bool.and_eq_true_iff.1 hact).2, rfl⟩

/-- The names of a run's ABI, by their declarations. -/
theorem mem_abiActions {rcs : Text → Text} {cn : Text} {tu : TranslationUnit} {out : Output}
    (h : generate rcs cn tu = .ok out) {n : Text} : (∃ a ∈ out.abiActions, a.name = n) ↔
      (∃ m ∈ tu.methods, m.isActionOf cn = true ∧ m.actionName = n) ∨
        ∃ r, Decl.record r ∈ tu.decls ∧ r.isActionOf cn = true ∧ r.actionName = n := by
  rw [mem_abiPass (generate_eq_ok h).1, or_iff_right (by simp)]
  constructor
  · rintro ⟨d, hd, hl⟩
    cases d with
    | method m =>
      rw [Decl.listed] at hl
      split at hl
      · rename_i hact
        exact .inl ⟨m, mem_methods.2 hd, hact, Option.some.inj hl⟩
      · cases hl
    | record r =>
      rw [Decl.listed] at hl
      split at hl
      · rename_i hact
        exact .inr ⟨r, hd, hact, Option.some.inj hl⟩
      · cases hl
  · rintro (⟨m, hm, hact, rfl⟩ | ⟨r, hr, hact, rfl⟩)
    · exact ⟨_, mem_methods.1 hm, if_pos hact⟩
    · exact ⟨_, hr, if_pos hact⟩

theorem consistent_iff {rcs : Text → Text} {cn : Text} {tu : TranslationUnit} {out : Output}
    (h : generate rcs cn tu = .ok out) : out.Consistent cn tu ↔ tu.Unambiguous cn := by
  constructor
  · intro hc
    have hfirst : ∀ m ∈ tu.methods, m.isActionOf cn = true →
        firstWithName tu.methods m.fullActionName = some m := by
      intro m hm hact
      obtain ⟨s, hs, rfl⟩ := hc.stub m hm hact
      obtain ⟨m', -, -, hfirst, rfl⟩ := (mem_stubs h).1 hs
      exact hfirst
    refine ⟨hfirst, fun m hm m' hm' hact hact' hne => ?_, fun r hr hact => ?_⟩
    · exact hc.symbols _ ((mem_stubs h).2 ⟨m, hm, hact, hfirst m hm hact, rfl⟩)
        _ ((mem_stubs h).2 ⟨m', hm', hact', hfirst m' hm' hact', rfl⟩) hne
    · obtain ⟨s, hs, hname⟩ := (hc.names _).1 ((mem_abiActions h).2 (.inr ⟨r, hr, hact, rfl⟩))
      obtain ⟨m, hm, hm', -, rfl⟩ := (mem_stubs h).1 hs
      exact ⟨m, hm, hm', hname⟩
  · intro hu
    have hstub : ∀ m ∈ tu.methods, m.isActionOf cn = true →
        (⟨m, m.actionName, m.stubSymbol⟩ : Stub) ∈ out.stubs :=
      fun m hm hact => (mem_stubs h).2 ⟨m, hm, hact, hu.first m hm hact, rfl⟩
    refine ⟨fun n => ⟨fun hn => ?_, ?_⟩, fun m hm hact => ⟨_, hstub m hm hact, rfl⟩,
      fun s hs t ht hne => ?_⟩
    · rcases (mem_abiActions h).1 hn with ⟨m, hm, hact, rfl⟩ | ⟨r, hr, hact, rfl⟩
      · exact ⟨_, hstub m hm hact, rfl⟩
      · obtain ⟨m, hm, hact', hname⟩ := hu.records r hr hact
        exact ⟨_, hstub m hm hact', hname⟩
    · rintro ⟨s, hs, rfl⟩
      obtain ⟨m, hm, hact, -, rfl⟩ := (mem_stubs h).1 hs
      exact (mem_abiActions h).2 (.inl ⟨m, hm, hact, rfl⟩)
    · obtain ⟨m, hm, hact, -, rfl⟩ := (mem_stubs h).1 hs
      obtain ⟨m', hm', hact', -, rfl⟩ := (mem_stubs h).1 ht
      exact hu.symbols m hm m' hm' hact hact' hne

/-- The class of a contract, by name. -/
def classInfo (name : String) : RecordInfo := ⟨name.toList, none, some []⟩

/-- Action `ab` of another contract's class `c`, then action `a` of the contract's class `bc`. -/
def sharedNameUnit : TranslationUnit where
  decls := [.method ⟨0, "ab".toList, classInfo "c", some [], none⟩,
    .method ⟨1, "a".toList, classInfo "bc", some [], none⟩]
  canonical_inj := by decide

end Cdt
