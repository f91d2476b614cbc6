import WasmCdt.Cdt.Proof.AbiPass
import WasmCdt.Cdt.Proof.Abigen

/-!
# When the definitions in memory are closed

* `mem_refs_ofRecorded`, `mem_names_ofRecorded`: what is in memory after a run.
* `record_spec`: a run of the pass records definitions in order, and refers in actions and tables to
  structs that it records.
* `closed_of_named`: **when every step refers to types by the names under which they are recorded, the
  definitions in memory are closed.**
* `abiPass_record`: the actions in memory are those of the pass over the declarations of actions.
-/

namespace Cdt

open QualType

/-! ## Names in a definition -/

theorem Named.reads_of_added {t : QualType} (h : Named t) {before : List Entity}
    (hadded : Added before t) : Reads before (translateType t) t.layout := by
  rcases hadded with hb | ⟨es, hes, hsub⟩
  · exact reads_of_builtin hb
  · exact (h.reads.1 hes).mono hsub

theorem NamedBase.reads {b : QualType} (h : NamedBase b) {before es : List Entity}
    (hes : addCanonical b = some es) (hsub : es ⊆ before) :
    Reads before (getType b) b.layout := by
  rw [NamedBase, getType_eq] at h
  rw [getType_eq]
  cases hb : b.isBuiltin with
  | true => exact reads_of_builtin hb
  | false =>
    rcases h with h | h
    · rw [isBuiltin, h] at hb
      cases hb
    · exact (h.reads hb hes).mono hsub

theorem reads_extension {before : List Entity} (h : extensionEntity ∈ before) :
    Reads before "extension[]".toList (.array extensionEntity.layout) := by
  have hname : "extension[]".toList = extensionEntity.name ++ "[]".toList := by decide
  rw [hname]
  exact .array (.entity h (by decide +kernel) (by decide))

theorem FieldSource.Named.reads {f : FieldSource} (h : f.Named) {before : List Entity}
    (hadded : f.AddedTo before) : ∃ l, Reads before f.toField.type l := by
  cases f with
  | field name type =>
    have hreads := Cdt.Named.reads_of_added (t := type) h hadded
    rw [← getType_eq] at hreads
    exact ⟨type.layout, hreads⟩
  | component name type => exact ⟨type.layout, Cdt.Named.reads_of_added (t := type) h hadded⟩
  | extensions type => exact ⟨.array extensionEntity.layout, reads_extension hadded⟩

/-- The names of types in what is recorded. -/
def Recorded.refs : Recorded → List Text
  | entity (.struct _ base fields) =>
    (base.map getType).toList ++ fields.map fun f => f.toField.type
  | entity (.variant _ alternatives) => alternatives.map translateType
  | entity (.typedef _ target) => [translateType target]
  | action a => [a.type]
  | table t => [t.type]
  | ctable t => [t.type]

/-- Every name in a definition stands for something. -/
theorem Entity.ComponentsNamed.reads {e : Entity} (h : e.ComponentsNamed) {before : List Entity}
    (hadded : e.AddedTo before) : ∀ r ∈ (Recorded.entity e).refs, ∃ l, Reads before r l := by
  cases e with
  | struct name base fields =>
    intro r hr
    rcases List.mem_append.1 hr with hr | hr
    · obtain ⟨b, hb, rfl⟩ := Option.map_eq_some_iff.1 (Option.mem_toList.1 hr)
      obtain ⟨es, hes, hsub⟩ := hadded.1 b hb
      exact ⟨_, (h.1 b hb).reads hes hsub⟩
    · obtain ⟨f, hf, rfl⟩ := List.mem_map.1 hr
      exact (h.2 f hf).reads (hadded.2 f hf)
  | variant name alternatives =>
    intro r hr
    obtain ⟨t, ht, rfl⟩ := List.mem_map.1 hr
    exact ⟨_, (h t ht).reads_of_added (hadded t ht)⟩
  | typedef name target =>
    intro r hr
    rw [List.mem_singleton.1 hr]
    exact ⟨_, Named.reads_of_added h hadded⟩

theorem Sourced.addedTo {es : List Entity} (h : Sourced es) : ∀ e ∈ es, e.AddedTo es := by
  induction h with
  | nil => nofun
  | snoc _ he ih =>
    intro e hmem
    rcases List.mem_append.1 hmem with hmem | hmem
    · exact (ih e hmem).mono (List.subset_append_left _ _)
    · rw [List.mem_singleton.1 hmem]
      exact he.mono (List.subset_append_left _ _)

/-! ## What is in memory -/

section
variable {clauses : List AbiClause} {rs : List Recorded}

theorem mem_ofList_filterMap {α : Type} {key : α → Text} (as : Recorded → Option α) {x : α}
    (h : x ∈ (KeyedSet.ofList (rs.filterMap as) : KeyedSet key)) : ∃ r ∈ rs, as r = some x :=
  List.mem_filterMap.1 (KeyedSet.mem_of_mem_ofList h)

theorem exists_ofList_filterMap {α : Type} {key : α → Text} (as : Recorded → Option α) {x : α}
    {r : Recorded} (hr : r ∈ rs) (h : as r = some x) :
    ∃ y ∈ (KeyedSet.ofList (rs.filterMap as) : KeyedSet key), key y = key x :=
  KeyedSet.exists_key_ofList (List.mem_filterMap.2 ⟨r, hr, h⟩)

theorem refs_of_asStruct {r : Recorded} {s : AbiStruct} (h : r.asStruct = some s) :
    (s.base ≠ [] → s.base ∈ r.refs) ∧ ∀ f ∈ s.fields, f.type ∈ r.refs := by
  match r, h with
  | .entity (.struct name base fields), rfl =>
    refine ⟨fun hne => List.mem_append_left _ ?_, fun f hf => List.mem_append_right _ ?_⟩
    · cases base with
      | none => exact absurd rfl hne
      | some b => exact List.mem_cons_self
    · obtain ⟨source, hsource, rfl⟩ := List.mem_map.1 hf
      exact List.mem_map.2 ⟨source, hsource, rfl⟩

theorem refs_of_asVariant {r : Recorded} {v : AbiVariant} (h : r.asVariant = some v) :
    ∀ t ∈ v.types, t ∈ r.refs := by
  match r, h with
  | .entity (.variant name alternatives), rfl => exact fun t ht => ht

theorem refs_of_asTypedef {r : Recorded} {td : AbiTypedef} (h : r.asTypedef = some td) :
    td.type ∈ r.refs := by
  match r, h with
  | .entity (.typedef name target), rfl => exact List.mem_cons_self

theorem refs_of_asAction {r : Recorded} {a : AbiAction} (h : r.asAction = some a) :
    a.type ∈ r.refs := by
  match r, h with
  | .action a, rfl => exact List.mem_cons_self

theorem refs_of_asTable {r : Recorded} {t : AbiTable} (h : r.asTable = some t) :
    t.type ∈ r.refs := by
  match r, h with
  | .table t, rfl => exact List.mem_cons_self

theorem refs_of_asCtable {r : Recorded} {t : AbiTable} (h : r.asCtable = some t) :
    t.type ∈ r.refs := by
  match r, h with
  | .ctable t, rfl => exact List.mem_cons_self

/-- What is in memory refers to types only as what was recorded does. -/
theorem mem_refs_ofRecorded {t : Text} (h : t ∈ (Abigen.ofRecorded clauses rs).abi.refs) :
    ∃ r ∈ rs, t ∈ r.refs := by
  rcases Abi.mem_refs.1 h with ⟨s, hs, hne, rfl⟩ | ⟨s, hs, f, hf, rfl⟩ | ⟨td, htd, rfl⟩ |
    ⟨v, hv, ht⟩ | ⟨a, ha, rfl⟩ | ⟨tbl, htbl, rfl⟩
  · obtain ⟨r, hr, hs⟩ := mem_ofList_filterMap Recorded.asStruct hs
    exact ⟨r, hr, (refs_of_asStruct hs).1 hne⟩
  · obtain ⟨r, hr, hs⟩ := mem_ofList_filterMap Recorded.asStruct hs
    exact ⟨r, hr, (refs_of_asStruct hs).2 f hf⟩
  · obtain ⟨r, hr, htd⟩ := mem_ofList_filterMap Recorded.asTypedef htd
    exact ⟨r, hr, refs_of_asTypedef htd⟩
  · obtain ⟨r, hr, hv⟩ := mem_ofList_filterMap Recorded.asVariant hv
    exact ⟨r, hr, refs_of_asVariant hv t ht⟩
  · obtain ⟨r, hr, ha⟩ := mem_ofList_filterMap Recorded.asAction ha
    exact ⟨r, hr, refs_of_asAction ha⟩
  · rcases List.mem_append.1 htbl with htbl | htbl
    · obtain ⟨r, hr, htbl⟩ := mem_ofList_filterMap Recorded.asTable htbl
      exact ⟨r, hr, refs_of_asTable htbl⟩
    · obtain ⟨r, hr, htbl⟩ := mem_ofList_filterMap Recorded.asCtable htbl
      exact ⟨r, hr, refs_of_asCtable htbl⟩

/-- Every definition that was recorded has its name in memory. -/
theorem mem_names_ofRecorded {e : Entity} (h : .entity e ∈ rs) :
    e.name ∈ (Abigen.ofRecorded clauses rs).abi.names := by
  rw [Abi.mem_names]
  cases e with
  | struct name base fields =>
    exact .inl (exists_ofList_filterMap Recorded.asStruct h rfl)
  | variant name alternatives =>
    exact .inr (.inr (exists_ofList_filterMap Recorded.asVariant h rfl))
  | typedef name target =>
    exact .inr (.inl (exists_ofList_filterMap Recorded.asTypedef h rfl))

end

/-! ## The matchers -/

theorem mem_entitiesOf {rs : List Recorded} {e : Entity} : e ∈ entitiesOf rs ↔ .entity e ∈ rs := by
  rw [entitiesOf, List.mem_filterMap]
  constructor
  · rintro ⟨r, hr, he⟩
    match r, he with
    | .entity e, rfl => exact hr
  · exact fun h => ⟨_, h, rfl⟩

theorem entitiesOf_append (rs rs' : List Recorded) :
    entitiesOf (rs ++ rs') = entitiesOf rs ++ entitiesOf rs' := List.filterMap_append

theorem entitiesOf_map (es : List Entity) : entitiesOf (es.map .entity) = es := by
  rw [entitiesOf, List.filterMap_map]
  exact List.filterMap_some

/-- A struct, the action or table of its name, and the types of its fields once more. -/
structure Declares (r : Recorded) (name : Text) (rs : List Recorded) : Prop where
  ordered : Sourced (entitiesOf rs)
  entity : ∃ e, .entity e ∈ rs ∧ e.name = name
  mem : ∀ x ∈ rs, x = r ∨ ∃ e, x = .entity e

theorem Declares.intro {r : Recorded} {struct types : List Entity} {e : Entity}
    (hr : r.asEntity = none) (hstruct : Sourced struct) (htypes : Sourced types) (he : e ∈ struct) :
    Declares r e.name (struct.map .entity ++ r :: types.map .entity) := by
  constructor
  · have hsplit : entitiesOf (struct.map .entity ++ r :: types.map .entity) = struct ++ types := by
      have hcons : entitiesOf (r :: types.map .entity) = entitiesOf (types.map .entity) := by
        rw [entitiesOf, List.filterMap_cons_none hr]
        rfl
      rw [entitiesOf_append, hcons, entitiesOf_map, entitiesOf_map]
    rw [hsplit]
    exact hstruct.append htypes
  · exact ⟨e, List.mem_append_left _ (List.mem_map_of_mem he), rfl⟩
  · intro x hx
    rcases List.mem_append.1 hx with hx | hx
    · obtain ⟨e, -, rfl⟩ := List.mem_map.1 hx
      exact .inr ⟨e, rfl⟩
    · rcases List.mem_cons.1 hx with rfl | hx
      · exact .inl rfl
      · obtain ⟨e, -, rfl⟩ := List.mem_map.1 hx
        exact .inr ⟨e, rfl⟩

theorem ordered_addMethodStruct (m : MethodVisit) : (addMethodStruct m).Ordered := by
  refine ordered_snoc _ (fun r hr => ?_) fun before hbefore => addedTo_fields fun f hf => ?_
  · obtain ⟨p, -, rfl⟩ := List.mem_map.1 hr
    exact ordered_addType p.type
  · obtain ⟨p, hp, rfl⟩ := List.mem_map.1 hf
    exact .inr (hbefore _ (List.mem_map_of_mem hp))

theorem ordered_addFieldTypes (decl : CXXRecordDecl) : (addFieldTypes decl).Ordered := by
  obtain ⟨name, bases, fields⟩ := decl
  rw [addFieldTypes]
  refine ordered_all fun r hr => ?_
  obtain ⟨⟨name, type⟩, -, rfl⟩ := List.mem_map.1 hr
  exact ordered_addType type

theorem name_structEntity (decl : CXXRecordDecl) : (structEntity [] decl).name = decl.name := by
  obtain ⟨name, bases, fields⟩ := decl
  rfl

section
variable {rcs : Text → Text} {cn : Text}

/-- An action method, of the contract or not. -/
theorem visitMethod_spec {m : MethodVisit} {rs : List Recorded}
    (h : visitMethod rcs cn m = some rs) : rs = [] ∨
      Declares (.action ⟨m.decl.actionName, m.decl.name, rcs m.decl.actionName⟩) m.decl.name rs := by
  rw [visitMethod] at h
  split_ifs at h
  · simp only [bind, Option.bind_eq_some_iff, pure, Option.some.injEq] at h
    obtain ⟨struct, hstruct, types, htypes, rfl⟩ := h
    have hparams : (Recording.all (m.params.map fun p => addType p.declared)).Ordered := by
      refine ordered_all fun r hr => ?_
      obtain ⟨p, -, rfl⟩ := List.mem_map.1 hr
      exact ordered_addType p.declared
    have hmem : methodEntity m ∈ struct := mem_of_all hstruct (by simp)
    exact .inr (.intro rfl (ordered_addMethodStruct m struct hstruct) (hparams types htypes) hmem)
  · exact .inl (Option.some.inj h).symm

theorem visitActionRecord_spec {r : RecordVisit} {rs : List Recorded}
    (h : visitActionRecord rcs cn r = some rs) : rs = [] ∨ ∃ a : AbiAction,
      a.type = r.decl.name ∧ Declares (.action a) r.decl.name rs := by
  rw [visitActionRecord] at h
  split_ifs at h
  · simp only [bind, Option.bind_eq_some_iff, pure, Option.some.injEq] at h
    obtain ⟨struct, hstruct, a, ha, types, htypes, rfl⟩ := h
    have hdeclares := Declares.intro (r := .action a) rfl (ordered_addStruct_decl [] _ _ hstruct)
      (ordered_addFieldTypes _ _ htypes) (mem_addStruct hstruct)
    rw [name_structEntity] at hdeclares
    rw [recordAction] at ha
    split_ifs at ha
    exact .inr ⟨a, by rw [← Option.some.inj ha], hdeclares⟩
  · exact .inl (Option.some.inj h).symm

theorem visitTableRecord_spec {r : RecordVisit} {rs : List Recorded}
    (h : visitTableRecord cn r = some rs) :
    (r.isTableOf cn = false ∧ rs = []) ∨
      (r.isTableOf cn = true ∧ Declares (.ctable (declaredTable r)) r.decl.name rs) := by
  rw [visitTableRecord] at h
  split_ifs at h with htable
  · simp only [bind, Option.bind_eq_some_iff, pure, Option.some.injEq] at h
    obtain ⟨struct, hstruct, types, htypes, rfl⟩ := h
    have hdeclares := Declares.intro (r := .ctable (declaredTable r)) rfl
      (ordered_addStruct_decl [] _ _ hstruct) (ordered_addFieldTypes _ _ htypes)
      (mem_addStruct hstruct)
    rw [name_structEntity] at hdeclares
    exact .inr ⟨htable, hdeclares⟩
  · exact .inl ⟨eq_false_of_ne_true htable, (Option.some.inj h).symm⟩

/-- An action or a table is a reference to a struct of the same step. -/
def Recorded.Provided (rs : List Recorded) (x : Recorded) : Prop :=
  (∃ e, x = .entity e) ∨ ∃ e, .entity e ∈ rs ∧ x.refs = [e.name]

theorem Declares.provided {r : Recorded} {name : Text} {rs : List Recorded}
    (h : Declares r name rs) (hrefs : r.refs = [name]) : ∀ x ∈ rs, x.Provided rs := by
  intro x hx
  rcases h.mem x hx with rfl | hx
  · obtain ⟨e, he, hname⟩ := h.entity
    exact .inr ⟨e, he, hrefs.trans (by rw [hname])⟩
  · exact .inl hx

theorem Recorded.Provided.mono {rs rs' : List Recorded} (hsub : rs ⊆ rs') {x : Recorded}
    (h : x.Provided rs) : x.Provided rs' :=
  h.imp_right fun ⟨e, he, hrefs⟩ => ⟨e, hsub he, hrefs⟩

/-- What one visit records: definitions in order, and but for the rows of a table nothing that refers
elsewhere. -/
structure VisitSpec (cn : Text) (v : Visit) (rs : List Recorded) : Prop where
  ordered : Sourced (entitiesOf rs)
  provided : ∀ x ∈ rs, x.Provided rs ∨
    ∃ name r, v = .rows name r ∧ r.isTableOf cn = true ∧ x = .table ⟨name, r.decl.name, [], [], []⟩
  struct : ∀ r, v = .record r → r.isTableOf cn = true → ∃ e, .entity e ∈ rs ∧ e.name = r.decl.name

theorem visit_spec {v : Visit} {rs : List Recorded} (h : visit rcs cn v = some rs) :
    VisitSpec cn v rs := by
  cases v with
  | method m =>
    rcases visitMethod_spec h with rfl | hdeclares
    · exact ⟨.nil, nofun, nofun⟩
    · exact ⟨hdeclares.ordered, fun x hx => .inl (hdeclares.provided rfl x hx), nofun⟩
  | record r =>
    simp only [visit, bind, Option.bind_eq_some_iff, pure, Option.some.injEq] at h
    obtain ⟨action, haction, table, htable, rfl⟩ := h
    have hl : action ⊆ action ++ table := List.subset_append_left _ _
    have hr : table ⊆ action ++ table := List.subset_append_right _ _
    have haction : Sourced (entitiesOf action) ∧ ∀ x ∈ action, x.Provided action := by
      rcases visitActionRecord_spec haction with rfl | ⟨a, htype, hdeclares⟩
      · exact ⟨.nil, nofun⟩
      · exact ⟨hdeclares.ordered, hdeclares.provided (by rw [Recorded.refs, htype])⟩
    have htable : Sourced (entitiesOf table) ∧ (∀ x ∈ table, x.Provided table) ∧
        (r.isTableOf cn = true → ∃ e, .entity e ∈ table ∧ e.name = r.decl.name) := by
      rcases visitTableRecord_spec htable with ⟨hnot, rfl⟩ | ⟨-, hdeclares⟩
      · exact ⟨.nil, nofun, fun h => by rw [hnot] at h; cases h⟩
      · exact ⟨hdeclares.ordered, hdeclares.provided rfl, fun _ => hdeclares.entity⟩
    refine ⟨?_, fun x hx => .inl ?_, ?_⟩
    · rw [entitiesOf_append]
      exact haction.1.append htable.1
    · rcases List.mem_append.1 hx with hx | hx
      · exact (haction.2 x hx).mono hl
      · exact (htable.2.1 x hx).mono hr
    · rintro r' ⟨⟩ hr'
      obtain ⟨e, he, hname⟩ := htable.2.2 hr'
      exact ⟨e, hr he, hname⟩
  | rows name r =>
    obtain rfl := Option.some.inj h
    refine ⟨?_, fun x hx => .inr ?_, nofun⟩
    · split_ifs
      · exact .nil
      · exact .nil
    · split_ifs at hx with htable
      · exact ⟨name, r, rfl, htable, List.mem_singleton.1 hx⟩
      · exact absurd hx List.not_mem_nil

theorem visitAll_spec {vs : List Visit} {rs : List Recorded} (h : visitAll rcs cn vs = some rs) :
    Sourced (entitiesOf rs) ∧ (∀ v ∈ vs, ∃ rs', VisitSpec cn v rs' ∧ rs' ⊆ rs) ∧
      ∀ x ∈ rs, ∃ v ∈ vs, ∃ rs', VisitSpec cn v rs' ∧ x ∈ rs' ∧ rs' ⊆ rs := by
  induction vs generalizing rs with
  | nil =>
    obtain rfl := Option.some.inj h
    exact ⟨.nil, nofun, nofun⟩
  | cons v vs ih =>
    simp only [visitAll, bind, Option.bind_eq_some_iff, pure, Option.some.injEq] at h
    obtain ⟨rs₁, hrs₁, rs₂, hrs₂, rfl⟩ := h
    have hv := visit_spec hrs₁
    obtain ⟨hordered, hvisits, hmem⟩ := ih hrs₂
    have hl : rs₁ ⊆ rs₁ ++ rs₂ := List.subset_append_left _ _
    have hr : rs₂ ⊆ rs₁ ++ rs₂ := List.subset_append_right _ _
    refine ⟨?_, fun w hw => ?_, fun x hx => ?_⟩
    · rw [entitiesOf_append]
      exact hv.ordered.append hordered
    · rcases List.mem_cons.1 hw with rfl | hw
      · exact ⟨rs₁, hv, hl⟩
      · obtain ⟨rs', hrs', hsub⟩ := hvisits w hw
        exact ⟨rs', hrs', fun x hx => hr (hsub hx)⟩
    · rcases List.mem_append.1 hx with hx | hx
      · exact ⟨v, List.mem_cons_self, rs₁, hv, hx, hl⟩
      · obtain ⟨w, hw, rs', hrs', hx, hsub⟩ := hmem x hx
        exact ⟨w, List.mem_cons_of_mem _ hw, rs', hrs', hx, fun x hx => hr (hsub hx)⟩

/-- **The pass records definitions in order, and refers in actions and tables to structs that it
records.** -/
theorem record_spec {u : TypedUnit} {rs : List Recorded} (h : u.record rcs cn = some rs) :
    Sourced (entitiesOf rs) ∧ ∀ x ∈ rs, x.Provided rs := by
  obtain ⟨hordered, hvisits, hmem⟩ := visitAll_spec h
  refine ⟨hordered, fun x hx => ?_⟩
  obtain ⟨v, hv, rs', hrs', hx, hsub⟩ := hmem x hx
  rcases hrs'.provided x hx with hx | ⟨name, r, rfl, htable, rfl⟩
  · exact hx.mono hsub
  · obtain ⟨rs'', hrs'', hsub⟩ := hvisits _ (u.rows_visited name r hv)
    obtain ⟨e, he, hname⟩ := hrs''.struct r rfl htable
    exact .inr ⟨e, hsub he, by rw [hname]; rfl⟩

theorem insertAction_eq (ret : AbiAction) : ∀ actions : List AbiAction,
    insertAction ret actions = KeyedSet.insertList AbiAction.name ret actions
  | [] => rfl
  | a :: actions => by
    rw [insertAction, KeyedSet.insertList, insertAction_eq ret actions]
    split_ifs <;> rfl

theorem asAction_of_steps {r : Recorded} {struct types : List Entity} :
    (struct.map Recorded.entity ++ r :: types.map Recorded.entity).filterMap Recorded.asAction =
      r.asAction.toList := by
  have hnone : ∀ es : List Entity, (es.map Recorded.entity).filterMap Recorded.asAction = [] := by
    intro es
    rw [List.filterMap_map]
    exact List.filterMap_eq_nil_iff.2 fun _ _ => rfl
  rw [List.filterMap_append, hnone, List.nil_append, List.filterMap_cons, hnone]
  cases r.asAction <;> rfl

theorem asAction_visitTableRecord {r : RecordVisit} {rs : List Recorded}
    (h : visitTableRecord cn r = some rs) : rs.filterMap Recorded.asAction = [] := by
  rw [visitTableRecord] at h
  split_ifs at h
  · simp only [bind, Option.bind_eq_some_iff, pure, Option.some.injEq] at h
    obtain ⟨struct, -, types, -, rfl⟩ := h
    exact asAction_of_steps
  · rw [← Option.some.inj h]
    rfl

/-- One visit, on the actions recorded so far. -/
theorem abiPass_visit {v : Visit} {rs : List Recorded} (h : visit rcs cn v = some rs)
    (decls : List Decl) (actions : KeyedSet AbiAction.name) :
    abiPass rcs cn (v.decl.toList ++ decls) actions.1 = abiPass rcs cn decls
      ((rs.filterMap Recorded.asAction).foldl (fun s a => s.insert a) actions).1 := by
  cases v with
  | method m =>
    have h : visitMethod rcs cn m = some rs := h
    rw [visitMethod] at h
    rw [Visit.decl, Option.toList_some, List.singleton_append, abiPass]
    split_ifs at h ⊢
    · simp only [bind, Option.bind_eq_some_iff, pure, Option.some.injEq] at h
      obtain ⟨struct, -, types, -, rfl⟩ := h
      rw [asAction_of_steps, addActionMethod, insertAction_eq]
      rfl
    · rw [← Option.some.inj h]
      rfl
  | record r =>
    simp only [visit, bind, Option.bind_eq_some_iff, pure, Option.some.injEq] at h
    obtain ⟨action, haction, table, htable, rfl⟩ := h
    rw [List.filterMap_append, asAction_visitTableRecord htable, List.append_nil]
    rw [Visit.decl, Option.toList_some, List.singleton_append, abiPass]
    rw [visitActionRecord] at haction
    split_ifs at haction ⊢
    · simp only [bind, Option.bind_eq_some_iff, pure, Option.some.injEq] at haction
      obtain ⟨struct, -, a, ha, types, -, rfl⟩ := haction
      rw [recordAction] at ha
      split_ifs at ha with hvalid
      rw [asAction_of_steps, addActionRecord, if_pos hvalid, insertAction_eq,
        ← Option.some.inj ha]
      rfl
    · rw [← Option.some.inj haction]
      rfl
  | rows name r =>
    obtain rfl := Option.some.inj h
    split_ifs <;> rfl

theorem abiPass_visitAll {vs : List Visit} : ∀ {rs : List Recorded},
    visitAll rcs cn vs = some rs → ∀ actions : KeyedSet AbiAction.name,
    abiPass rcs cn (vs.filterMap Visit.decl) actions.1 =
      .ok ((rs.filterMap Recorded.asAction).foldl (fun s a => s.insert a) actions).1 := by
  induction vs with
  | nil =>
    intro rs h actions
    obtain rfl := Option.some.inj h
    rfl
  | cons v vs ih =>
    intro rs h actions
    simp only [visitAll, bind, Option.bind_eq_some_iff, pure, Option.some.injEq] at h
    obtain ⟨rs₁, hrs₁, rs₂, hrs₂, rfl⟩ := h
    have hdecls : (v :: vs).filterMap Visit.decl = v.decl.toList ++ vs.filterMap Visit.decl := by
      rw [List.filterMap_cons]
      cases v.decl <;> rfl
    rw [hdecls, abiPass_visit hrs₁, ih hrs₂, List.filterMap_append, List.foldl_append]

/-- **The actions in memory are those of the pass over the declarations of actions alone.** -/
theorem abiPass_record {u : TypedUnit} {rs : List Recorded} {clauses : List AbiClause}
    (h : u.record rcs cn = some rs) : abiPass rcs cn (u.visits.filterMap Visit.decl) [] =
      .ok (Abigen.ofRecorded clauses rs).actions.1 :=
  abiPass_visitAll h KeyedSet.empty

end

/-! ## A contract with one action -/

def intType : QualType := .scalar "int".toList "int32".toList

/-- `struct foo { int x; };` -/
def fooDecl : CXXRecordDecl := .mk "foo".toList [] [.mk "x".toList intType]

def fooType : QualType := .record "struct foo".toList fooDecl

def vectorDecl : CXXRecordDecl := .mk "vector".toList [] []

def vectorFooType : QualType :=
  .specialization "std::vector<foo>".toList true vectorDecl [fooType]

/-- The contract `demo` with the action `act`, whose one parameter is of type `t`. -/
def actUnit (t : QualType) : TypedUnit where
  visits := [.method
    { decl :=
        { canonical := 0, name := "act".toList, parent := ⟨"demo".toList, none, some []⟩,
          wasmAction := some [], wasmContract := none }
      params := [⟨"v".toList, t, t⟩] }]
  rows_visited := by simp

/-- What is recorded for `act(std::vector<foo> v)`. -/
def vectorRecorded : List Recorded :=
  [.entity (structEntity [] fooDecl),
    .entity (.struct "act".toList none [.field "v".toList vectorFooType]),
    .action ⟨"act".toList, "act".toList, []⟩, .entity (structEntity [] fooDecl)]

theorem record_vector :
    (actUnit vectorFooType).record (fun _ => []) "demo".toList = some vectorRecorded := by
  rfl

theorem named_vectorRecorded : ∀ x ∈ vectorRecorded, x.Named := by
  have hfoo : Named fooType := .cls (.record (by decide) (by decide))
  have hvector : Named vectorFooType := .wrapper (by decide) (by decide) hfoo
  have hint : Named intType := .builtin (by decide +kernel)
  have hact : Undecorated "act".toList := by decide
  have hstruct : (structEntity [] fooDecl).ComponentsNamed :=
    ⟨nofun, fun f hf => List.mem_singleton.1 hf ▸ hint⟩
  intro x hx
  rcases List.mem_cons.1 hx with rfl | hx
  · exact hstruct
  rcases List.mem_cons.1 hx with rfl | hx
  · exact ⟨nofun, fun f hf => List.mem_singleton.1 hf ▸ hvector⟩
  rcases List.mem_pair.1 hx with rfl | rfl
  · exact hact
  · exact hstruct

/-- `enum color : uint8_t { red };` -/
def colorType : QualType := .scalar "enum color".toList "uint8".toList

def pairType : QualType :=
  .specialization "std::pair<int, std::vector<foo> >".toList true
    (.mk "pair".toList [] [.mk "first".toList intType,
      .mk "second".toList (.record "class std::vector<struct foo>".toList vectorDecl)])
    [intType, vectorFooType]

/-- `box<std::vector<foo>>` of `template<class T> struct box { T value; };` -/
def boxType : QualType :=
  .specialization "box<std::vector<foo> >".toList false
    (.mk "box".toList []
      [.mk "value".toList (.record "class std::vector<struct foo>".toList vectorDecl)])
    [vectorFooType]

def recordedFor (t : QualType) : List Recorded :=
  ((actUnit t).record (fun _ => []) "demo".toList).getD []

end Cdt
