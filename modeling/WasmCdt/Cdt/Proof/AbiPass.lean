import WasmCdt.Cdt.Proof.NamedTypes

/-!
# The order of the pass

* `Sourced`: every definition comes after those of its types.
* `ordered_addType`: **whatever `add_type` records is in that order.**
-/

namespace Cdt

open QualType

/-! ## The order of recording -/

/-- What is recorded for a type was recorded before. -/
def Added (before : List Entity) (t : QualType) : Prop :=
  t.isBuiltin = true ∨ ∃ es, addType t = some es ∧ es ⊆ before

def FieldSource.AddedTo (before : List Entity) : FieldSource → Prop
  | field _ type => Added before type
  | component _ type => Added before type
  | extensions _ => extensionEntity ∈ before

/-- What is recorded for the types of a definition was recorded before. -/
def Entity.AddedTo (before : List Entity) : Entity → Prop
  | struct _ base fields =>
    (∀ b ∈ base, ∃ es, addCanonical b = some es ∧ es ⊆ before) ∧ ∀ f ∈ fields, f.AddedTo before
  | variant _ alternatives => ∀ t ∈ alternatives, Added before t
  | typedef _ target => Added before target

/-- A struct without a base. -/
theorem addedTo_fields {before : List Entity} {name : Text} {fields : List FieldSource}
    (h : ∀ f ∈ fields, f.AddedTo before) : (Entity.struct name none fields).AddedTo before :=
  ⟨nofun, h⟩

theorem Added.mono {before before' : List Entity} (hsub : before ⊆ before') {t : QualType}
    (h : Added before t) : Added before' t :=
  h.imp_right fun ⟨es, hes, hmem⟩ => ⟨es, hes, fun _ he => hsub (hmem he)⟩

theorem FieldSource.AddedTo.mono {before before' : List Entity} (hsub : before ⊆ before')
    {f : FieldSource} (h : f.AddedTo before) : f.AddedTo before' := by
  cases f with
  | field | component => exact Added.mono hsub h
  | extensions => exact hsub h

theorem Entity.AddedTo.mono {before before' : List Entity} (hsub : before ⊆ before') {e : Entity}
    (h : e.AddedTo before) : e.AddedTo before' := by
  cases e with
  | struct name base fields =>
    refine ⟨fun b hb => ?_, fun f hf => (h.2 f hf).mono hsub⟩
    obtain ⟨es, hes, hmem⟩ := h.1 b hb
    exact ⟨es, hes, fun _ he => hsub (hmem he)⟩
  | variant => exact fun t ht => (h t ht).mono hsub
  | typedef => exact Added.mono hsub h

/-- Every definition comes after those of its types. -/
inductive Sourced : List Entity → Prop
  | nil : Sourced []
  | snoc {es : List Entity} {e : Entity} (h : Sourced es) (he : e.AddedTo es) : Sourced (es ++ [e])

theorem Sourced.append {es es' : List Entity} (h : Sourced es) (h' : Sourced es') :
    Sourced (es ++ es') := by
  induction h' with
  | nil => rwa [List.append_nil]
  | snoc _ he ih =>
    rw [← List.append_assoc]
    exact .snoc ih (he.mono (List.subset_append_right _ _))

/-- Whatever is recorded is in order. -/
def Recording.Ordered (r : Recording) : Prop := ∀ es, r = some es → Sourced es

theorem ordered_nil : Recording.Ordered (some []) := by
  rintro es ⟨⟩
  exact .nil

theorem ordered_none : Recording.Ordered none := nofun

theorem ordered_all {rs : List Recording} (h : ∀ r ∈ rs, r.Ordered) :
    (Recording.all rs).Ordered := by
  induction rs with
  | nil => exact ordered_nil
  | cons r rs ih =>
    intro es hes
    cases r with
    | none => cases hes
    | some es₁ =>
      cases hrest : Recording.all rs with
      | none =>
        rw [Recording.all, hrest] at hes
        cases hes
      | some es₂ =>
        rw [Recording.all, hrest] at hes
        obtain rfl : es₁ ++ es₂ = es := Option.some.inj hes
        refine (h _ List.mem_cons_self es₁ rfl).append (ih (fun r hr => ?_) es₂ hrest)
        exact h r (List.mem_cons_of_mem _ hr)

theorem all_append {rs : List Recording} {e : Entity} :
    Recording.all (rs ++ [some [e]]) = (Recording.all rs).map (· ++ [e]) := by
  induction rs with
  | nil => rfl
  | cons r rs ih =>
    rw [List.cons_append, Recording.all, Recording.all, ih]
    cases r with
    | none => rfl
    | some es => cases Recording.all rs <;> simp

/-- A definition after the recordings of its types. -/
theorem ordered_snoc (rs : List Recording) {e : Entity} (h : ∀ r ∈ rs, r.Ordered)
    (he : ∀ before, (∀ r ∈ rs, ∃ es, r = some es ∧ es ⊆ before) → e.AddedTo before) :
    (Recording.all (rs ++ [some [e]])).Ordered := by
  intro es hes
  rw [all_append] at hes
  obtain ⟨es₁, hes₁, rfl⟩ := Option.map_eq_some_iff.1 hes
  exact .snoc (ordered_all h es₁ hes₁) (he es₁ (all_eq_some hes₁))

theorem ordered_guardType {t : QualType} {addTypedef otherwise : Recording}
    (h : addTypedef.Ordered) (h' : otherwise.Ordered) :
    (guardType t addTypedef otherwise).Ordered := by
  rw [guardType]
  split_ifs
  · exact ordered_nil
  · exact h
  · exact h'

theorem ordered_addMap {t : QualType} {args : List QualType}
    (h : ∀ r ∈ args.map addType, r.Ordered) : (addMap t args (args.map addType)).Ordered := by
  match args with
  | [] | [_] => exact ordered_none
  | key :: value :: args =>
    have hkey := h (addType key) (by simp)
    have hvalue := h (addType value) (by simp)
    refine ordered_snoc [addType key, addType value, addType key, addType value]
      (by simp [hkey, hvalue]) fun before hbefore => addedTo_fields fun f hf => ?_
    have hkey := hbefore (addType key) (by simp)
    have hvalue := hbefore (addType value) (by simp)
    rcases List.mem_pair.1 hf with rfl | rfl
    · exact .inr hkey
    · exact .inr hvalue

theorem ordered_addPair {t : QualType} {args : List QualType}
    (h : ∀ r ∈ args.map addType, r.Ordered) : (addPair t args (args.map addType)).Ordered := by
  match args with
  | [] | [_] => exact ordered_none
  | first :: second :: args =>
    have hfirst := h (addType first) (by simp)
    have hsecond := h (addType second) (by simp)
    refine ordered_snoc [addType first, addType second, addType first, addType second]
      (by simp [hfirst, hsecond]) fun before hbefore => addedTo_fields fun f hf => ?_
    have hfirst := hbefore (addType first) (by simp)
    have hsecond := hbefore (addType second) (by simp)
    rcases List.mem_pair.1 hf with rfl | rfl
    · exact .inr hfirst
    · exact .inr hsecond

theorem added_args {before : List Entity} {args : List QualType}
    (h : ∀ r ∈ args.map addType, ∃ es, r = some es ∧ es ⊆ before) :
    ∀ t ∈ args, Added before t :=
  fun _ ht => .inr (h _ (List.mem_map_of_mem ht))

theorem ordered_addTuple {t : QualType} {elaborated : Bool} {args : List QualType}
    (h : ∀ r ∈ args.map addType, r.Ordered) :
    (addTuple t elaborated args (args.map addType)).Ordered := by
  rw [addTuple]
  split_ifs
  · refine ordered_snoc _ h fun before hbefore => addedTo_fields fun f hf => ?_
    obtain ⟨i, hi, rfl⟩ := List.mem_mapIdx.1 hf
    exact added_args hbefore _ (List.getElem_mem hi)
  · exact ordered_none

theorem ordered_addVariant {t : QualType} {elaborated : Bool} {args : List QualType}
    (h : ∀ r ∈ args.map addType, r.Ordered) :
    (addVariant t elaborated args (args.map addType)).Ordered := by
  rw [addVariant]
  split_ifs
  · exact ordered_snoc _ h fun before hbefore => added_args hbefore
  · exact ordered_none

theorem ordered_addSpecialization {t : QualType} {elaborated : Bool} {name : Text}
    {args : List QualType} {addClass : Recording} (h : ∀ r ∈ args.map addType, r.Ordered)
    (hclass : addClass.Ordered) :
    (addSpecialization t elaborated name args (args.map addType) addClass).Ordered := by
  rw [addSpecialization]
  split_ifs
  · cases args with
    | nil => exact ordered_none
    | cons arg args => exact h _ List.mem_cons_self
  · exact ordered_addMap h
  · exact ordered_addPair h
  · exact ordered_addTuple h
  · exact ordered_addVariant h
  · exact hclass

theorem addTypes_eq_map : ∀ ts : List QualType, addTypes ts = ts.map addType
  | [] => by rw [addTypes, List.map_nil]
  | t :: ts => by rw [addTypes, addTypes_eq_map ts, List.map_cons]

theorem ordered_addTypedef {printed : Text} {desugar : QualType} (h : (addType desugar).Ordered) :
    (Recording.all [if desugar.isBuiltin then some [] else addType desugar,
      some [.typedef (getBaseTypeName printed) desugar]]).Ordered := by
  refine ordered_snoc [if desugar.isBuiltin then some [] else addType desugar]
    (fun r hr => ?_) fun before hbefore => ?_
  · rw [List.mem_singleton.1 hr]
    split_ifs
    · exact ordered_nil
    · exact h
  · have hadded := hbefore _ List.mem_cons_self
    split_ifs at hadded with hb
    · exact .inl hb
    · exact .inr hadded

/-- The fields of a struct, after `addFields`. -/
theorem fields_addedTo {before : List Entity} : ∀ {fields : List FieldDecl} {es : List Entity},
    addFields fields = some es → es ⊆ before → ∀ f ∈ fields.map fieldSource, f.AddedTo before
  | [], _, _, _ => nofun
  | .mk name type :: fields, es, hes, hsub => by
    rw [addFields] at hes
    obtain ⟨es₁, hes₁, hsub₁⟩ := all_eq_some hes _ List.mem_cons_self
    obtain ⟨es₂, hes₂, hsub₂⟩ := all_eq_some hes _ (List.mem_cons_of_mem _ List.mem_cons_self)
    intro f hf
    rcases List.mem_cons.1 hf with rfl | hf
    · rw [fieldSource]
      split_ifs at hes₁ ⊢
      · rw [← Option.some.inj hes₁] at hsub₁
        exact hsub (hsub₁ List.mem_cons_self)
      · exact .inr ⟨es₁, hes₁, fun e he => hsub (hsub₁ he)⟩
    · exact fields_addedTo hes₂ (fun e he => hsub (hsub₂ he)) f hf

theorem base_addedTo {before es : List Entity} {bases : List QualType}
    (hes : addBases bases = some es) (hsub : es ⊆ before) :
    ∀ b ∈ onlyBase bases, ∃ es, addCanonical b = some es ∧ es ⊆ before := by
  match bases with
  | [] | _ :: _ :: _ => nofun
  | [base] =>
    rintro b ⟨⟩
    rw [addBases] at hes
    exact ⟨es, hes, hsub⟩

theorem ordered_addStruct {rname : Text} {name : Text} {bases : List QualType}
    {fields : List FieldDecl} (hbases : (addBases bases).Ordered)
    (hfields : (addFields fields).Ordered) :
    (addStruct rname (.mk name bases fields)).Ordered := by
  rw [addStruct]
  refine ordered_snoc [addBases bases, addFields fields] (by simp [hbases, hfields])
    fun before hbefore => ?_
  obtain ⟨es₁, hes₁, hsub₁⟩ := hbefore _ List.mem_cons_self
  obtain ⟨es₂, hes₂, hsub₂⟩ := hbefore _ (List.mem_cons_of_mem _ List.mem_cons_self)
  exact ⟨base_addedTo hes₁ hsub₁, fields_addedTo hes₂ hsub₂⟩

theorem ordered_extension : Recording.Ordered (some [extensionEntity]) := by
  rintro es ⟨⟩
  refine .snoc .nil (addedTo_fields fun f hf => ?_)
  rcases List.mem_pair.1 hf with rfl | rfl <;> exact .inl (by decide +kernel)

mutual

/-- **Definitions are recorded after those of their types.** -/
theorem ordered_addType : ∀ t : QualType, (addType t).Ordered
  | .scalar printed wire => by
    rw [addType]
    exact ordered_guardType ordered_nil ordered_nil
  | .record printed decl => by
    rw [addType]
    exact ordered_guardType ordered_nil (ordered_addStruct_decl [] decl)
  | .specialization printed elaborated decl args => by
    rw [addType, addTypes_eq_map]
    split_ifs
    · exact ordered_addIgnoredArg args
    · exact ordered_guardType ordered_nil (ordered_addSpecialization (ordered_addTypes args)
        (ordered_addStruct_decl _ decl))
  | .typedef printed desugar => by
    rw [addType]
    exact ordered_guardType (ordered_addTypedef (ordered_addType desugar))
      (ordered_addCanonical desugar)

theorem ordered_addIgnored : ∀ t : QualType, (addIgnored t).Ordered
  | .scalar printed wire => by
    rw [addIgnored]
    exact ordered_guardType ordered_nil ordered_nil
  | .record printed decl => by
    rw [addIgnored]
    exact ordered_guardType ordered_nil (ordered_addStruct_decl [] decl)
  | .specialization printed elaborated decl args => by
    rw [addIgnored, addTypes_eq_map]
    exact ordered_guardType ordered_nil (ordered_addSpecialization (ordered_addTypes args)
      (ordered_addStruct_decl _ decl))
  | .typedef printed desugar => by
    rw [addIgnored]
    exact ordered_guardType (ordered_addTypedef (ordered_addType desugar))
      (ordered_addCanonical desugar)

theorem ordered_addIgnoredArg : ∀ args : List QualType, (addIgnoredArg args).Ordered
  | [] => by
    rw [addIgnoredArg]
    nofun
  | arg :: args => by
    rw [addIgnoredArg]
    exact ordered_addIgnored arg

theorem ordered_addTypes : ∀ ts : List QualType, ∀ r ∈ ts.map addType, r.Ordered
  | [], _, hr => absurd hr List.not_mem_nil
  | t :: ts, r, hr => by
    rcases List.mem_cons.1 hr with rfl | hr
    · exact ordered_addType t
    · exact ordered_addTypes ts r hr

theorem ordered_addCanonical : ∀ t : QualType, (addCanonical t).Ordered
  | .scalar _ _ => by
    rw [addCanonical]
    exact ordered_nil
  | .record _ decl => by
    rw [addCanonical]
    exact ordered_addStruct_decl [] decl
  | .specialization _ _ decl _ => by
    rw [addCanonical]
    exact ordered_addStruct_decl [] decl
  | .typedef _ desugar => by
    rw [addCanonical]
    exact ordered_addCanonical desugar

theorem ordered_addStruct_decl (rname : Text) : ∀ decl : CXXRecordDecl,
    (addStruct rname decl).Ordered
  | .mk _ bases fields => ordered_addStruct (ordered_addBases bases) (ordered_addFields fields)

theorem ordered_addBases : ∀ bases : List QualType, (addBases bases).Ordered
  | [] => by
    rw [addBases]
    · exact ordered_nil
    · nofun
  | [base] => by
    rw [addBases]
    exact ordered_addCanonical base
  | _ :: _ :: _ => by
    rw [addBases]
    · exact ordered_nil
    · nofun

theorem ordered_addFields : ∀ fields : List FieldDecl, (addFields fields).Ordered
  | [] => by
    rw [addFields]
    exact ordered_nil
  | .mk name type :: fields => by
    rw [addFields]
    refine ordered_all fun r hr => ?_
    rcases List.mem_pair.1 hr with rfl | rfl
    · split_ifs
      · exact ordered_extension
      · exact ordered_addType type
    · exact ordered_addFields fields

end

end Cdt
