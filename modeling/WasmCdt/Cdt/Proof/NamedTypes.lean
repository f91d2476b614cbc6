import WasmCdt.Cdt.Layout

/-!
# Definitions are recorded under the names that refer to them

* `undecorated_iff`, `undecorated_of_builtin`: names without decorations.
* `Reads.resolves`: a name that stands for something is a builtin's or that of a definition.
* `reads_wrapper`, `reads_map`, `reads_pair`, `reads_product`, `reads_template`: one lemma for each
  kind of specialization.
* `Named.reads`: **the name of a named type stands for the type's layout.**
-/

namespace Cdt

open QualType

/-! ## Decorations -/

theorem undecorated_iff {t : Text} :
    Undecorated t ↔ ∀ c, t.getLast? = some c → isDecoration c = false := by
  rw [Undecorated, removeSuffix, List.reverse_eq_iff, List.getLast?_eq_head?_reverse]
  cases t.reverse with
  | nil => simp
  | cons c cs =>
    rw [List.dropWhile_cons]
    cases hc : isDecoration c with
    | true =>
      have hlen := (List.dropWhile_suffix isDecoration (l := cs)).length_le
      simp only [if_true, List.head?_cons, Option.some.injEq, forall_eq', hc]
      refine iff_of_false (fun h => ?_) nofun
      rw [h, List.length_cons] at hlen
      omega
    | false => simp [hc]

theorem removeSuffix_append {t : Text} {c : Char} (h : isDecoration c = true) :
    removeSuffix (t ++ [c]) = removeSuffix t := by
  rw [removeSuffix, removeSuffix, List.reverse_append, List.reverse_singleton,
    List.singleton_append, List.dropWhile_cons, if_pos h]

theorem not_undecorated {t : Text} {c : Char} (h : isDecoration c = true) :
    ¬Undecorated (t ++ [c]) := by
  intro hu
  have hc := undecorated_iff.1 hu c (by simp)
  rw [h] at hc
  cases hc

theorem isDecoration_replaceChar (c : Char) : isDecoration (replaceChar c) = isDecoration c := by
  rw [replaceChar]
  split_ifs with h
  · rcases h with rfl | rfl | rfl | rfl | rfl <;> rfl
  · rfl

theorem undecorated_replaceInName {t : Text} : Undecorated (replaceInName t) ↔ Undecorated t := by
  simp only [undecorated_iff, replaceInName, List.getLast?_map, Option.map_eq_some_iff]
  constructor
  · intro h c hc
    rw [← isDecoration_replaceChar]
    exact h _ ⟨c, hc, rfl⟩
  · rintro h _ ⟨c, hc, rfl⟩
    rw [isDecoration_replaceChar]
    exact h c hc

/-- A name after a separator. -/
theorem undecorated_append {s t : Text} (h : Undecorated t) : Undecorated (s ++ '_' :: t) := by
  rw [undecorated_iff] at h ⊢
  intro c hc
  rw [List.getLast?_append_of_ne_nil _ (List.cons_ne_nil _ _)] at hc
  cases t with
  | nil =>
    obtain rfl : '_' = c := by simpa using hc
    rfl
  | cons d t =>
    rw [List.getLast?_cons_cons] at hc
    exact h c hc

theorem undecorated_of_builtin {t : Text} (h : isBuiltinType t = true) : Undecorated t :=
  removeSuffix_of_builtin h

/-! ## What names stand for -/

namespace Reads

theorem mono {es es' : List Entity} (hsub : es ⊆ es') {r : Text} {l : Layout} (h : Reads es r l) :
    Reads es' r l := by
  induction h with
  | builtin h => exact .builtin h
  | entity he hbuiltin hname => exact .entity (hsub he) hbuiltin hname
  | extension _ ih => exact .extension ih
  | array _ ih => exact .array ih
  | optional _ ih => exact .optional ih

/-- A name that stands for something is a builtin's or that of a definition, up to decorations. -/
theorem resolves {es : List Entity} {r : Text} {l : Layout} (h : Reads es r l) :
    isBuiltinType (removeSuffix r) = true ∨ ∃ e ∈ es, e.name = removeSuffix r := by
  induction h with
  | builtin h =>
    have hu := undecorated_of_builtin h
    rw [Undecorated] at hu
    rw [hu]
    exact .inl h
  | entity he _ hname => exact .inr ⟨_, he, hname.symm⟩
  | extension _ ih => rwa [removeSuffix_append rfl]
  | @array r l _ ih =>
    have hsplit : r ++ "[]".toList = (r ++ ['[']) ++ [']'] := by simp
    rwa [hsplit, removeSuffix_append rfl, removeSuffix_append rfl]
  | optional _ ih => rwa [removeSuffix_append rfl]

end Reads

/-! ## Recordings -/

theorem all_eq_some {rs : List Recording} {es : List Entity} (h : Recording.all rs = some es) :
    ∀ r ∈ rs, ∃ es', r = some es' ∧ es' ⊆ es := by
  induction rs generalizing es with
  | nil => simp
  | cons r rs ih =>
    cases r with
    | none => cases h
    | some es₁ =>
      cases hrest : Recording.all rs with
      | none =>
        rw [Recording.all, hrest] at h
        cases h
      | some es₂ =>
        rw [Recording.all, hrest] at h
        obtain rfl : es₁ ++ es₂ = es := Option.some.inj h
        intro r hr
        rcases List.mem_cons.1 hr with rfl | hr
        · exact ⟨es₁, rfl, List.subset_append_left _ _⟩
        · obtain ⟨es', hes', hsub⟩ := ih hrest r hr
          exact ⟨es', hes', fun e he => List.mem_append_right _ (hsub he)⟩

theorem mem_of_all {rs : List Recording} {es : List Entity} {e : Entity}
    (h : Recording.all rs = some es) (he : some [e] ∈ rs) : e ∈ es := by
  obtain ⟨es', hes', hsub⟩ := all_eq_some h _ he
  rw [← Option.some.inj hes'] at hsub
  exact hsub List.mem_cons_self

theorem mem_addStruct {rname : Text} {decl : CXXRecordDecl} {es : List Entity}
    (h : addStruct rname decl = some es) : structEntity rname decl ∈ es := by
  obtain ⟨name, bases, fields⟩ := decl
  rw [addStruct] at h
  exact mem_of_all h (by simp)

theorem guardType_of_not {t : QualType} {addTypedef otherwise : Recording}
    (hbuiltin : t.isBuiltin = false) (halias : t.isAliasing = false) :
    guardType t addTypedef otherwise = otherwise := by
  simp [guardType, hbuiltin, halias]

theorem isAliasing_of_mem {t : QualType} (h : '<' ∈ getBaseTypeName t.printed) :
    t.isAliasing = false := by
  simp [isAliasing, h]

/-! ## Layouts -/

theorem layouts_eq_map : ∀ ts : List QualType, layouts ts = ts.map layout
  | [] => rfl
  | t :: ts => congrArg (t.layout :: ·) (layouts_eq_map ts)

/-- A type with a builtin's name is laid out as that builtin. -/
theorem layout_of_builtin {t : QualType} (h : t.isBuiltin = true) :
    t.layout = .builtin (translateText (translateType t)) := by
  cases t <;> exact if_pos h

theorem builtinOr_of_not {t : QualType} {l : Layout} (hb : t.isBuiltin = false) :
    builtinOr t l = l := if_neg (Bool.eq_false_iff.1 hb)

theorem layout_record {printed : Text} {decl : CXXRecordDecl}
    (hb : (QualType.record printed decl).isBuiltin = false) :
    (QualType.record printed decl).layout = declLayout decl := builtinOr_of_not hb

theorem layout_typedef {printed : Text} {desugar : QualType}
    (hb : (QualType.typedef printed desugar).isBuiltin = false) :
    (QualType.typedef printed desugar).layout = desugar.layout := builtinOr_of_not hb

theorem layout_specialization {printed : Text} {elaborated : Bool} {decl : CXXRecordDecl}
    {args : List QualType}
    (hb : (QualType.specialization printed elaborated decl args).isBuiltin = false) :
    (QualType.specialization printed elaborated decl args).layout =
      specializationLayout decl.name (args.map QualType.layout) (declLayout decl) := by
  rw [← layouts_eq_map]
  exact builtinOr_of_not hb

theorem fieldLayouts_eq_map : ∀ fields : List FieldDecl,
    fieldLayouts fields = (fields.map fieldSource).map fun f => f.type.layout
  | [] => rfl
  | .mk name type :: fields => by
    have hfield : (fieldSource (.mk name type)).type = type := by
      rw [fieldSource]
      split_ifs <;> rfl
    rw [List.map_cons, List.map_cons, hfield, ← fieldLayouts_eq_map fields]
    rfl

theorem baseLayouts_eq_map (bases : List QualType) :
    baseLayouts bases = (onlyBase bases).toList.map layout := by
  match bases with
  | [] => rfl
  | [_] => rfl
  | _ :: _ :: _ => rfl

theorem layout_structEntity (rname : Text) (decl : CXXRecordDecl) :
    (structEntity rname decl).layout = declLayout decl := by
  obtain ⟨name, bases, fields⟩ := decl
  change _ = Layout.sequence (baseLayouts bases ++ fieldLayouts fields)
  rw [baseLayouts_eq_map, fieldLayouts_eq_map]
  rfl

/-! ## Names of classes -/

theorem translateTypes_cons (t : QualType) (ts : List QualType) :
    translateTypes (t :: ts) = translateType t :: translateTypes ts := rfl

theorem translateType_specialization (printed : Text) (elaborated : Bool) (decl : CXXRecordDecl)
    (args : List QualType) : translateType (.specialization printed elaborated decl args) =
      specializationName decl.name (translateTypes args) (args.map ownName) := rfl

/-- An ignored type and its argument have one name. -/
theorem getType_eq (t : QualType) : getType t = translateType t := by
  rw [getType]
  match t with
  | .scalar _ _ => rfl
  | .record _ _ => rfl
  | .typedef _ _ => rfl
  | .specialization _ _ _ [] => rfl
  | .specialization printed elaborated decl (arg :: args) =>
    rw [getIgnoredType]
    split_ifs with hignore
    · have hname : decl.name = "ignore".toList := of_decide_eq_true hignore
      exact (if_pos hname).symm
    · rfl

theorem reads_of_builtin {t : QualType} {es : List Entity} (h : t.isBuiltin = true) :
    Reads es (translateType t) t.layout := by
  rw [layout_of_builtin h]
  exact .builtin h

theorem translateType_record {printed : Text} {decl : CXXRecordDecl}
    (h : (QualType.record printed decl).isBuiltin = false) :
    translateType (.record printed decl) = getBaseTypeName printed := by
  exact translateText_eq h

theorem translateType_typedef {printed : Text} {desugar : QualType}
    (h : (QualType.typedef printed desugar).isBuiltin = false) :
    translateType (.typedef printed desugar) = getBaseTypeName printed := by
  exact translateText_eq h

theorem NamedClass.not_isAliasing {t : QualType} (h : NamedClass t) (hb : t.isBuiltin = false) :
    t.isAliasing = false := by
  cases h with
  | @record printed decl hname hsuffix =>
    have heq : getTypeAliasString (.record printed decl) = getBaseTypeName printed := by
      rw [getTypeAliasString, getType_eq, translateType_record hb]
      nofun
    simp [isAliasing, hb, heq, QualType.printed]
  | @typedef printed desugar hname h =>
    simp [isAliasing, hb, getTypeAliasString, hname, QualType.printed]

theorem NamedClass.add {t : QualType} (h : NamedClass t) (hb : t.isBuiltin = false) :
    addType t = addCanonical t ∧ addIgnored t = addCanonical t := by
  have halias := h.not_isAliasing hb
  cases h with
  | record =>
    rw [addType, addIgnored, addCanonical]
    exact ⟨guardType_of_not hb halias, guardType_of_not hb halias⟩
  | typedef =>
    rw [addType, addIgnored, addCanonical]
    exact ⟨guardType_of_not hb halias, guardType_of_not hb halias⟩

theorem NamedClass.reads {t : QualType} (h : NamedClass t) (hb : t.isBuiltin = false)
    {es : List Entity} (hes : addCanonical t = some es) : Reads es (translateType t) t.layout := by
  induction h with
  | @record printed decl hname hsuffix =>
    have hentity : (structEntity [] decl).name = translateType (.record printed decl) := by
      rw [translateType_record hb, hname]
      obtain ⟨name, bases, fields⟩ := decl
      rfl
    have hlayout : (QualType.record printed decl).layout = (structEntity [] decl).layout := by
      rw [layout_record hb, layout_structEntity]
    rw [addCanonical] at hes
    rw [hlayout, ← hentity]
    refine .entity (mem_addStruct hes) ?_ ?_
    · rw [hentity]
      exact hb
    · rw [hentity, translateType_record hb, hname]
      exact hsuffix
  | @typedef printed desugar hname h ih =>
    have htext : translateType (.typedef printed desugar) = translateType desugar := by
      rw [translateType_typedef hb, hname, getType_eq]
    have hlayout := layout_typedef hb
    rw [addCanonical] at hes
    rw [isBuiltin, htext] at hb
    rw [htext, hlayout]
    exact ih hb hes

/-! ## Names of specializations -/

section
variable {printed : Text} {elaborated : Bool} {decl : CXXRecordDecl} {args : List QualType}

theorem mem_wrappers {name : Text} (h : name ∈ wrappers) : name = "ignore".toList ∨
    name = "binary_extension".toList ∨ name ∈ sequences ∨ name = "optional".toList := by
  have hsplit : wrappers = sequences ++
    ["optional".toList, "binary_extension".toList, "ignore".toList] := rfl
  rw [hsplit, List.mem_append] at h
  simp only [List.mem_cons, List.not_mem_nil, or_false] at h
  tauto

theorem addIgnored_specialization
    (hb : (QualType.specialization printed elaborated decl args).isBuiltin = false)
    (hprinted : '<' ∈ getBaseTypeName printed) :
    addIgnored (.specialization printed elaborated decl args) =
      addSpecialization (.specialization printed elaborated decl args) elaborated decl.name args
        (addTypes args) (addStruct (getTemplateName decl args) decl) := by
  rw [addIgnored]
  exact guardType_of_not hb (isAliasing_of_mem hprinted)

theorem addType_specialization (h : decl.name ≠ "ignore".toList) :
    addType (.specialization printed elaborated decl args) =
      addIgnored (.specialization printed elaborated decl args) := by
  have hnot : ¬decl.isWasmIgnore = true := fun hignore => h (of_decide_eq_true hignore)
  rw [addType, addIgnored, if_neg hnot]

/-- A container stands for what its argument stands for, decorated. -/
theorem reads_wrapper {arg : QualType} {es : List Entity} (hname : decl.name ∈ wrappers)
    (h : Reads es (translateType arg) arg.layout) :
    Reads es (translateType (.specialization printed elaborated decl (arg :: args)))
      (QualType.layout (.specialization printed elaborated decl (arg :: args))) := by
  cases hb : (QualType.specialization printed elaborated decl (arg :: args)).isBuiltin with
  | true => exact reads_of_builtin hb
  | false =>
    rw [layout_specialization hb, List.map_cons]
    rw [isBuiltin] at hb
    rw [translateType_specialization, translateTypes_cons] at hb ⊢
    rcases mem_wrappers hname with hname | hname | hname | hname
    · rw [specializationName, if_pos hname, specializationLayout, if_pos hname]
      exact h
    · rw [specializationName, specializationLayout, hname]
      exact h.extension
    · have hignore : decl.name ≠ "ignore".toList := ne_of_mem_of_not_mem hname (by decide)
      have hext : decl.name ≠ "binary_extension".toList := ne_of_mem_of_not_mem hname (by decide)
      rw [specializationName, if_neg hignore, if_neg hext, if_pos hname] at hb ⊢
      rw [specializationLayout, if_neg hignore, if_neg hext, if_pos hname]
      split_ifs at hb ⊢
      · exact absurd hb (by decide)
      · exact h.array
    · rw [specializationName, specializationLayout, hname]
      exact h.optional

/-- The entity that a specialization is recorded as. -/
theorem reads_entity {t : QualType} {e : Entity} {es : List Entity} (hb : t.isBuiltin = false)
    (he : e ∈ es) (hname : e.name = translateType t) (hlayout : t.layout = e.layout)
    (hsuffix : Undecorated (translateType t)) : Reads es (translateType t) t.layout := by
  rw [isBuiltin] at hb
  rw [← hname] at hb hsuffix ⊢
  rw [hlayout]
  exact .entity he hb hsuffix

theorem reads_pair {first second : QualType} {es : List Entity}
    (hb : (QualType.specialization printed elaborated decl (first :: second :: args)).isBuiltin =
      false)
    (hname : decl.name = "pair".toList) (hsuffix : Undecorated (translateType second))
    (hes : addPair (.specialization printed elaborated decl (first :: second :: args))
      (first :: second :: args) (addTypes (first :: second :: args)) = some es) :
    Reads es (translateType (.specialization printed elaborated decl (first :: second :: args)))
      (QualType.layout (.specialization printed elaborated decl (first :: second :: args))) := by
  have hmem : pairEntity (.specialization printed elaborated decl (first :: second :: args)) first
      second ∈ es := mem_of_all hes (by simp)
  refine reads_entity hb hmem (getType_eq _) ?_ ?_
  · rw [layout_specialization hb, hname]
    rfl
  · rw [translateType_specialization, hname]
    exact undecorated_replaceInName.2 (undecorated_append hsuffix)

theorem reads_map {first second : QualType} {es : List Entity}
    (hb : (QualType.specialization printed elaborated decl (first :: second :: args)).isBuiltin =
      false)
    (hname : decl.name = "map".toList) (hsuffix : Undecorated (translateType second))
    (hes : addMap (.specialization printed elaborated decl (first :: second :: args))
      (first :: second :: args) (addTypes (first :: second :: args)) = some es) :
    Reads es (translateType (.specialization printed elaborated decl (first :: second :: args)))
      (QualType.layout (.specialization printed elaborated decl (first :: second :: args))) := by
  have hmem := mem_of_all hes (e := mapEntity
    (.specialization printed elaborated decl (first :: second :: args)) first second) (by simp)
  let pair := "pair_".toList ++ translateType first ++ '_' :: translateType second
  have htext : translateType (.specialization printed elaborated decl (first :: second :: args)) =
      replaceInName pair ++ "[]".toList := by
    have hreplace : replaceInName (pair ++ "[]".toList) = replaceInName pair ++ "[]".toList :=
      List.map_append
    rw [translateType_specialization, hname, ← hreplace]
    rfl
  have hentity : (mapEntity (.specialization printed elaborated decl (first :: second :: args))
      first second).name = replaceInName pair := by
    rw [mapEntity, getType_eq, htext]
    simp [Entity.name]
  have hpair : replaceInName pair =
      "pair_".toList ++ replaceInName (translateType first ++ '_' :: translateType second) := by
    simp only [pair, replaceInName, List.append_assoc, List.map_append]
    rfl
  rw [layout_specialization hb, hname, htext, ← hentity]
  refine .array (.entity hmem ?_ ?_)
  · rw [hentity, hpair]
    exact not_builtin_pair _
  · rw [hentity]
    exact undecorated_replaceInName.2 (undecorated_append hsuffix)

theorem reads_product {es : List Entity}
    (hb : (QualType.specialization printed elaborated decl args).isBuiltin = false)
    (hname : decl.name = "tuple".toList ∨ decl.name = "variant".toList)
    (hsuffix : Undecorated (translateType (.specialization printed elaborated decl args)))
    {addClass : Recording}
    (hes : addSpecialization (.specialization printed elaborated decl args) elaborated decl.name
      args (addTypes args) addClass = some es) :
    Reads es (translateType (.specialization printed elaborated decl args))
      (QualType.layout (.specialization printed elaborated decl args)) := by
  rcases hname with hname | hname
  · rw [hname, addSpecialization, if_neg (by decide), if_neg (by decide), if_neg (by decide),
      if_pos rfl, addTuple] at hes
    split_ifs at hes
    have hmem : tupleEntity (.specialization printed elaborated decl args) args ∈ es :=
      mem_of_all hes (by simp)
    refine reads_entity hb hmem (getType_eq _) ?_ hsuffix
    rw [layout_specialization hb, hname, tupleEntity, Entity.layout]
    have hargs : (args.mapIdx fun i arg => FieldSource.component
        ("field_".toList ++ Nat.toDigits 10 i) arg).map (fun f => f.type.layout) =
          args.map QualType.layout := by
      apply List.ext_getElem <;> simp [FieldSource.type]
    rw [hargs]
    rfl
  · rw [hname, addSpecialization, if_neg (by decide), if_neg (by decide), if_neg (by decide),
      if_neg (by decide), if_pos rfl, addVariant] at hes
    split_ifs at hes
    have hmem : Entity.variant (getType (.specialization printed elaborated decl args)) args ∈ es :=
      mem_of_all hes (by simp)
    refine reads_entity hb hmem (getType_eq _) ?_ hsuffix
    rw [layout_specialization hb, hname]
    rfl

theorem getTemplateName_ne_nil (decl : CXXRecordDecl) (args : List QualType) :
    getTemplateName decl args ≠ [] :=
  translateText_ne_nil (by simp [replaceInName])

theorem reads_template {es : List Entity}
    (hb : (QualType.specialization printed elaborated decl args).isBuiltin = false)
    (hname : decl.name ∉ handled)
    (hargs : getTemplateName decl args =
      translateType (.specialization printed elaborated decl args))
    (hsuffix : Undecorated (getTemplateName decl args))
    (hes : addSpecialization (.specialization printed elaborated decl args) elaborated decl.name
      args (addTypes args) (addStruct (getTemplateName decl args) decl) = some es) :
    Reads es (translateType (.specialization printed elaborated decl args))
      (QualType.layout (.specialization printed elaborated decl args)) := by
  have hne : ∀ n ∈ handled, decl.name ≠ n := fun n hn h => hname (h ▸ hn)
  have hwrapper : decl.name ∉ wrappers := fun h => hname (List.mem_append_left _ h)
  have hmap := hne "map".toList (by decide)
  have hpair := hne "pair".toList (by decide)
  have htuple := hne "tuple".toList (by decide)
  have hvariant := hne "variant".toList (by decide)
  rw [addSpecialization, if_neg hwrapper, if_neg hmap, if_neg hpair, if_neg htuple,
    if_neg hvariant] at hes
  have hentity : (structEntity (getTemplateName decl args) decl).name =
      translateType (.specialization printed elaborated decl args) := by
    rw [← hargs]
    obtain ⟨name, bases, fields⟩ := decl
    exact if_pos (getTemplateName_ne_nil _ _)
  refine reads_entity hb (mem_addStruct hes) hentity ?_ (hargs ▸ hsuffix)
  have hsequence : decl.name ∉ sequences := fun h =>
    hwrapper ((by decide : ∀ n ∈ sequences, n ∈ wrappers) _ h)
  rw [layout_specialization hb, layout_structEntity, specializationLayout,
    if_neg (hne "ignore".toList (by decide)), if_neg (hne "binary_extension".toList (by decide)),
    if_neg hsequence, if_neg (hne "optional".toList (by decide)), if_neg hmap, if_neg hpair,
    if_neg htuple, if_neg hvariant]

/-- The two ways to add a specialization are one, except for an ignored type. -/
theorem reads_specialization {es : List Entity} (hprinted : '<' ∈ getBaseTypeName printed)
    (hignore : decl.name ≠ "ignore".toList)
    (h : (QualType.specialization printed elaborated decl args).isBuiltin = false →
      addSpecialization (.specialization printed elaborated decl args) elaborated decl.name args
        (addTypes args) (addStruct (getTemplateName decl args) decl) = some es →
      Reads es (translateType (.specialization printed elaborated decl args))
        (QualType.layout (.specialization printed elaborated decl args))) :
    (addType (.specialization printed elaborated decl args) = some es →
      Reads es (translateType (.specialization printed elaborated decl args))
        (QualType.layout (.specialization printed elaborated decl args))) ∧
    (addIgnored (.specialization printed elaborated decl args) = some es →
      Reads es (translateType (.specialization printed elaborated decl args))
        (QualType.layout (.specialization printed elaborated decl args))) := by
  rw [addType_specialization hignore, and_self]
  intro hes
  cases hb : (QualType.specialization printed elaborated decl args).isBuiltin with
  | true => exact reads_of_builtin hb
  | false => exact h hb (addIgnored_specialization hb hprinted ▸ hes)

end

/-! ## Named types -/

/-- **A named type's name stands for its layout**, with what is recorded for it. -/
theorem Named.reads {t : QualType} (h : Named t) : ∀ {es : List Entity},
    (addType t = some es → Reads es (translateType t) t.layout) ∧
      (addIgnored t = some es → Reads es (translateType t) t.layout) := by
  induction h with
  | builtin hb => exact ⟨fun _ => reads_of_builtin hb, fun _ => reads_of_builtin hb⟩
  | @cls t h =>
    intro es
    cases hb : t.isBuiltin with
    | true => exact ⟨fun _ => reads_of_builtin hb, fun _ => reads_of_builtin hb⟩
    | false =>
      rw [(h.add hb).1, (h.add hb).2]
      exact ⟨h.reads hb, h.reads hb⟩
  | @typedef printed desugar halias hsuffix =>
    intro es
    have hb : (QualType.typedef printed desugar).isBuiltin = false := by
      by_contra hb
      rw [isAliasing, if_pos (by simpa using hb)] at halias
      cases halias
    have hreads : guardType (.typedef printed desugar)
        (Recording.all [if desugar.isBuiltin then some [] else addType desugar,
          some [.typedef (getBaseTypeName printed) desugar]]) (addCanonical desugar) = some es →
        Reads es (translateType (.typedef printed desugar))
          (QualType.layout (.typedef printed desugar)) := by
      intro hes
      rw [guardType, hb, halias] at hes
      have hmem : Entity.typedef (getBaseTypeName printed) desugar ∈ es := mem_of_all hes (by simp)
      refine reads_entity hb hmem (translateType_typedef hb).symm ?_ ?_
      · exact layout_typedef hb
      · rw [translateType_typedef hb]
        exact hsuffix
    rw [addType, addIgnored]
    exact ⟨hreads, hreads⟩
  | @wrapper printed elaborated decl arg args hprinted hname h ih =>
    intro es
    cases hb : (QualType.specialization printed elaborated decl (arg :: args)).isBuiltin with
    | true => exact ⟨fun _ => reads_of_builtin hb, fun _ => reads_of_builtin hb⟩
    | false =>
      have hignored : addIgnored (.specialization printed elaborated decl (arg :: args)) =
          addType arg := by
        rw [addIgnored_specialization hb hprinted, addSpecialization, if_pos hname]
        rfl
      refine ⟨fun hes => reads_wrapper hname ?_, fun hes => reads_wrapper hname ?_⟩
      · rw [addType] at hes
        split_ifs at hes with hignore
        · exact ih.2 hes
        · rw [← addIgnored, hignored] at hes
          exact ih.1 hes
      · rw [hignored] at hes
        exact ih.1 hes
  | @pair printed elaborated decl first second args hprinted hname hsuffix =>
    intro es
    rcases hname with hname | hname
    · refine reads_specialization hprinted (by rw [hname]; decide) fun hb hes => ?_
      refine reads_map hb hname hsuffix ?_
      rwa [hname, addSpecialization, if_neg (by decide), if_pos rfl] at hes
    · refine reads_specialization hprinted (by rw [hname]; decide) fun hb hes => ?_
      refine reads_pair hb hname hsuffix ?_
      rwa [hname, addSpecialization, if_neg (by decide), if_neg (by decide), if_pos rfl] at hes
  | @product printed elaborated decl args hprinted hname hsuffix =>
    intro es
    have hignore : decl.name ≠ "ignore".toList := by
      rcases hname with hname | hname <;> rw [hname] <;> decide
    exact reads_specialization hprinted hignore fun hb hes => reads_product hb hname hsuffix hes
  | @template printed elaborated decl args hprinted hname hargs hsuffix =>
    intro es
    have hignore : decl.name ≠ "ignore".toList := fun h => hname (h ▸ by decide)
    exact reads_specialization hprinted hignore fun hb hes =>
      reads_template hb hname hargs hsuffix hes

end Cdt
