import WasmCdt.Cdt.Proof.AbiClosed

/-!
# When no names are confused

* `Reads.unique`: where one name has one layout, a type name stands for one layout.
* `Entity.Same.layout_eq`: two definitions that are the same as far as one looks at their own types
  have one layout.
* `coherent_of_sourced`: by induction over the order of recording, all definitions do.
* `coherent_of_noClash`: **in a run in which no step records a definition under the name of a different
  one, one name has one layout in every state, and no definition is lost.**
-/

namespace Cdt

open QualType

/-! ## Type names stand for one layout -/

theorem Reads.decorated {es : List Entity} {r : Text} {l : Layout} (h : Reads es r l)
    (hu : ¬Undecorated r) :
    (∃ r' l', r = r' ++ ['$'] ∧ l = .extension l' ∧ Reads es r' l') ∨
      (∃ r' l', r = r' ++ "[]".toList ∧ l = .array l' ∧ Reads es r' l') ∨
      ∃ r' l', r = r' ++ ['?'] ∧ l = .optional l' ∧ Reads es r' l' := by
  cases h with
  | builtin h => exact absurd (undecorated_of_builtin h) hu
  | entity _ _ hname => exact absurd hname hu
  | extension h => exact .inl ⟨_, _, rfl, rfl, h⟩
  | array h => exact .inr (.inl ⟨_, _, rfl, rfl, h⟩)
  | optional h => exact .inr (.inr ⟨_, _, rfl, rfl, h⟩)

theorem not_undecorated_brackets (t : Text) : ¬Undecorated (t ++ "[]".toList) := by
  have hsplit : t ++ "[]".toList = (t ++ ['[']) ++ [']'] := by simp
  rw [hsplit]
  exact not_undecorated rfl

theorem Reads.undecorated {es : List Entity} {r : Text} {l : Layout} (h : Reads es r l)
    (hu : Undecorated r) : (isBuiltinType r = true ∧ l = .builtin (translateText r)) ∨
      (isBuiltinType r = false ∧ ∃ e ∈ es, e.name = r ∧ l = e.layout) := by
  cases h with
  | builtin h => exact .inl ⟨h, rfl⟩
  | entity he hbuiltin _ => exact .inr ⟨hbuiltin, _, he, rfl, rfl⟩
  | extension => exact absurd hu (not_undecorated rfl)
  | array => exact absurd hu (not_undecorated_brackets _)
  | optional => exact absurd hu (not_undecorated rfl)

/-- **Where one name has one layout, so has a type name.** -/
theorem Reads.unique {es : List Entity} (hes : Coherent es) {r : Text} {l l' : Layout}
    (h : Reads es r l) (h' : Reads es r l') : l = l' := by
  induction h generalizing l' with
  | builtin hb =>
    rcases h'.undecorated (undecorated_of_builtin hb) with ⟨-, rfl⟩ | ⟨hnot, -⟩
    · rfl
    · rw [hb] at hnot
      cases hnot
  | entity he hbuiltin hname =>
    rcases h'.undecorated hname with ⟨hb, -⟩ | ⟨-, e', he', heq, rfl⟩
    · rw [hb] at hbuiltin
      cases hbuiltin
    · exact hes _ he _ he' heq.symm
  | @extension r l h ih =>
    rcases h'.decorated (not_undecorated rfl) with ⟨r', l'', heq, rfl, hr⟩ | ⟨r', _, heq, -, -⟩ |
      ⟨r', _, heq, -, -⟩
    · rw [← List.append_cancel_right heq] at hr
      rw [ih hr]
    · exact absurd (congrArg List.getLast? heq) (by simp)
    · exact absurd (congrArg List.getLast? heq) (by simp)
  | @array r l h ih =>
    rcases h'.decorated (not_undecorated_brackets _) with ⟨r', _, heq, -, -⟩ |
      ⟨r', l'', heq, rfl, hr⟩ | ⟨r', _, heq, -, -⟩
    · exact absurd (congrArg List.getLast? heq) (by simp)
    · rw [← List.append_cancel_right heq] at hr
      rw [ih hr]
    · exact absurd (congrArg List.getLast? heq) (by simp)
  | @optional r l h ih =>
    rcases h'.decorated (not_undecorated rfl) with ⟨r', _, heq, -, -⟩ | ⟨r', _, heq, -, -⟩ |
      ⟨r', l'', heq, rfl, hr⟩
    · exact absurd (congrArg List.getLast? heq) (by simp)
    · exact absurd (congrArg List.getLast? heq) (by simp)
    · rw [← List.append_cancel_right heq] at hr
      rw [ih hr]

/-! ## Definitions of one name -/

theorem SameType.layout_eq {before : List Entity} (hes : Coherent before) {t t' : QualType}
    (h : SameType t t') (ht : Added before t) (ht' : Added before t') : t.layout = t'.layout := by
  rcases h with rfl | ⟨htext, hnamed, hnamed'⟩
  · rfl
  · have hreads := hnamed.reads_of_added ht
    rw [htext] at hreads
    exact hreads.unique hes (hnamed'.reads_of_added ht')

theorem SameBase.layout_eq {before es es' : List Entity} (hes : Coherent before) {b b' : QualType}
    (h : SameBase b b') (hb : addCanonical b = some es) (hsub : es ⊆ before)
    (hb' : addCanonical b' = some es') (hsub' : es' ⊆ before) : b.layout = b'.layout := by
  rcases h with rfl | ⟨htext, hnamed, hnamed'⟩
  · rfl
  · have hreads := hnamed.reads hb hsub
    rw [htext] at hreads
    exact hreads.unique hes (hnamed'.reads hb' hsub')

theorem FieldSource.Same.layout_eq {before : List Entity} (hes : Coherent before)
    {f f' : FieldSource} (h : f.Same f') (hf : f.AddedTo before) (hf' : f'.AddedTo before) :
    f.type.layout = f'.type.layout := by
  match f, f', h with
  | .extensions type, .extensions type', h => exact congrArg QualType.layout h
  | .field _ _, .field _ _, h => exact SameType.layout_eq hes h hf hf'
  | .field _ _, .component _ _, h => exact SameType.layout_eq hes h hf hf'
  | .component _ _, .field _ _, h => exact SameType.layout_eq hes h hf hf'
  | .component _ _, .component _ _, h => exact SameType.layout_eq hes h hf hf'

theorem map_eq_of_forall₂ {α β γ : Type} {R : α → β → Prop} {f : α → γ} {g : β → γ} {l : List α}
    {l' : List β} (h : List.Forall₂ R l l') (hfg : ∀ a ∈ l, ∀ b ∈ l', R a b → f a = g b) :
    l.map f = l'.map g := by
  induction h with
  | nil => rfl
  | @cons a b l l' hab h ih =>
    rw [List.map_cons, List.map_cons, hfg a List.mem_cons_self b List.mem_cons_self hab,
      ih fun a ha b hb => hfg a (List.mem_cons_of_mem _ ha) b (List.mem_cons_of_mem _ hb)]

/-- **Two definitions that are the same as far as one looks at their own types have one layout**, if
what was recorded before has. -/
theorem Entity.Same.layout_eq {before : List Entity} (hes : Coherent before) {e e' : Entity}
    (h : e.Same e') (he : e.AddedTo before) (he' : e'.AddedTo before) : e.layout = e'.layout := by
  match e, e', h with
  | .struct _ base fields, .struct _ base' fields', ⟨hbase, hfields⟩ =>
    have hbases : base.toList.map QualType.layout = base'.toList.map QualType.layout := by
      cases hbase with
      | none => rfl
      | @some b b' hb =>
        obtain ⟨es, hes₁, hsub⟩ := he.1 b rfl
        obtain ⟨es', hes₂, hsub'⟩ := he'.1 b' rfl
        exact congrArg (fun l => [l]) (hb.layout_eq hes hes₁ hsub hes₂ hsub')
    have hparts := map_eq_of_forall₂ (f := fun f => f.type.layout) (g := fun f => f.type.layout)
      hfields fun f hf f' hf' hsame => hsame.layout_eq hes (he.2 f hf) (he'.2 f' hf')
    rw [Entity.layout, Entity.layout, hbases, hparts]
  | .variant _ ts, .variant _ ts', h =>
    have hparts := map_eq_of_forall₂ (f := QualType.layout) (g := QualType.layout) h
      fun t ht t' ht' hsame => SameType.layout_eq hes hsame (he t ht) (he' t' ht')
    rw [Entity.layout, Entity.layout, hparts]
  | .typedef _ t, .typedef _ t', h => exact SameType.layout_eq hes h he he'

theorem SameType.symm {t t' : QualType} (h : SameType t t') : SameType t' t :=
  h.imp Eq.symm fun ⟨htext, hnamed, hnamed'⟩ => ⟨htext.symm, hnamed', hnamed⟩

theorem SameBase.symm {t t' : QualType} (h : SameBase t t') : SameBase t' t :=
  h.imp Eq.symm fun ⟨htext, hnamed, hnamed'⟩ => ⟨htext.symm, hnamed', hnamed⟩

theorem FieldSource.Same.symm {f f' : FieldSource} (h : f.Same f') : f'.Same f := by
  match f, f', h with
  | .extensions _, .extensions _, h => exact Eq.symm h
  | .field _ _, .field _ _, h => exact SameType.symm h
  | .field _ _, .component _ _, h => exact SameType.symm h
  | .component _ _, .field _ _, h => exact SameType.symm h
  | .component _ _, .component _ _, h => exact SameType.symm h

theorem FieldSource.Same.refl (f : FieldSource) : f.Same f := by
  cases f with
  | field | component => exact .inl rfl
  | extensions => rfl

theorem Entity.Same.refl (e : Entity) : e.Same e := by
  cases e with
  | struct name base fields =>
    refine ⟨?_, List.forall₂_same.2 fun f _ => FieldSource.Same.refl f⟩
    cases base with
    | none => exact .none
    | some b => exact .some (.inl rfl)
  | variant name alternatives => exact List.forall₂_same.2 fun t _ => .inl rfl
  | typedef name target => exact .inl rfl

theorem Entity.Same.symm {e e' : Entity} (h : e.Same e') : e'.Same e := by
  match e, e', h with
  | .struct _ _ _, .struct _ _ _, ⟨hbase, hfields⟩ =>
    refine ⟨?_, hfields.flip.imp fun _ _ h => FieldSource.Same.symm h⟩
    cases hbase with
    | none => exact .none
    | some hb => exact .some hb.symm
  | .variant _ _, .variant _ _, h => exact h.flip.imp fun _ _ h => SameType.symm h
  | .typedef _ _, .typedef _ _, h => exact SameType.symm h

/-- The fields of the same type are written alike. -/
theorem FieldSource.Same.type_eq {f f' : FieldSource} (h : f.Same f') :
    f.toField.type = f'.toField.type := by
  have htext : ∀ {t t' : QualType}, SameType t t' → translateType t = translateType t' :=
    fun h => h.elim (fun h => h ▸ rfl) fun h => h.1
  match f, f', h with
  | .extensions _, .extensions _, _ => rfl
  | .field _ _, .field _ _, h => exact (getType_eq _).trans ((htext h).trans (getType_eq _).symm)
  | .field _ _, .component _ _, h => exact (getType_eq _).trans (htext h)
  | .component _ _, .field _ _, h => exact (htext h).trans (getType_eq _).symm
  | .component _ _, .component _ _, h => exact htext h

/-- A definition that is kept is that of every other one that is the same. -/
theorem Abigen.Keeps.of_same {g : Abigen} {e e' : Entity} (h : g.Keeps e) (hname : e.name = e'.name)
    (hsame : e.Same e') : g.Keeps e' := by
  match e, e', hsame with
  | .struct _ base fields, .struct _ base' fields', ⟨hbase, hfields⟩ =>
    obtain ⟨s, hs, hsname, hsbase, hsfields⟩ := h
    refine ⟨s, hs, hsname.trans hname, hsbase.trans ?_, hsfields.trans ?_⟩
    · cases hbase with
      | none => rfl
      | some hb => exact hb.elim (fun h => h ▸ rfl) fun h => h.1
    · exact map_eq_of_forall₂ hfields fun f _ f' _ hf => hf.type_eq
  | .variant _ _, .variant _ _, hsame =>
    obtain ⟨v, hv, hvname, hvtypes⟩ := h
    refine ⟨v, hv, hvname.trans hname, hvtypes.trans ?_⟩
    exact map_eq_of_forall₂ hsame fun t _ t' _ ht => ht.elim (fun h => h ▸ rfl) fun h => h.1
  | .typedef _ _, .typedef _ _, hsame =>
    obtain ⟨td, htd, htdname, htype⟩ := h
    exact ⟨td, htd, htdname.trans hname, htype.trans (hsame.elim (fun h => h ▸ rfl) fun h => h.1)⟩

/-! ## Runs -/

/-- Definitions of one name are the same. -/
def SameByName (es : List Entity) : Prop := ∀ e ∈ es, ∀ e' ∈ es, e.name = e'.name → e.Same e'

theorem coherent_of_sourced {es : List Entity} (h : Sourced es) (hsame : SameByName es) :
    Coherent es := by
  induction h with
  | nil => nofun
  | @snoc es e hes he ih =>
    have hcoherent : Coherent es := ih fun e he e' he' =>
      hsame e (List.mem_append_left _ he) e' (List.mem_append_left _ he')
    have hlast : ∀ e' ∈ es, e'.name = e.name → e'.layout = e.layout := by
      intro e' he' hname
      have hsame := hsame e' (List.mem_append_left _ he') e (by simp) hname
      exact hsame.layout_eq hcoherent (hes.addedTo e' he') he
    intro e₁ he₁ e₂ he₂ hname
    rcases List.mem_append.1 he₁ with he₁ | he₁ <;> rcases List.mem_append.1 he₂ with he₂ | he₂
    · exact hcoherent e₁ he₁ e₂ he₂ hname
    · rw [List.mem_singleton.1 he₂] at hname ⊢
      exact hlast e₁ he₁ hname
    · rw [List.mem_singleton.1 he₁] at hname ⊢
      exact (hlast e₂ he₂ hname.symm).symm
    · rw [List.mem_singleton.1 he₁, List.mem_singleton.1 he₂]

theorem sourced_of_append {es es' : List Entity} (h : Sourced (es ++ es')) : Sourced es := by
  induction es' using List.reverseRecOn with
  | nil => rwa [List.append_nil] at h
  | append_singleton es' e ih =>
    rw [← List.append_assoc] at h
    generalize hl : es ++ es' ++ [e] = l at h
    cases h with
    | nil => simp at hl
    | snoc h _ =>
      obtain ⟨rfl, -⟩ := List.append_inj' hl rfl
      exact ih h

/-- In a state after steps without a clash definitions of one name are the same. -/
theorem sameByName_of_noClash {rs : List Recorded}
    (hsteps : ∀ before x after, rs = before ++ x :: after → x.NoClash before) :
    SameByName (entitiesOf rs) := by
  induction rs using List.reverseRecOn with
  | nil => nofun
  | append_singleton rs x ih =>
    have hrs : SameByName (entitiesOf rs) := ih fun before y after h =>
      hsteps before y (after ++ [x]) (by rw [h, List.append_assoc, List.cons_append])
    have hx : x.NoClash rs := hsteps rs x [] rfl
    rw [entitiesOf_append]
    cases x with
    | entity e =>
      intro e₁ he₁ e₂ he₂ hname
      have hlast : entitiesOf [.entity e] = [e] := rfl
      rw [hlast] at he₁ he₂
      rcases List.mem_append.1 he₁ with he₁ | he₁ <;> rcases List.mem_append.1 he₂ with he₂ | he₂
      · exact hrs e₁ he₁ e₂ he₂ hname
      · rw [List.mem_singleton.1 he₂] at hname ⊢
        exact hx e₁ he₁ hname
      · rw [List.mem_singleton.1 he₁] at hname ⊢
        exact (hx e₂ he₂ hname.symm).symm
      · rw [List.mem_singleton.1 he₁, List.mem_singleton.1 he₂]
        exact .refl e
    | action | table | ctable =>
      have hnil : SameByName (entitiesOf rs ++ []) := by rwa [List.append_nil]
      exact hnil

/-- The first definition of each name is kept, and with it all that are the same. -/
theorem keeps_of_sameByName {clauses : List AbiClause} {rs : List Recorded}
    (h : SameByName (entitiesOf rs)) {e : Entity} (he : e ∈ entitiesOf rs) :
    (Abigen.ofRecorded clauses rs).Keeps e := by
  have hkept : ∃ e' ∈ entitiesOf rs, e'.name = e.name ∧ (Abigen.ofRecorded clauses rs).Keeps e' := by
    have hmem := mem_entitiesOf.1 he
    cases e with
    | struct name base fields =>
      obtain ⟨s, hs, hname⟩ : ∃ s ∈ (Abigen.ofRecorded clauses rs).structs, s.name = name :=
        exists_ofList_filterMap Recorded.asStruct hmem rfl
      obtain ⟨r, hr, hrs⟩ := mem_ofList_filterMap Recorded.asStruct hs
      match r, hrs with
      | .entity (.struct _ _ _), rfl =>
        exact ⟨_, mem_entitiesOf.2 hr, hname, _, hs, rfl, rfl, List.map_map⟩
    | variant name alternatives =>
      obtain ⟨v, hv, hname⟩ : ∃ v ∈ (Abigen.ofRecorded clauses rs).variants, v.name = name :=
        exists_ofList_filterMap Recorded.asVariant hmem rfl
      obtain ⟨r, hr, hrv⟩ := mem_ofList_filterMap Recorded.asVariant hv
      match r, hrv with
      | .entity (.variant _ _), rfl => exact ⟨_, mem_entitiesOf.2 hr, hname, _, hv, rfl, rfl⟩
    | typedef name target =>
      obtain ⟨td, htd, hname⟩ : ∃ td ∈ (Abigen.ofRecorded clauses rs).typedefs,
          td.newTypeName = name := exists_ofList_filterMap Recorded.asTypedef hmem rfl
      obtain ⟨r, hr, hrtd⟩ := mem_ofList_filterMap Recorded.asTypedef htd
      match r, hrtd with
      | .entity (.typedef _ _), rfl => exact ⟨_, mem_entitiesOf.2 hr, hname, _, htd, rfl, rfl⟩
  obtain ⟨e', he', hname, hkeeps⟩ := hkept
  exact hkeeps.of_same hname (h e' he' e he hname)

/-- `act(std::vector<foo> v)` records `foo` twice. -/
theorem noClash_vectorRecorded (before : List Recorded) (x : Recorded) (after : List Recorded)
    (h : vectorRecorded = before ++ x :: after) : x.NoClash before := by
  have hsame : SameByName [structEntity [] fooDecl,
      .struct "act".toList none [.field "v".toList vectorFooType], structEntity [] fooDecl] := by
    intro e he e' he' hname
    simp only [List.mem_cons, List.not_mem_nil, or_false] at he he'
    rcases he with rfl | rfl | rfl <;> rcases he' with rfl | rfl | rfl <;>
      first | exact .refl _ | exact absurd hname (by decide)
  have hentities : SameByName (entitiesOf before ++ entitiesOf (x :: after)) := by
    rw [← entitiesOf_append, ← h]
    exact hsame
  cases x with
  | entity e =>
    intro e' he' hname
    exact hentities e' (List.mem_append_left _ he') e (List.mem_append_right _ List.mem_cons_self)
      hname
  | action | table | ctable => trivial

/-- `std::pair<a::foo, b::foo>` of `namespace a { struct foo { int x; }; }` and
`namespace b { struct foo { unsigned long long x; }; }` -/
def twoFoosType : QualType :=
  .specialization "std::pair<a::foo, b::foo>".toList true (.mk "pair".toList [] [])
    [.record "struct a::foo".toList fooDecl,
      .record "struct b::foo".toList (.mk "foo".toList [] [.mk "x".toList
        (.scalar "unsigned long long".toList "uint64".toList)])]

end Cdt
