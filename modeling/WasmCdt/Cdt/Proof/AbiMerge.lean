import WasmCdt.Cdt.AbiMerge

/-!
# What a merged ABI means

* `addObject_eq`: one section merges exactly when the definitions with one name pass its test, and
  then to the first document's definitions and the second's new ones.
* `structIsSame` accepts fields in another order, `variantIsSame` further alternatives; the other
  tests decide equality (`typeIsSame_iff`, `actionIsSame_iff`, `tableIsSame_iff`).
* `merge_sound_iff`: the merge keeps every wire layout exactly when no accepted pair is `Shuffled`
  or `Widened`.
-/

namespace Cdt

/-! ## One section -/

section
variable {α : Type} {id : α → Text} {isSame : α → α → Bool}

/-- The definitions of both documents that share a name pass the test. -/
def Compatible (id : α → Text) (isSame : α → α → Bool) (as bs : List α) : Prop :=
  ∀ x ∈ as, ∀ y ∈ bs, id x = id y → isSame x y = true

theorem shouldSkip_eq {y : α} : ∀ {as : List α} {skip : Bool},
    (∀ x ∈ as, id x = id y → isSame x y = true) →
    shouldSkip id isSame y as skip = .ok (skip || as.any fun x => id x = id y)
  | [], skip, _ => by simp [shouldSkip]
  | x :: as, skip, h => by
    have ih : ∀ s, shouldSkip id isSame y as s = .ok (s || as.any fun x => id x = id y) :=
      fun _ => shouldSkip_eq fun z hz => h z (.tail _ hz)
    rw [shouldSkip]
    by_cases hid : id x = id y
    · rw [if_pos hid, if_pos (h x (.head _) hid), ih]
      simp [hid]
    · rw [if_neg hid, ih]
      simp [hid]

theorem same_of_shouldSkip {y : α} : ∀ {as : List α} {skip skip' : Bool},
    shouldSkip id isSame y as skip = .ok skip' → ∀ x ∈ as, id x = id y → isSame x y = true
  | x :: as, skip, skip', h, z, hz, hid => by
    rw [shouldSkip] at h
    split at h
    · split at h
      · rename_i hsame
        rcases List.mem_cons.1 hz with rfl | hz
        · exact hsame
        · exact same_of_shouldSkip h z hz hid
      · cases h
    · rename_i hne
      rcases List.mem_cons.1 hz with rfl | hz
      · exact absurd hid hne
      · exact same_of_shouldSkip h z hz hid

theorem addLoop_eq {as : List α} : ∀ {bs : List α}, Compatible id isSame as bs →
    addLoop id isSame as bs = .ok (bs.filter fun y => !as.any fun x => id x = id y)
  | [], _ => rfl
  | y :: bs, h => by
    have hy : ∀ x ∈ as, id x = id y → isSame x y = true := fun x hx => h x hx y (.head _)
    have hbs : Compatible id isSame as bs := fun x hx z hz => h x hx z (.tail _ hz)
    simp only [addLoop, shouldSkip_eq hy, addLoop_eq hbs, bind, Except.bind, Bool.false_or,
      List.filter_cons]
    cases as.any fun x => decide (id x = id y) <;> rfl

theorem compatible_of_addLoop {as : List α} : ∀ {bs l : List α},
    addLoop id isSame as bs = .ok l → Compatible id isSame as bs
  | [], _, _ => fun _ _ _ hz => nomatch hz
  | y :: bs, l, h => by
    rw [addLoop] at h
    cases hskip : shouldSkip id isSame y as false with
    | error e =>
      rw [hskip] at h
      cases h
    | ok skip =>
      rw [hskip] at h
      cases hrest : addLoop id isSame as bs with
      | error e =>
        rw [hrest] at h
        cases h
      | ok rest =>
        intro x hx z hz
        rcases List.mem_cons.1 hz with rfl | hz
        · exact same_of_shouldSkip hskip x hx
        · exact compatible_of_addLoop hrest x hx z hz

/-- **One section.** -/
theorem addObject_eq {as bs : List α} (h : Compatible id isSame as bs) :
    addObject id isSame as bs = .ok (as ++ bs.filter fun y => !as.any fun x => id x = id y) := by
  rw [addObject, addLoop_eq h]
  rfl

theorem compatible_of_addObject {as bs l : List α} (h : addObject id isSame as bs = .ok l) :
    Compatible id isSame as bs := by
  unfold addObject at h
  cases hl : addLoop id isSame as bs with
  | error e =>
    rw [hl] at h
    cases h
  | ok added => exact compatible_of_addLoop hl

end

/-! ## Layouts -/

section
variable {α L : Type}

/-- Every definition of the two lists has one of its name and layout in `merged`. -/
def Keeps (id : α → Text) (layout : α → L) (as bs merged : List α) : Prop :=
  ∀ x, x ∈ as ∨ x ∈ bs → ∃ y ∈ merged, id y = id x ∧ layout y = layout x

/-- Definitions of one name have one layout. -/
def Agree (id : α → Text) (layout : α → L) (as bs : List α) : Prop :=
  ∀ x ∈ as, ∀ y ∈ bs, id x = id y → layout x = layout y

/-- What is merged under agreement keeps every layout. -/
theorem Agree.keeps {id : α → Text} {layout : α → L} {as bs : List α} (h : Agree id layout as bs) :
    Keeps id layout as bs (as ++ bs.filter fun y => !as.any fun x => id x = id y) := by
  rintro x (hx | hx)
  · exact ⟨x, List.mem_append_left _ hx, rfl, rfl⟩
  · by_cases hdup : as.any (fun z => id z = id x) = true
    · obtain ⟨z, hz, hid⟩ := List.any_eq_true.1 hdup
      have hid : id z = id x := of_decide_eq_true hid
      exact ⟨z, List.mem_append_left _ hz, hid, h z hz x hx hid⟩
    · exact ⟨x, List.mem_append_right _ (List.mem_filter.2 ⟨hx, by simpa using hdup⟩), rfl, rfl⟩

end

def AbiStruct.layout (s : AbiStruct) : Text × List AbiField := (s.base, s.fields)

def AbiTable.layout (t : AbiTable) : Text × Text × List Text × List Text :=
  (t.type, t.indexType, t.keyNames, t.keyTypes)

theorem typeIsSame_iff {a b : AbiTypedef} : typeIsSame a b = true ↔ a = b := by
  cases a
  cases b
  simp [typeIsSame]

theorem actionIsSame_iff {a b : AbiAction} : actionIsSame a b = true ↔ a = b := by
  cases a
  cases b
  simp [actionIsSame, and_assoc]

theorem tableIsSame_iff {a b : AbiTable} : tableIsSame a b = true ↔ a = b := by
  cases a
  cases b
  simp [tableIsSame, and_assoc]

/-- The struct test looks at the fields as a set, and at their number. -/
theorem structIsSame_iff {a b : AbiStruct} : structIsSame a b = true ↔
    a.name = b.name ∧ a.base = b.base ∧ a.fields.length = b.fields.length ∧
      ∀ f ∈ a.fields, f ∈ b.fields := by
  have hmem : (a.fields.all fun f => b.fields.any fun g => f.name == g.name && f.type == g.type) =
      true ↔ ∀ f ∈ a.fields, f ∈ b.fields := by
    rw [List.all_eq_true]
    refine forall_congr' fun f => imp_congr_right fun _ => ?_
    rw [List.any_eq_true]
    refine ⟨?_, fun h => ⟨f, h, by simp⟩⟩
    rintro ⟨g, hg, heq⟩
    obtain ⟨hn, ht⟩ := Bool.and_eq_true_iff.1 heq
    have : f = g := by
      cases f
      cases g
      simp_all
    exact this ▸ hg
  unfold structIsSame
  simp only
  split
  · rename_i h
    simp only [Bool.and_eq_true, beq_iff_eq, and_assoc]
    exact ⟨fun ⟨hn, hb, hl⟩ => ⟨hn, hb, hl, hmem.1 h⟩, fun ⟨hn, hb, hl, _⟩ => ⟨hn, hb, hl⟩⟩
  · rename_i h
    simp only [Bool.false_eq_true, false_iff]
    exact fun h' => h (hmem.2 h'.2.2.2)

/-! ## Documents -/

section
variable (stodLess : Text → Text → Option Bool)

/-- `m` has every wire layout of `a` and `b`. -/
structure Abi.Keeps (a b m : Abi) : Prop where
  structs : Cdt.Keeps AbiStruct.name AbiStruct.layout a.structs b.structs m.structs
  types : Cdt.Keeps AbiTypedef.newTypeName AbiTypedef.type a.types b.types m.types
  variants : Cdt.Keeps AbiVariant.name AbiVariant.types a.variants b.variants m.variants
  actions : Cdt.Keeps AbiAction.name AbiAction.type a.actions b.actions m.actions
  tables : Cdt.Keeps AbiTable.name AbiTable.layout a.tables b.tables m.tables

/-- No name has two layouts in `a` and `b`. -/
structure Abi.Agree (a b : Abi) : Prop where
  structs : Cdt.Agree AbiStruct.name AbiStruct.layout a.structs b.structs
  types : Cdt.Agree AbiTypedef.newTypeName AbiTypedef.type a.types b.types
  variants : Cdt.Agree AbiVariant.name AbiVariant.types a.variants b.variants
  actions : Cdt.Agree AbiAction.name AbiAction.type a.actions b.actions
  tables : Cdt.Agree AbiTable.name AbiTable.layout a.tables b.tables

/-- A merge that succeeds keeps every layout, and fails on two layouts of one name. -/
def MergeSound (a b : Abi) : Prop :=
  (∀ m, merge stodLess a b = .ok m → a.Keeps b m) ∧
    (¬a.Agree b → ∃ e, merge stodLess a b = .error e)

/-- Both versions end in three characters that read as numbers. -/
def VersionsCompare (verA verB : Text) : Prop :=
  3 ≤ verA.length ∧ 3 ≤ verB.length ∧
    (stodLess (verA.drop (verA.length - 3)) (verB.drop (verB.length - 3))).isSome

/-- The versions compare, and every test passes: nothing stops the merge. -/
structure Abi.Accepted (a b : Abi) : Prop where
  version : VersionsCompare stodLess a.version b.version
  types : Compatible AbiTypedef.newTypeName typeIsSame a.types b.types
  structs : Compatible AbiStruct.name structIsSame a.structs b.structs
  actions : Compatible AbiAction.name actionIsSame a.actions b.actions
  tables : Compatible AbiTable.name tableIsSame a.tables b.tables
  clauses : Compatible AbiClause.id clauseIsSame a.ricardianClauses b.ricardianClauses
  variants : Compatible AbiVariant.name variantIsSame a.variants b.variants

/-- One struct with the fields of another, not in the same places. -/
def Shuffled (s t : AbiStruct) : Prop :=
  s.name = t.name ∧ structIsSame s t = true ∧ s.fields ≠ t.fields

/-- One variant with the alternatives of another and more, or in another order. -/
def Widened (v w : AbiVariant) : Prop :=
  v.name = w.name ∧ variantIsSame v w = true ∧ v.types ≠ w.types

variable {stodLess}

theorem mergeVersion_ok_iff {verA verB : Text} :
    (∃ ver, mergeVersion stodLess verA verB = .ok ver) ↔ VersionsCompare stodLess verA verB := by
  unfold mergeVersion versionDigits VersionsCompare
  by_cases hA : 3 ≤ verA.length
  · by_cases hB : 3 ≤ verB.length
    · simp only [hA, hB, if_true, bind, Except.bind, true_and]
      cases stodLess (verA.drop (verA.length - 3)) (verB.drop (verB.length - 3)) with
      | none => simp
      | some less => exact ⟨fun _ => rfl, fun _ => ⟨_, rfl⟩⟩
    · simp [hA, hB, bind, Except.bind]
  · simp [hA, bind, Except.bind]

theorem merge_ok {a b : Abi} (h : a.Accepted stodLess b) :
    ∃ m, merge stodLess a b = .ok m ∧ (a.Agree b → a.Keeps b m) := by
  obtain ⟨ver, hver⟩ := mergeVersion_ok_iff.2 h.version
  refine ⟨_, by
    simp only [merge, hver, addObject_eq h.types, addObject_eq h.structs, addObject_eq h.actions,
      addObject_eq h.tables, addObject_eq h.clauses, addObject_eq h.variants, bind, Except.bind]
    rfl, fun hag => ?_⟩
  exact ⟨hag.structs.keeps, hag.types.keeps, hag.variants.keeps, hag.actions.keeps,
    hag.tables.keeps⟩

theorem Merge.bind_ok {α β : Type} {x : Merge α} {f : α → Merge β} {b : β} (h : x >>= f = .ok b) :
    ∃ a, x = .ok a ∧ f a = .ok b := by
  cases x with
  | error e => cases h
  | ok a => exact ⟨a, rfl, h⟩

theorem accepted_of_merge {a b m : Abi} (h : merge stodLess a b = .ok m) :
    a.Accepted stodLess b := by
  obtain ⟨ver, hver, h⟩ := Merge.bind_ok h
  obtain ⟨_, htypes, h⟩ := Merge.bind_ok h
  obtain ⟨_, hstructs, h⟩ := Merge.bind_ok h
  obtain ⟨_, hactions, h⟩ := Merge.bind_ok h
  obtain ⟨_, htables, h⟩ := Merge.bind_ok h
  obtain ⟨_, hclauses, h⟩ := Merge.bind_ok h
  obtain ⟨_, hvariants, -⟩ := Merge.bind_ok h
  exact ⟨mergeVersion_ok_iff.1 ⟨ver, hver⟩, compatible_of_addObject htypes,
    compatible_of_addObject hstructs, compatible_of_addObject hactions,
    compatible_of_addObject htables, compatible_of_addObject hclauses,
    compatible_of_addObject hvariants⟩

/-- Of what is accepted, only structs and variants can disagree. -/
theorem Abi.Accepted.agree_iff {a b : Abi} (h : a.Accepted stodLess b) : a.Agree b ↔
    (∀ s ∈ a.structs, ∀ t ∈ b.structs, ¬Shuffled s t) ∧
      (∀ v ∈ a.variants, ∀ w ∈ b.variants, ¬Widened v w) := by
  constructor
  · intro hag
    refine ⟨fun s hs t ht hst => ?_, fun v hv w hw hvw => ?_⟩
    · exact hst.2.2 (congrArg Prod.snd (hag.structs s hs t ht hst.1))
    · exact hvw.2.2 (hag.variants v hv w hw hvw.1)
  · rintro ⟨hstructs, hvariants⟩
    refine ⟨fun s hs t ht hid => ?_, fun x hx y hy hid => ?_, fun v hv w hw hid => ?_,
      fun x hx y hy hid => ?_, fun x hx y hy hid => ?_⟩
    · have hsame := h.structs s hs t ht hid
      have hfields : s.fields = t.fields := by
        by_contra hne
        exact hstructs s hs t ht ⟨hid, hsame, hne⟩
      exact Prod.ext (structIsSame_iff.1 hsame).2.1 hfields
    · rw [typeIsSame_iff.1 (h.types x hx y hy hid)]
    · by_contra hne
      exact hvariants v hv w hw ⟨hid, h.variants v hv w hw hid, hne⟩
    · rw [actionIsSame_iff.1 (h.actions x hx y hy hid)]
    · rw [tableIsSame_iff.1 (h.tables x hx y hy hid)]

/-- **When a merge is sound**: something stops it, or no accepted pair is `Shuffled` or
`Widened`. -/
theorem merge_sound_iff (stodLess : Text → Text → Option Bool) (a b : Abi) :
    MergeSound stodLess a b ↔ ¬a.Accepted stodLess b ∨
      ((∀ s ∈ a.structs, ∀ t ∈ b.structs, ¬Shuffled s t) ∧
        (∀ v ∈ a.variants, ∀ w ∈ b.variants, ¬Widened v w)) := by
  by_cases hacc : a.Accepted stodLess b
  · obtain ⟨m, hm, hkeeps⟩ := merge_ok hacc
    rw [← hacc.agree_iff, or_iff_right (not_not.2 hacc)]
    refine ⟨fun h => ?_, fun hag => ⟨fun m' hm' => ?_, fun hne => absurd hag hne⟩⟩
    · by_contra hne
      obtain ⟨e, he⟩ := h.2 hne
      rw [hm] at he
      cases he
    · rw [hm] at hm'
      cases hm'
      exact hkeeps hag
  · refine iff_of_true ⟨fun m hm => absurd (accepted_of_merge hm) hacc, fun _ => ?_⟩ (.inl hacc)
    cases hm : merge stodLess a b with
    | error e => exact ⟨e, rfl⟩
    | ok m => exact absurd (accepted_of_merge hm) hacc

end

/-! ## An unsound merge -/

/-- A document with one struct. -/
def structAbi (fields : List AbiField) : Abi where
  comment := []
  version := "wasm::abi/1.1".toList
  types := []
  structs := [⟨"s".toList, [], fields⟩]
  actions := []
  tables := []
  ricardianClauses := []
  variants := []

def fieldX : AbiField := ⟨"x".toList, "int32".toList⟩

def fieldY : AbiField := ⟨"y".toList, "int64".toList⟩

/-- Two orders of the fields are merged to one. -/
theorem merge_swapped_fields :
    merge (fun _ _ => some false) (structAbi [fieldX, fieldY]) (structAbi [fieldY, fieldX]) =
        .ok (structAbi [fieldX, fieldY]) ∧
      ¬MergeSound (fun _ _ => some false) (structAbi [fieldX, fieldY])
        (structAbi [fieldY, fieldX]) := by
  have hm : merge (fun _ _ => some false) (structAbi [fieldX, fieldY])
      (structAbi [fieldY, fieldX]) = .ok (structAbi [fieldX, fieldY]) := by decide
  refine ⟨hm, fun h => ?_⟩
  obtain ⟨e, he⟩ := h.2 fun hag => absurd
    (hag.structs ⟨"s".toList, [], [fieldX, fieldY]⟩ (.head _) ⟨"s".toList, [], [fieldY, fieldX]⟩
      (.head _) rfl) (by decide)
  rw [hm] at he
  cases he

end Cdt
