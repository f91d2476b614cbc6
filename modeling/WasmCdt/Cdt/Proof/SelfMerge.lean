import WasmCdt.Cdt.AbiPass
import WasmCdt.Cdt.WriteAbi
import WasmCdt.Cdt.Proof.AbiMerge

/-!
# A document merged with itself

The link of one object merges its document with itself (`writeABI_single`). The sections that
`to_json` writes from sets have one definition for each name, and a definition passes its own test,
so nothing is added and nothing conflicts; the clauses are a list, where an id may come twice.

* `addObject_self`: a section whose definitions of one name pass the test is what is merged of it.
* `addObject_error`: the message of a section with a conflict.
* `Abigen.Distinct.compatible`, `Abigen.distinct_toJson`: the sections from sets.
* `selfMerge`: **the merge is the identity, or names a clause with two bodies**.
-/

namespace Cdt

/-! ## One section -/

section
variable {α : Type} {id : α → Text} {isSame : α → α → Bool}

theorem addObject_self {l : List α} (h : Compatible id isSame l l) :
    addObject id isSame l l = .ok l := by
  have hnone : (l.filter fun y => !l.any fun x => id x = id y) = [] := by
    rw [List.filter_eq_nil_iff]
    intro y hy hnot
    have hany : (l.any fun x => id x = id y) = true := List.any_eq_true.2 ⟨y, hy, by simp⟩
    rw [hany] at hnot
    cases hnot
  rw [addObject_eq h, hnone, List.append_nil]

theorem shouldSkip_error {y : α} {as : List α} {skip : Bool} {e : MergeError}
    (h : shouldSkip id isSame y as skip = .error e) :
    ∃ x ∈ as, e = .runtimeError (alreadyDefined (id x)) := by
  induction as generalizing skip with
  | nil => cases h
  | cons x as ih =>
    rw [shouldSkip] at h
    split at h
    · split at h
      · obtain ⟨z, hz, he⟩ := ih h
        exact ⟨z, .tail _ hz, he⟩
      · cases h
        exact ⟨x, .head _, rfl⟩
    · obtain ⟨z, hz, he⟩ := ih h
      exact ⟨z, .tail _ hz, he⟩

theorem addLoop_error {as bs : List α} {e : MergeError} (h : addLoop id isSame as bs = .error e) :
    ∃ x ∈ as, e = .runtimeError (alreadyDefined (id x)) := by
  induction bs with
  | nil => cases h
  | cons y bs ih =>
    rw [addLoop] at h
    cases hskip : shouldSkip id isSame y as false with
    | error e' =>
      rw [hskip] at h
      cases h
      exact shouldSkip_error hskip
    | ok skip =>
      rw [hskip] at h
      cases hrest : addLoop id isSame as bs with
      | error e' =>
        rw [hrest] at h
        cases h
        exact ih hrest
      | ok rest =>
        rw [hrest] at h
        cases h

/-- A section with a conflict ends the merge, with the name of one of its definitions. -/
theorem addObject_error {as bs : List α} (h : ¬Compatible id isSame as bs) :
    ∃ x ∈ as, addObject id isSame as bs = .error (.runtimeError (alreadyDefined (id x))) := by
  cases hadd : addObject id isSame as bs with
  | ok l => exact absurd (compatible_of_addObject hadd) h
  | error e =>
    unfold addObject at hadd
    cases hl : addLoop id isSame as bs with
    | ok added =>
      rw [hl] at hadd
      cases hadd
    | error e' =>
      rw [hl] at hadd
      cases hadd
      obtain ⟨x, hx, he⟩ := addLoop_error hl
      exact ⟨x, hx, by rw [he]⟩

/-- One definition for each name. -/
def Distinct (id : α → Text) (l : List α) : Prop := l.Pairwise fun x y => id x < id y

theorem Distinct.eq_of_id {l : List α} (h : Distinct id l) {x y : α} (hx : x ∈ l) (hy : y ∈ l)
    (hid : id x = id y) : x = y := by
  induction l with
  | nil => cases hx
  | cons z l ih =>
    obtain ⟨hz, hl⟩ := List.pairwise_cons.1 h
    rcases List.mem_cons.1 hx with rfl | hxl
    · rcases List.mem_cons.1 hy with rfl | hyl
      · rfl
      · exact absurd hid (hz y hyl).ne
    · rcases List.mem_cons.1 hy with rfl | hyl
      · exact absurd hid (hz x hxl).ne'
      · exact ih hl hxl hyl

/-- A test that a definition passes against itself. -/
theorem Distinct.compatible {l : List α} (h : Distinct id l) (hrefl : ∀ x, isSame x x = true) :
    Compatible id isSame l l := by
  intro x hx y hy hid
  rw [h.eq_of_id hx hy hid]
  exact hrefl y

theorem Distinct.filter {l : List α} (h : Distinct id l) (p : α → Bool) :
    Distinct id (l.filter p) := List.Pairwise.filter p h

end

/-! ## The tests -/

theorem structIsSame_self (s : AbiStruct) : structIsSame s s = true :=
  structIsSame_iff.2 ⟨rfl, rfl, rfl, fun _ hf => hf⟩

theorem variantIsSame_self (v : AbiVariant) : variantIsSame v v = true := by
  have hall : (v.types.all fun tya => v.types.any fun tyb => tyb == tya) = true := by
    rw [List.all_eq_true]
    intro t ht
    exact List.any_eq_true.2 ⟨t, ht, by simp⟩
  unfold variantIsSame
  rw [if_pos hall]
  simp

theorem clauseIsSame_iff {a b : AbiClause} : clauseIsSame a b = true ↔ a.id = b.id ∧ a.body = b.body := by
  simp [clauseIsSame]

/-! ## Documents -/

/-- No two clauses with one id have different bodies. -/
def OneBody (clauses : List AbiClause) : Prop :=
  ∀ c ∈ clauses, ∀ d ∈ clauses, c.id = d.id → c.body = d.body

instance (clauses : List AbiClause) : Decidable (OneBody clauses) :=
  inferInstanceAs (Decidable (∀ c ∈ clauses, ∀ d ∈ clauses, c.id = d.id → c.body = d.body))

theorem compatible_clauses_iff {clauses : List AbiClause} :
    Compatible AbiClause.id clauseIsSame clauses clauses ↔ OneBody clauses := by
  refine forall₂_congr fun c _ => forall₂_congr fun d _ => imp_congr_right fun hid => ?_
  rw [clauseIsSame_iff, and_iff_right hid]

/-- Every section but the clauses has one definition for each name. -/
structure Abi.Distinct (a : Abi) : Prop where
  types : Cdt.Distinct AbiTypedef.newTypeName a.types
  structs : Cdt.Distinct AbiStruct.name a.structs
  actions : Cdt.Distinct AbiAction.name a.actions
  tables : Cdt.Distinct AbiTable.name a.tables
  variants : Cdt.Distinct AbiVariant.name a.variants

theorem Abigen.distinct_toJson (g : Abigen) : g.toJson.Distinct where
  types := Cdt.Distinct.filter g.typedefs.2 _
  structs := Cdt.Distinct.filter g.structs.2 _
  actions := g.actions.2
  tables := List.pairwise_map.2 g.setOfTables.2
  variants := g.variants.2

section
variable {stodLess : Text → Text → Option Bool}

theorem mergeVersion_self {ver : Text} (h : VersionsCompare stodLess ver ver) :
    mergeVersion stodLess ver ver = .ok ver := by
  obtain ⟨hlen, -, hcmp⟩ := h
  obtain ⟨less, hless⟩ := Option.isSome_iff_exists.1 hcmp
  unfold mergeVersion versionDigits
  rw [if_pos hlen]
  simp only [bind, Except.bind, hless]
  cases less <;> rfl

theorem Abi.Distinct.merge_self {a : Abi} (h : a.Distinct)
    (hver : VersionsCompare stodLess a.version a.version) :
    (OneBody a.ricardianClauses → merge stodLess a a = .ok a) ∧
      (¬OneBody a.ricardianClauses → ∃ c ∈ a.ricardianClauses,
        merge stodLess a a = .error (.runtimeError (alreadyDefined c.id))) := by
  have hmerge : merge stodLess a a
      = (addObject AbiClause.id clauseIsSame a.ricardianClauses a.ricardianClauses >>= fun clauses =>
          .ok { a with ricardianClauses := clauses }) := by
    have htypes := h.types.compatible fun t => typeIsSame_iff.2 (rfl : t = t)
    have hactions := h.actions.compatible fun t => actionIsSame_iff.2 (rfl : t = t)
    have htables := h.tables.compatible fun t => tableIsSame_iff.2 (rfl : t = t)
    simp only [merge, mergeVersion_self hver, addObject_self htypes,
      addObject_self (h.structs.compatible structIsSame_self), addObject_self hactions,
      addObject_self htables, addObject_self (h.variants.compatible variantIsSame_self), bind,
      Except.bind]
    rfl
  constructor
  · intro hone
    rw [hmerge, addObject_self (compatible_clauses_iff.2 hone)]
    rfl
  · intro hone
    obtain ⟨c, hc, herr⟩ := addObject_error (mt compatible_clauses_iff.1 hone)
    refine ⟨c, hc, ?_⟩
    rw [hmerge, herr]
    rfl

end

section
variable {V : Type} (stod : Text → Option V) (less : V → V → Bool)

/-- The link of one object. -/
theorem writeABI_single (a : Abi) :
    writeABI stod less [a] = (merge (stodLess stod less) a a >>= fun m => pure (some m)) := by
  unfold writeABI
  rw [List.getLast?_singleton]
  simp only [List.foldlM_cons, List.foldlM_nil]
  cases merge (stodLess stod less) a a <;> rfl

theorem versionsCompare_current (hstod : (stod "1.1".toList).isSome) :
    VersionsCompare (stodLess stod less) "wasm::abi/1.1".toList "wasm::abi/1.1".toList := by
  have hdigits : "wasm::abi/1.1".toList.drop ("wasm::abi/1.1".toList.length - 3) = "1.1".toList := by
    decide
  obtain ⟨v, hv⟩ := Option.isSome_iff_exists.1 hstod
  refine ⟨by decide, by decide, ?_⟩
  rw [hdigits]
  unfold stodLess
  rw [hv]
  rfl

/-- A document that `to_json` writes, merged with itself: nothing changes, or two clauses with one id
have different bodies and the merge ends. -/
theorem selfMerge (hstod : (stod "1.1".toList).isSome) (clauses : List AbiClause)
    (rs : List Recorded) :
    (OneBody clauses → merge (stodLess stod less) (Abigen.ofRecorded clauses rs).toJson
        (Abigen.ofRecorded clauses rs).toJson = .ok (Abigen.ofRecorded clauses rs).toJson) ∧
      (¬OneBody clauses → ∃ c ∈ clauses, merge (stodLess stod less)
        (Abigen.ofRecorded clauses rs).toJson (Abigen.ofRecorded clauses rs).toJson
          = .error (.runtimeError (alreadyDefined c.id))) :=
  (Abigen.distinct_toJson (.ofRecorded clauses rs)).merge_self
    (versionsCompare_current stod less hstod)

end

/-- `std::stod` on the version's digits, in tenths. -/
def stodTenths (x : Text) : Option Nat := if x = "1.1".toList then some 11 else none

/-- One action, and a clause that comes twice. -/
theorem selfMerge_pay :
    merge (stodLess stodTenths fun x y => decide (x < y))
        (Abigen.ofRecorded [⟨"pay".toList, "a".toList⟩, ⟨"pay".toList, "a".toList⟩]
          [.action ⟨"pay".toList, "pay".toList, []⟩]).toJson
        (Abigen.ofRecorded [⟨"pay".toList, "a".toList⟩, ⟨"pay".toList, "a".toList⟩]
          [.action ⟨"pay".toList, "pay".toList, []⟩]).toJson
      = .ok (Abigen.ofRecorded [⟨"pay".toList, "a".toList⟩, ⟨"pay".toList, "a".toList⟩]
          [.action ⟨"pay".toList, "pay".toList, []⟩]).toJson :=
  (selfMerge stodTenths (fun x y => decide (x < y)) (by decide)
    [⟨"pay".toList, "a".toList⟩, ⟨"pay".toList, "a".toList⟩]
    [.action ⟨"pay".toList, "pay".toList, []⟩]).1 (by decide)

/-- Two clauses with one id and different bodies do not merge with themselves. -/
theorem selfMerge_conflict :
    merge (stodLess stodTenths fun x y => decide (x < y))
        (Abigen.ofRecorded [⟨"pay".toList, "a".toList⟩, ⟨"pay".toList, "b".toList⟩] []).toJson
        (Abigen.ofRecorded [⟨"pay".toList, "a".toList⟩, ⟨"pay".toList, "b".toList⟩] []).toJson
      = .error (.runtimeError (alreadyDefined "pay".toList)) := by
  decide

end Cdt
