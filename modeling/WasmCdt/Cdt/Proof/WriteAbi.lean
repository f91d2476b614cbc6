import WasmCdt.Cdt.WriteAbi
import WasmCdt.Cdt.Proof.AbiMerge
import Mathlib.Data.List.Induction

/-!
# When the order of a link does not matter

* `merge_spec`: one merge, section by section.
* `fold_spec`: a fold keeps, of every name, the definitions of the first document with it, and stops
  at a document that fails a test against these.
* `orderIndependent_iff`: **the order does not matter exactly when the documents are uniform, or none
  of their orders passes the tests, or some version is no number.**
-/

namespace Cdt

section
variable {V : Type} {stod : Text → Option V} {less : V → V → Bool}

/-! ## One merge -/

theorem versionsCompare_iff {verA verB : Text} : VersionsCompare (stodLess stod less) verA verB ↔
    (3 ≤ verA.length ∧ (stod (verA.drop (verA.length - 3))).isSome) ∧
      3 ≤ verB.length ∧ (stod (verB.drop (verB.length - 3))).isSome := by
  simp only [VersionsCompare, stodLess]
  cases stod (verA.drop (verA.length - 3)) <;> cases stod (verB.drop (verB.length - 3)) <;>
    simp [and_comm]

/-- The tests of all sections pass. -/
def Passes (a b : Abi) : Prop := ∀ k : Kind, Compatible k.name k.isSame (k.defs a) (k.defs b)

theorem accepted_iff {a b : Abi} : a.Accepted (stodLess stod less) b ↔
    (a.HasVersion stod ∧ b.HasVersion stod) ∧ Passes a b := by
  constructor
  · intro h
    refine ⟨versionsCompare_iff.1 h.version, fun k => ?_⟩
    cases k with
    | types => exact h.types
    | structs => exact h.structs
    | actions => exact h.actions
    | tables => exact h.tables
    | clauses => exact h.clauses
    | variants => exact h.variants
  · rintro ⟨hversion, h⟩
    exact ⟨versionsCompare_iff.2 hversion, h .types, h .structs, h .actions, h .tables, h .clauses,
      h .variants⟩

/-- What is merged: the first document's definitions, and the second's under further names. -/
structure Merged (a b m : Abi) : Prop where
  version : m.version = a.version ∨ m.version = b.version
  mem_iff : ∀ (k : Kind) (x : k.Def), x ∈ k.defs m ↔
    x ∈ k.defs a ∨ x ∈ k.defs b ∧ ∀ z ∈ k.defs a, k.name z ≠ k.name x

theorem mem_merged {α : Type} {id : α → Text} {as bs : List α} {x : α} :
    x ∈ as ++ bs.filter (fun y => !as.any fun x => id x = id y) ↔
      x ∈ as ∨ x ∈ bs ∧ ∀ z ∈ as, id z ≠ id x := by
  simp

theorem mergeVersion_eq {verA verB ver : Text}
    (h : mergeVersion (stodLess stod less) verA verB = .ok ver) : ver = verA ∨ ver = verB := by
  obtain ⟨_, -, h⟩ := Merge.bind_ok h
  obtain ⟨_, -, h⟩ := Merge.bind_ok h
  split at h
  · rename_i less _
    cases less with
    | false => exact .inl (Except.ok.inj h).symm
    | true => exact .inr (Except.ok.inj h).symm
  · cases h

variable (less) in
/-- **One merge.** -/
theorem merge_spec {a b : Abi} (h : a.Accepted (stodLess stod less) b) :
    ∃ m, merge (stodLess stod less) a b = .ok m ∧ Merged a b m := by
  obtain ⟨ver, hver⟩ := mergeVersion_ok_iff.2 h.version
  refine ⟨_, by
    simp only [merge, hver, addObject_eq h.types, addObject_eq h.structs, addObject_eq h.actions,
      addObject_eq h.tables, addObject_eq h.clauses, addObject_eq h.variants, bind, Except.bind]
    rfl, mergeVersion_eq hver, fun k x => ?_⟩
  cases k <;> exact mem_merged

/-! ## First documents -/

section
variable {k : Kind} {x : k.Def} {a b : Abi} {abis before : List Abi}

theorem firstIn_cons_of_mem (h : x ∈ k.defs a) : FirstIn k (a :: abis) x :=
  ⟨[], a, abis, rfl, h, fun _ hb => nomatch hb⟩

theorem FirstIn.mem (h : FirstIn k abis x) : ∃ a ∈ abis, x ∈ k.defs a := by
  obtain ⟨before, a, after, rfl, hx, -⟩ := h
  exact ⟨a, by simp, hx⟩

/-- The document in front has all of a name, if it has any of it. -/
theorem FirstIn.mem_head (h : FirstIn k (a :: abis) x) {y : k.Def} (hy : y ∈ k.defs a)
    (hname : k.name y = k.name x) : x ∈ k.defs a := by
  obtain ⟨before, b, after, heq, hx, hfresh⟩ := h
  cases before with
  | nil =>
    obtain ⟨rfl, -⟩ := List.cons.inj heq
    exact hx
  | cons c before =>
    obtain ⟨rfl, -⟩ := List.cons.inj heq
    exact absurd hname (hfresh a (.head _) y hy)

theorem firstIn_concat : FirstIn k (abis ++ [b]) x ↔
    FirstIn k abis x ∨ x ∈ k.defs b ∧ ∀ c ∈ abis, ∀ z ∈ k.defs c, k.name z ≠ k.name x := by
  constructor
  · rintro ⟨before, a, after, heq, hx, hfresh⟩
    rcases List.eq_nil_or_concat after with rfl | ⟨after, c, rfl⟩
    · obtain ⟨rfl, hlast⟩ := List.append_inj' heq rfl
      obtain ⟨rfl, -⟩ := List.cons.inj hlast
      exact .inr ⟨hx, hfresh⟩
    · rw [List.concat_eq_append, ← List.cons_append, ← List.append_assoc] at heq
      obtain ⟨rfl, -⟩ := List.append_inj' heq rfl
      exact .inl ⟨before, a, after, rfl, hx, hfresh⟩
  · rintro (⟨before, a, after, rfl, hx, hfresh⟩ | ⟨hx, hfresh⟩)
    · exact ⟨before, a, after ++ [b], by simp, hx, hfresh⟩
    · exact ⟨abis, b, [], rfl, hx, hfresh⟩

/-- A name has a first document. -/
theorem exists_firstIn {t : Text} : ∀ {abis : List Abi}, (∃ a ∈ abis, ∃ z ∈ k.defs a, k.name z = t) →
    ∃ z, FirstIn k abis z ∧ k.name z = t := by
  intro abis
  induction abis using List.reverseRecOn with
  | nil => simp
  | append_singleton abis b ih =>
    rintro ⟨a, ha, z, hz, hname⟩
    by_cases hbefore : ∃ a ∈ abis, ∃ z ∈ k.defs a, k.name z = t
    · obtain ⟨z, hfirst, hname⟩ := ih hbefore
      exact ⟨z, firstIn_concat.2 (.inl hfirst), hname⟩
    · have hfresh : ∀ c ∈ abis, ∀ z' ∈ k.defs c, k.name z' ≠ k.name z := by
        intro c hc z' hz' heq
        exact hbefore ⟨c, hc, z', hz', heq.trans hname⟩
      rcases List.mem_append.1 ha with ha | ha
      · exact absurd rfl (hfresh a ha z hz)
      · obtain rfl := List.mem_singleton.1 ha
        exact ⟨z, firstIn_concat.2 (.inr ⟨hz, hfresh⟩), hname⟩

theorem not_conflict_single : ¬Conflict [a] := by
  rintro ⟨before, b, after, heq, k, x, hfirst, -⟩
  obtain ⟨c, hc, -⟩ := hfirst.mem
  have hlen := congrArg List.length heq
  have hpos := List.length_pos_of_mem hc
  simp only [List.length_append, List.length_cons, List.length_nil] at hlen
  omega

theorem Conflict.append (h : Conflict before) : Conflict (before ++ abis) := by
  obtain ⟨first, a, after, rfl, hclash⟩ := h
  exact ⟨first, a, after ++ abis, by simp, hclash⟩

theorem conflict_concat : Conflict (abis ++ [b]) ↔ Conflict abis ∨ Clash abis b := by
  constructor
  · rintro ⟨before, a, after, heq, hclash⟩
    rcases List.eq_nil_or_concat after with rfl | ⟨after, c, rfl⟩
    · obtain ⟨rfl, hlast⟩ := List.append_inj' heq rfl
      obtain ⟨rfl, -⟩ := List.cons.inj hlast
      exact .inr hclash
    · rw [List.concat_eq_append, ← List.cons_append, ← List.append_assoc] at heq
      obtain ⟨rfl, -⟩ := List.append_inj' heq rfl
      exact .inl ⟨before, a, after, rfl, hclash⟩
  · rintro (h | hclash)
    · exact h.append
    · exact ⟨abis, b, [], rfl, hclash⟩

end

/-! ## The fold -/

/-- The document that the merger holds after `done`. -/
structure Holds (stod : Text → Option V) (done : List Abi) (m : Abi) : Prop where
  version : m.HasVersion stod
  mem_iff : ∀ (k : Kind) (x : k.Def), x ∈ k.defs m ↔ FirstIn k done x

theorem Holds.named_iff {done : List Abi} {m : Abi} (h : Holds stod done m) (k : Kind) (t : Text) :
    (∃ z ∈ k.defs m, k.name z = t) ↔ ∃ a ∈ done, ∃ z ∈ k.defs a, k.name z = t := by
  constructor
  · rintro ⟨z, hz, hname⟩
    obtain ⟨a, ha, hz⟩ := ((h.mem_iff k z).1 hz).mem
    exact ⟨a, ha, z, hz, hname⟩
  · intro hnamed
    obtain ⟨z, hfirst, hname⟩ := exists_firstIn hnamed
    exact ⟨z, (h.mem_iff k z).2 hfirst, hname⟩

theorem Holds.passes_iff {done : List Abi} {m b : Abi} (h : Holds stod done m) :
    Passes m b ↔ ¬Clash done b := by
  constructor
  · rintro hpasses ⟨k, x, hfirst, y, hy, hname, hsame⟩
    rw [hpasses k x ((h.mem_iff k x).2 hfirst) y hy hname] at hsame
    cases hsame
  · intro hclash k x hx y hy hname
    cases hsame : k.isSame x y with
    | true => rfl
    | false => exact absurd ⟨k, x, (h.mem_iff k x).1 hx, y, hy, hname, hsame⟩ hclash

variable (less) in
/-- One document more. -/
theorem Holds.step {done : List Abi} {m b : Abi} (h : Holds stod done m) (hb : b.HasVersion stod)
    (hclash : ¬Clash done b) :
    ∃ m', merge (stodLess stod less) m b = .ok m' ∧ Holds stod (done ++ [b]) m' := by
  obtain ⟨m', hm', hmerged⟩ := merge_spec less
    (accepted_iff.2 ⟨⟨h.version, hb⟩, h.passes_iff.2 hclash⟩)
  refine ⟨m', hm', ?_, fun k x => ?_⟩
  · rcases hmerged.version with hver | hver
    · rw [Abi.HasVersion, hver]
      exact h.version
    · rw [Abi.HasVersion, hver]
      exact hb
  · rw [hmerged.mem_iff, firstIn_concat, h.mem_iff]
    have hfresh : (∀ z ∈ k.defs m, k.name z ≠ k.name x) ↔
        ∀ c ∈ done, ∀ z ∈ k.defs c, k.name z ≠ k.name x := by
      have hnamed := not_congr (h.named_iff k (k.name x))
      push Not at hnamed
      exact hnamed
    rw [hfresh]

variable (less) in
/-- **The fold** of documents with versions. -/
theorem fold_spec : ∀ (rest : List Abi) {done : List Abi} {m : Abi}, Holds stod done m →
    ¬Conflict done → (∀ b ∈ rest, b.HasVersion stod) →
    (Conflict (done ++ rest) ∧ ∃ e, rest.foldlM (merge (stodLess stod less)) m = .error e) ∨
    (¬Conflict (done ++ rest) ∧ ∃ m', rest.foldlM (merge (stodLess stod less)) m = .ok m' ∧
      Holds stod (done ++ rest) m')
  | [], done, m, h, hdone, _ => .inr ⟨by simpa using hdone, m, rfl, by simpa using h⟩
  | b :: rest, done, m, h, hdone, hversions => by
    have hb := hversions b (.head _)
    have hsplit : done ++ b :: rest = done ++ [b] ++ rest := by simp
    rw [hsplit, List.foldlM_cons]
    by_cases hclash : Clash done b
    · refine .inl ⟨(conflict_concat.2 (.inr hclash)).append, ?_⟩
      cases hmerge : merge (stodLess stod less) m b with
      | error e => exact ⟨e, rfl⟩
      | ok m' =>
        have hpasses := (accepted_iff.1 (accepted_of_merge hmerge)).2
        exact absurd hclash (h.passes_iff.1 hpasses)
    · obtain ⟨m', hm', hholds⟩ := h.step less hb hclash
      have hnext : ¬Conflict (done ++ [b]) := by
        rw [conflict_concat, not_or]
        exact ⟨hdone, hclash⟩
      rw [hm']
      exact fold_spec rest hholds hnext fun c hc => hversions c (.tail _ hc)

/-- A fold that succeeds has met only versions that are numbers. -/
theorem versions_of_fold : ∀ {rest : List Abi} {m m' : Abi},
    rest.foldlM (merge (stodLess stod less)) m = .ok m' → ∀ b ∈ rest, b.HasVersion stod
  | c :: rest, m, m', h, b, hb => by
    rw [List.foldlM_cons] at h
    obtain ⟨m₁, hmerge, h⟩ := Merge.bind_ok h
    rcases List.mem_cons.1 hb with rfl | hb
    · exact (accepted_iff.1 (accepted_of_merge hmerge)).1.2
    · exact versions_of_fold h b hb

/-! ## The link -/

theorem writeABI_concat (before : List Abi) (back : Abi) :
    writeABI stod less (before ++ [back]) =
      ((before ++ [back]).foldlM (merge (stodLess stod less)) back >>= fun abi => pure (some abi)) := by
  rw [writeABI, List.getLast?_concat]

variable (less) in
/-- A link of documents with versions writes the first definitions, its last document in front. -/
theorem writeABI_spec {before : List Abi} {back : Abi}
    (h : ∀ a ∈ before ++ [back], a.HasVersion stod) :
    (Conflict (back :: (before ++ [back])) ∧
      ∃ e, writeABI stod less (before ++ [back]) = .error e) ∨
    (¬Conflict (back :: (before ++ [back])) ∧ ∃ m, writeABI stod less (before ++ [back]) =
      .ok (some m) ∧ ∀ (k : Kind) (x : k.Def), x ∈ k.defs m ↔
        FirstIn k (back :: (before ++ [back])) x) := by
  have hback : Holds stod [back] back := by
    refine ⟨h back (by simp), fun k x => ⟨firstIn_cons_of_mem, fun hfirst => ?_⟩⟩
    obtain ⟨a, ha, hx⟩ := hfirst.mem
    obtain rfl := List.mem_singleton.1 ha
    exact hx
  rw [writeABI_concat]
  rcases fold_spec less (before ++ [back]) hback not_conflict_single h with
    ⟨hconflict, e, he⟩ | ⟨hfine, m, hm, hholds⟩
  · refine .inl ⟨hconflict, e, ?_⟩
    rw [he]
    rfl
  · refine .inr ⟨hfine, m, ?_, hholds.mem_iff⟩
    rw [hm]
    rfl

theorem writeABI_error_of_version {abis : List Abi} {a : Abi} (ha : a ∈ abis)
    (hversion : ¬a.HasVersion stod) : ∃ e, writeABI stod less abis = .error e := by
  rcases List.eq_nil_or_concat abis with rfl | ⟨before, back, rfl⟩
  · cases ha
  · rw [List.concat_eq_append] at ha ⊢
    rw [writeABI_concat]
    cases hfold : (before ++ [back]).foldlM (merge (stodLess stod less)) back with
    | error e => exact ⟨e, rfl⟩
    | ok m => exact absurd (versions_of_fold hfold a ha) hversion

theorem sameOutcome_of_errors {r r' : Merge (Option Abi)} (h : ∃ e, r = .error e)
    (h' : ∃ e, r' = .error e) : SameOutcome r r' := by
  obtain ⟨e, rfl⟩ := h
  obtain ⟨e', rfl⟩ := h'
  trivial

/-! ## Uniform documents -/

section
variable {abis order : List Abi}

/-- Among uniform documents, every definition is of the first document with its name. -/
theorem Uniform.firstIn_iff (h : Uniform abis) (horder : ∀ a, a ∈ order ↔ a ∈ abis) (k : Kind)
    (x : k.Def) : FirstIn k order x ↔ ∃ a ∈ abis, x ∈ k.defs a := by
  constructor
  · intro hfirst
    obtain ⟨a, ha, hx⟩ := hfirst.mem
    exact ⟨a, (horder a).1 ha, hx⟩
  · rintro ⟨a, ha, hx⟩
    obtain ⟨z, ⟨before, c, after, rfl, hz, hfresh⟩, hname⟩ :=
      exists_firstIn ⟨a, (horder a).2 ha, x, hx, rfl⟩
    have hc : c ∈ abis := (horder c).1 (by simp)
    refine ⟨before, c, after, rfl, (h k a ha c hc x hx z hz hname.symm).2, ?_⟩
    rw [← hname]
    exact hfresh

theorem Uniform.not_conflict (h : Uniform abis) (horder : ∀ a ∈ order, a ∈ abis) :
    ¬Conflict order := by
  rintro ⟨before, a, after, rfl, k, x, hfirst, y, hy, hname, hsame⟩
  obtain ⟨b, hb, hx⟩ := hfirst.mem
  have hpass := (h k b (horder b (by simp [hb])) a (horder a (by simp)) x hx y hy hname).1
  rw [hpass] at hsame
  cases hsame

theorem mem_cons_concat {before : List Abi} {back : Abi} (hperm : (before ++ [back]).Perm abis) :
    ∀ a, a ∈ back :: (before ++ [back]) ↔ a ∈ abis := by
  intro a
  rw [← hperm.mem_iff]
  simp only [List.mem_cons, List.mem_append, List.not_mem_nil, or_false]
  tauto

variable (less) in
theorem Uniform.writeABI (h : Uniform abis) (hversions : ∀ a ∈ abis, a.HasVersion stod)
    {before : List Abi} {back : Abi} (hperm : (before ++ [back]).Perm abis) :
    ∃ m, writeABI stod less (before ++ [back]) = .ok (some m) ∧
      ∀ (k : Kind) (x : k.Def), x ∈ k.defs m ↔ ∃ a ∈ abis, x ∈ k.defs a := by
  have hmem := mem_cons_concat hperm
  rcases writeABI_spec less fun a ha => hversions a (hperm.mem_iff.1 ha) with
    ⟨hconflict, -⟩ | ⟨-, m, hm, hdefs⟩
  · exact absurd hconflict (h.not_conflict fun a ha => (hmem a).1 ha)
  · exact ⟨m, hm, fun k x => (hdefs k x).trans (h.firstIn_iff hmem k x)⟩

theorem Uniform.orderIndependent (h : Uniform abis) (hversions : ∀ a ∈ abis, a.HasVersion stod) :
    OrderIndependent stod less abis := by
  intro order hperm
  rcases List.eq_nil_or_concat abis with rfl | ⟨before, back, rfl⟩
  · rw [hperm.eq_nil]
    trivial
  · rcases List.eq_nil_or_concat order with rfl | ⟨before', back', rfl⟩
    · simp at hperm
    · simp only [List.concat_eq_append] at *
      obtain ⟨m, hm, hdefs⟩ := h.writeABI less hversions (List.Perm.refl _)
      obtain ⟨m', hm', hdefs'⟩ := h.writeABI less hversions hperm
      rw [hm, hm']
      exact fun k x => (hdefs k x).trans (hdefs' k x).symm

/-! ## Order independence -/

theorem AlwaysConflict.error (h : AlwaysConflict abis) (hversions : ∀ a ∈ abis, a.HasVersion stod)
    (hne : abis ≠ []) (hperm : order.Perm abis) : ∃ e, Cdt.writeABI stod less order = .error e := by
  rcases List.eq_nil_or_concat order with rfl | ⟨before, back, rfl⟩
  · exact absurd hperm.nil_eq.symm hne
  · rw [List.concat_eq_append] at hperm ⊢
    rcases writeABI_spec less fun a ha => hversions a (hperm.mem_iff.1 ha) with
      ⟨-, he⟩ | ⟨hfine, -⟩
    · exact he
    · exact absurd (h before back hperm) hfine

/-- With `a` as the last document: nothing clashes with it, and all orders give what it defines. -/
theorem OrderIndependent.last (h : OrderIndependent stod less abis)
    (hversions : ∀ a ∈ abis, a.HasVersion stod) {m : Abi}
    (hm : Cdt.writeABI stod less abis = .ok (some m)) {a : Abi} (ha : a ∈ abis) :
    ¬Conflict (a :: (abis.erase a ++ [a])) ∧ ∀ (k : Kind) (x : k.Def), x ∈ k.defs m ↔
      FirstIn k (a :: (abis.erase a ++ [a])) x := by
  have hperm : (abis.erase a ++ [a]).Perm abis :=
    (List.perm_append_singleton a _).trans (List.perm_cons_erase ha).symm
  have hsame := h _ hperm
  rw [hm] at hsame
  rcases writeABI_spec less fun b hb => hversions b (hperm.mem_iff.1 hb) with
    ⟨-, e, he⟩ | ⟨hfine, m', hm', hdefs⟩
  · rw [he] at hsame
    exact hsame.elim
  · rw [hm'] at hsame
    exact ⟨hfine, fun k x => (hsame k x).trans (hdefs k x)⟩

theorem OrderIndependent.uniform (h : OrderIndependent stod less abis)
    (hversions : ∀ a ∈ abis, a.HasVersion stod) {m : Abi}
    (hm : Cdt.writeABI stod less abis = .ok (some m)) : Uniform abis := by
  intro k a ha b hb x hx y hy hname
  obtain ⟨hfine, hdefs⟩ := h.last hversions hm ha
  obtain ⟨-, hdefs'⟩ := h.last hversions hm hb
  constructor
  · -- `a` is in front, and `b` comes later
    have hb' : b ∈ abis.erase a ++ [a] := by
      by_cases hab : b = a
      · simp [hab]
      · simp [List.mem_erase_of_ne hab, hb]
    obtain ⟨before, after, hsplit⟩ := List.append_of_mem hb'
    cases hsame : k.isSame x y with
    | true => rfl
    | false =>
      refine absurd ⟨a :: before, b, after, ?_, k, x, firstIn_cons_of_mem hx, y, hy, hname, hsame⟩ hfine
      rw [hsplit, List.cons_append]
  · have hmerged : x ∈ k.defs m := (hdefs k x).2 (firstIn_cons_of_mem hx)
    exact ((hdefs' k x).1 hmerged).mem_head hy hname.symm

/-- **When the order of a link does not matter.** -/
theorem orderIndependent_iff (stod : Text → Option V) (less : V → V → Bool) (abis : List Abi) :
    OrderIndependent stod less abis ↔
      (∃ a ∈ abis, ¬a.HasVersion stod) ∨ Uniform abis ∨ AlwaysConflict abis := by
  by_cases hversions : ∀ a ∈ abis, a.HasVersion stod
  · have hno : ¬∃ a ∈ abis, ¬a.HasVersion stod := fun ⟨a, ha, h⟩ => h (hversions a ha)
    rw [or_iff_right hno]
    constructor
    · intro h
      refine or_iff_not_imp_right.2 fun hsome => ?_
      simp only [AlwaysConflict, not_forall] at hsome
      obtain ⟨before, back, hperm, hfine⟩ := hsome
      rcases writeABI_spec less fun a ha => hversions a (hperm.mem_iff.1 ha) with
        ⟨hconflict, -⟩ | ⟨-, m, hm, -⟩
      · exact absurd hconflict hfine
      · have hsame := h _ hperm
        rw [hm] at hsame
        cases hlink : Cdt.writeABI stod less abis with
        | error e => rw [hlink] at hsame; exact hsame.elim
        | ok r =>
          cases r with
          | none => rw [hlink] at hsame; exact hsame.elim
          | some m₀ => exact h.uniform hversions hlink
    · rintro (h | h) order hperm
      · exact h.orderIndependent hversions order hperm
      · by_cases hne : abis = []
        · subst hne
          rw [hperm.eq_nil]
          trivial
        · exact sameOutcome_of_errors (h.error hversions hne (List.Perm.refl _))
            (h.error hversions hne hperm)
  · push Not at hversions
    obtain ⟨a, ha, hversion⟩ := hversions
    refine iff_of_true (fun order hperm => ?_) (.inl ⟨a, ha, hversion⟩)
    exact sameOutcome_of_errors (writeABI_error_of_version ha hversion)
      (writeABI_error_of_version (hperm.mem_iff.2 ha) hversion)

end

end

/-! ## Links whose order matters -/

/-- A document with one variant. -/
def variantAbi (types : List Text) : Abi := { structAbi [] with
  structs := []
  variants := [⟨"v".toList, types⟩] }

/-- Two orders of a struct's fields: each order of the link publishes its own. A variant with an
alternative more: one order fails. -/
theorem order_matters :
    ¬OrderIndependent (fun _ => some ()) (fun _ _ => false)
      [structAbi [fieldX, fieldY], structAbi [fieldY, fieldX]] ∧
    ¬OrderIndependent (fun _ => some ()) (fun _ _ => false)
      [variantAbi ["a".toList], variantAbi ["a".toList, "b".toList]] := by
  constructor
  · intro h
    have hsame := h _ (List.Perm.swap _ _ [])
    have hfirst : writeABI (fun _ => some ()) (fun _ _ => false) [structAbi [fieldX, fieldY],
        structAbi [fieldY, fieldX]] = .ok (some (structAbi [fieldY, fieldX])) := by decide
    have hsecond : writeABI (fun _ => some ()) (fun _ _ => false) [structAbi [fieldY, fieldX],
        structAbi [fieldX, fieldY]] = .ok (some (structAbi [fieldX, fieldY])) := by decide
    rw [hfirst, hsecond] at hsame
    exact absurd ((hsame .structs ⟨"s".toList, [], [fieldX, fieldY]⟩).2 (.head _)) (by decide)
  · intro h
    have hsame := h _ (List.Perm.swap _ _ [])
    have hfirst : writeABI (fun _ => some ()) (fun _ _ => false) [variantAbi ["a".toList],
        variantAbi ["a".toList, "b".toList]] =
          .error (.runtimeError (alreadyDefined "v".toList)) := by decide
    have hsecond : writeABI (fun _ => some ()) (fun _ _ => false) [variantAbi ["a".toList, "b".toList],
        variantAbi ["a".toList]] = .ok (some (variantAbi ["a".toList])) := by decide
    rw [hfirst, hsecond] at hsame
    exact hsame

end Cdt
