import WasmCdt.Contracts.Proof.Keys

/-!
# Rows under their primary key

What a table is without its indices: a map from primary keys to objects. No secondary key, shared or
stale, is the key of a row, so this holds of every run, also of those that break the indices.

* `get_setIndex`, `get_delIndex`: writing and removing entries changes no row.
* `set_spec`, `del_spec`: one call.
* `run_get`: **after a run, `get` is the map of rows.**
-/

namespace Wasmlib.Db

namespace Table

variable {Obj Pk : Type} {table : Table Obj Pk}

/-! ## Values that come back -/

/-- The value unpacks from what it packs to. -/
def Unpacks {α : Type} (t : Ty α) (x : α) : Prop :=
  ∃ bytes, t.pack x = .ok bytes ∧ t.unpack bytes = .ok x

/-- A primary key that comes back, and packs with the table's name. -/
structure Key (table : Table Obj Pk) (primary : Pk) : Prop where
  unpacks : Unpacks table.primary primary
  packs : ∃ key, table.packRowKey primary = .ok key

/-- An object that comes back, from a row that is not empty; its secondary keys need only pack. -/
structure Row (table : Table Obj Pk) (object : Obj) : Prop where
  unpacks : Unpacks table.object object
  ne_nil : table.object.pack object ≠ .ok []
  key : table.Key (table.primaryKey object)
  secondary : ∀ idx ∈ table.transformIndices,
    ∃ key, table.packSecondary idx (idx.extractSecondaryKey object) = .ok key

/-- The object of a call. -/
def Call.object : Call Obj → Obj
  | .set object => object
  | .del object => object

theorem Unpacks.inj {α : Type} {t : Ty α} {x y : α} (hx : Unpacks t x) (hy : Unpacks t y)
    (h : t.serial.encoding x = t.serial.encoding y) : x = y := by
  obtain ⟨bx, hpx, hux⟩ := hx
  obtain ⟨bY, hpy, huy⟩ := hy
  have hbx : bx = t.serial.encoding x := t.chunked.pack_sound hpx
  have hby : bY = t.serial.encoding y := t.chunked.pack_sound hpy
  rw [hbx, h, ← hby, huy] at hux
  exact (Except.ok.inj hux).symm

theorem Key.inj {p p' : Pk} (h : table.Key p) (h' : table.Key p') {key : List UInt8}
    (hp : table.packRowKey p = .ok key) (hp' : table.packRowKey p' = .ok key) : p = p' := by
  have heq : (DbKey.row table p).label.bytes = (DbKey.row table p').label.bytes :=
    (DbKey.bytes_eq (k := .row table p) hp).symm.trans (DbKey.bytes_eq (k := .row table p') hp')
  exact h.unpacks.inj h'.unpacks (Label.row_inj heq).2

/-- The key of a row is no entry's. -/
theorem rowKey_ne_secondary (hname : table.tableName ≠ SECONDARY_KEY_PREFIX) {primary : Pk}
    {idx : Index Obj} {secondary : idx.Key} {key key' : List UInt8}
    (hk : table.packRowKey primary = .ok key)
    (hk' : table.packSecondary idx secondary = .ok key') : key ≠ key' := by
  rintro rfl
  have heq : (DbKey.row table primary).label.bytes = (DbKey.entry table idx secondary).label.bytes :=
    (DbKey.bytes_eq (k := .row table primary) hk).symm.trans
      (DbKey.bytes_eq (k := .entry table idx secondary) hk')
  exact hname (Label.prefix_of_row_eq_entry heq)

/-! ## What `get` depends on -/

theorem get_congr {primary : Pk} {s s' : Store}
    (h : ∀ key, table.packRowKey primary = .ok key → s key = s' key) :
    table.get primary s = table.get primary s' := by
  unfold get dbGet
  cases hk : table.packRowKey primary with
  | error e => rfl
  | ok key => simp only [ok_bind, h key hk]

section
variable (hname : table.tableName ≠ SECONDARY_KEY_PREFIX)
include hname

/-- A change under an entry's key changes no row. -/
theorem get_update_secondary {primary : Pk} {idx : Index Obj} {secondary : idx.Key}
    {key : List UInt8} (hk : table.packSecondary idx secondary = .ok key) (s : Store)
    (v : Option (List UInt8)) :
    table.get primary (Function.update s key v) = table.get primary s :=
  get_congr fun _ hrow => Function.update_of_ne (rowKey_ne_secondary hname hrow hk) v s

/-- **Writing an entry changes no row.** -/
theorem get_setIndex {object : Obj} {oldObject : Option Obj} {idx : Index Obj} {s s' : Store}
    (h : table.setIndex object oldObject s idx = .ok s') (primary : Pk) :
    table.get primary s' = table.get primary s := by
  have hstore : ∀ s₁ : Store, (do
      let secondary ← table.packSecondary idx (idx.extractSecondaryKey object)
      let primary ← table.primary.pack (table.primaryKey object)
      pure (dbStore secondary primary s₁)) = .ok s' → table.get primary s' = table.get primary s₁ := by
    intro s₁ h
    obtain ⟨secondary, hsec, h⟩ := bind_eq_ok h
    obtain ⟨v, -, h⟩ := bind_eq_ok h
    cases h
    exact get_update_secondary hname hsec s₁ _
  unfold setIndex at h
  cases oldObject with
  | none => exact hstore s h
  | some old =>
    by_cases hdiff : idx.extractSecondaryKey old ≠ idx.extractSecondaryKey object
    · simp only [if_pos hdiff] at h
      obtain ⟨oldSecondary, hsec, h⟩ := bind_eq_ok h
      rw [pure_eq_ok, ok_bind] at h
      exact (hstore _ h).trans (get_update_secondary hname hsec s _)
    · simp only [if_neg hdiff] at h
      exact hstore s h

/-- **Removing an entry changes no row.** -/
theorem get_delIndex {object : Obj} {idx : Index Obj} {s s' : Store}
    (h : table.delIndex object s idx = .ok s') (primary : Pk) :
    table.get primary s' = table.get primary s := by
  obtain ⟨secondary, hsec, h⟩ := bind_eq_ok h
  cases h
  exact get_update_secondary hname hsec s _

end

/-! ## Calls -/

/-- The loops go through, and keep what each round keeps. -/
theorem foldlM_keeps {f : Store → Index Obj → Exec Store} {P : Store → Store → Prop}
    (hrefl : ∀ s, P s s) (htrans : ∀ {s₁ s₂ s₃}, P s₁ s₂ → P s₂ s₃ → P s₁ s₃) :
    ∀ {l : List (Index Obj)}, (∀ idx ∈ l, ∀ s, ∃ s', f s idx = .ok s' ∧ P s s') →
      ∀ s, ∃ s', l.foldlM f s = .ok s' ∧ P s s'
  | [], _, s => ⟨s, rfl, hrefl s⟩
  | idx :: l, h, s => by
    obtain ⟨s₁, hbody, h₁⟩ := h idx List.mem_cons_self s
    obtain ⟨s', hloop, h'⟩ :=
      foldlM_keeps hrefl htrans (fun idx hidx => h idx (List.mem_cons_of_mem _ hidx)) s₁
    exact ⟨s', by rw [List.foldlM_cons, hbody, ok_bind, hloop], htrans h₁ h'⟩

/-- No row of the table is changed. -/
def SameRows (table : Table Obj Pk) (s s' : Store) : Prop :=
  ∀ primary, table.get primary s' = table.get primary s

theorem setIndex_ok {object : Obj} (hobj : table.Row object) {oldObject : Option Obj}
    (hold : ∀ old ∈ oldObject, table.Row old) {idx : Index Obj}
    (hidx : idx ∈ table.transformIndices) (s : Store) :
    ∃ s', table.setIndex object oldObject s idx = .ok s' := by
  obtain ⟨secondary, hsec⟩ := hobj.secondary idx hidx
  obtain ⟨v, hv, -⟩ := hobj.key.unpacks
  unfold setIndex
  cases oldObject with
  | none => simp [hsec, hv]
  | some old =>
    obtain ⟨oldSecondary, hsec'⟩ := (hold old rfl).secondary idx hidx
    simp only [hsec, hsec', hv, ok_bind, pure_eq_ok]
    split <;> simp

theorem stepRows_set_self (rows : Rows Obj Pk) (object : Obj) :
    table.stepRows rows (.set object) (table.primaryKey object) = some object := by
  simp [stepRows]

theorem stepRows_del_self (rows : Rows Obj Pk) (object : Obj) :
    table.stepRows rows (.del object) (table.primaryKey object) = none := by
  simp [stepRows]

theorem stepRows_of_ne (rows : Rows Obj Pk) (call : Call Obj) {primary : Pk}
    (h : primary ≠ table.primaryKey call.object) :
    table.stepRows rows call primary = rows primary := by
  cases call with
  | set object =>
    have hne : primary ≠ table.primaryKey object := h
    simp [stepRows, hne]
  | del object =>
    have hne : primary ≠ table.primaryKey object := h
    simp [stepRows, hne]

/-- The rows of a store. -/
structure HoldsRows (table : Table Obj Pk) (rows : Rows Obj Pk) (s : Store) : Prop where
  row : ∀ {primary object}, rows primary = some object → table.Row object
  get : ∀ {primary}, table.Key primary → table.get primary s = .ok (rows primary)

/-- A key of the store that is written or removed, and the row under it. -/
theorem get_update_row {primary primary' : Pk} (h : table.Key primary) (h' : table.Key primary')
    {key : List UInt8} (hk : table.packRowKey primary = .ok key) (s : Store)
    (v : Option (List UInt8)) (hne : primary' ≠ primary) :
    table.get primary' (Function.update s key v) = table.get primary' s := by
  have hkeys : ∀ key', table.packRowKey primary' = .ok key' → key' ≠ key := by
    rintro key' hk' rfl
    exact hne (h'.inj h hk' hk)
  exact get_congr fun key' hk' => Function.update_of_ne (hkeys key' hk') v s

section
variable (hname : table.tableName ≠ SECONDARY_KEY_PREFIX) {rows : Rows Obj Pk} {s : Store}
include hname

theorem set_spec (hr : table.HoldsRows rows s) {object : Obj} (hobj : table.Row object) :
    ∃ s', table.set object s = .ok s' ∧
      table.HoldsRows (table.stepRows rows (.set object)) s' := by
  obtain ⟨key, hkey⟩ := hobj.key.packs
  obtain ⟨value, hvalue, hback⟩ := hobj.unpacks
  obtain ⟨s₁, hloop, hsame⟩ := foldlM_keeps (P := table.SameRows)
    (f := table.setIndex object (rows (table.primaryKey object))) (fun _ _ => rfl)
    (fun h₁ h₂ primary => (h₂ primary).trans (h₁ primary))
    (fun idx hidx s => by
      obtain ⟨s', hs'⟩ := setIndex_ok hobj (fun old hold => hr.row hold) hidx s
      exact ⟨s', hs', get_setIndex hname hs'⟩) s
  refine ⟨dbStore key value s₁, ?_, ?_, ?_⟩
  · simp only [set, hkey, ok_bind, hvalue, hr.get hobj.key, hloop, pure_eq_ok]
  · intro primary o ho
    by_cases hp : primary = table.primaryKey object
    · subst hp
      rw [stepRows_set_self] at ho
      exact Option.some.inj ho ▸ hobj
    · rw [stepRows_of_ne rows (.set object) hp] at ho
      exact hr.row ho
  · intro primary hprimary
    by_cases hp : primary = table.primaryKey object
    · subst hp
      have hlen : ¬value.length = 0 := fun hnil =>
        hobj.ne_nil (hvalue.trans (congrArg _ (List.length_eq_zero_iff.1 hnil)))
      simp only [stepRows_set_self, get, hkey, ok_bind, dbGet, dbStore, Function.update_self,
        Option.getD_some, hlen, if_false, hback, pure_eq_ok]
    · rw [dbStore, get_update_row hobj.key hprimary hkey s₁ _ hp, hsame primary, hr.get hprimary,
        stepRows_of_ne rows (.set object) hp]

theorem del_spec (hr : table.HoldsRows rows s) {object : Obj} (hobj : table.Row object) :
    ∃ s', table.del object s = .ok s' ∧
      table.HoldsRows (table.stepRows rows (.del object)) s' := by
  obtain ⟨key, hkey⟩ := hobj.key.packs
  obtain ⟨s₁, hloop, hsame⟩ := foldlM_keeps (P := table.SameRows) (f := table.delIndex object)
    (fun _ _ => rfl) (fun h₁ h₂ primary => (h₂ primary).trans (h₁ primary))
    (fun idx hidx s => by
      obtain ⟨secondary, hsec⟩ := hobj.secondary idx hidx
      have hs' : table.delIndex object s idx = .ok (dbRemove secondary s) := by
        simp only [delIndex, hsec, ok_bind, pure_eq_ok]
      exact ⟨_, hs', get_delIndex hname hs'⟩) s
  refine ⟨dbRemove key s₁, ?_, ?_, ?_⟩
  · simp only [del, hkey, ok_bind, hloop, pure_eq_ok]
  · intro primary o ho
    by_cases hp : primary = table.primaryKey object
    · subst hp
      rw [stepRows_del_self] at ho
      cases ho
    · rw [stepRows_of_ne rows (.del object) hp] at ho
      exact hr.row ho
  · intro primary hprimary
    by_cases hp : primary = table.primaryKey object
    · subst hp
      simp only [stepRows_del_self, get, hkey, ok_bind, dbGet, dbRemove, Function.update_self,
        Option.getD_none, List.length_nil, if_true, pure_eq_ok]
    · rw [dbRemove, get_update_row hobj.key hprimary hkey s₁ _ hp, hsame primary, hr.get hprimary,
        stepRows_of_ne rows (.del object) hp]

/-- A run keeps the map of rows. -/
theorem run_spec : ∀ {calls : List (Call Obj)} {rows : Rows Obj Pk} {s : Store},
    table.HoldsRows rows s → (∀ call ∈ calls, table.Row call.object) →
    ∃ s', table.run calls s = .ok s' ∧ table.HoldsRows (calls.foldl table.stepRows rows) s'
  | [], _, s, hr, _ => ⟨s, rfl, hr⟩
  | call :: calls, rows, s, hr, h => by
    obtain ⟨s₁, hstep, hr₁⟩ : ∃ s₁, table.step s call = .ok s₁ ∧
        table.HoldsRows (table.stepRows rows call) s₁ := by
      have hobj := h call List.mem_cons_self
      cases call with
      | set object => exact set_spec hname hr hobj
      | del object => exact del_spec hname hr hobj
    obtain ⟨s', hrun, hr'⟩ := run_spec hr₁ fun c hc => h c (List.mem_cons_of_mem _ hc)
    exact ⟨s', by simpa [run, hstep] using hrun, hr'⟩

omit hname in
/-- A store without rows of the table, whatever else it holds. -/
theorem holdsRows_empty {s₀ : Store} (hs₀ : ∀ key, table.rowPrefix <+: key → s₀ key = none) :
    table.HoldsRows (fun _ => none) s₀ where
  row h := nomatch h
  get {primary} h := by
    obtain ⟨key, hkey⟩ := h.packs
    have hnone : s₀ key = none := by
      refine hs₀ key ?_
      rw [DbKey.bytes_eq (k := .row table primary) hkey]
      exact List.prefix_append _ _
    simp only [Table.get, hkey, ok_bind, dbGet, hnone, Option.getD_none, List.length_nil, if_true,
      pure_eq_ok]

/-- **Rows are a map**: from a store without rows of the table every run goes through, and after it
`get` finds under a primary key what the calls have left there, and nothing where they left
nothing. The entries that calls write and remove change no row. -/
theorem run_get_rows {s₀ : Store} (hs₀ : ∀ key, table.rowPrefix <+: key → s₀ key = none)
    (calls : List (Call Obj)) (h : ∀ call ∈ calls, table.Row call.object) :
    (∃ s, table.run calls s₀ = .ok s ∧ ∀ primary, table.Key primary →
      table.get primary s = .ok (calls.foldl table.stepRows (fun _ => none) primary)) ∧
    ∀ object oldObject idx s s', (table.setIndex object oldObject s idx = .ok s' ∨
        table.delIndex object s idx = .ok s') →
      ∀ primary, table.get primary s' = table.get primary s := by
  obtain ⟨s, hrun, hr⟩ := run_spec hname (holdsRows_empty hs₀) h
  refine ⟨⟨s, hrun, fun _ hprimary => hr.get hprimary⟩, ?_⟩
  rintro object oldObject idx s s' (hset | hdel)
  · exact get_setIndex hname hset
  · exact get_delIndex hname hdel

end

/-- What an index needs of an object is more than what its row needs. -/
theorem Storable.toRow {object : Obj} (h : table.Storable object) : table.Row object where
  unpacks := ⟨_, h.row.pack_eq, h.row.unpack_eq⟩
  ne_nil hnil := h.row_ne_nil (Except.ok.inj (h.row.pack_eq.symm.trans hnil))
  key := ⟨⟨_, h.primary.pack_eq, h.primary.unpack_eq⟩, _, h.packRowKey_eq⟩
  secondary _ hidx := ⟨_, h.packSecondary_eq hidx⟩

end Table

/-! ## Rows that come back, and rows that do not -/

section Sample

open Table

/-- Rows with one secondary key, of which the index finds only one, stay two rows. -/
theorem run_get_rows_sample : ∃ s,
    sampleTable.run [.set (1, 7, ()), .set (2, 7, ()), .del (1, 7, ())] (fun _ => none) = .ok s ∧
      sampleTable.get 1 s = .ok none ∧ sampleTable.get 2 s = .ok (some (2, 7, ())) := by
  have hrow : ∀ o, sampleTable.Row o := fun o => (sample_storable o).toRow
  have hempty : ∀ key, sampleTable.rowPrefix <+: key → (fun _ => none : Store) key = none :=
    fun _ _ => rfl
  have hname : sampleTable.tableName ≠ SECONDARY_KEY_PREFIX := by decide
  obtain ⟨⟨s, hrun, hget⟩, -⟩ := run_get_rows hname hempty
    [.set (1, 7, ()), .set (2, 7, ()), .del (1, 7, ())] fun call _ => hrow call.object
  have h1 : ∀ rows, sampleTable.stepRows rows (.del (1, 7, ())) 1 = none :=
    fun rows => stepRows_del_self rows (1, 7, ())
  have h2 : ∀ rows, sampleTable.stepRows rows (.set (2, 7, ())) 2 = some (2, 7, ()) :=
    fun rows => stepRows_set_self rows (2, 7, ())
  have h3 : ∀ rows, sampleTable.stepRows rows (.del (1, 7, ())) 2 = rows 2 :=
    fun rows => stepRows_of_ne rows (.del (1, 7, ())) (by decide)
  refine ⟨s, hrun, ?_, ?_⟩
  · rw [hget 1 (hrow (1, 7, ())).key]
    exact congrArg Except.ok (h1 _)
  · rw [hget 2 (hrow (2, 7, ())).key]
    exact congrArg Except.ok ((h3 _).trans (h2 _))

/-- A row of a number, the primary key, and a `fixed_bytes<20>`. -/
abbrev DigestRow : Type := BitVec (8 * 8) × FixedBytes 20 × Unit

def digestTable : Table DigestRow (BitVec (8 * 8)) where
  tableName := 0x100
  object := .struct (.cons (.int 8) (.cons (.fixedBytes 20) .nil)) (0, .replicate _ 0, ())
  primary := .int 8
  primaryKey o := o.1
  indices := []

/-- No row of this table is encoded to nothing, but padding that is not zero does not come back. -/
theorem run_get_padding :
    (∀ o bytes, digestTable.object.pack o = .ok bytes → bytes ≠ []) ∧
    ∃ s, digestTable.run [.set (1, ⟨[1, 1], rfl⟩, ())] (fun _ => none) = .ok s ∧
      digestTable.get 1 s = .ok (some (1, ⟨[1, 0], rfl⟩, ())) ∧
      digestTable.get 1 s ≠ .ok (some (1, ⟨[1, 1], rfl⟩, ())) := by
  refine ⟨fun o bytes h hnil => ?_, _, rfl, by decide, by decide⟩
  have hbytes : bytes = digestTable.object.serial.encoding o := (Ty.chunked _).pack_sound h
  have hserial : digestTable.object.serial.encoding o = littleEndian 8 o.1.toNat ++
      (Serial.cons (.fixedBytes 20) .nil).encoding o.2 :=
    (Chunked.int 8).encoding_cons ((Chunked.fixedBytes 20).cons .nil) o.1 o.2
  have hlen := congrArg List.length (hnil.symm.trans (hbytes.trans hserial))
  rw [List.length_append, littleEndian_length, List.length_nil] at hlen
  omega

end Sample

end Wasmlib.Db
