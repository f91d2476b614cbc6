import WasmCdt.Contracts.Consistency
import WasmCdt.Core.Proof.RoundTrip

/-!
# Secondary indices agree with the rows

`set` and `del` are an update of the map of rows, as long as no two rows share a secondary key and
`del` is given an object that agrees with the row it removes.

* `Table.set_refines`, `Table.del_refines`: one call.
* `Table.run_refines`: a run, by induction on its calls.
* `Table.run_consistent`: **after every call the entries are those of the stored rows and find them.**
* `run_inconsistent`: two rows with one secondary key, and a deletion by a stale object, break this.
-/

namespace Wasmlib.Db

namespace Table

variable {Obj Pk : Type} {table : Table Obj Pk}

/-! ## Keys -/

theorem littleEndian_inj {n x y : Nat} (hx : x < 2 ^ (8 * n)) (hy : y < 2 ^ (8 * n))
    (h : littleEndian n x = littleEndian n y) : x = y := by
  rw [← ofLittleEndian_littleEndian n x hx, h,
    ofLittleEndian_littleEndian n y hy]

/-- Two prefixes of one length are equal. -/
theorem prefix_unique {a b l : List UInt8} (ha : a <+: l) (hb : b <+: l)
    (h : a.length = b.length) : a = b :=
  List.IsPrefix.eq_of_length (List.prefix_of_prefix_length_le ha hb h.le) h

theorem mem_transformIndices {idx : Index Obj} (h : idx ∈ table.transformIndices) :
    idx.number < 16 ∧ table.indices[idx.number]? = some idx.toIndexedBy := by
  obtain ⟨i, hi, rfl⟩ := List.mem_iff_getElem.1 h
  simp only [transformIndices, List.length_zipWith, List.length_range, lt_inf_iff] at hi
  simp only [transformIndices, List.getElem_zipWith, List.getElem_range]
  exact ⟨hi.2, List.getElem?_eq_getElem hi.1⟩

theorem index_ext {idx idx' : Index Obj} (h : idx ∈ table.transformIndices)
    (h' : idx' ∈ table.transformIndices) (hn : idx.number = idx'.number) : idx = idx' := by
  have hidx := (mem_transformIndices h).2
  rw [hn, (mem_transformIndices h').2] at hidx
  cases idx
  cases idx'
  cases hn
  cases Option.some.inj hidx
  rfl

/-- The low four bits of an index's table name are its number. -/
theorem indexName_low (name : BitVec (8 * 8)) {n : Nat} (h : n < 16) :
    (((name &&& 0xFFFFFFFFFFFFFFF0) ||| (BitVec.ofNat 64 n &&& 0xF)) &&& 0xF).toNat = n := by
  have hmask : (0xFFFFFFFFFFFFFFF0 : BitVec (8 * 8)) &&& 0xF = 0#(8 * 8) := by decide
  have hlow : ((name &&& 0xFFFFFFFFFFFFFFF0) ||| (BitVec.ofNat 64 n &&& 0xF)) &&& 0xF =
      BitVec.ofNat 64 n &&& 0xF := by
    rw [BitVec.and_or_distrib_right, BitVec.and_assoc, hmask, BitVec.and_zero, BitVec.zero_or,
      BitVec.and_assoc, BitVec.and_self]
  have h15 : (0xF : BitVec (8 * 8)).toNat = 2 ^ 4 - 1 := rfl
  rw [hlow, BitVec.toNat_and, h15, Nat.and_two_pow_sub_one_eq_mod, BitVec.toNat_ofNat]
  omega

theorem indexTableName_low {n : Nat} (h : n < 16) :
    (table.indexTableName n &&& 0xF).toNat = n := indexName_low table.tableName h

theorem rowBytes_starts (object : Obj) : table.rowPrefix <+: table.rowBytes object :=
  List.prefix_append _ _

theorem entryBytes_starts (idx : Index Obj) (object : Obj) :
    table.entryPrefix idx <+: table.entryBytes idx object := by
  refine ⟨idx.key.format.bytes (idx.extractSecondaryKey object) ++ [], ?_⟩
  rw [entryPrefix, List.append_assoc]
  rfl

theorem owned_row (object : Obj) : table.Owned (table.rowBytes object) :=
  .inl (rowBytes_starts object)

theorem owned_entry {idx : Index Obj} (h : idx ∈ table.transformIndices) (object : Obj) :
    table.Owned (table.entryBytes idx object) :=
  .inr ⟨idx, h, entryBytes_starts idx object⟩

theorem entryPrefix_inj {idx idx' : Index Obj} {key : List UInt8}
    (h : idx ∈ table.transformIndices) (h' : idx' ∈ table.transformIndices)
    (hp : table.entryPrefix idx <+: key) (hp' : table.entryPrefix idx' <+: key) : idx = idx' := by
  have heq := prefix_unique hp hp' (by simp [entryPrefix, littleEndian_length])
  have hname : table.indexTableName idx.number = table.indexTableName idx'.number :=
    BitVec.eq_of_toNat_eq (littleEndian_inj (BitVec.isLt _) (BitVec.isLt _)
      (List.append_cancel_left heq))
  refine index_ext h h' ?_
  have hlow : (table.indexTableName idx.number &&& 0xF).toNat = idx.number :=
    indexTableName_low (mem_transformIndices h).1
  rw [← hlow, hname, indexTableName_low (mem_transformIndices h').1]

/-- A row's key is no entry's key. -/
theorem rowPrefix_ne_entryPrefix (hname : table.tableName ≠ SECONDARY_KEY_PREFIX)
    {idx : Index Obj} {key : List UInt8} (hp : table.rowPrefix <+: key) :
    ¬table.entryPrefix idx <+: key := by
  intro hp'
  have hp'' : littleEndian 8 SECONDARY_KEY_PREFIX.toNat <+: key := (List.prefix_append _ _).trans hp'
  have heq := prefix_unique hp hp'' (by simp [rowPrefix, littleEndian_length])
  exact hname (BitVec.eq_of_toNat_eq (littleEndian_inj (BitVec.isLt _) (BitVec.isLt _) heq))

/-! ## Storable objects -/

namespace Storable

variable {o o' : Obj}

theorem primary (h : table.Storable o) : table.primary.Packs (table.primaryKey o) where
  bounded := h.rowKey.bounded.2.1
  fits := h.rowKey.fits.2.1
  small := by
    have hsmall : (littleEndian 8 table.tableName.toNat ++
        (table.primary.format.bytes (table.primaryKey o) ++ [])).length < 2 ^ 31 := h.rowKey.small
    simp only [List.length_append] at hsmall
    omega

theorem packRowKey_eq (h : table.Storable o) :
    table.packRowKey (table.primaryKey o) = .ok (table.rowBytes o) := h.rowKey.pack_eq

theorem packSecondary_eq (h : table.Storable o) {idx : Index Obj}
    (hidx : idx ∈ table.transformIndices) :
    table.packSecondary idx (idx.extractSecondaryKey o) = .ok (table.entryBytes idx o) :=
  (h.secondary idx hidx).pack_eq

theorem rowBytes_inj (h : table.Storable o) (h' : table.Storable o')
    (heq : table.rowBytes o = table.rowBytes o') : table.primaryKey o = table.primaryKey o' := by
  have hkey := h.rowKey.bytes_inj h'.rowKey heq
  simpa using hkey

theorem entryBytes_inj (h : table.Storable o) (h' : table.Storable o') {idx : Index Obj}
    (hidx : idx ∈ table.transformIndices) (heq : table.entryBytes idx o = table.entryBytes idx o') :
    idx.extractSecondaryKey o = idx.extractSecondaryKey o' := by
  have hkey := (h.secondary idx hidx).bytes_inj (h'.secondary idx hidx) heq
  simpa using hkey

/-- Entries with one key are of one index. -/
theorem entryBytes_index {idx idx' : Index Obj} (hidx : idx ∈ table.transformIndices)
    (hidx' : idx' ∈ table.transformIndices)
    (heq : table.entryBytes idx o = table.entryBytes idx' o') : idx = idx' := by
  refine entryPrefix_inj hidx hidx' (entryBytes_starts idx o) ?_
  rw [heq]
  exact entryBytes_starts idx' o'

theorem rowBytes_ne_entryBytes (hname : table.tableName ≠ SECONDARY_KEY_PREFIX) {idx : Index Obj} :
    table.rowBytes o ≠ table.entryBytes idx o' := by
  intro heq
  have hp : table.entryPrefix idx <+: table.rowBytes o := by
    rw [heq]
    exact entryBytes_starts idx o'
  exact rowPrefix_ne_entryPrefix hname (rowBytes_starts o) hp

end Storable

/-! ## What a store of sound rows holds -/

namespace Sound

variable {rows : Rows Obj Pk} {o : Obj} {v : List UInt8}

theorem holds_row_iff (h : table.Sound rows) (hname : table.tableName ≠ SECONDARY_KEY_PREFIX)
    (ho : table.Storable o) : table.Holds rows (table.rowBytes o) v ↔
      ∃ o', rows (table.primaryKey o) = some o' ∧ v = table.object.format.bytes o' := by
  constructor
  · intro hholds
    generalize hkey : table.rowBytes o = key at hholds
    cases hholds with
    | @row o' hrow =>
      rw [ho.rowBytes_inj (h.storable hrow) hkey]
      exact ⟨o', hrow, rfl⟩
    | entry => exact absurd hkey (Storable.rowBytes_ne_entryBytes hname)
  · rintro ⟨o', hrow, rfl⟩
    have hpk := h.keyed hrow
    rw [← hpk] at hrow
    have hkey : table.rowBytes o = table.rowBytes o' := by rw [rowBytes, rowBytes, hpk]
    rw [hkey]
    exact .row hrow

theorem holds_entry_iff (h : table.Sound rows) (hname : table.tableName ≠ SECONDARY_KEY_PREFIX)
    (ho : table.Storable o) {idx : Index Obj} (hidx : idx ∈ table.transformIndices) :
    table.Holds rows (table.entryBytes idx o) v ↔
      ∃ o', rows (table.primaryKey o') = some o' ∧
        idx.extractSecondaryKey o' = idx.extractSecondaryKey o ∧
        v = table.primary.format.bytes (table.primaryKey o') := by
  constructor
  · intro hholds
    generalize hkey : table.entryBytes idx o = key at hholds
    cases hholds with
    | row => exact absurd hkey.symm (Storable.rowBytes_ne_entryBytes hname)
    | @entry o' idx' hidx' hrow =>
      obtain rfl := Storable.entryBytes_index hidx hidx' hkey
      exact ⟨o', hrow, (h.storable hrow).entryBytes_inj ho hidx hkey.symm, rfl⟩
  · rintro ⟨o', hrow, hext, rfl⟩
    have hkey : table.entryBytes idx o = table.entryBytes idx o' := by
      rw [entryBytes, entryBytes, hext]
    rw [hkey]
    exact .entry hidx hrow

end Sound

/-! ## Reading -/

namespace Represents

variable {rows : Rows Obj Pk} {s : Store} {o : Obj}

theorem row_at (h : table.Represents rows s) (ho : rows (table.primaryKey o) = some o) :
    s (table.rowBytes o) = some (table.object.format.bytes o) :=
  (h.store (owned_row o) _).2 (.row ho)

theorem entry_at (h : table.Represents rows s) (ho : rows (table.primaryKey o) = some o)
    {idx : Index Obj} (hidx : idx ∈ table.transformIndices) :
    s (table.entryBytes idx o) = some (table.primary.format.bytes (table.primaryKey o)) :=
  (h.store (owned_entry hidx o) _).2 (.entry hidx ho)

/-- `get` by a primary key is the map of rows. -/
theorem get_eq (h : table.Represents rows s) (hname : table.tableName ≠ SECONDARY_KEY_PREFIX)
    (ho : table.Storable o) :
    table.get (table.primaryKey o) s = .ok (rows (table.primaryKey o)) := by
  simp only [get, ho.packRowKey_eq, ok_bind, dbGet, pure_eq_ok]
  cases hrow : rows (table.primaryKey o) with
  | none =>
    have hnone : s (table.rowBytes o) = none := by
      rw [Option.eq_none_iff_forall_not_mem]
      intro v hv
      obtain ⟨o', ho', -⟩ := (h.holds_row_iff hname ho).1 ((h.store (owned_row o) v).1 hv)
      rw [hrow] at ho'
      cases ho'
    simp [hnone]
  | some o' =>
    have hstor := h.storable hrow
    have hpk := h.keyed hrow
    have hkey : table.rowBytes o = table.rowBytes o' := by rw [rowBytes, rowBytes, hpk]
    rw [← hpk] at hrow
    have hlen : ¬(table.object.format.bytes o').length = 0 := fun hnil =>
      hstor.row_ne_nil (List.length_eq_zero_iff.1 hnil)
    simp only [hkey, h.row_at hrow, Option.getD_some, hlen, ↓reduceIte, hstor.row.unpack_eq,
      ok_bind]

theorem stored_of_row (h : table.Represents rows s) (hname : table.tableName ≠ SECONDARY_KEY_PREFIX)
    {primary : Pk} (ho : rows primary = some o) : table.Stored s o := by
  rw [Stored, h.get_eq hname (h.storable ho), h.keyed ho, ho]

/-- The loop of `get(by_index, object)` finds the primary key of the row with the object's secondary
keys, if it comes past an index of the name. -/
theorem foldlM_getIndex (h : table.Represents rows s) (ho : rows (table.primaryKey o) = some o)
    {byIndex : BitVec (8 * 8)} {query : Obj} (hquery : ∀ idx ∈ table.transformIndices,
      idx.indexName = byIndex → idx.extractSecondaryKey query = idx.extractSecondaryKey o) :
    ∀ {l : List (Index Obj)} {primary : Option Pk}, (∀ idx ∈ l, idx ∈ table.transformIndices) →
      (primary = some (table.primaryKey o) ∨ ∃ idx ∈ l, idx.indexName = byIndex) →
      l.foldlM (table.getIndex byIndex query s) primary = .ok (some (table.primaryKey o))
  | [], primary, _, hfound => by
    rcases hfound with rfl | ⟨idx, hidx, -⟩
    · rfl
    · exact absurd hidx List.not_mem_nil
  | idx :: l, primary, hl, hfound => by
    have hidx := hl idx List.mem_cons_self
    have hl' : ∀ idx ∈ l, idx ∈ table.transformIndices :=
      fun idx hidx => hl idx (List.mem_cons_of_mem _ hidx)
    rw [List.foldlM_cons, getIndex]
    by_cases hbyIndex : idx.indexName = byIndex
    · have hstor := h.storable ho
      have hlen : ¬(table.primary.format.bytes (table.primaryKey o)).length = 0 := fun hnil =>
        hstor.primary_ne_nil (List.length_eq_zero_iff.1 hnil)
      simp only [hbyIndex, ↓reduceIte, hquery idx hidx hbyIndex, hstor.packSecondary_eq hidx,
        ok_bind, dbGet, h.entry_at ho hidx, Option.getD_some, hlen, hstor.primary.unpack_eq,
        pure_eq_ok]
      exact foldlM_getIndex h ho hquery hl' (.inl rfl)
    · simp only [hbyIndex, ↓reduceIte, pure_eq_ok, ok_bind]
      refine foldlM_getIndex h ho hquery hl' ?_
      rcases hfound with hp | ⟨idx', hmem, hname'⟩
      · exact .inl hp
      · rcases List.mem_cons.1 hmem with rfl | hmem
        · exact absurd hname' hbyIndex
        · exact .inr ⟨idx', hmem, hname'⟩

theorem getByIndex_eq (h : table.Represents rows s) (hname : table.tableName ≠ SECONDARY_KEY_PREFIX)
    (ho : rows (table.primaryKey o) = some o) {idx : Index Obj}
    (hidx : idx ∈ table.transformIndices) {query : Obj}
    (hquery : ∀ idx' ∈ table.transformIndices, idx'.indexName = idx.indexName →
      idx'.extractSecondaryKey query = idx'.extractSecondaryKey o) :
    table.getByIndex idx.indexName query s = .ok (some o) := by
  simp only [getByIndex, foldlM_getIndex h ho hquery (fun _ h => h) (.inr ⟨idx, hidx, rfl⟩),
    ok_bind, h.get_eq hname (h.storable ho), ho]

/-- **A store that represents rows is consistent.** -/
theorem consistent (h : table.Represents rows s)
    (hname : table.tableName ≠ SECONDARY_KEY_PREFIX) : table.Consistent s where
  entries idx hidx key v hv hp := by
    have hholds := (h.store (.inr ⟨idx, hidx, hp⟩) v).1 hv
    cases hholds with
    | row => exact absurd hp (rowPrefix_ne_entryPrefix hname (rowBytes_starts _))
    | @entry object idx' hidx' hrow =>
      obtain rfl := entryPrefix_inj hidx hidx' hp (entryBytes_starts idx' object)
      have hstor := h.storable hrow
      exact ⟨object, h.stored_of_row hname hrow, hstor.packSecondary_eq hidx,
        hstor.primary.pack_eq⟩
  rows key v hv hp := by
    have hholds := (h.store (.inl hp) v).1 hv
    cases hholds with
    | @row object hrow =>
      have hstor := h.storable hrow
      exact ⟨object, hstor.row.unpack_eq, hstor.packRowKey_eq, fun idx hidx query hquery =>
        h.getByIndex_eq hname hrow hidx hquery⟩
    | entry => exact absurd (entryBytes_starts _ _) (rowPrefix_ne_entryPrefix hname hp)

end Represents

/-! ## Writing -/

section Writing

open KvStore

variable (table)

/-- What `set` writes for one index. -/
def indexWrites (oldObject : Option Obj) (object : Obj) (idx : Index Obj) :
    List (Write (List UInt8) (List UInt8)) :=
  (match oldObject with
    | some old =>
      if idx.extractSecondaryKey old ≠ idx.extractSecondaryKey object
      then [(table.entryBytes idx old, none)] else []
    | none => []) ++
  [(table.entryBytes idx object, some (table.primary.format.bytes (table.primaryKey object)))]

def setWrites (oldObject : Option Obj) (object : Obj) : List (Write (List UInt8) (List UInt8)) :=
  table.transformIndices.flatMap (table.indexWrites oldObject object) ++
    [(table.rowBytes object, some (table.object.format.bytes object))]

def delWrites (object : Obj) : List (Write (List UInt8) (List UInt8)) :=
  table.transformIndices.map (fun idx => (table.entryBytes idx object, none)) ++
    [(table.rowBytes object, none)]

variable {table} {rows : Rows Obj Pk} {s : Store} {object : Obj}

/-- The effect of a loop over indices is that of its bodies' writes. -/
theorem foldlM_writes {body : Store → Index Obj → Exec Store}
    {writes : Index Obj → List (Write (List UInt8) (List UInt8))} :
    ∀ {l : List (Index Obj)} {s : Store},
      (∀ idx ∈ l, ∀ s, body s idx = .ok (apply (writes idx) s)) →
      l.foldlM body s = .ok (apply (l.flatMap writes) s)
  | [], _, _ => rfl
  | idx :: l, s, h => by
    rw [List.foldlM_cons, h idx List.mem_cons_self, ok_bind, List.flatMap_cons, apply_append]
    exact foldlM_writes fun idx hidx => h idx (List.mem_cons_of_mem _ hidx)

theorem setIndex_eq (h : table.Storable object) {oldObject : Option Obj}
    (hold : ∀ old ∈ oldObject, table.Storable old) {idx : Index Obj}
    (hidx : idx ∈ table.transformIndices) (s : Store) :
    table.setIndex object oldObject s idx =
      .ok (apply (table.indexWrites oldObject object idx) s) := by
  simp only [setIndex, h.packSecondary_eq hidx, ok_bind, h.primary.pack_eq, pure_eq_ok]
  cases oldObject with
  | none => rfl
  | some old =>
    simp only [(hold old rfl).packSecondary_eq hidx, ok_bind, indexWrites]
    split_ifs <;> rfl

theorem set_eq (hname : table.tableName ≠ SECONDARY_KEY_PREFIX) (hr : table.Represents rows s)
    (h : table.Storable object) : table.set object s =
      .ok (apply (table.setWrites (rows (table.primaryKey object)) object) s) := by
  have hold : ∀ old ∈ rows (table.primaryKey object), table.Storable old :=
    fun old hold => hr.storable hold
  have hbody : ∀ idx ∈ table.transformIndices, ∀ s,
      table.setIndex object (rows (table.primaryKey object)) s idx =
        .ok (apply (table.indexWrites (rows (table.primaryKey object)) object idx) s) :=
    fun idx hidx s => setIndex_eq h hold hidx s
  have hloop := foldlM_writes (s := s) hbody
  simp only [set, h.packRowKey_eq, ok_bind, h.row.pack_eq, hr.get_eq hname h, hloop, pure_eq_ok,
    setWrites, apply_append]
  rfl

theorem del_eq (h : table.Storable object) :
    table.del object s = .ok (apply (table.delWrites object) s) := by
  have hbody : ∀ idx ∈ table.transformIndices, ∀ s,
      table.delIndex object s idx = .ok (apply [(table.entryBytes idx object, none)] s) := by
    intro idx hidx s
    simp only [delIndex, h.packSecondary_eq hidx, ok_bind, pure_eq_ok]
    rfl
  have hloop := foldlM_writes (s := s) hbody
  rw [← List.map_eq_flatMap] at hloop
  simp only [del, h.packRowKey_eq, ok_bind, hloop, pure_eq_ok, delWrites, apply_append]
  rfl

/-- A batch that writes what the new rows need, and leaves alone what they share with the old. -/
theorem Represents.of_writes {rows' : Rows Obj Pk} {ws : List (Write (List UInt8) (List UInt8))}
    (hr : table.Represents rows s) (hsound : table.Sound rows')
    (hwrites : ∀ w ∈ ws, ∀ v, w.2 = some v ↔ table.Holds rows' w.1 v)
    (hrest : ∀ key, (∀ w ∈ ws, w.1 ≠ key) → ∀ v,
      table.Holds rows key v ↔ table.Holds rows' key v) :
    table.Represents rows' (apply ws s) where
  toSound := hsound
  store {key} howned v := by
    by_cases hmem : ∃ w ∈ ws, w.1 = key
    · obtain ⟨w, hw, rfl⟩ := hmem
      have hagrees : Agrees ws w.1 w.2 := by
        intro w' hw' hkey
        have hw'' := hwrites w' hw'
        rw [hkey] at hw''
        exact Option.ext fun v => (hw'' v).trans (hwrites w hw v).symm
      rw [apply_of_mem hagrees hw]
      exact hwrites w hw v
    · have hne : ∀ w ∈ ws, w.1 ≠ key := fun w hw heq => hmem ⟨w, hw, heq⟩
      rw [apply_of_forall_ne hne, hr.store howned]
      exact hrest key hne v

theorem mem_setWrites {oldObject : Option Obj} {w : Write (List UInt8) (List UInt8)} :
    w ∈ table.setWrites oldObject object ↔
      (∃ idx ∈ table.transformIndices, (∃ old ∈ oldObject,
          idx.extractSecondaryKey old ≠ idx.extractSecondaryKey object ∧
            w = (table.entryBytes idx old, none)) ∨
        w = (table.entryBytes idx object,
          some (table.primary.format.bytes (table.primaryKey object)))) ∨
      w = (table.rowBytes object, some (table.object.format.bytes object)) := by
  simp only [setWrites, List.mem_append, List.mem_flatMap, List.mem_singleton, indexWrites]
  cases oldObject with
  | none => simp
  | some old =>
    simp only [Option.mem_some_iff, exists_eq_left']
    refine or_congr (exists_congr fun idx => and_congr_right fun _ => or_congr_left ?_) Iff.rfl
    split_ifs with hne <;> simp [hne]

theorem mem_delWrites {w : Write (List UInt8) (List UInt8)} : w ∈ table.delWrites object ↔
    (∃ idx ∈ table.transformIndices, w = (table.entryBytes idx object, none)) ∨
      w = (table.rowBytes object, none) := by
  simp [delWrites, eq_comm]

variable {rows' : Rows Obj Pk}

/-- `set` keeps the rows sound, unless another row has a secondary key of the object. -/
theorem Sound.set (h : table.Sound rows) (ho : table.Storable object)
    (hfree : ∀ row, rows (table.primaryKey row) = some row →
      table.primaryKey row ≠ table.primaryKey object → ∀ idx ∈ table.transformIndices,
        idx.extractSecondaryKey row ≠ idx.extractSecondaryKey object)
    (hself : rows' (table.primaryKey object) = some object)
    (hother : ∀ primary, primary ≠ table.primaryKey object → rows' primary = rows primary) :
    table.Sound rows' := by
  have hcases : ∀ {primary row}, rows' primary = some row →
      (primary = table.primaryKey object ∧ row = object) ∨
      (primary ≠ table.primaryKey object ∧ rows primary = some row) := by
    intro primary row hrow
    by_cases hp : primary = table.primaryKey object
    · subst hp
      exact .inl ⟨rfl, Option.some.inj (hrow.symm.trans hself)⟩
    · exact .inr ⟨hp, (hother primary hp).symm.trans hrow⟩
  have hapart : ∀ {primary row}, primary ≠ table.primaryKey object → rows primary = some row →
      ∀ idx ∈ table.transformIndices,
        idx.extractSecondaryKey row ≠ idx.extractSecondaryKey object := by
    intro primary row hp hrow
    obtain rfl := h.keyed hrow
    exact hfree row hrow hp
  refine ⟨fun hrow => ?_, fun hrow => ?_, fun hrow hrow' idx hidx heq => ?_⟩
  · rcases hcases hrow with ⟨rfl, rfl⟩ | ⟨-, hrow⟩
    · rfl
    · exact h.keyed hrow
  · rcases hcases hrow with ⟨-, rfl⟩ | ⟨-, hrow⟩
    · exact ho
    · exact h.storable hrow
  · rcases hcases hrow with ⟨rfl, rfl⟩ | ⟨hp, hrow⟩ <;>
      rcases hcases hrow' with ⟨rfl, rfl⟩ | ⟨hp', hrow'⟩
    · rfl
    · exact absurd heq.symm (hapart hp' hrow' idx hidx)
    · exact absurd heq (hapart hp hrow idx hidx)
    · exact h.unique hrow hrow' idx hidx heq

theorem Sound.del (h : table.Sound rows)
    (hself : rows' (table.primaryKey object) = none)
    (hother : ∀ primary, primary ≠ table.primaryKey object → rows' primary = rows primary) :
    table.Sound rows' := by
  have hrows : ∀ {primary row}, rows' primary = some row → rows primary = some row := by
    intro primary row hrow
    by_cases hp : primary = table.primaryKey object
    · rw [hp, hself] at hrow
      cases hrow
    · rw [← hother primary hp, hrow]
  exact ⟨fun hrow => h.keyed (hrows hrow), fun hrow => h.storable (hrows hrow),
    fun hrow hrow' => h.unique (hrows hrow) (hrows hrow')⟩

/-- A row that no write of `set` touches is there before and after. -/
theorem set_rest (hself : rows' (table.primaryKey object) = some object)
    (hother : ∀ primary, primary ≠ table.primaryKey object → rows' primary = rows primary)
    {key : List UInt8}
    (hne : ∀ w ∈ table.setWrites (rows (table.primaryKey object)) object, w.1 ≠ key)
    (v : List UInt8) : table.Holds rows key v ↔ table.Holds rows' key v := by
  have hrow : key ≠ table.rowBytes object := fun heq =>
    hne _ (mem_setWrites.2 (.inr rfl)) heq.symm
  have hentry : ∀ idx ∈ table.transformIndices, key ≠ table.entryBytes idx object :=
    fun idx hidx heq => hne _ (mem_setWrites.2 (.inl ⟨idx, hidx, .inr rfl⟩)) heq.symm
  have hold : ∀ idx ∈ table.transformIndices, ∀ old, rows (table.primaryKey object) = some old →
      idx.extractSecondaryKey old ≠ idx.extractSecondaryKey object →
      key ≠ table.entryBytes idx old := fun idx hidx old hold hdiff heq =>
    hne _ (mem_setWrites.2 (.inl ⟨idx, hidx, .inl ⟨old, hold, hdiff, rfl⟩⟩)) heq.symm
  constructor
  · intro hholds
    cases hholds with
    | @row o ho =>
      have hpk : table.primaryKey o ≠ table.primaryKey object := fun heq =>
        hrow (by rw [rowBytes, rowBytes, heq])
      exact .row (by rw [hother _ hpk, ho])
    | @entry o idx hidx ho =>
      have hpk : table.primaryKey o ≠ table.primaryKey object := by
        intro heq
        rw [heq] at ho
        -- the old row's entry is either overwritten or removed
        by_cases hdiff : idx.extractSecondaryKey o = idx.extractSecondaryKey object
        · exact hentry idx hidx (by rw [entryBytes, entryBytes, hdiff])
        · exact hold idx hidx o ho hdiff rfl
      exact .entry hidx (by rw [hother _ hpk, ho])
  · intro hholds
    cases hholds with
    | @row o ho =>
      by_cases hpk : table.primaryKey o = table.primaryKey object
      · exact absurd (by rw [rowBytes, rowBytes, hpk]) hrow
      · exact .row (by rw [← hother _ hpk, ho])
    | @entry o idx hidx ho =>
      by_cases hpk : table.primaryKey o = table.primaryKey object
      · rw [hpk, hself] at ho
        exact absurd (by rw [Option.some.inj ho]) (hentry idx hidx)
      · exact .entry hidx (by rw [← hother _ hpk, ho])

/-- **`set` stores the row**, if no other row has a secondary key of the object. -/
theorem set_refines (hname : table.tableName ≠ SECONDARY_KEY_PREFIX) (hr : table.Represents rows s)
    (h : table.Fine s (.set object)) :
    ∃ s', table.set object s = .ok s' ∧ table.Represents (table.stepRows rows (.set object)) s' := by
  obtain ⟨ho, hfree⟩ := h
  have hself : table.stepRows rows (.set object) (table.primaryKey object) = some object := by
    simp [stepRows]
  have hother : ∀ primary, primary ≠ table.primaryKey object →
      table.stepRows rows (.set object) primary = rows primary :=
    fun primary hp => by simp [stepRows, hp]
  have hsound := hr.toSound.set ho (fun row hrow => hfree row (hr.stored_of_row hname hrow))
    hself hother
  refine ⟨_, set_eq hname hr ho, hr.of_writes hsound ?_ fun key hne v =>
    set_rest hself hother hne v⟩
  intro w hw v
  rcases mem_setWrites.1 hw with ⟨idx, hidx, ⟨old, hold, hdiff, rfl⟩ | rfl⟩ | rfl
  · -- the entry under the old key belongs to no row any more
    rw [hsound.holds_entry_iff hname (hr.storable hold) hidx]
    refine ⟨fun hnone => (Option.some_ne_none v hnone.symm).elim, ?_⟩
    rintro ⟨o, ho', hext, -⟩
    by_cases hpk : table.primaryKey o = table.primaryKey object
    · rw [hpk, hself] at ho'
      exact absurd (by rw [← Option.some.inj ho'] at hext; exact hext.symm) hdiff
    · rw [hother _ hpk] at ho'
      exact absurd (hr.unique ho' hold idx hidx hext) hpk
  · rw [hsound.holds_entry_iff hname ho hidx]
    constructor
    · intro hv
      exact ⟨object, hself, rfl, (Option.some.inj hv).symm⟩
    · rintro ⟨o, ho', hext, rfl⟩
      rw [hsound.unique ho' hself idx hidx hext]
  · rw [hsound.holds_row_iff hname ho]
    constructor
    · intro hv
      exact ⟨object, hself, (Option.some.inj hv).symm⟩
    · rintro ⟨o, ho', rfl⟩
      rw [Option.some.inj (ho'.symm.trans hself)]

theorem del_rest (hself : rows' (table.primaryKey object) = none)
    (hother : ∀ primary, primary ≠ table.primaryKey object → rows' primary = rows primary)
    {key : List UInt8} (hne : ∀ w ∈ table.delWrites object, w.1 ≠ key)
    (hagree : ∀ row, rows (table.primaryKey object) = some row → ∀ idx ∈ table.transformIndices,
      idx.extractSecondaryKey row = idx.extractSecondaryKey object)
    (v : List UInt8) : table.Holds rows key v ↔ table.Holds rows' key v := by
  have hrow : key ≠ table.rowBytes object := fun heq => hne _ (mem_delWrites.2 (.inr rfl)) heq.symm
  have hentry : ∀ idx ∈ table.transformIndices, key ≠ table.entryBytes idx object :=
    fun idx hidx heq => hne _ (mem_delWrites.2 (.inl ⟨idx, hidx, rfl⟩)) heq.symm
  constructor
  · intro hholds
    cases hholds with
    | @row o ho =>
      have hpk : table.primaryKey o ≠ table.primaryKey object := fun heq =>
        hrow (by rw [rowBytes, rowBytes, heq])
      exact .row (by rw [hother _ hpk, ho])
    | @entry o idx hidx ho =>
      have hpk : table.primaryKey o ≠ table.primaryKey object := by
        intro heq
        rw [heq] at ho
        exact hentry idx hidx (by rw [entryBytes, entryBytes, hagree o ho idx hidx])
      exact .entry hidx (by rw [hother _ hpk, ho])
  · intro hholds
    cases hholds with
    | @row o ho =>
      have hpk : table.primaryKey o ≠ table.primaryKey object := by
        intro heq
        rw [heq, hself] at ho
        cases ho
      exact .row (by rw [← hother _ hpk, ho])
    | @entry o idx hidx ho =>
      have hpk : table.primaryKey o ≠ table.primaryKey object := by
        intro heq
        rw [heq, hself] at ho
        cases ho
      exact .entry hidx (by rw [← hother _ hpk, ho])

/-- **`del` removes the row**, if the object has the row's secondary keys and no other row's. -/
theorem del_refines (hname : table.tableName ≠ SECONDARY_KEY_PREFIX) (hr : table.Represents rows s)
    (h : table.Fine s (.del object)) :
    ∃ s', table.del object s = .ok s' ∧ table.Represents (table.stepRows rows (.del object)) s' := by
  obtain ⟨ho, hagree⟩ := h
  have hself : table.stepRows rows (.del object) (table.primaryKey object) = none := by
    simp [stepRows]
  have hother : ∀ primary, primary ≠ table.primaryKey object →
      table.stepRows rows (.del object) primary = rows primary :=
    fun primary hp => by simp [stepRows, hp]
  have hsound := hr.toSound.del hself hother
  have hrows : ∀ row, rows (table.primaryKey object) = some row →
      ∀ idx ∈ table.transformIndices,
        idx.extractSecondaryKey row = idx.extractSecondaryKey object := fun row hrow idx hidx =>
    (hagree row (hr.stored_of_row hname hrow) idx hidx).1 (hr.keyed hrow)
  refine ⟨_, del_eq ho, hr.of_writes hsound ?_ fun key hne v => del_rest hself hother hne hrows v⟩
  intro w hw v
  rcases mem_delWrites.1 hw with ⟨idx, hidx, rfl⟩ | rfl
  · rw [hsound.holds_entry_iff hname ho hidx]
    refine ⟨fun hnone => (Option.some_ne_none v hnone.symm).elim, ?_⟩
    rintro ⟨o, ho', hext, -⟩
    by_cases hpk : table.primaryKey o = table.primaryKey object
    · rw [hpk, hself] at ho'
      cases ho'
    · rw [hother _ hpk] at ho'
      exact absurd ((hagree o (hr.stored_of_row hname ho') idx hidx).2 hext) hpk
  · rw [hsound.holds_row_iff hname ho, hself]
    simp

end Writing

/-! ## Runs -/

section Runs

variable {rows : Rows Obj Pk} {s : Store}

theorem step_refines (hname : table.tableName ≠ SECONDARY_KEY_PREFIX)
    (hr : table.Represents rows s) : ∀ {call : Call Obj}, table.Fine s call →
    ∃ s', table.step s call = .ok s' ∧ table.Represents (table.stepRows rows call) s'
  | .set _, h => set_refines hname hr h
  | .del _, h => del_refines hname hr h

/-- **A run is the run on the map of rows.** -/
theorem run_refines (hname : table.tableName ≠ SECONDARY_KEY_PREFIX) :
    ∀ {calls : List (Call Obj)} {rows : Rows Obj Pk} {s : Store}, table.Represents rows s →
      table.FineRun calls s → ∃ s', table.run calls s = .ok s' ∧
        table.Represents (calls.foldl table.stepRows rows) s'
  | [], _, s, hr, _ => ⟨s, rfl, hr⟩
  | call :: calls, rows, s, hr, h => by
    obtain ⟨s₁, hstep, hr₁⟩ := step_refines hname hr h.1
    obtain ⟨s', hrun, hr'⟩ := run_refines hname hr₁ (h.2 s₁ hstep)
    exact ⟨s', by simpa [run, hstep] using hrun, hr'⟩

theorem represents_empty : table.Represents (fun _ => none) fun _ => none where
  keyed h := nomatch h
  storable h := nomatch h
  unique h := nomatch h
  store _ v := by
    refine ⟨(nomatch ·), fun h => ?_⟩
    cases h <;> contradiction

/-- **Consistency of the secondary indices**: in a run from the empty store that keeps secondary
keys apart no call aborts, and the store after it is consistent. -/
theorem run_consistent (hname : table.tableName ≠ SECONDARY_KEY_PREFIX) (calls : List (Call Obj))
    (h : table.FineRun calls fun _ => none) :
    ∃ s, table.run calls (fun _ => none) = .ok s ∧ table.Consistent s := by
  obtain ⟨s, hrun, hr⟩ := run_refines hname represents_empty h
  exact ⟨s, hrun, hr.consistent hname⟩

end Runs

end Table

/-! ## Runs that keep and runs that break the indices -/

section Sample

open Table

/-- A row of two integers, the primary key and the one secondary key. -/
abbrev SampleRow : Type := BitVec (8 * 8) × BitVec (8 * 8) × Unit

def sampleIndex : IndexedBy SampleRow where
  indexName := 0x200
  Key := BitVec (8 * 8)
  decEq := inferInstance
  key := .int 8
  extractSecondaryKey o := o.2.1

def sampleTable : Table SampleRow (BitVec (8 * 8)) where
  tableName := 0x100
  object := .struct (.cons (.int 8) (.cons (.int 8) .nil)) (0, 0, ())
  primary := .int 8
  primaryKey o := o.1
  indices := [sampleIndex]

theorem sample_storable (o : SampleRow) : sampleTable.Storable o where
  row := ⟨⟨trivial, trivial, trivial⟩, ⟨trivial, trivial, trivial⟩, by
    simp [sampleTable, Ty.format, Types.productFormat, Format.cons, Format.int, Format.nil,
      littleEndian_length]⟩
  rowKey := ⟨⟨trivial, trivial, trivial⟩, ⟨trivial, trivial, trivial⟩, by
    simp [sampleTable, rowKeyTy, Ty.format, Types.productFormat, Format.cons, Format.int,
      Format.nil, littleEndian_length]⟩
  secondary idx hidx := by
    obtain rfl : idx = ⟨sampleIndex, 0⟩ := List.mem_singleton.1 hidx
    exact ⟨⟨trivial, trivial, trivial, trivial⟩, ⟨trivial, trivial, trivial, trivial⟩, by
      simp [sampleIndex, secondaryTy, Ty.format, Types.productFormat, Format.cons, Format.int,
        Format.nil, littleEndian_length]⟩
  row_ne_nil := List.cons_ne_nil _ _
  primary_ne_nil := List.cons_ne_nil _ _

/-- A row is stored, found, and deleted. -/
theorem run_consistent_sample : ∃ s,
    sampleTable.run [.set (1, 7, ()), .del (1, 7, ())] (fun _ => none) = .ok s ∧
      sampleTable.Consistent s := by
  have hname : sampleTable.tableName ≠ SECONDARY_KEY_PREFIX := by decide
  have hset : sampleTable.Fine (fun _ => none) (.set (1, 7, ())) := by
    refine ⟨sample_storable _, fun row hrow => ?_⟩
    rw [Stored, represents_empty.get_eq hname (sample_storable row)] at hrow
    cases hrow
  refine run_consistent hname _ ⟨hset, fun s hs => ⟨⟨sample_storable _, ?_⟩, fun _ _ => trivial⟩⟩
  obtain ⟨s', hs', hr⟩ := set_refines hname represents_empty hset
  obtain rfl : s = s' := Except.ok.inj (hs.symm.trans hs')
  intro row hrow idx hidx
  rw [Stored, hr.get_eq hname (sample_storable row), Except.ok.injEq] at hrow
  by_cases hpk : sampleTable.primaryKey row = sampleTable.primaryKey (1, 7, ())
  · simp only [stepRows, hpk, Function.update_self, Option.some.injEq] at hrow
    subst hrow
    exact iff_of_true rfl rfl
  · simp only [stepRows, ne_eq, hpk, not_false_eq_true, Function.update_of_ne, reduceCtorEq] at hrow

/-- A stored row that is not found by itself. -/
theorem not_consistent {Obj Pk : Type} {table : Table Obj Pk} {s : Store} (key v : List UInt8)
    (object : Obj) {idx : Index Obj} (found : Option Obj) (hkey : s key = some v)
    (hp : table.rowPrefix <+: key) (hv : table.object.unpack v = .ok object)
    (hidx : idx ∈ table.transformIndices)
    (hfound : table.getByIndex idx.indexName object s = .ok found) (hne : found ≠ some object) :
    ¬table.Consistent s := by
  intro hc
  obtain ⟨o, ho, -, hget⟩ := hc.rows key v hkey hp
  rw [hv] at ho
  obtain rfl := Except.ok.inj ho
  have hself := hget idx hidx object fun _ _ _ => rfl
  rw [hfound] at hself
  exact hne (Except.ok.inj hself)

/-- After a second row with the secondary key 7, the first is not found. After a deletion by an
object with the secondary key of another row, that other row is not found. -/
theorem run_inconsistent :
    (∃ s, sampleTable.run [.set (1, 7, ()), .set (2, 7, ())] (fun _ => none) = .ok s ∧
      ¬sampleTable.Consistent s) ∧
    ∃ s, sampleTable.run [.set (1, 7, ()), .set (2, 8, ()), .del (1, 8, ())] (fun _ => none) =
      .ok s ∧ ¬sampleTable.Consistent s := by
  have hidx : ⟨sampleIndex, 0⟩ ∈ sampleTable.transformIndices := List.mem_singleton.2 rfl
  refine ⟨⟨_, rfl, ?_⟩, _, rfl, ?_⟩
  · exact not_consistent [0, 1, 0, 0, 0, 0, 0, 0, 1, 0, 0, 0, 0, 0, 0, 0]
      [1, 0, 0, 0, 0, 0, 0, 0, 7, 0, 0, 0, 0, 0, 0, 0] (1, 7, ()) (some (2, 7, ()))
      (by decide) (by decide) (by decide) hidx (by decide) (by decide)
  · exact not_consistent [0, 1, 0, 0, 0, 0, 0, 0, 2, 0, 0, 0, 0, 0, 0, 0]
      [2, 0, 0, 0, 0, 0, 0, 0, 8, 0, 0, 0, 0, 0, 0, 0] (2, 8, ()) none
      (by decide) (by decide) (by decide) hidx (by decide) (by decide)

end Sample

end Wasmlib.Db
