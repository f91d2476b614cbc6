import WasmCdt.Contracts.Db
import WasmCdt.Core.Format

/-!
# What an indexed table is for

The rows of a table as a map from primary keys, the store that holds them, and when the entries of
the indices agree with the rows. An index has one entry for a secondary key, so two rows must not
share one; and `del` derives the entries to remove from the object it is given.
-/

namespace Wasmlib.Db

namespace Table

variable {Obj Pk : Type} (table : Table Obj Pk)

/-! ## The store -/

/-- The key of a row starts with the table's name. -/
def rowPrefix : List UInt8 := littleEndian 8 table.tableName.toNat

/-- The key of an entry starts with `SECONDARY_KEY_PREFIX` and the name of the index. -/
def entryPrefix (idx : Index Obj) : List UInt8 :=
  littleEndian 8 SECONDARY_KEY_PREFIX.toNat ++
    littleEndian 8 (table.indexTableName idx.number).toNat

/-- The object is in the store, under its primary key. -/
def Stored (s : Store) (object : Obj) : Prop :=
  table.get (table.primaryKey object) s = .ok (some object)

/-- The entries of the indices are those of the rows, and find them. -/
structure Consistent (s : Store) : Prop where
  /-- An entry is a stored row's: it has the row's secondary key and the row's primary key. -/
  entries : ∀ idx ∈ table.transformIndices, ∀ key v, s key = some v →
    table.entryPrefix idx <+: key → ∃ object, table.Stored s object ∧
      table.packSecondary idx (idx.extractSecondaryKey object) = .ok key ∧
      table.primary.pack (table.primaryKey object) = .ok v
  /-- A stored row is found through each index, by any object with the row's secondary key. -/
  rows : ∀ key v, s key = some v → table.rowPrefix <+: key → ∃ object,
    table.object.unpack v = .ok object ∧ table.packRowKey (table.primaryKey object) = .ok key ∧
      ∀ idx ∈ table.transformIndices, ∀ query,
        (∀ idx' ∈ table.transformIndices, idx'.indexName = idx.indexName →
          idx'.extractSecondaryKey query = idx'.extractSecondaryKey object) →
        table.getByIndex idx.indexName query s = .ok (some object)

/-! ## Calls that keep the store consistent -/

/-- The object and its keys can be packed and unpacked; the row and the primary key not to nothing,
which the host does not tell from an absent value. -/
structure Storable (object : Obj) : Prop where
  row : table.object.Packs object
  rowKey : table.rowKeyTy.Packs (table.tableName, table.primaryKey object, ())
  secondary : ∀ idx ∈ table.transformIndices, (secondaryTy idx).Packs
    (SECONDARY_KEY_PREFIX, table.indexTableName idx.number, idx.extractSecondaryKey object, ())
  row_ne_nil : table.object.format.bytes object ≠ []
  primary_ne_nil : table.primary.format.bytes (table.primaryKey object) ≠ []

/-- The call keeps secondary keys apart: `set` takes none that another row has, and `del` is given an
object with the secondary keys of the row it removes, and of no other. -/
def Fine (s : Store) : Call Obj → Prop
  | .set object => table.Storable object ∧ ∀ row, table.Stored s row →
      table.primaryKey row ≠ table.primaryKey object → ∀ idx ∈ table.transformIndices,
        idx.extractSecondaryKey row ≠ idx.extractSecondaryKey object
  | .del object => table.Storable object ∧ ∀ row, table.Stored s row →
      ∀ idx ∈ table.transformIndices, (table.primaryKey row = table.primaryKey object ↔
        idx.extractSecondaryKey row = idx.extractSecondaryKey object)

/-- Every call of the run is fine in the store it finds. -/
def FineRun : List (Call Obj) → Store → Prop
  | [], _ => True
  | call :: calls, s => table.Fine s call ∧ ∀ s', table.step s call = .ok s' → FineRun calls s'

/-! ## Rows as a map -/

/-- The rows of a table by their primary key. -/
abbrev Rows (Obj Pk : Type) : Type := Pk → Option Obj

open Classical in
/-- What a call is for. -/
noncomputable def stepRows (rows : Rows Obj Pk) : Call Obj → Rows Obj Pk
  | .set object => Function.update rows (table.primaryKey object) (some object)
  | .del object => Function.update rows (table.primaryKey object) none

/-- The key of a row in the store. -/
def rowBytes (object : Obj) : List UInt8 :=
  table.rowKeyTy.format.bytes (table.tableName, table.primaryKey object, ())

/-- The key of a row's entry in an index. -/
def entryBytes (idx : Index Obj) (object : Obj) : List UInt8 :=
  (secondaryTy idx).format.bytes
    (SECONDARY_KEY_PREFIX, table.indexTableName idx.number, idx.extractSecondaryKey object, ())

/-- What a store of the rows has to hold. -/
inductive Holds (rows : Rows Obj Pk) : List UInt8 → List UInt8 → Prop
  | row {object : Obj} : rows (table.primaryKey object) = some object →
    Holds rows (table.rowBytes object) (table.object.format.bytes object)
  | entry {object : Obj} {idx : Index Obj} : idx ∈ table.transformIndices →
    rows (table.primaryKey object) = some object →
    Holds rows (table.entryBytes idx object)
      (table.primary.format.bytes (table.primaryKey object))

/-- The keys that belong to the table. -/
def Owned (key : List UInt8) : Prop :=
  table.rowPrefix <+: key ∨ ∃ idx ∈ table.transformIndices, table.entryPrefix idx <+: key

/-- Rows that the table can hold: each under its primary key, no two with a secondary key in
common. -/
structure Sound (rows : Rows Obj Pk) : Prop where
  keyed : ∀ {primary object}, rows primary = some object → table.primaryKey object = primary
  storable : ∀ {primary object}, rows primary = some object → table.Storable object
  unique : ∀ {primary primary' object object'}, rows primary = some object →
    rows primary' = some object' → ∀ idx ∈ table.transformIndices,
      idx.extractSecondaryKey object = idx.extractSecondaryKey object' → primary = primary'

/-- The store holds the rows and the entries for them. -/
structure Represents (rows : Rows Obj Pk) (s : Store) : Prop extends table.Sound rows where
  store : ∀ {key}, table.Owned key → ∀ v, s key = some v ↔ table.Holds rows key v

end Table

end Wasmlib.Db
