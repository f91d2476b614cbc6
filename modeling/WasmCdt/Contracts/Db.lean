import WasmCdt.Core.Serialize
import WasmCdt.Lib.KvStore

/-!
# Indexed tables

`contracts/db.hpp`: rows under their primary key in the host's key-value store, and for every index
of the table an entry from the secondary key of a row to its primary key.
-/

namespace Wasmlib.Db

/-! ## The host -/

/-- The host's store; the three host functions treat it as a map. -/
abbrev Store : Type := List UInt8 → Option (List UInt8)

/-- `db_get`: the value, whose length is 0 where the key is absent. -/
def dbGet (key : List UInt8) (s : Store) : List UInt8 := (s key).getD []

/-- `db_store`. -/
def dbStore (key value : List UInt8) (s : Store) : Store := Function.update s key (some value)

/-- `db_remove`. -/
def dbRemove (key : List UInt8) (s : Store) : Store := Function.update s key none

/-! ## Tables -/

def SECONDARY_KEY_PREFIX : BitVec (8 * 8) := 0x000000000000000F

/-- `indexed_by`: the name of an index and the extractor of its secondary key. -/
structure IndexedBy (Obj : Type) where
  indexName : BitVec (8 * 8)
  Key : Type
  decEq : DecidableEq Key
  key : Ty Key
  extractSecondaryKey : Obj → Key

/-- `index_table::index`: an index with its number in the table. -/
structure Index (Obj : Type) extends IndexedBy Obj where
  number : Nat

instance {Obj : Type} (idx : Index Obj) : DecidableEq idx.Key := idx.decEq

/-- `index_table`, with the object type's `primary_key` and its packed form. -/
structure Table (Obj Pk : Type) where
  tableName : BitVec (8 * 8)
  object : Ty Obj
  primary : Ty Pk
  primaryKey : Obj → Pk
  indices : List (IndexedBy Obj)

namespace Table

variable {Obj Pk : Type} (table : Table Obj Pk)

/-- `transform_indices`: zipped with the numbers 0 to 15. -/
def transformIndices : List (Index Obj) :=
  List.zipWith (fun idx number => ⟨idx, number⟩) table.indices (List.range 16)

/-- `index_table_name`. -/
def indexTableName (number : Nat) : BitVec (8 * 8) :=
  (table.tableName &&& 0xFFFFFFFFFFFFFFF0) ||| (BitVec.ofNat 64 number &&& 0xF)

/-- `std::tuple(table.table_name(), primary)`. -/
def rowKeyTy : Ty (BitVec (8 * 8) × Pk × Unit) :=
  .tuple (.cons (.int 8) (.cons table.primary .nil))

/-- `std::tuple(SECONDARY_KEY_PREFIX, index_type::name(), secondary)`. -/
def secondaryTy (idx : Index Obj) : Ty (BitVec (8 * 8) × BitVec (8 * 8) × idx.Key × Unit) :=
  .tuple (.cons (.int 8) (.cons (.int 8) (.cons idx.key .nil)))

def packRowKey (primary : Pk) : Exec (List UInt8) :=
  table.rowKeyTy.pack (table.tableName, primary, ())

def packSecondary (idx : Index Obj) (key : idx.Key) : Exec (List UInt8) :=
  (secondaryTy idx).pack (SECONDARY_KEY_PREFIX, table.indexTableName idx.number, key, ())

/-- `get(object, primary)`; `none` is `false`. -/
def get (primary : Pk) (s : Store) : Exec (Option Obj) := do
  let key ← table.packRowKey primary
  let v := dbGet key s
  if v.length = 0 then pure none
  else do
    let object ← table.object.unpack v
    pure (some object)

/-- The loop body of `set`, for one index. -/
def setIndex (object : Obj) (oldObject : Option Obj) (s : Store) (idx : Index Obj) :
    Exec Store := do
  let s ← match oldObject with
    | some old =>
      if idx.extractSecondaryKey old ≠ idx.extractSecondaryKey object then do
        let oldSecondary ← table.packSecondary idx (idx.extractSecondaryKey old)
        pure (dbRemove oldSecondary s)
      else pure s
    | none => pure s
  let secondary ← table.packSecondary idx (idx.extractSecondaryKey object)
  let primary ← table.primary.pack (table.primaryKey object)
  pure (dbStore secondary primary s)

/-- `set`. -/
def set (object : Obj) (s : Store) : Exec Store := do
  let key ← table.packRowKey (table.primaryKey object)
  let value ← table.object.pack object
  let oldObject ← table.get (table.primaryKey object) s
  let s ← table.transformIndices.foldlM (table.setIndex object oldObject) s
  pure (dbStore key value s)

/-- The loop body of `del`, for one index. -/
def delIndex (object : Obj) (s : Store) (idx : Index Obj) : Exec Store := do
  let secondary ← table.packSecondary idx (idx.extractSecondaryKey object)
  pure (dbRemove secondary s)

/-- `del`. -/
def del (object : Obj) (s : Store) : Exec Store := do
  let key ← table.packRowKey (table.primaryKey object)
  let s ← table.transformIndices.foldlM (table.delIndex object) s
  pure (dbRemove key s)

/-- The loop body of `get(by_index, object)`, for one index; the state is `primary`, once found. -/
def getIndex (byIndex : BitVec (8 * 8)) (object : Obj) (s : Store) (primary : Option Pk)
    (idx : Index Obj) : Exec (Option Pk) :=
  if idx.indexName = byIndex then do
    let secondary ← table.packSecondary idx (idx.extractSecondaryKey object)
    let v := dbGet secondary s
    if v.length = 0 then pure primary
    else do
      let primary ← table.primary.unpack v
      pure (some primary)
  else pure primary

/-- `get(by_index, object)`. -/
def getByIndex (byIndex : BitVec (8 * 8)) (object : Obj) (s : Store) : Exec (Option Obj) := do
  let primary ← table.transformIndices.foldlM (table.getIndex byIndex object s) none
  match primary with
  | none => pure none
  | some primary => table.get primary s

/-! ## Runs -/

/-- A call of the contract on the table. -/
inductive Call (Obj : Type)
  | set (object : Obj)
  | del (object : Obj)

def step (s : Store) : Call Obj → Exec Store
  | .set object => table.set object s
  | .del object => table.del object s

def run (calls : List (Call Obj)) (s : Store) : Exec Store := calls.foldlM table.step s

end Table

end Wasmlib.Db
