import WasmCdt.Contracts.Db

/-!
# Scoped tables

`contracts/table.hpp`: rows in the host's store under the name of a table, a scope and their primary
key, without indices. An object is changed by a function of the contract, which may change any member.
-/

namespace Wasmlib.Scoped

open Db (dbGet dbStore dbRemove)

/-- What `db_update` does with a key that is not in the store; its return value is not looked at. -/
inductive OnAbsent
  | insert
  | ignore
  | abort (e : Stop)

/-- `db_update`. -/
def dbUpdate (absent : OnAbsent) (key value : List UInt8) (s : Db.Store) : Exec Db.Store :=
  match s key with
  | some _ => pure (Function.update s key (some value))
  | none =>
    match absent with
    | .insert => pure (Function.update s key (some value))
    | .ignore => pure s
    | .abort e => .error e

/-- `table`, with the object type's `primary_key` and its packed form. -/
structure Table (Obj Pk : Type) where
  tableName : BitVec (8 * 8)
  scope : BitVec (8 * 8)
  object : Ty Obj
  primary : Ty Pk
  primaryKey : Obj → Pk

namespace Table

variable {Obj Pk : Type} (table : Table Obj Pk)

/-- `std::tuple(TableName, _scope, primary)`. -/
def rowKeyTy : Ty (BitVec (8 * 8) × BitVec (8 * 8) × Pk × Unit) :=
  .tuple (.cons (.int 8) (.cons (.int 8) (.cons table.primary .nil)))

def packRowKey (primary : Pk) : Exec (List UInt8) :=
  table.rowKeyTy.pack (table.tableName, table.scope, primary, ())

/-- `emplace`. -/
def emplace (constructor : Obj → Exec Obj) (s : Db.Store) : Exec Db.Store := do
  let obj ← constructor table.object.serial.make
  let key ← table.packRowKey (table.primaryKey obj)
  let value ← table.object.pack obj
  pure (dbStore key value s)

/-- `modify`: the key is that of the object after `updater`. -/
def modify (absent : OnAbsent) (obj : Obj) (updater : Obj → Exec Obj) (s : Db.Store) : Exec Db.Store := do
  let obj ← updater obj
  let key ← table.packRowKey (table.primaryKey obj)
  let value ← table.object.pack obj
  dbUpdate absent key value s

/-- `erase`. -/
def erase (primary : Pk) (s : Db.Store) : Exec Db.Store := do
  let key ← table.packRowKey primary
  pure (dbRemove key s)

/-- `get(t, primary)`; `none` is `false`. -/
def get (primary : Pk) (s : Db.Store) : Exec (Option Obj) := do
  let key ← table.packRowKey primary
  let v := dbGet key s
  if v.length = 0 then pure none
  else do
    let t ← table.object.unpack v
    pure (some t)

/-! ## Rows -/

/-- The object is stored under its primary key. -/
def Stored (obj : Obj) (s : Db.Store) : Prop :=
  ∃ key value, table.packRowKey (table.primaryKey obj) = .ok key ∧ table.object.pack obj = .ok value ∧
    s key = some value

/-- Exactly the row of `obj` is replaced, by `obj'`. -/
structure Replaces (obj obj' : Obj) (s s' : Db.Store) : Prop where
  row : ∃ key value, table.packRowKey (table.primaryKey obj) = .ok key ∧
    table.object.pack obj' = .ok value ∧ s' key = some value ∧ ∀ k, k ≠ key → s' k = s k
  /-- The stored keys stay the same. -/
  keys : ∀ k, s' k = none ↔ s k = none

/-- A call of `modify` aborts, or replaces exactly the row of the object by the one that `updater` has
made of it. -/
def KeepsRows (absent : OnAbsent) (obj : Obj) (updater : Obj → Exec Obj) (s : Db.Store) : Prop :=
  ∀ s', table.modify absent obj updater s = .ok s' →
    ∃ obj', updater obj = .ok obj' ∧ table.Replaces obj obj' s s'

/-- `obj'` has the primary key of `obj`; or both keys hold what `obj'` is packed to; or there is nothing
at the key of `obj'` and the host aborts, or it does nothing and the row is that of `obj'`. -/
def SameRow (absent : OnAbsent) (obj obj' : Obj) (s : Db.Store) : Prop :=
  ∀ key key' value, table.packRowKey (table.primaryKey obj) = .ok key →
    table.packRowKey (table.primaryKey obj') = .ok key' → table.object.pack obj' = .ok value →
    key' = key ∨ s key' = some value ∧ s key = some value ∨
      s key' = none ∧ ((∃ e, absent = .abort e) ∨ absent = .ignore ∧ s key = some value)

end Table

end Wasmlib.Scoped
