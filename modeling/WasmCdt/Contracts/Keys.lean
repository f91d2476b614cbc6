import WasmCdt.Contracts.Db
import WasmCdt.Core.Proof.Sizes

/-!
# Keys of rows and entries

What a key of the store stands for, whatever the table and the index it is of, and when two tables
keep their keys apart.
-/

namespace Wasmlib.Db

/-- What `db.hpp` makes a key for: a row, or an entry of an index. -/
inductive DbKey : Type 1
  | row {Obj Pk : Type} (table : Table Obj Pk) (primary : Pk)
  | entry {Obj Pk : Type} (table : Table Obj Pk) (idx : Index Obj) (secondary : idx.Key)

/-- What a key stands for: its kind (a row has no index), table, index and encoded value. -/
structure Label where
  table : BitVec (8 * 8)
  index : Option Nat
  value : List UInt8
  deriving DecidableEq

namespace DbKey

/-- The bytes of the key. -/
def bytes : DbKey → Exec (List UInt8)
  | .row table primary => table.packRowKey primary
  | .entry table idx secondary => table.packSecondary idx secondary

def label : DbKey → Label
  | .row table primary => ⟨table.tableName, none, table.primary.serial.encoding primary⟩
  | .entry table idx secondary =>
    ⟨table.tableName, some idx.number, idx.key.serial.encoding secondary⟩

/-- A row of the table `t`, or an entry of its index `i`. -/
def Of (t : BitVec (8 * 8)) (i : Nat) (k : DbKey) : Prop :=
  k.label.table = t ∧ (k.label.index = none ∨ k.label.index = some i)

end DbKey

/-- Only keys that stand for the same thing have the same bytes, among the rows of two tables and
the entries of an index of each. -/
def Separated (t₁ t₂ : BitVec (8 * 8)) (i₁ i₂ : Nat) : Prop :=
  ∀ k k' : DbKey, k.Of t₁ i₁ ∨ k.Of t₂ i₂ → k'.Of t₁ i₁ ∨ k'.Of t₂ i₂ →
    ∀ bytes, k.bytes = .ok bytes → k'.bytes = .ok bytes → k.label = k'.label

/-- The part of a table's name that is in the names of its indices. -/
def namePart (t : BitVec (8 * 8)) : BitVec (8 * 8) := t &&& 0xFFFFFFFFFFFFFFF0

/-- No table has the name that stands before every entry, and the two have different names for their
indices unless they are one table. -/
structure Apart (t₁ t₂ : BitVec (8 * 8)) (i₁ i₂ : Nat) : Prop where
  left : t₁ ≠ SECONDARY_KEY_PREFIX
  right : t₂ ≠ SECONDARY_KEY_PREFIX
  indices : namePart t₁ = namePart t₂ → i₁ = i₂ → t₁ = t₂

end Wasmlib.Db
