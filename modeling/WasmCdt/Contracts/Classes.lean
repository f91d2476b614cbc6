import WasmCdt.Contracts.Table
import WasmCdt.Core.Asset
import WasmCdt.Core.Name
import WasmCdt.Core.Regid

/-!
# Classes in tables

The classes of the library that a table or an action has members of, each with the members that are
packed; and `table` over a class of the contract.
-/

namespace SInt

variable {w : Nat}

/-- The integer that the bits stand for. -/
def ofBits (x : BitVec w) : SInt w := ⟨x.toInt, BitVec.le_toInt x, BitVec.toInt_lt⟩

def bits (x : SInt w) : BitVec w := BitVec.ofInt w x.val

theorem ofBits_bits (x : SInt (w + 1)) : ofBits x.bits = x :=
  ext (BitVec.toInt_ofInt_eq_self (Nat.succ_pos w) x.inRange.1 x.inRange.2)

end SInt

namespace Wasmlib

/-- A class that is packed member by member. -/
structure Class (T : Type) where
  Members : Type
  ty : Ty Members
  members : T → Members
  ofMembers : Members → T
  ofMembers_members : ∀ x, ofMembers (members x) = x

namespace Class

def regid : Class Regid where
  Members := BitVec (8 * 8) × Unit
  ty := .struct (.cons (.int 8) .nil) (0, ())
  members r := (r.value, ())
  ofMembers m := ⟨m.1⟩
  ofMembers_members _ := rfl

/-- `WASMLIB_SERIALIZE( asset, (amount)(symbol) )`; a symbol is its raw value. -/
def asset : Class Asset where
  Members := BitVec (8 * 8) × BitVec (8 * 8) × Unit
  ty := .struct (.cons (.int 8) (.cons (.int 8) .nil)) (0, 0, ())
  members a := (a.amount.bits, a.symbol.raw, ())
  ofMembers m := ⟨.ofBits m.1, ⟨m.2.1⟩⟩
  ofMembers_members a := by rw [SInt.ofBits_bits]

end Class

namespace Scoped

/-- `table` over the class `T`. -/
structure ClassTable (T Pk : Type) where
  tableName : Name
  scope : BitVec (8 * 8)
  cls : Class T
  primary : Ty Pk
  primaryKey : T → Pk

namespace ClassTable

variable {T Pk : Type} (table : ClassTable T Pk)

/-- The table of the objects' members. -/
def rows : Table table.cls.Members Pk where
  tableName := table.tableName.value
  scope := table.scope
  object := table.cls.ty
  primary := table.primary
  primaryKey m := table.primaryKey (table.cls.ofMembers m)

/-- A function that changes an object, on its members. -/
def onMembers (f : T → Exec T) (m : table.cls.Members) : Exec table.cls.Members := do
  let obj ← f (table.cls.ofMembers m)
  pure (table.cls.members obj)

def emplace (constructor : T → Exec T) (s : Db.Store) : Exec Db.Store :=
  table.rows.emplace (table.onMembers constructor) s

def modify (absent : OnAbsent) (obj : T) (updater : T → Exec T) (s : Db.Store) : Exec Db.Store :=
  table.rows.modify absent (table.cls.members obj) (table.onMembers updater) s

def erase (obj : T) (s : Db.Store) : Exec Db.Store :=
  table.rows.erase (table.primaryKey obj) s

def get (primary : Pk) (s : Db.Store) : Exec (Option T) := do
  let t ← table.rows.get primary s
  pure (t.map table.cls.ofMembers)

end ClassTable

end Scoped

end Wasmlib
