import WasmCdt.Core.FixedBytes

/-!
# The types that can be packed

The grammar of the types that `core/datastream.hpp`, `core/varint.hpp`, `core/fixed_bytes.hpp` and
the macros of `core/serialize.hpp` can pack, each with the overloads the compiler picks for it; and
`pack`, `pack_size`, `unpack`.
-/

namespace Wasmlib

mutual

/-- A type that can be packed, over its values. -/
inductive Ty : Type → Type 1
  /-- An integer of `n` bytes, signed or not, as its bits. -/
  | int (n : Nat) : Ty (BitVec (8 * n))
  | bool : Ty Bool
  | unsignedInt : Ty (BitVec 32)
  | signedInt : Ty (BitVec 32)
  | string : Ty (List UInt8)
  | charVector : Ty (List UInt8)
  | vector {α : Type} (t : Ty α) : Ty (List α)
  | list {α : Type} (t : Ty α) : Ty (List α)
  | deque {α : Type} (t : Ty α) : Ty (List α)
  | set {α : Type} (t : Ty α) (cmp : Comparator α) : Ty (OrderedSet cmp)
  | map {κ β : Type} (k : Ty κ) (t : Ty β) (cmp : Comparator κ) : Ty (OrderedMap cmp β)
  | optional {α : Type} (t : Ty α) : Ty (Option α)
  | pair {α β : Type} (a : Ty α) (b : Ty β) : Ty (α × β)
  | tuple {ρ σ : Type} (ts : Types ρ σ) : Ty ρ
  | array {α : Type} (t : Ty α) (n : Nat) : Ty (List.Vector α n)
  | cArray {α : Type} (t : Ty α) (n : Nat) : Ty (List.Vector α n)
  | variant {α ρ σ : Type} (t : Ty α) (ts : Types ρ σ) : Ty (α ⊕ σ)
  | fixedBytes (size : Nat) : Ty (FixedBytes size)
  /-- The members in the order of the macro's list, and what the default constructor makes. -/
  | struct {ρ σ : Type} (members : Types ρ σ) (init : ρ) : Ty ρ

/-- A list of types, over the values of a tuple and of a variant of them. -/
inductive Types : Type → Type → Type 1
  | nil : Types Unit Empty
  | cons {α ρ σ : Type} (t : Ty α) (ts : Types ρ σ) : Types (α × ρ) (α ⊕ σ)

end

/-- `is_primitive`. -/
def Ty.primitive? {α : Type} : Ty α → Option (Primitive α)
  | .int n => some (.int n)
  | .bool => some .bool
  | _ => none

mutual

/-- The overloads for a type. -/
def Ty.serial {α : Type} : Ty α → Serial α
  | .int n => .int n
  | .bool => .bool
  | .unsignedInt => .unsignedInt
  | .signedInt => .signedInt
  | .string => .string
  | .charVector => .charVector
  | .vector t => .vector t.serial
  | .list t => .list t.serial
  | .deque t => .deque t.serial
  | .set t cmp => .set t.serial cmp
  | .map k t cmp => .map k.serial t.serial cmp
  | .optional t => .optional t.serial
  | .pair a b => .pair a.serial b.serial
  | .tuple ts => ts.elements
  | .array t n => .array t.serial n
  | .cArray t n =>
    match t.primitive? with
    | some p => .cArrayBulk p n
    | none => .cArrayEach t.serial n
  | .variant t ts => .variant t.serial ts.alternatives
  | .fixedBytes size => .fixedBytes size
  | .struct members init => .struct members.elements init

/-- One after the other. -/
def Types.elements {ρ σ : Type} : Types ρ σ → Serial ρ
  | .nil => .nil
  | .cons t ts => .cons t.serial ts.elements

def Types.alternatives {ρ σ : Type} : Types ρ σ → Alternatives σ
  | .nil => .nil
  | .cons t ts => .cons t.serial ts.alternatives

end

namespace Ty

variable {α : Type}

/-- `pack_size`. -/
def packSize (t : Ty α) (value : α) : Exec UInt32 := do
  let ps ← t.serial.write value (SizeStream.mk 0)
  pure ps.size

/-- `pack`: the buffer has the size that `pack_size` finds. -/
def pack (t : Ty α) (value : α) : Exec (List UInt8) := do
  let size ← t.packSize value
  let ds ← t.serial.write value (Datastream.start (List.replicate size.toNat 0))
  pure (ds.done ++ ds.rest)

/-- `ds >> result` into a default-constructed object. -/
def extract (t : Ty α) (ds : Datastream) : Exec (α × Datastream) :=
  t.serial.read t.serial.make ds

/-- `unpack`. -/
def unpack (t : Ty α) (bytes : List UInt8) : Exec α := do
  let (result, _) ← t.extract (.start bytes)
  pure result

end Ty

end Wasmlib
