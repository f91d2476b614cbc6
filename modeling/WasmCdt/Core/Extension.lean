import WasmCdt.Core.FixedBytes

/-!
# Types with extensions

`core/binary_extension.hpp`, and the grammar of all types with an `operator<<` and an `operator>>`:
those of `core/datastream.hpp` and structures with `binary_extension` members, in any nesting.
-/

namespace Wasmlib

/-- `binary_extension<T>`. Without a value the `value_or()` of a fresh `T` is written; at the end of
the stream the target stays as it is. -/
def Serial.binaryExtension {α : Type} (c : Serial α) : Serial (Option α) where
  make := none
  write be ds := c.write (be.getD c.make) ds
  read be ds :=
    if ds.rest.length ≠ 0 then do
      let (val, ds) ← c.read c.make ds
      pure (some val, ds)
    else pure (be, ds)

mutual

/-- A type with the two operators, over its values. A number, an enumeration or a time point of `n`
bytes is its bits. -/
inductive StreamTy : Type → Type 1
  | int (n : Nat) : StreamTy (BitVec (8 * n))
  | bool : StreamTy Bool
  | unsignedInt : StreamTy (BitVec 32)
  | signedInt : StreamTy (BitVec 32)
  | string : StreamTy (List UInt8)
  | charVector : StreamTy (List UInt8)
  | vector {α : Type} (t : StreamTy α) : StreamTy (List α)
  | list {α : Type} (t : StreamTy α) : StreamTy (List α)
  | deque {α : Type} (t : StreamTy α) : StreamTy (List α)
  | set {α : Type} (t : StreamTy α) (cmp : Comparator α) : StreamTy (OrderedSet cmp)
  | map {κ β : Type} (k : StreamTy κ) (t : StreamTy β) (cmp : Comparator κ) :
    StreamTy (OrderedMap cmp β)
  | optional {α : Type} (t : StreamTy α) : StreamTy (Option α)
  | binaryExtension {α : Type} (t : StreamTy α) : StreamTy (Option α)
  | pair {α β : Type} (a : StreamTy α) (b : StreamTy β) : StreamTy (α × β)
  | tuple {ρ σ : Type} (ts : StreamTypes ρ σ) : StreamTy ρ
  | array {α : Type} (t : StreamTy α) (n : Nat) : StreamTy (List.Vector α n)
  /-- `N` is a `size_t`. -/
  | cArray {α : Type} (t : StreamTy α) (n : Nat) (h : n < 2 ^ 32) : StreamTy (List.Vector α n)
  | variant {α ρ σ : Type} (t : StreamTy α) (ts : StreamTypes ρ σ) : StreamTy (α ⊕ σ)
  | fixedBytes (size : Nat) : StreamTy (FixedBytes size)
  | struct {ρ σ : Type} (members : StreamTypes ρ σ) (init : ρ) : StreamTy ρ

/-- A list of types, over the values of a tuple and of a variant of them. -/
inductive StreamTypes : Type → Type → Type 1
  | nil : StreamTypes Unit Empty
  | cons {α ρ σ : Type} (t : StreamTy α) (ts : StreamTypes ρ σ) : StreamTypes (α × ρ) (α ⊕ σ)

end

/-- `is_primitive`. -/
def StreamTy.primitive? {α : Type} : StreamTy α → Option (Primitive α)
  | .int n => some (.int n)
  | .bool => some .bool
  | _ => none

mutual

/-- The overloads for a type. -/
def StreamTy.serial {α : Type} : StreamTy α → Serial α
  | .int n => .int n
  | .bool => .bool
  | .unsignedInt => .unsignedInt
  | .signedInt => .signedInt
  | .string => .string
  | .charVector => .charVector
  | .vector t => .vector t.serial
  | .list t => .list t.serial
  | .deque t => .deque t.serial
  | .set t cmp => .set t.serial cmp
  | .map k t cmp => .map k.serial t.serial cmp
  | .optional t => .optional t.serial
  | .binaryExtension t => .binaryExtension t.serial
  | .pair a b => .pair a.serial b.serial
  | .tuple ts => ts.elements
  | .array t n => .array t.serial n
  | .cArray t n _ =>
    match t.primitive? with
    | some p => .cArrayBulk p n
    | none => .cArrayEach t.serial n
  | .variant t ts => .variant t.serial ts.alternatives
  | .fixedBytes size => .fixedBytes size
  | .struct members init => .struct members.elements init

/-- One after the other. -/
def StreamTypes.elements {ρ σ : Type} : StreamTypes ρ σ → Serial ρ
  | .nil => .nil
  | .cons t ts => .cons t.serial ts.elements

def StreamTypes.alternatives {ρ σ : Type} : StreamTypes ρ σ → Alternatives σ
  | .nil => .nil
  | .cons t ts => .cons t.serial ts.alternatives

end

/-! ## Packing -/

namespace Serial

variable {α : Type}

/-- `pack_size`. -/
def packSize (c : Serial α) (value : α) : Exec UInt32 := do
  let ps ← c.write value (SizeStream.mk 0)
  pure ps.size

/-- `pack`. -/
def pack (c : Serial α) (value : α) : Exec (List UInt8) := do
  let size ← c.packSize value
  let ds ← c.write value (Datastream.start (List.replicate size.toNat 0))
  pure (ds.done ++ ds.rest)

end Serial

end Wasmlib
