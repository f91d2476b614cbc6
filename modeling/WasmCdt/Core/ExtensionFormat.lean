import WasmCdt.Core.Extension
import WasmCdt.Core.Format

/-!
# The packed format of types with extensions

`Ty.format` carried over to all types with the two operators, and the structures whose last members
are extensions: `Extended` lists their members, and `Extended.version` the members that an earlier
version of such a structure had.
-/

namespace Wasmlib

/-- `unpack`. -/
def Serial.unpack {α : Type} (c : Serial α) (bytes : List UInt8) : Exec α := do
  let (result, _) ← c.read c.make (.start bytes)
  pure result

/-! ## Packed forms -/

/-- A value that is there, with bytes to show that it is. -/
def Format.binaryExtension {α : Type} (f : Format α) (make : α) : Format (Option α) where
  bytes v := f.bytes (v.getD make)
  Bounded v := f.Bounded (v.getD make)
  Fits
    | _, none => False
    | _, some x => f.Fits make x ∧ f.bytes x ≠ []

mutual

/-- The packed form of a type. -/
def StreamTy.format {α : Type} : StreamTy α → Format α
  | .int n => .int n
  | .bool => .bool
  | .unsignedInt => .unsignedInt
  | .signedInt => .signedInt
  | .string => .block
  | .charVector => .block
  | .vector t => .sequence t.format t.serial.make
  | .list t => .sequence t.format t.serial.make
  | .deque t => .sequence t.format t.serial.make
  | .set t cmp => .set t.format t.serial.make cmp
  | .map k t cmp =>
    .set (.pair k.format t.format (k.serial.make, t.serial.make)) (k.serial.make, t.serial.make)
      cmp.onKey
  | .optional t => .optional t.format t.serial.make
  | .binaryExtension t => .binaryExtension t.format t.serial.make
  | .pair a b => .pair a.format b.format (a.serial.make, b.serial.make)
  | .tuple ts => ts.productFormat
  | .array t n => .array t.format n
  | .cArray t n _ => .cArray t.format n
  | .variant t ts => (AltFormat.cons t.format t.serial.make ts.sumFormat).variant
  | .fixedBytes size => .fixedBytes size
  | .struct members _ => members.productFormat

def StreamTypes.productFormat {ρ σ : Type} : StreamTypes ρ σ → Format ρ
  | .nil => .nil
  | .cons t ts => .cons t.format ts.productFormat

def StreamTypes.sumFormat {ρ σ : Type} : StreamTypes ρ σ → AltFormat σ
  | .nil => .nil
  | .cons t ts => .cons t.format t.serial.make ts.sumFormat

end

/-! ## Structures with extensions at the end -/

/-- The types under the extensions at the end of a structure, over the values of the extensions. -/
inductive Extensions : Type → Type → Type 1
  | nil : Extensions Unit Empty
  | cons {α ρ σ : Type} (t : StreamTy α) (es : Extensions ρ σ) :
    Extensions (Option α × ρ) (Option α ⊕ σ)

/-- The members of a structure: fields, and extensions behind them. -/
inductive Extended : Type → Type → Type 1
  | extensions {ρ σ : Type} (es : Extensions ρ σ) : Extended ρ σ
  | field {α ρ σ : Type} (t : StreamTy α) (ms : Extended ρ σ) : Extended (α × ρ) (α ⊕ σ)

/-- The members of a version of a structure, and what its values are in a later version. -/
structure Version (later : Type) where
  {ρ σ : Type}
  members : StreamTypes ρ σ
  upgrade : ρ → later

namespace Extensions

def members {ρ σ : Type} : Extensions ρ σ → StreamTypes ρ σ
  | .nil => .nil
  | .cons t es => .cons (.binaryExtension t) es.members

/-- No extension has a value. -/
def absent {ρ σ : Type} : Extensions ρ σ → ρ
  | .nil => ()
  | .cons _ es => (none, es.absent)

/-- Every extension has a value. -/
def Present {ρ σ : Type} : Extensions ρ σ → ρ → Prop
  | .nil, _ => True
  | .cons _ es, v => v.1.isSome ∧ es.Present v.2

/-- An extension without a value has the default-constructed one. -/
def filled {ρ σ : Type} : Extensions ρ σ → ρ → ρ
  | .nil, _ => ()
  | .cons t es, v => (some (v.1.getD t.serial.make), es.filled v.2)

/-- The values that are written can be read, and at every extension there are bytes to be read. -/
def Fits {ρ σ : Type} : Extensions ρ σ → ρ → Prop
  | .nil, _ => True
  | .cons t es, v => t.format.Fits t.serial.make (v.1.getD t.serial.make) ∧
    t.format.bytes (v.1.getD t.serial.make) ++ es.members.productFormat.bytes v.2 ≠ [] ∧
    es.Fits v.2

/-- The version with the first `j` of the extensions, and values in all of them. -/
def version {ρ σ : Type} : Nat → Extensions ρ σ → Version ρ
  | 0, es => ⟨.nil, fun _ => es.absent⟩
  | _ + 1, .nil => ⟨.nil, fun _ => ()⟩
  | j + 1, .cons t es =>
    ⟨.cons t (es.version j).members, fun v => (some v.1, (es.version j).upgrade v.2)⟩

/-- The values of the version can be read, each of them has bytes, and the extensions that were added
have no value in the object. -/
def FitsVersion {ρ σ : Type} : (j : Nat) → (es : Extensions ρ σ) → ρ → (es.version j).ρ → Prop
  | 0, es, o, _ => o = es.absent
  | _ + 1, .nil, _, _ => True
  | j + 1, .cons t es, o, v => t.format.Fits t.serial.make v.1 ∧ t.format.bytes v.1 ≠ [] ∧
    es.FitsVersion j o.2 v.2

end Extensions

namespace Extended

def members {ρ σ : Type} : Extended ρ σ → StreamTypes ρ σ
  | .extensions es => es.members
  | .field t ms => .cons t ms.members

/-- The structure, whose default constructor makes `init`. -/
def struct {ρ σ : Type} (ms : Extended ρ σ) (init : ρ) : StreamTy ρ := .struct ms.members init

/-- Every extension has a value. -/
def Present {ρ σ : Type} : Extended ρ σ → ρ → Prop
  | .extensions es, v => es.Present v
  | .field _ ms, v => ms.Present v.2

/-- An extension without a value has the default-constructed one. -/
def filled {ρ σ : Type} : Extended ρ σ → ρ → ρ
  | .extensions es, v => es.filled v
  | .field _ ms, v => (v.1, ms.filled v.2)

/-- The values that are written can be read over the object, and at every extension there are bytes
to be read. -/
def Fits {ρ σ : Type} : Extended ρ σ → (object value : ρ) → Prop
  | .extensions es, _, v => es.Fits v
  | .field t ms, o, v => t.format.Fits o.1 v.1 ∧ ms.Fits o.2 v.2

/-- The version with the first `j` of the extensions, and values in all of them. -/
def version {ρ σ : Type} (j : Nat) : Extended ρ σ → Version ρ
  | .extensions es => es.version j
  | .field t ms => ⟨.cons t (ms.version j).members, fun v => (v.1, (ms.version j).upgrade v.2)⟩

/-- The values of the version can be read over the object, those of its extensions have bytes, and the
extensions that were added have no value in the object. -/
def FitsVersion {ρ σ : Type} (j : Nat) : (ms : Extended ρ σ) → ρ → (ms.version j).ρ → Prop
  | .extensions es, o, v => es.FitsVersion j o v
  | .field t ms, o, v => t.format.Fits o.1 v.1 ∧ ms.FitsVersion j o.2 v.2

end Extended

end Wasmlib
