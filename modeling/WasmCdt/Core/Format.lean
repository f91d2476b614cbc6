import WasmCdt.Core.Serialize

/-!
# The packed format

What the overloads are for: the bytes of a value, told for each type at once instead of by a stream
that takes them piece by piece. A `Format` also says which values the format has room for and over
which objects a value can be rebuilt.
-/

namespace Wasmlib

/-- The packed form of the values of a type. -/
structure Format (α : Type) where
  /-- The bytes of a value. -/
  bytes : α → List UInt8
  /-- Every collection in the value has a size that fits its prefix. -/
  Bounded : α → Prop
  /-- The value is what is left in the object after the value has been read into it: the bytes
  hold no padding, and no mark for the removal of an optional's value. -/
  Fits : (object value : α) → Prop

namespace Format

variable {α β κ : Type}

/-- A size in front of a collection. -/
def sizePrefix (n : Nat) : List UInt8 := Leb128.encodeU n

def int (n : Nat) : Format (BitVec (8 * n)) where
  bytes v := littleEndian n v.toNat
  Bounded _ := True
  Fits _ _ := True

def bool : Format Bool where
  bytes d := [if d then 1 else 0]
  Bounded _ := True
  Fits _ _ := True

def unsignedInt : Format (BitVec 32) where
  bytes v := Leb128.encodeU v.toNat
  Bounded _ := True
  Fits _ _ := True

def signedInt : Format (BitVec 32) where
  bytes v := Leb128.encodeU (zigzag v).toNat
  Bounded _ := True
  Fits _ _ := True

/-- A string, or a vector of characters. -/
def block : Format (List UInt8) where
  bytes v := sizePrefix v.length ++ v
  Bounded v := v.length < 2 ^ 32
  Fits _ _ := True

/-- A vector, a list or a deque. Elements that the object has already are read over. -/
def sequence (f : Format α) (make : α) : Format (List α) where
  bytes v := sizePrefix v.length ++ v.flatMap f.bytes
  Bounded v := v.length < 2 ^ 32 ∧ ∀ x ∈ v, f.Bounded x
  Fits t v := List.Forall₂ f.Fits (resize make v.length t).toList v

/-- The elements are fresh objects. -/
def set (f : Format α) (make : α) (cmp : Comparator α) : Format (OrderedSet cmp) where
  bytes s := sizePrefix s.1.length ++ s.1.flatMap f.bytes
  Bounded s := s.1.length < 2 ^ 32 ∧ ∀ x ∈ s.1, f.Bounded x
  Fits _ s := ∀ x ∈ s.1, f.Fits make x

/-- A pair, or an entry of a map; both parts are fresh objects. -/
def pair (f : Format α) (g : Format β) (make : α × β) : Format (α × β) where
  bytes v := f.bytes v.1 ++ g.bytes v.2
  Bounded v := f.Bounded v.1 ∧ g.Bounded v.2
  Fits _ v := f.Fits make.1 v.1 ∧ g.Fits make.2 v.2

def optional (f : Format α) (make : α) : Format (Option α) where
  bytes
    | none => [0]
    | some x => 1 :: f.bytes x
  Bounded v := ∀ x ∈ v, f.Bounded x
  Fits
    | t, none => t = none
    | _, some x => f.Fits make x

def nil : Format Unit where
  bytes _ := []
  Bounded _ := True
  Fits _ _ := True

def cons (f : Format α) (g : Format β) : Format (α × β) where
  bytes v := f.bytes v.1 ++ g.bytes v.2
  Bounded v := f.Bounded v.1 ∧ g.Bounded v.2
  Fits t v := f.Fits t.1 v.1 ∧ g.Fits t.2 v.2

def array (f : Format α) (n : Nat) : Format (List.Vector α n) where
  bytes v := v.toList.flatMap f.bytes
  Bounded v := ∀ x ∈ v.toList, f.Bounded x
  Fits t v := List.Forall₂ f.Fits t.toList v.toList

def cArray (f : Format α) (n : Nat) : Format (List.Vector α n) where
  bytes v := sizePrefix n ++ v.toList.flatMap f.bytes
  Bounded v := n < 2 ^ 32 ∧ ∀ x ∈ v.toList, f.Bounded x
  Fits t v := List.Forall₂ f.Fits t.toList v.toList

def fixedBytes (size : Nat) : Format (FixedBytes size) where
  bytes d := d.extractAsByteArray
  Bounded _ := True
  Fits _ d := d.ZeroPadding

end Format

/-- The packed form of the alternatives of a variant from one index on. -/
structure AltFormat (σ : Type) where
  index : σ → Nat
  bytes : σ → List UInt8
  Bounded : σ → Prop
  Fits : σ → Prop

namespace AltFormat

variable {α σ : Type}

def nil : AltFormat Empty where
  index := Empty.elim
  bytes := Empty.elim
  Bounded := Empty.elim
  Fits := Empty.elim

def cons (f : Format α) (make : α) (others : AltFormat σ) : AltFormat (α ⊕ σ) where
  index := Sum.elim (fun _ => 0) fun v => others.index v + 1
  bytes := Sum.elim f.bytes others.bytes
  Bounded := Sum.elim f.Bounded others.Bounded
  Fits := Sum.elim (f.Fits make) others.Fits

/-- The index in front; the alternative is a fresh object. -/
def variant (f : AltFormat σ) : Format σ where
  bytes v := Format.sizePrefix (f.index v) ++ f.bytes v
  Bounded v := f.index v < 2 ^ 32 ∧ f.Bounded v
  Fits _ v := f.Fits v

end AltFormat

mutual

/-- The packed form of a type. -/
def Ty.format {α : Type} : Ty α → Format α
  | .int n => .int n
  | .bool => .bool
  | .unsignedInt => .unsignedInt
  | .signedInt => .signedInt
  | .string => .block
  | .charVector => .block
  | .vector t => .sequence t.format t.serial.make
  | .list t => .sequence t.format t.serial.make
  | .deque t => .sequence t.format t.serial.make
  | .set t cmp => .set t.format t.serial.make cmp
  | .map k t cmp =>
    .set (.pair k.format t.format (k.serial.make, t.serial.make)) (k.serial.make, t.serial.make)
      cmp.onKey
  | .optional t => .optional t.format t.serial.make
  | .pair a b => .pair a.format b.format (a.serial.make, b.serial.make)
  | .tuple ts => ts.productFormat
  | .array t n => .array t.format n
  | .cArray t n => .cArray t.format n
  | .variant t ts => (AltFormat.cons t.format t.serial.make ts.sumFormat).variant
  | .fixedBytes size => .fixedBytes size
  | .struct members _ => members.productFormat

def Types.productFormat {ρ σ : Type} : Types ρ σ → Format ρ
  | .nil => .nil
  | .cons t ts => .cons t.format ts.productFormat

def Types.sumFormat {ρ σ : Type} : Types ρ σ → AltFormat σ
  | .nil => .nil
  | .cons t ts => .cons t.format t.serial.make ts.sumFormat

end

/-- The value has a packed form that gives it back to a default-constructed object. -/
structure Ty.Packs {α : Type} (t : Ty α) (v : α) : Prop where
  bounded : t.format.Bounded v
  fits : t.format.Fits t.serial.make v
  small : (t.format.bytes v).length < 2 ^ 31

end Wasmlib
