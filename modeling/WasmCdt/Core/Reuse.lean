import WasmCdt.Core.Extension

/-!
# Reading into an object that is in use

`operator>>` is given the object it reads into. What stays of the object's earlier value in the value
that is read, by the form of the type.
-/

namespace Wasmlib

/-- The values read into two objects, whatever these hold, are equal. -/
def Serial.Fresh {α : Type} (c : Serial α) : Prop :=
  ∀ (x y v w : α) (ds ds₁ ds₂ : Datastream),
    c.read x ds = .ok (v, ds₁) → c.read y ds = .ok (w, ds₂) → v = w

mutual

/-- A value can be read where the stream has ended. -/
def StreamTy.readsNothing {α : Type} : StreamTy α → Bool
  | .int n => n == 0
  | .binaryExtension _ => true
  | .pair a b => a.readsNothing && b.readsNothing
  | .tuple ts => ts.readNothing
  | .array t n => n == 0 || t.readsNothing
  | .fixedBytes size => size == 0
  | .struct members _ => members.readNothing
  | _ => false

def StreamTypes.readNothing {ρ σ : Type} : StreamTypes ρ σ → Bool
  | .nil => true
  | .cons t ts => t.readsNothing && ts.readNothing

end

mutual

/-- An `optional` is read in place: without a value in the stream it stays as it is, whatever comes
behind it. -/
def StreamTy.keepsBefore {α : Type} : StreamTy α → Bool
  | .optional _ => true
  | .vector t | .list t | .deque t => t.keepsBefore
  | .array t n => n != 0 && t.keepsBefore
  | .cArray t n _ => n != 0 && t.keepsBefore
  | .tuple ts => ts.keepBefore
  | .struct members _ => members.keepBefore
  | _ => false

def StreamTypes.keepBefore {ρ σ : Type} : StreamTypes ρ σ → Bool
  | .nil => false
  | .cons t ts => t.keepsBefore || ts.keepBefore

end

mutual

/-- An `optional` or a `binary_extension` is read in place, the latter where the stream may end: with
nothing behind it that needs a byte. -/
def StreamTy.keeps {α : Type} : StreamTy α → Bool
  | .optional _ | .binaryExtension _ => true
  | .vector t | .list t | .deque t => t.keeps
  | .array t n => n != 0 && t.keeps
  | .cArray t n _ => n != 0 && t.keeps
  | .tuple ts => ts.keep
  | .struct members _ => members.keep
  | _ => false

def StreamTypes.keep {ρ σ : Type} : StreamTypes ρ σ → Bool
  | .nil => false
  | .cons t ts => t.keepsBefore || t.keeps && ts.readNothing || ts.keep

end

end Wasmlib
