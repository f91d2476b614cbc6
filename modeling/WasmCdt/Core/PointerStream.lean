import WasmCdt.Core.Datastream
import WasmCdt.Lib.ByteMem

/-!
# Streams as pointers

`datastream<char*>` of `core/datastream.hpp` as the class has it: three pointers into a memory, moved
without a check by `skip` and `seekp`. Pointers and `size_t` have 32 bits, their arithmetic wraps, and
the difference of two pointers is signed.
-/

namespace Wasmlib

open ByteMem

/-- A buffer: its end has an address. -/
structure Buffer where
  start : BitVec 32
  size : BitVec 32
  fits : start.toNat + size.toNat < 2 ^ 32

/-- `datastream<char*>`, with the memory that it points into. `finish` is `_end`. -/
structure PointerStream where
  start : BitVec 32
  pos : BitVec 32
  finish : BitVec 32
  mem : Mem

/-- The `n` bytes at `a`. -/
def bytesAt (m : Mem) (a n : Nat) : List UInt8 := (List.range n).map fun i => m (a + i)

/-- `memcpy` of the bytes `d` to `a`. -/
def storeBytes (a n : Nat) (d : Nat → UInt8) (m : Mem) : Mem := fun x =>
  if a ≤ x ∧ x < a + n then d (x - a) else m x

namespace PointerStream

/-- The constructor. -/
def ofBuffer (b : Buffer) (mem : Mem) : PointerStream := ⟨b.start, b.start, b.start + b.size, mem⟩

def skip (s : BitVec 32) (ds : PointerStream) : PointerStream := { ds with pos := ds.pos + s }

/-- `read`: the bytes that are copied out. The check compares as `size_t`. -/
def read (s : BitVec 32) (ds : PointerStream) : Exec (List UInt8 × PointerStream) := do
  check (s ≤ ds.finish - ds.pos) "read"
  pure (bytesAt ds.mem ds.pos.toNat s.toNat, { ds with pos := ds.pos + s })

/-- `write` of the `s` bytes `d`. The check compares as `int32_t`. -/
def write (s : BitVec 32) (d : Nat → UInt8) (ds : PointerStream) : Exec PointerStream := do
  check (s.sle (ds.finish - ds.pos)) "write"
  pure { ds with pos := ds.pos + s, mem := storeBytes ds.pos.toNat s.toNat d ds.mem }

def put (c : UInt8) (ds : PointerStream) : Exec PointerStream := do
  check (ds.pos < ds.finish) "put"
  pure { ds with pos := ds.pos + 1, mem := store8 ds.pos.toNat c ds.mem }

def get (ds : PointerStream) : Exec (UInt8 × PointerStream) := do
  check (ds.pos < ds.finish) "get"
  pure (ds.mem ds.pos.toNat, { ds with pos := ds.pos + 1 })

/-- `valid`. -/
def valid (ds : PointerStream) : Bool := ds.pos ≤ ds.finish && ds.start ≤ ds.pos

def seekp (p : BitVec 32) (ds : PointerStream) : Bool × PointerStream :=
  (ds.start + p ≤ ds.finish, { ds with pos := ds.start + p })

def remaining (ds : PointerStream) : BitVec 32 := ds.finish - ds.pos

/-! ## Calls -/

inductive Call
  | skip (s : BitVec 32)
  | read (s : BitVec 32)
  | write (s : BitVec 32) (d : Nat → UInt8)
  | put (c : UInt8)
  | get
  | seekp (p : BitVec 32)

/-- The bytes that a call is to read or write, at `_pos`. -/
def Call.size : Call → Nat
  | .read s | .write s _ => s.toNat
  | .put _ | .get => 1
  | .skip _ | .seekp _ => 0

def step (ds : PointerStream) : Call → Exec PointerStream
  | .skip s => pure (ds.skip s)
  | .read s => do
    let (_, ds) ← ds.read s
    pure ds
  | .write s d => ds.write s d
  | .put c => ds.put c
  | .get => do
    let (_, ds) ← ds.get
    pure ds
  | .seekp p => pure (ds.seekp p).2

/-- A property of all calls of a run, each on the stream that it finds. -/
def Along (P : PointerStream → Call → Prop) : List Call → PointerStream → Prop
  | [], _ => True
  | call :: calls, ds => P ds call ∧ ∀ ds', ds.step call = .ok ds' → Along P calls ds'

/-- The call aborts, or what it reads and writes is in the buffer; behind the end it aborts. -/
structure Inside (ds : PointerStream) (call : Call) : Prop where
  inside : ∀ ds', ds.step call = .ok ds' → ∀ a, ds.pos.toNat ≤ a → a < ds.pos.toNat + call.size →
    ds.start.toNat ≤ a ∧ a < ds.finish.toNat
  behind : ds.finish < ds.pos → 0 < call.size → ∃ e, ds.step call = .error e

/-- The position is in the buffer or what is asked for is more than the wrapped rest of it; a size
that is negative as an `int32_t` only meets a rest that is. -/
def Meets (ds : PointerStream) : Call → Prop
  | .skip _ | .seekp _ => True
  | .read s => s = 0 ∨ ds.valid ∨ ds.remaining < s
  | .write s _ =>
    if s.toNat < 2 ^ 31 then s = 0 ∨ ds.valid ∨ ds.remaining < s ∨ 2 ^ 31 ≤ ds.remaining.toNat
    else 2 ^ 31 ≤ ds.remaining.toNat ∧ (ds.valid ∨ ds.remaining < s)
  | .put _ | .get => ds.start ≤ ds.pos

instance (ds : PointerStream) : ∀ call, Decidable (ds.Meets call)
  | .skip _ | .seekp _ => inferInstanceAs (Decidable True)
  | .read _ => inferInstanceAs (Decidable (_ ∨ _ ∨ _))
  | .write s _ => inferInstanceAs (Decidable (if s.toNat < 2 ^ 31 then _ ∨ _ ∨ _ ∨ _ else _ ∧ _))
  | .put _ | .get => inferInstanceAs (Decidable (_ ≤ _))

end PointerStream

end Wasmlib
