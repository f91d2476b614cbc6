import WasmCdt.Core.Exec

/-!
# Time

`core/time.hpp`: durations and instants in microseconds, counted by an `int64_t`, and instants in
seconds, counted by a `uint32_t`. An overflow of the `int64_t` is a fault, the `uint32_t` wraps.
-/

namespace Wasmlib

structure Microseconds where
  count : SInt 64
  deriving DecidableEq

/-- The literal `1000000`. -/
def perSecond : SInt 64 := ⟨1000000, by decide⟩

namespace Microseconds

def maximum : Microseconds := ⟨⟨0x7fffffffffffffff, by decide⟩⟩

def add (l r : Microseconds) : Exec Microseconds := do
  pure ⟨← defined (l.count.add r.count)⟩

def sub (l r : Microseconds) : Exec Microseconds := do
  pure ⟨← defined (l.count.sub r.count)⟩

def toSeconds (m : Microseconds) : Exec (SInt 64) := defined (m.count.div perSecond)

end Microseconds

def seconds (s : SInt 64) : Exec Microseconds := do
  pure ⟨← defined (s.mul perSecond)⟩

structure TimePoint where
  elapsed : Microseconds
  deriving DecidableEq

namespace TimePoint

/-- `operator+` and `operator+=` with `microseconds`. -/
def add (t : TimePoint) (m : Microseconds) : Exec TimePoint := do
  pure ⟨← t.elapsed.add m⟩

/-- `operator-` and `operator-=` with `microseconds`. -/
def sub (t : TimePoint) (m : Microseconds) : Exec TimePoint := do
  pure ⟨← t.elapsed.sub m⟩

def lt (a b : TimePoint) : Bool := a.elapsed.count.val < b.elapsed.count.val

end TimePoint

structure TimePointSec where
  utcSeconds : BitVec 32
  deriving DecidableEq, Repr

namespace TimePointSec

def maximum : TimePointSec := ⟨0xffffffff⟩

/-- The seconds as an `int64_t`. -/
def count (t : TimePointSec) : SInt 64 :=
  ⟨t.utcSeconds.toNat, by have := t.utcSeconds.isLt; constructor <;> omega⟩

/-- The constructor of a `time_point`, also its assignment. -/
def ofTimePoint (t : TimePoint) : Exec TimePointSec := do
  pure ⟨BitVec.ofInt 32 (← defined (t.elapsed.count.div perSecond)).val⟩

/-- `operator time_point`. -/
def toTimePoint (t : TimePointSec) : Exec TimePoint := do
  pure ⟨← seconds t.count⟩

/-- `t += m` of `microseconds`: the sum is one of `int64_t`, the assignment wraps. -/
def addAssign (t : TimePointSec) (m : Microseconds) : Exec TimePointSec := do
  let s ← m.toSeconds
  pure ⟨BitVec.ofInt 32 (← defined (t.count.add s)).val⟩

def subAssign (t : TimePointSec) (m : Microseconds) : Exec TimePointSec := do
  let s ← m.toSeconds
  pure ⟨BitVec.ofInt 32 (← defined (t.count.sub s)).val⟩

/-- `operator+` with `microseconds`. -/
def plus (t : TimePointSec) (m : Microseconds) : Exec TimePoint := do
  (← t.toTimePoint).add m

/-- `operator-` with `microseconds`. -/
def minus (t : TimePointSec) (m : Microseconds) : Exec TimePoint := do
  (← t.toTimePoint).sub m

def lt (a b : TimePointSec) : Bool := a.utcSeconds < b.utcSeconds

@[simp] theorem count_val (t : TimePointSec) : t.count.val = t.utcSeconds.toNat := rfl

theorem count_lt (t : TimePointSec) : (t.utcSeconds.toNat : Int) < 2 ^ 32 := by
  exact_mod_cast t.utcSeconds.isLt

end TimePointSec

end Wasmlib
