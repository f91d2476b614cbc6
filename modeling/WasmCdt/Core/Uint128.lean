import Mathlib.Logic.Function.Basic
import Mathlib.Tactic.Ring

/-!
# 128-bit words

`core/uint128.hpp`: a number is two 64-bit halves. A compound operator takes `this` and a
`const uint128 &` that may be the same object, so it is a function on objects, one assignment after
the other; `R` is the type of references.
-/

namespace Wasmlib

structure Uint128 where
  hi : BitVec 64
  lo : BitVec 64
  deriving DecidableEq, Repr

namespace Uint128

/-! ## Construction and comparison -/

def ofUInt64 (l : BitVec 64) : Uint128 := ⟨0, l⟩

def ofUInt32 (l : BitVec 32) : Uint128 := ⟨0, l.setWidth 64⟩

def ofInt64 (l : BitVec 64) : Uint128 := ⟨-(if l.slt 0 then 1 else 0), l⟩

def ofInt32 (l : BitVec 32) : Uint128 := ⟨-(if l.slt 0 then 1 else 0), l.signExtend 64⟩

/-- `operator<`. -/
def lt (a o : Uint128) : Bool := if a.hi = o.hi then a.lo < o.lo else a.hi < o.hi

/-- `operator>`. -/
def gt (l r : Uint128) : Bool := lt r l

/-- `operator>=`. -/
def ge (l r : Uint128) : Bool := l = r || gt l r

/-- `operator~`. -/
def not (v : Uint128) : Uint128 := ⟨~~~v.hi, ~~~v.lo⟩

def toInteger (v : Uint128) : BitVec 32 := v.lo.setWidth 32

end Uint128

/-! ## Objects -/

/-- What a `const uint128 &` is bound to. -/
inductive Operand (R : Type)
  | object (r : R)
  | temporary (v : Uint128)

abbrev Objects (R : Type) := R → Uint128

def Operand.read {R : Type} (σ : Objects R) : Operand R → Uint128
  | object r => σ r
  | temporary v => v

namespace Objects

variable {R : Type} [DecidableEq R]

def setHi (σ : Objects R) (this : R) (x : BitVec 64) : Objects R :=
  Function.update σ this { σ this with hi := x }

def setLo (σ : Objects R) (this : R) (x : BitVec 64) : Objects R :=
  Function.update σ this { σ this with lo := x }

/-! ## Operators -/

/-- `=`. -/
def assign (σ : Objects R) (this : R) (u : Operand R) : Objects R :=
  Function.update σ this (u.read σ)

/-- `operator|=`. -/
def orAssign (σ : Objects R) (this : R) (u : Operand R) : Objects R :=
  let σ := σ.setHi this ((σ this).hi ||| (u.read σ).hi)
  σ.setLo this ((σ this).lo ||| (u.read σ).lo)

/-- `operator&=`. -/
def andAssign (σ : Objects R) (this : R) (u : Operand R) : Objects R :=
  let σ := σ.setHi this ((σ this).hi &&& (u.read σ).hi)
  σ.setLo this ((σ this).lo &&& (u.read σ).lo)

/-- `operator^=`. -/
def xorAssign (σ : Objects R) (this : R) (u : Operand R) : Objects R :=
  let σ := σ.setHi this ((σ this).hi ^^^ (u.read σ).hi)
  σ.setLo this ((σ this).lo ^^^ (u.read σ).lo)

/-- `++` in front. -/
def preInc (σ : Objects R) (this : R) : Objects R :=
  let σ := σ.setLo this ((σ this).lo + 1)
  σ.setHi this ((σ this).hi + if (σ this).lo = 0 then 1 else 0)

/-- `--` in front. -/
def preDec (σ : Objects R) (this : R) : Objects R :=
  let old := (σ this).lo
  let σ := σ.setLo this (old - 1)
  σ.setHi this ((σ this).hi - if old = 0 then 1 else 0)

/-- `++` behind. -/
def postInc (σ : Objects R) (this : R) : Uint128 × Objects R :=
  let tmp := σ this
  (tmp, σ.preInc this)

/-- `--` behind. -/
def postDec (σ : Objects R) (this : R) : Uint128 × Objects R :=
  let tmp := σ this
  (tmp, σ.preDec this)

end Objects

/-- `operator-()`: the increment of a temporary. -/
def Uint128.neg (v : Uint128) : Uint128 := Objects.preInc (fun _ : Unit => v.not) () ()

namespace Objects

variable {R : Type} [DecidableEq R]

def halfsize : BitVec 32 := 128 / 2

/-- The shift by `n` bits, between 0 and 64, of `operator<<=`. -/
def shlWithin (σ : Objects R) (this : R) (n : BitVec 32) : Objects R :=
  let σ := σ.setHi this ((σ this).hi <<< n)
  let mask : BitVec 64 := ~~~(BitVec.allOnes 64 >>> n)
  let σ := σ.setHi this ((σ this).hi ||| (((σ this).lo &&& mask) >>> (halfsize - n)))
  σ.setLo this ((σ this).lo <<< n)

/-- `operator<<=`. -/
def shlAssign (σ : Objects R) (this : R) (rhs : Operand R) : Objects R :=
  if (rhs.read σ).ge (.ofInt64 128) then
    let σ := σ.setHi this 0
    σ.setLo this 0
  else
    let n := (rhs.read σ).toInteger
    let (n, σ) := if n ≥ halfsize then
        let n := n - halfsize
        let σ := σ.setHi this (σ this).lo
        (n, σ.setLo this 0)
      else (n, σ)
    if n ≠ 0 then σ.shlWithin this n else σ

/-- The shift by `n` bits, between 0 and 64, of `operator>>=`. -/
def shrWithin (σ : Objects R) (this : R) (n : BitVec 32) : Objects R :=
  let σ := σ.setLo this ((σ this).lo >>> n)
  let mask : BitVec 64 := ~~~(BitVec.allOnes 64 <<< n)
  let σ := σ.setLo this ((σ this).lo ||| (((σ this).hi &&& mask) <<< (halfsize - n)))
  σ.setHi this ((σ this).hi >>> n)

/-- `operator>>=`. -/
def shrAssign (σ : Objects R) (this : R) (rhs : Operand R) : Objects R :=
  if (rhs.read σ).ge (.ofInt64 128) then
    let σ := σ.setHi this 0
    σ.setLo this 0
  else
    let n := (rhs.read σ).toInteger
    let (n, σ) := if n ≥ halfsize then
        let n := n - halfsize
        let σ := σ.setLo this (σ this).hi
        (n, σ.setHi this 0)
      else (n, σ)
    if n ≠ 0 then σ.shrWithin this n else σ

/-- `operator+=`. -/
def addAssign (σ : Objects R) (this : R) (u : Operand R) : Objects R :=
  let old := (σ this).lo
  let σ := σ.setLo this ((σ this).lo + (u.read σ).lo)
  σ.setHi this ((σ this).hi + ((u.read σ).hi + if (σ this).lo < old then 1 else 0))

/-- `operator-=`. -/
def subAssign (σ : Objects R) (this : R) (u : Operand R) : Objects R :=
  σ.addAssign this (.temporary (u.read σ).neg)

/-- `(uint32_t)x`, as a `uint64_t`. -/
def limb (x : BitVec 64) : BitVec 64 := (x.setWidth 32).setWidth 64

/-- `*this += x` for a `uint64_t`. -/
def addWord (σ : Objects R) (this : R) (x : BitVec 64) : Objects R :=
  σ.addAssign this (.temporary (.ofUInt64 x))

/-- `*this <<= 0x20`. -/
def shlLimb (σ : Objects R) (this : R) : Objects R :=
  σ.shlAssign this (.temporary (.ofInt32 0x20))

/-- `operator*=`. -/
def mulAssign (σ : Objects R) (this : R) (b : Operand R) : Objects R :=
  let a0 := limb (σ this).lo
  let a1 := limb ((σ this).lo >>> 0x20)
  let a2 := limb (σ this).hi
  let a3 := limb ((σ this).hi >>> 0x20)
  let b0 := limb (b.read σ).lo
  let b1 := limb ((b.read σ).lo >>> 0x20)
  let b2 := limb (b.read σ).hi
  let b3 := limb ((b.read σ).hi >>> 0x20)
  let σ := σ.setHi this 0
  let σ := σ.setLo this (a3 * b0)
  let σ := σ.addWord this (a2 * b1)
  let σ := σ.addWord this (a1 * b2)
  let σ := σ.addWord this (a0 * b3)
  let σ := σ.shlLimb this
  let σ := σ.addWord this (a2 * b0)
  let σ := σ.addWord this (a1 * b1)
  let σ := σ.addWord this (a0 * b2)
  let σ := σ.shlLimb this
  let σ := σ.addWord this (a1 * b0)
  let σ := σ.addWord this (a0 * b1)
  let σ := σ.shlLimb this
  σ.addWord this (a0 * b0)

end Objects

namespace Uint128

/-! ## Binary operators -/

/-- `uint128(l) op r`: what an assignment leaves in a new object. -/
def onCopy (op : Objects Unit → Unit → Operand Unit → Objects Unit) (l r : Uint128) : Uint128 :=
  op (fun _ => l) () (.temporary r) ()

/-- `operator+`. -/
def add : Uint128 → Uint128 → Uint128 := onCopy Objects.addAssign

/-- `operator-`. -/
def sub : Uint128 → Uint128 → Uint128 := onCopy Objects.subAssign

/-- `operator*`. -/
def mul : Uint128 → Uint128 → Uint128 := onCopy Objects.mulAssign

/-- `operator|`: `uint128(l) = (r)`. -/
def or : Uint128 → Uint128 → Uint128 := onCopy Objects.assign

/-- `operator&`. -/
def and : Uint128 → Uint128 → Uint128 := onCopy Objects.andAssign

/-- `operator^`. -/
def xor : Uint128 → Uint128 → Uint128 := onCopy Objects.xorAssign

/-- `operator<<`. -/
def shl : Uint128 → Uint128 → Uint128 := onCopy Objects.shlAssign

/-- `operator>>`. -/
def shr : Uint128 → Uint128 → Uint128 := onCopy Objects.shrAssign

end Uint128

/-- `full_product`. -/
def Objects.fullProduct {R : Type} [DecidableEq R] (σ : Objects R) (a b : Operand R)
    (resultHi resultLo : R) : Objects R :=
  let ah := (a.read σ).hi
  let al := (a.read σ).lo
  let bh := (b.read σ).hi
  let bl := (b.read σ).lo
  let s := Uint128.onCopy mulAssign (.ofUInt64 al) (.ofUInt64 bl)
  let r := Uint128.onCopy mulAssign (.ofUInt64 ah) (.ofUInt64 bl)
  let q := Uint128.onCopy mulAssign (.ofUInt64 al) (.ofUInt64 bh)
  let p := Uint128.onCopy mulAssign (.ofUInt64 ah) (.ofUInt64 bh)
  let y0 := s.lo
  let acc := Uint128.ofUInt64 s.hi
  let acc := Uint128.onCopy addAssign acc (.ofUInt64 q.lo)
  let acc := Uint128.onCopy addAssign acc (.ofUInt64 r.lo)
  let y1 := acc.lo
  let acc := Uint128.ofUInt64 acc.hi
  let acc := Uint128.onCopy addAssign acc (.ofUInt64 q.hi)
  let acc := Uint128.onCopy addAssign acc (.ofUInt64 r.hi)
  let acc := Uint128.onCopy addAssign acc (.ofUInt64 p.lo)
  let y2 := acc.lo
  let y3 := acc.hi + p.hi
  let σ := σ.assign resultHi (.temporary ⟨y3, y2⟩)
  σ.assign resultLo (.temporary ⟨y1, y0⟩)

end Wasmlib
