import WasmCdt.Lib.ByteMem

/-!
# The post-link pass

`tools/external/wabt/src/tools/postpass.cc` (and `ReadS32Leb128` of `leb128.cc`): data segments that
hold only zeros are left out, and one with the end of the static data is added at address 0, where
the allocator of the contract looks for it. Segments have constant offsets.
-/

namespace PostPass

open ByteMem

structure DataSegment where
  memoryVar : Nat
  offset : BitVec 32
  data : List UInt8
  deriving DecidableEq, Repr

/-- A global, with the place of its initializer in the file. -/
structure Global where
  initOffset : Nat
  deriving DecidableEq, Repr

structure Module where
  globals : List Global
  dataSegments : List DataSegment
  deriving DecidableEq, Repr

/-! ## `ReadS32Leb128` -/

/-- `BYTE_AT`. -/
def byteAt (p : List UInt8) (i shift : Nat) : BitVec 32 :=
  (BitVec.ofNat 32 (p.getD i 0).toNat &&& 0x7f) <<< shift

/-- `LEB128_1` to `LEB128_5`: the value of `n` bytes. -/
def leb128 (p : List UInt8) : Nat → BitVec 32
  | 0 => 0
  | n + 1 => byteAt p n (7 * n) ||| leb128 p n

/-- `SIGN_EXTEND`. -/
def signExtend (value : BitVec 32) (signBit : Nat) : BitVec 32 :=
  (value <<< (31 - signBit)).sshiftRight (31 - signBit)

/-- `p + i < end && (p[i] & 0x80) == 0`. -/
def endsAt (p : List UInt8) (i : Nat) : Bool := i < p.length && p.getD i 0 &&& 0x80 == 0

/-- `ReadS32Leb128` on the bytes before `end`; nothing is written where it returns 0. -/
def readS32Leb128 (p : List UInt8) : Option (BitVec 32) :=
  if endsAt p 0 then some (signExtend (leb128 p 1) 6)
  else if endsAt p 1 then some (signExtend (leb128 p 2) 13)
  else if endsAt p 2 then some (signExtend (leb128 p 3) 20)
  else if endsAt p 3 then some (signExtend (leb128 p 4) 27)
  else if endsAt p 4 then
    let signBitSet := p.getD 4 0 &&& 0x8 != 0
    let topBits := p.getD 4 0 &&& 0xf0
    if (signBitSet && topBits != 0x70) || (!signBitSet && topBits != 0) then none
    else some (leb128 p 5)
  else none

/-! ## The pass -/

/-- `GetHeapPtr`: global 1, read four bytes behind the place of its initializer; `heap_ptr` is not
initialized. There is no result without a global 1. -/
def getHeapPtr (heapPtr : BitVec 32) (mod : Module) (buff : List UInt8) : Option (BitVec 32) :=
  mod.globals[1]?.map fun global =>
    (readS32Leb128 ((buff.drop (global.initOffset + 4)).take 5)).getD heapPtr

/-- `isZeroed`. -/
def DataSegment.isZeroed (ds : DataSegment) : Bool := ds.data.all fun datum => datum == 0

/-- `StripZeroedData`, with the bytes it counts. -/
def stripZeroedData (mod : Module) (fixBytes : Nat) : Module × Nat :=
  ({ mod with dataSegments := mod.dataSegments.filter fun ds => !ds.isZeroed },
    fixBytes + ((mod.dataSegments.filter DataSegment.isZeroed).map fun ds => ds.data.length).sum)

/-- `(heap_ptr + 7) & ~7`. -/
def alignHeap (heapPtr : BitVec 32) : BitVec 32 := (heapPtr + 7) &&& ~~~(7 : BitVec 32)

/-- The segment that `AddHeapPointerData` adds. -/
def heapSegment (heapPtr : BitVec 32) : DataSegment where
  memoryVar := 0
  offset := 0
  data := (List.range 4).map fun i => UInt8.ofBitVec ((alignHeap heapPtr >>> (8 * i)).setWidth 8)

def addHeapPointerData (heapPtr : BitVec 32) (mod : Module) (buff : List UInt8) : Option Module :=
  (getHeapPtr heapPtr mod buff).map fun heapPtr =>
    { mod with dataSegments := mod.dataSegments ++ [heapSegment heapPtr] }

/-- What `ProgramMain` does to the module it has read. -/
def run (heapPtr : BitVec 32) (mod : Module) (buff : List UInt8) : Option Module :=
  addHeapPointerData heapPtr (stripZeroedData mod 0).1 buff

/-! ## The memory of an instance -/

/-- The byte that a segment has for the address. -/
def DataSegment.put (a : Nat) (ds : DataSegment) : Option UInt8 :=
  if ds.offset.toNat ≤ a then ds.data[a - ds.offset.toNat]? else none

def DataSegment.apply (m : Mem) (ds : DataSegment) : Mem := fun a => (ds.put a).getD (m a)

/-- The initial memory: the segments applied in order to zeros. -/
def image (mod : Module) : Mem := mod.dataSegments.foldl DataSegment.apply fun _ => 0

end PostPass
