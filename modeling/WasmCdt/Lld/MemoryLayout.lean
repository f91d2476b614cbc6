import WasmCdt.Lld.InputChunks

/-!
# The layout of the linear memory

`OutputSegment` (`wasm_llvm/tools/lld/wasm/OutputSegment.h`), `createOutputSegments` and
`layoutMemory` (`Writer.cpp`). Addresses and sizes are `uint32_t`, and wrap; the errors are those
that the linker reports before it gives up.
-/

namespace Lld

/-- A segment of an object's data, with its name and its alignment. -/
structure InputSegment (T : Type) extends InputChunk T where
  name : Text
  alignment : Nat
  deriving DecidableEq

def uint32 (n : Nat) : Nat := n % 2 ^ 32

/-- `llvm::alignTo`, in 64 bits. -/
def alignTo (value align : Nat) : Nat := (value + align - 1) / align * align

/-- `OutputSegment`; the input segments have their `OutputSegmentOffset`. -/
structure OutputSegment (Seg : Type) where
  name : Text
  alignment : Nat
  startVA : Nat
  inputSegments : List (Seg × Nat)
  size : Nat
  deriving DecidableEq

/-- `WasmPageSize` and `kStackAlignment`. -/
def wasmPageSize : Nat := 65536
def kStackAlignment : Nat := 16

section
variable {T Seg : Type} (info : Seg → InputSegment T)

namespace OutputSegment

def addInputSegment (S : OutputSegment Seg) (seg : Seg) : OutputSegment Seg :=
  let offset := uint32 (alignTo S.size (info seg).alignment)
  { S with alignment := max S.alignment (info seg).alignment
           inputSegments := S.inputSegments ++ [(seg, offset)]
           size := uint32 (offset + (info seg).data.length) }

def new (name : Text) : OutputSegment Seg := ⟨name, 0, 0, [], 0⟩

end OutputSegment

def getOutputDataSegmentName (mergeDataSegments : Bool) (name : Text) : Text :=
  if !mergeDataSegments then name
  else if ".text.".toList.isPrefixOf name then ".text".toList
  else if ".data.".toList.isPrefixOf name then ".data".toList
  else if ".bss.".toList.isPrefixOf name then ".bss".toList
  else name

/-- `SegmentMap[Name]`, with a new segment behind the others where there is none. -/
def addToSegment (name : Text) (seg : Seg) : List (OutputSegment Seg) → List (OutputSegment Seg)
  | [] => [(OutputSegment.new name).addInputSegment info seg]
  | S :: Ss =>
    if S.name = name then S.addInputSegment info seg :: Ss else S :: addToSegment name seg Ss

/-- `createOutputSegments`, for the live segments of the files in order. -/
def createOutputSegments (mergeDataSegments : Bool) (segs : List Seg) : List (OutputSegment Seg) :=
  segs.foldl (fun Ss seg =>
    addToSegment info (getOutputDataSegmentName mergeDataSegments (info seg).name) seg Ss) []

end

/-! ## `layoutMemory` -/

structure LayoutConfig where
  relocatable : Bool
  mergeDataSegments : Bool
  stackFirst : Bool
  globalBase : Nat
  zStackSize : Nat
  initialMemory : Nat
  maxMemory : Nat
  deriving DecidableEq, Repr

structure Memory (Seg : Type) where
  segments : List (OutputSegment Seg)
  /-- The address of `__dso_handle`. -/
  dataStart : Nat
  /-- The address of `__data_end`. -/
  dataEnd : Nat
  /-- The initial value of `__stack_pointer`. -/
  stackPointer : Option Nat
  /-- The address of `__heap_base`. -/
  heapBase : Option Nat
  numMemoryPages : Nat
  maxMemoryPages : Nat
  errors : List String

namespace LayoutConfig

variable (cfg : LayoutConfig)

/-- `PlaceStack`: the address behind the stack. -/
def placeStack (memoryPtr : Nat) : Nat :=
  if cfg.relocatable then memoryPtr
  else uint32 (uint32 (alignTo memoryPtr kStackAlignment) + cfg.zStackSize)

def stackErrors : List String :=
  if !cfg.relocatable && cfg.zStackSize ≠ alignTo cfg.zStackSize kStackAlignment then
    ["stack size must be 16-byte aligned"]
  else []

/-- The loop over the segments, and `MemoryPtr` behind it. -/
def placeSegments {Seg : Type} : Nat → List (OutputSegment Seg) → List (OutputSegment Seg) × Nat
  | memoryPtr, [] => ([], memoryPtr)
  | memoryPtr, S :: Ss =>
    let startVA := uint32 (alignTo memoryPtr S.alignment)
    let rest := placeSegments (uint32 (startVA + S.size)) Ss
    ({ S with startVA } :: rest.1, rest.2)

/-- The memory asked for, where it is enough. -/
def initialPtr (memoryPtr : Nat) : Nat :=
  if cfg.initialMemory = 0 ∨ cfg.initialMemory < memoryPtr then memoryPtr else cfg.initialMemory

def initialErrors (memoryPtr : Nat) : List String :=
  if cfg.initialMemory = 0 then []
  else
    (if cfg.initialMemory ≠ alignTo cfg.initialMemory wasmPageSize then
      ["initial memory must be 65536-byte aligned"] else []) ++
    if cfg.initialMemory < memoryPtr then
      [s!"initial memory too small, {memoryPtr} bytes needed"] else []

def maxErrors (memoryPtr : Nat) : List String :=
  if cfg.maxMemory = 0 then []
  else
    (if cfg.maxMemory ≠ alignTo cfg.maxMemory wasmPageSize then
      ["maximum memory must be 65536-byte aligned"] else []) ++
    if cfg.maxMemory < memoryPtr then
      [s!"maximum memory too small, {memoryPtr} bytes needed"] else []

/-- `layoutMemory`, behind `createOutputSegments`. -/
def layoutMemory {Seg : Type} (Ss : List (OutputSegment Seg)) : Memory Seg :=
  let dataStart := if cfg.stackFirst then cfg.placeStack 0 else cfg.globalBase
  let (segments, dataEnd) := placeSegments dataStart Ss
  let heapBase := if cfg.stackFirst then dataEnd else cfg.placeStack dataEnd
  let stackPointer := if cfg.stackFirst then dataStart else heapBase
  let memoryPtr := cfg.initialPtr heapBase
  { segments, dataStart, dataEnd
    stackPointer := if cfg.relocatable then none else some stackPointer
    heapBase := if cfg.relocatable then none else some heapBase
    numMemoryPages := uint32 (alignTo memoryPtr wasmPageSize) / wasmPageSize
    maxMemoryPages := if cfg.maxMemory = 0 then 0 else cfg.maxMemory / wasmPageSize
    errors := cfg.stackErrors ++ cfg.initialErrors heapBase ++ cfg.maxErrors memoryPtr }

end LayoutConfig

namespace Memory

variable {Seg : Type} [DecidableEq Seg]

/-- `Segment->OutputSeg->StartVA + Segment->OutputSegmentOffset`. -/
def address (M : Memory Seg) (seg : Seg) : Option Nat :=
  M.segments.findSome? fun S =>
    (S.inputSegments.find? fun p => p.1 = seg).map fun p => uint32 (S.startVA + p.2)

end Memory

end Lld
