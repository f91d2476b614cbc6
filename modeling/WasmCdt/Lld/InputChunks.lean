import WasmCdt.Lib.FileBuffer
import WasmCdt.Lib.Leb128Padded
import WasmCdt.Lld.MarkLive

/-!
# Input chunks

Functions and data segments of object files, and how they are written
(`wasm_llvm/tools/lld/wasm/InputChunks.cpp`): the bytes are copied, and the value of each
relocation goes over its site. With `CompressRelocTargets` (`-O1` and above) a function is written
anew, its LEB128 fields in their shortest form.
-/

namespace Lld

open FileBuffer ForkJoin Leb128

/-- `R_WEBASSEMBLY_*` of `WasmRelocs.def`. -/
inductive RelocKind
  | functionIndexLeb
  | tableIndexSleb
  | tableIndexI32
  | memoryAddrLeb
  | memoryAddrSleb
  | memoryAddrI32
  | typeIndexLeb
  | globalIndexLeb
  | functionOffsetI32
  | sectionOffsetI32
  deriving DecidableEq, Repr

/-- What the marking distinguishes. -/
def RelocKind.type : RelocKind → RelocType
  | .typeIndexLeb => .typeIndexLeb
  | .tableIndexSleb => .tableIndexSleb
  | .tableIndexI32 => .tableIndexI32
  | _ => .other

/-- How the value of a relocation is written. -/
inductive Coding
  | uleb
  | sleb
  | i32
  deriving DecidableEq, Repr

def RelocKind.coding : RelocKind → Coding
  | .typeIndexLeb | .functionIndexLeb | .globalIndexLeb | .memoryAddrLeb => .uleb
  | .tableIndexSleb | .memoryAddrSleb => .sleb
  | .tableIndexI32 | .memoryAddrI32 | .functionOffsetI32 | .sectionOffsetI32 => .i32

/-- A relocation of a section; `offset` counts from the start of the section, and `target` is the
symbol or the type that `Index` is in the file. -/
structure Relocation (T : Type) where
  kind : RelocKind
  target : T
  offset : Nat
  addend : Int
  deriving DecidableEq

/-- A function or a segment: `data` is the part of the section's content at `inputSectionOffset`. -/
structure InputChunk (T : Type) where
  data : List UInt8
  inputSectionOffset : Nat
  relocations : List (Relocation T)
  deriving DecidableEq

def write32le (value : BitVec 32) : List UInt8 :=
  [byte (value.toNat % 256), byte (value.toNat / 256 % 256), byte (value.toNat / 65536 % 256),
    byte (value.toNat / 16777216)]

/-- The bytes at the site of a relocation. -/
def RelocKind.encode (kind : RelocKind) (value : BitVec 32) : List UInt8 :=
  match kind.coding with
  | .uleb => encodeUPad 5 0 value.toNat
  | .sleb => encodeSPad 5 0 value.toInt
  | .i32 => write32le value

/-- `writeCompressedReloc`; the other types are unreachable, and nothing is written for them. -/
def RelocKind.encodeCompressed (kind : RelocKind) (value : BitVec 32) : List UInt8 :=
  match kind.coding with
  | .uleb => encodeUPad 0 0 value.toNat
  | .sleb => encodeSPad 0 0 value.toInt
  | .i32 => []

/-- The bytes that the compiler has left for the value; `getRelocWidthPadded` for the LEB types. -/
def RelocKind.width (kind : RelocKind) : Nat :=
  match kind.coding with
  | .uleb | .sleb => 5
  | .i32 => 4

namespace InputChunk

variable {T : Type}

/-- `copyRelocations`: of the section's relocations, those in the chunk. -/
def copyRelocations (section_ : List (Relocation T)) (start size : Nat) : List (Relocation T) :=
  section_.filter fun rel => start ≤ rel.offset ∧ rel.offset < start + size

/-- `Buf + Rel.Offset + Off`, where `Off` is an `int32_t`. -/
def loc (buf outputOffset : Nat) (C : InputChunk T) (rel : Relocation T) : Nat :=
  (buf + rel.offset +
    (BitVec.ofNat 32 outputOffset - BitVec.ofNat 32 C.inputSectionOffset).toInt).toNat

/-- `InputChunk::writeTo`. -/
def writeTo (calcNewValue : Relocation T → BitVec 32) (buf outputOffset : Nat) (C : InputChunk T) :
    Task Nat UInt8 :=
  .seq (memcpy (buf + outputOffset) C.data)
    (Task.seqAll (C.relocations.map fun rel =>
      memcpy (C.loc buf outputOffset rel) (rel.kind.encode (calcNewValue rel))))

/-! ## Compressed functions -/

/-- The bytes of the section's content from `a` to `b`. -/
def slice (C : InputChunk T) (a b : Nat) : List UInt8 :=
  (C.data.take (b - C.inputSectionOffset)).drop (a - C.inputSectionOffset)

/-- The bytes of the LEB128 number at the front: `Count` of `decodeULEB128`. -/
def lebLength : List UInt8 → Nat
  | [] => 0
  | b :: bs => if b.toNat < 128 then 1 else 1 + lebLength bs

/-- `LastRelocEnd` before the loops: behind the function's size. -/
def codeStart (C : InputChunk T) : Nat := C.inputSectionOffset + lebLength C.data

/-- `End`. -/
def codeEnd (C : InputChunk T) : Nat := C.inputSectionOffset + C.data.length

variable (calcNewValue : Relocation T → BitVec 32)

/-- The loop of `calculateSize`: `CompressedFuncSize`. -/
def sizeLoop (stop : Nat) : (lastRelocEnd : Nat) → List (Relocation T) → Nat
  | lastRelocEnd, [] => stop - lastRelocEnd
  | lastRelocEnd, rel :: rels =>
    (rel.offset - lastRelocEnd) + (rel.kind.encodeCompressed (calcNewValue rel)).length +
      sizeLoop stop (rel.offset + rel.kind.width) rels

def compressedFuncSize (C : InputChunk T) : Nat :=
  sizeLoop calcNewValue C.codeEnd C.codeStart C.relocations

/-- `CompressedSize`. -/
def compressedSize (C : InputChunk T) : Nat :=
  C.compressedFuncSize calcNewValue + (encodeUPad 0 0 (C.compressedFuncSize calcNewValue)).length

/-- The loop of `InputFunction::writeTo`: what is appended at `Buf`. -/
def compressLoop (C : InputChunk T) : (lastRelocEnd : Nat) → List (Relocation T) → List UInt8
  | lastRelocEnd, [] => C.slice lastRelocEnd C.codeEnd
  | lastRelocEnd, rel :: rels =>
    C.slice lastRelocEnd rel.offset ++ (rel.kind.encodeCompressed (calcNewValue rel) ++
      C.compressLoop (rel.offset + rel.kind.width) rels)

/-- `InputFunction::writeTo` with `CompressRelocTargets`. -/
def writeCompressedTo (buf outputOffset : Nat) (C : InputChunk T) : Task Nat UInt8 :=
  memcpy (buf + outputOffset) (encodeUPad 0 0 (C.compressedFuncSize calcNewValue) ++
    C.compressLoop calcNewValue C.codeStart C.relocations)

end InputChunk

/-- A function: `synthetic` ones are not from a file. -/
structure InputFunction (T : Type) extends InputChunk T where
  synthetic : Bool
  deriving DecidableEq

namespace InputFunction

variable {T : Type} (compressRelocTargets : Bool) (calcNewValue : Relocation T → BitVec 32)

def writeTo (buf outputOffset : Nat) (F : InputFunction T) : Task Nat UInt8 :=
  if F.synthetic || !compressRelocTargets then F.toInputChunk.writeTo calcNewValue buf outputOffset
  else F.toInputChunk.writeCompressedTo calcNewValue buf outputOffset

def getSize (F : InputFunction T) : Nat :=
  if compressRelocTargets && !F.synthetic then F.toInputChunk.compressedSize calcNewValue
  else F.data.length

end InputFunction

end Lld
