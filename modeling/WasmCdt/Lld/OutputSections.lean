import WasmCdt.Lld.MemoryLayout

/-!
# Sections of the linked file

`OutputSections.cpp` and `OutputSections.h` (`wasm_llvm/tools/lld/wasm`), and the functions of
`Writer.cpp` that give the sections their places and write them (`createHeader`, the loop of
`createSections`, `writeHeader`, `writeSections`). Sections are written at the same time, and in a
code, data or custom section the functions, segments or chunks are, too.
-/

namespace Lld

open FileBuffer ForkJoin Leb128

/-- `writeUleb128` of a `size_t`. -/
def writeSize (number : Nat) : List UInt8 := writeUleb128 (uint32 number)

def writeSleb128 (number : BitVec 32) : List UInt8 := encodeS number.toInt

/-- The loops that give each chunk its `OutputOffset`, and the size behind them. -/
def placeChunks {α : Type} (size : α → Nat) : Nat → List α → List (α × Nat) × Nat
  | start, [] => ([], start)
  | start, c :: cs =>
    let rest := placeChunks size (start + size c) cs
    ((c, start) :: rest.1, rest.2)

inductive OutputSection (T Seg : Type)
  | synthetic (type : UInt8) (body : List UInt8)
  | code (functions : List (InputFunction T))
  | data (segments : List (OutputSegment Seg))
  | custom (name : List UInt8) (chunks : List (InputChunk T))

/-- `WASM_SEC_*`. -/
def secCustom : UInt8 := 0
def secCode : UInt8 := 10
def secData : UInt8 := 11

/-- `OutputSegment::Header`: a segment of memory 0, its address, its size. -/
def OutputSegment.header {Seg : Type} (S : OutputSegment Seg) : List UInt8 :=
  writeUleb128 0 ++ writeUleb128 0x41 ++ writeSleb128 (BitVec.ofNat 32 S.startVA) ++ writeUleb128 0x0b ++
    writeUleb128 S.size

namespace OutputSection

/-- `OutputSection::createHeader`. -/
def createHeader (type : UInt8) (bodySize : Nat) : List UInt8 := type :: writeSize bodySize

/-- `NameData`. -/
def nameData (name : List UInt8) : List UInt8 := encodeU name.length ++ name

section
variable {T Seg : Type} (info : Seg → InputSegment T) (compressRelocTargets : Bool)
  (calcNewValue : Relocation T → BitVec 32)

/-- The functions with their `OutputOffset`, and `BodySize`. -/
def placeFunctions (functions : List (InputFunction T)) : List (InputFunction T × Nat) × Nat :=
  placeChunks (InputFunction.getSize compressRelocTargets calcNewValue)
    (writeSize functions.length).length functions

/-- The segments with their `SectionOffset`, and `BodySize`. -/
def placeDataSegments (segments : List (OutputSegment Seg)) : List (OutputSegment Seg × Nat) × Nat :=
  placeChunks (fun S => S.header.length + S.size) (writeSize segments.length).length segments

/-- The chunks with their `OutputOffset`, and `PayloadSize`. -/
def placePayload (chunks : List (InputChunk T)) : List (InputChunk T × Nat) × Nat :=
  placeChunks (fun C => C.data.length) 0 chunks

def bodySize : OutputSection T Seg → Nat
  | synthetic _ body => body.length
  | code functions => (placeFunctions compressRelocTargets calcNewValue functions).2
  | data segments => (placeDataSegments segments).2
  | custom name chunks => (placePayload chunks).2 + (nameData name).length

def type : OutputSection T Seg → UInt8
  | synthetic type _ => type
  | code _ => secCode
  | data _ => secData
  | custom _ _ => secCustom

def header (sec : OutputSection T Seg) : List UInt8 :=
  createHeader sec.type (sec.bodySize compressRelocTargets calcNewValue)

def getSize (sec : OutputSection T Seg) : Nat :=
  (sec.header compressRelocTargets calcNewValue).length + sec.bodySize compressRelocTargets calcNewValue

/-- A segment of the data section: its header, and its chunks in order. -/
def writeSegment (buf : Nat) (S : OutputSegment Seg) (sectionOffset : Nat) : Task Nat UInt8 :=
  .seq (memcpy (buf + sectionOffset) S.header)
    (Task.seqAll (S.inputSegments.map fun p =>
      (info p.1).writeTo calcNewValue buf (sectionOffset + S.header.length + p.2)))

/-- What the sections write behind their header. -/
def writeBody (buf : Nat) : OutputSection T Seg → Task Nat UInt8
  | synthetic _ body => memcpy buf body
  | code functions =>
    .seq (memcpy buf (writeSize functions.length))
      (Task.parallelForEach ((placeFunctions compressRelocTargets calcNewValue functions).1.map fun p =>
        p.1.writeTo compressRelocTargets calcNewValue buf p.2))
  | data segments =>
    .seq (memcpy buf (writeSize segments.length))
      (Task.parallelForEach ((placeDataSegments segments).1.map fun p =>
        writeSegment info calcNewValue buf p.1 p.2))
  | custom name chunks =>
    .seq (memcpy buf (nameData name))
      (Task.parallelForEach ((placePayload chunks).1.map fun p =>
        p.1.writeTo calcNewValue (buf + (nameData name).length) p.2))

def writeTo (offset : Nat) (sec : OutputSection T Seg) : Task Nat UInt8 :=
  .seq (memcpy offset (sec.header compressRelocTargets calcNewValue))
    (sec.writeBody info compressRelocTargets calcNewValue
      (offset + (sec.header compressRelocTargets calcNewValue).length))

end

end OutputSection

/-! ## The file -/

/-- `createHeader`: `WasmMagic` and `WasmVersion`. -/
def wasmHeader : List UInt8 := [0x00, 0x61, 0x73, 0x6d, 0x01, 0x00, 0x00, 0x00]

section
variable {T Seg : Type} (info : Seg → InputSegment T) (compressRelocTargets : Bool)
  (calcNewValue : Relocation T → BitVec 32)

/-- The sections with their `Offset`, and `FileSize`. -/
def placeSections (sections : List (OutputSection T Seg)) : List (OutputSection T Seg × Nat) × Nat :=
  placeChunks (OutputSection.getSize compressRelocTargets calcNewValue) wasmHeader.length sections

/-- `writeHeader` and `writeSections`. -/
def writeFile (sections : List (OutputSection T Seg)) : Task Nat UInt8 :=
  .seq (memcpy 0 wasmHeader)
    (Task.parallelForEach ((placeSections compressRelocTargets calcNewValue sections).1.map fun p =>
      p.1.writeTo info compressRelocTargets calcNewValue p.2))

end

end Lld
