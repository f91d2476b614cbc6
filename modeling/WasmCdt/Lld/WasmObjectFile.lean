import WasmCdt.Lib.Reader
import WasmCdt.Lld.Metadata

/-!
# Reading a module

`WasmObjectFile` (`wasm_llvm/lib/Object/WasmObjectFile.cpp`), which the linker reads object files
with, and what it keeps of a file. `Ctx.Ptr` is the position; what the memory holds behind `Ctx.End`
is part of what is read from, as some of the loops can go there.
-/

namespace Lld

open Reading

/-- `WasmSignature`; `none` is `WASM_TYPE_NORESULT`. -/
structure Signature where
  paramTypes : List UInt8
  returnType : Option UInt8
  deriving DecidableEq, Repr

/-- `WasmLimits`; the maximum is there if `WASM_LIMITS_FLAG_HAS_MAX` is set. -/
structure WasmLimits where
  initial : Nat
  maximum : Option Nat
  deriving DecidableEq, Repr

structure WasmTable where
  elemType : UInt8
  limits : WasmLimits
  deriving DecidableEq, Repr

inductive WasmInitExpr
  | i32Const (value : BitVec 32)
  | i64Const (value : BitVec 64)
  | f32Const (bytes : List UInt8)
  | f64Const (bytes : List UInt8)
  | getGlobal (global : BitVec 32)
  deriving DecidableEq, Repr

structure WasmGlobalType where
  type : UInt8
  isMutable : Bool
  deriving DecidableEq, Repr

structure WasmGlobal where
  type : WasmGlobalType
  initExpr : WasmInitExpr
  deriving DecidableEq, Repr

/-- What is imported, by the kind of the import. -/
inductive WasmImportKind
  | function (sigIndex : Nat)
  | table (type : WasmTable)
  | memory (limits : WasmLimits)
  | global (type : WasmGlobalType)
  deriving DecidableEq, Repr

structure WasmImport where
  module : List UInt8
  field : List UInt8
  kind : WasmImportKind
  deriving DecidableEq, Repr

namespace WasmObjectFile

open Metadata (WasmSection Error byteAt ctxEnd)

structure WasmExport where
  name : List UInt8
  kind : UInt8
  index : Nat
  deriving DecidableEq, Repr

structure WasmFunction where
  codeSectionOffset : Nat
  size : Nat
  codeOffset : Nat
  locals : List (Nat × UInt8)
  body : List UInt8
  deriving DecidableEq, Repr

structure WasmElemSegment where
  tableIndex : Nat
  offset : WasmInitExpr
  functions : List Nat
  deriving DecidableEq, Repr

structure WasmSegment where
  memoryIndex : Nat
  offset : WasmInitExpr
  content : List UInt8
  sectionOffset : Nat
  deriving DecidableEq, Repr

/-- A section; `start` is where its content starts in the file. -/
structure Section where
  type : UInt8
  name : List UInt8
  content : List UInt8
  start : Nat
  deriving DecidableEq, Repr

/-- What is kept of a file. -/
structure Object where
  signatures : List Signature
  imports : List WasmImport
  functionTypes : List Nat
  tables : List WasmTable
  memories : List WasmLimits
  globals : List WasmGlobal
  exports : List WasmExport
  startFunction : Option Nat
  elemSegments : List WasmElemSegment
  functions : List WasmFunction
  dataSegments : List WasmSegment
  sections : List Section
  metadata : Metadata.WasmObject
  deriving DecidableEq, Repr

def Object.empty : Object := ⟨[], [], [], [], [], [], [], none, [], [], [], [], .empty⟩

abbrev ReadM := Reader WasmSection Error

def parseFailed {α : Type} (msg : String) : ReadM α := fail (.parseFailed msg)

/-- `Ctx.Ptr`. -/
def getPtr : ReadM Nat := fun _ p => .ok (p, p)

/-- `Ctx.End`. -/
def getEnd : ReadM Nat := fun sec p => .ok (ctxEnd sec, p)

/-- Bytes from `Ctx.Ptr` on, which nothing compares with the end. -/
def takeBytes (n : Nat) : ReadM (List UInt8) := fun sec p =>
  .ok ((List.range n).map fun i => byteAt sec (p + i), p + n)

/-! ## Numbers -/

def readUint8 : ReadM UInt8 := fun sec p =>
  if p = ctxEnd sec then .error (.fatal "EOF while reading uint8") else .ok (byteAt sec p, p + 1)

/-- `readUint32`, and the bytes that it reads. -/
def readUint32 : ReadM (List UInt8) := do
  failIf ((← getPtr) + 4 > (← getEnd)) (.fatal "EOF while reading uint32")
  takeBytes 4

def readULEB128 : ReadM (BitVec 64) := Metadata.readULEB128

/-- The loop of `decodeSLEB128`, and the sign. Its callers are never behind the end. -/
def decodeSLEB128 (sec : WasmSection) (p : Nat) (value : BitVec 64) (shift : Nat) :
    Except Error (BitVec 64 × Nat) :=
  if p ≥ ctxEnd sec then .error (.fatal "malformed sleb128, extends past end")
  else
    let byte := byteAt sec p
    let value := value ||| (byte &&& 0x7f).toBitVec.setWidth 64 <<< shift
    if byte ≥ 128 then decodeSLEB128 sec (p + 1) value (shift + 7)
    else if byte &&& 0x40 ≠ 0 then .ok (value ||| BitVec.allOnes 64 <<< (shift + 7), p + 1)
    else .ok (value, p + 1)
termination_by ctxEnd sec - p

def readLEB128 : ReadM (BitVec 64) := fun sec p => decodeSLEB128 sec p 0 0

def readVaruint1 : ReadM Bool := do
  let result ← readLEB128
  failIf (result.toInt > 1 ∨ result.toInt < 0) (.fatal "LEB is outside Varuint1 range")
  pure (result != 0)

def readVarint32 : ReadM (BitVec 32) := do
  let result ← readLEB128
  failIf (result.toInt > 2 ^ 31 - 1 ∨ result.toInt < -2 ^ 31) (.fatal "LEB is outside Varint32 range")
  pure (result.setWidth 32)

def readVaruint32 : ReadM Nat := do
  let result ← readULEB128
  failIf (result.toNat > 2 ^ 32 - 1) (.fatal "LEB is outside Varuint32 range")
  pure result.toNat

def readVarint64 : ReadM (BitVec 64) := readLEB128

def readString : ReadM (List UInt8) := Metadata.readString

/-! ## Parts of sections -/

/-- The operand of the opcode. -/
def readOperand (opcode : UInt8) : ReadM WasmInitExpr :=
  if opcode = 0x41 then do pure (.i32Const (← readVarint32))
  else if opcode = 0x42 then do pure (.i64Const (← readVarint64))
  else if opcode = 0x43 then do pure (.f32Const (← takeBytes 4))
  else if opcode = 0x44 then do pure (.f64Const (← takeBytes 8))
  else if opcode = 0x23 then do pure (.getGlobal ((← readULEB128).setWidth 32))
  else parseFailed "Invalid opcode in init_expr"

def readInitExpr : ReadM WasmInitExpr := do
  let expr ← readOperand (← readUint8)
  failIf ((← readUint8) ≠ 0x0b) (.parseFailed "Invalid init_expr")
  pure expr

def readLimits : ReadM WasmLimits := do
  let hasMax ← readVaruint1
  let initial ← readVaruint32
  if hasMax then do pure ⟨initial, some (← readVaruint32)⟩ else pure ⟨initial, none⟩

def readTable : ReadM WasmTable := do
  let elemType ← readUint8
  pure ⟨elemType, ← readLimits⟩

/-- `WASM_TYPE_ANYFUNC`. -/
def anyfunc : UInt8 := 0x70

def readSignature : ReadM Signature := do
  failIf ((← readUint8) ≠ 0x60) (.parseFailed "Invalid signature type")
  let paramTypes ← times readUint8 (← readVaruint32)
  let returnCount ← readVaruint32
  if returnCount = 0 then pure ⟨paramTypes, none⟩
  else do
    failIf (returnCount ≠ 1) (.parseFailed "Multiple return types not supported")
    let type ← readUint8
    pure ⟨paramTypes, if type = 0x40 then none else some type⟩

def readImport : ReadM WasmImport := do
  let module ← readString
  let field ← readString
  let kind ← readUint8
  if kind = 0 then do pure ⟨module, field, .function (← readVaruint32)⟩
  else if kind = 3 then do
    let type ← readUint8
    pure ⟨module, field, .global ⟨type, ← readVaruint1⟩⟩
  else if kind = 2 then do pure ⟨module, field, .memory (← readLimits)⟩
  else if kind = 1 then do
    let table ← readTable
    failIf (table.elemType ≠ anyfunc) (.parseFailed "Invalid table element type")
    pure ⟨module, field, .table table⟩
  else parseFailed "Unexpected import kind"

/-! ## Sections -/

/-- A section whose end has to be reached. -/
def ending {α : Type} (what : String) (r : ReadM α) : ReadM α :=
  whole WasmSection.content r (.parseFailed (what ++ " section ended prematurely"))

namespace Object

def isFunction : WasmImportKind → Bool
  | .function _ => true
  | _ => false

def isGlobal : WasmImportKind → Bool
  | .global _ => true
  | _ => false

variable (obj : Object)

def numImportedFunctions : Nat := obj.imports.countP fun im => isFunction im.kind

def numImportedGlobals : Nat := obj.imports.countP fun im => isGlobal im.kind

def isValidFunctionIndex (index : Nat) : Bool :=
  index < obj.numImportedFunctions + obj.functionTypes.length

def isValidGlobalIndex (index : Nat) : Bool := index < obj.numImportedGlobals + obj.globals.length

end Object

section
variable (obj : Object)

def parseTypeSection : ReadM Object := ending "Type" do
  let signatures ← times readSignature (← readVaruint32)
  pure { obj with signatures := obj.signatures ++ signatures }

def parseImportSection : ReadM Object := ending "Import" do
  let imports ← times readImport (← readVaruint32)
  pure { obj with imports := obj.imports ++ imports }

def readFunctionType : ReadM Nat := do
  let type ← readVaruint32
  failIf (type ≥ obj.signatures.length) (.parseFailed "Invalid function type")
  pure type

def parseFunctionSection : ReadM Object := ending "Function" do
  let types ← times (readFunctionType obj) (← readVaruint32)
  pure { obj with functionTypes := obj.functionTypes ++ types }

def readTableEntry : ReadM WasmTable := do
  let table ← readTable
  failIf (table.elemType ≠ anyfunc) (.parseFailed "Invalid table element type")
  pure table

def parseTableSection : ReadM Object := ending "Table" do
  let tables ← times readTableEntry (← readVaruint32)
  pure { obj with tables := obj.tables ++ tables }

def parseMemorySection : ReadM Object := ending "Memory" do
  let memories ← times readLimits (← readVaruint32)
  pure { obj with memories := obj.memories ++ memories }

def readGlobal : ReadM WasmGlobal := do
  let type ← readUint8
  let isMutable ← readVaruint1
  pure ⟨⟨type, isMutable⟩, ← readInitExpr⟩

def parseGlobalSection : ReadM Object := ending "Global" do
  let globals ← times readGlobal (← readVaruint32)
  pure { obj with globals := obj.globals ++ globals }

def readExport : ReadM WasmExport := do
  let name ← readString
  let kind ← readUint8
  let index ← readVaruint32
  failIf (kind = 0 ∧ !obj.isValidFunctionIndex index) (.parseFailed "Invalid function export")
  failIf (kind = 3 ∧ !obj.isValidGlobalIndex index) (.parseFailed "Invalid global export")
  failIf (¬ (kind = 0 ∨ kind = 1 ∨ kind = 2 ∨ kind = 3)) (.parseFailed "Unexpected export kind")
  pure ⟨name, kind, index⟩

def parseExportSection : ReadM Object := ending "Export" do
  let exports ← times (readExport obj) (← readVaruint32)
  pure { obj with exports := obj.exports ++ exports }

def parseStartSection : ReadM Object := do
  let start ← readVaruint32
  failIf (!obj.isValidFunctionIndex start) (.parseFailed "Invalid start function")
  pure { obj with startFunction := some start }

def readElemSegment : ReadM WasmElemSegment := do
  let tableIndex ← readVaruint32
  failIf (tableIndex ≠ 0) (.parseFailed "Invalid TableIndex")
  let offset ← readInitExpr
  pure ⟨tableIndex, offset, ← times readVaruint32 (← readVaruint32)⟩

def parseElemSection : ReadM Object := ending "Elem" do
  let segments ← times readElemSegment (← readVaruint32)
  pure { obj with elemSegments := obj.elemSegments ++ segments }

def readLocalDecl : ReadM (Nat × UInt8) := do
  let count ← readVaruint32
  pure (count, ← readUint8)

def readLocals : ReadM (List (Nat × UInt8)) := do times readLocalDecl (← readVaruint32)

/-- A function; its body is what its size leaves behind the locals, in 32 bits. -/
def readFunction : ReadM WasmFunction := do
  let start ← getPtr
  let size ← readVaruint32
  let code ← getPtr
  let locals ← readLocals
  let bodySize := BitVec.ofNat 32 (code + size) - BitVec.ofNat 32 (← getPtr)
  let body ← takeBytes bodySize.toNat
  pure ⟨start, code + size - start, code - start, locals, body⟩

def parseCodeSection : ReadM Object := ending "Code" do
  let count ← readVaruint32
  failIf (count ≠ obj.functionTypes.length) (.parseFailed "Invalid function count")
  let functions ← times readFunction count
  pure { obj with functions := obj.functions ++ functions }

def readSegment : ReadM WasmSegment := do
  let memoryIndex ← readVaruint32
  let offset ← readInitExpr
  let size ← readVaruint32
  let ptr ← getPtr
  failIf ((size : Int) > (← getEnd) - ptr) (.parseFailed "Invalid segment size")
  pure ⟨memoryIndex, offset, ← takeBytes size, ptr⟩

def parseDataSection : ReadM Object := ending "Data" do
  let segments ← times readSegment (← readVaruint32)
  pure { obj with dataSegments := obj.dataSegments ++ segments }

/-- The metadata sections of `parseCustomSection`. -/
def parseCustomSection (name : List UInt8) : ReadM Object := fun sec p =>
  match Metadata.parseCustomSection { sec with name := name.map fun b => Char.ofNat b.toNat } obj.metadata with
  | .error e => .error e
  | .ok metadata => .ok ({ obj with metadata }, p)

def parseSection (type : UInt8) (name : List UInt8) : ReadM Object :=
  if type = 0 then parseCustomSection obj name
  else if type = 1 then parseTypeSection obj
  else if type = 2 then parseImportSection obj
  else if type = 3 then parseFunctionSection obj
  else if type = 4 then parseTableSection obj
  else if type = 5 then parseMemorySection obj
  else if type = 6 then parseGlobalSection obj
  else if type = 7 then parseExportSection obj
  else if type = 8 then parseStartSection obj
  else if type = 9 then parseElemSection obj
  else if type = 10 then parseCodeSection obj
  else if type = 11 then parseDataSection obj
  else parseFailed "Bad section type"

end

/-! ## The file -/

/-- The name of a custom section; the other sections keep the one before. -/
def readSectionName (lastName : List UInt8) (type : UInt8) : ReadM (List UInt8) :=
  if type = 0 then readString else pure lastName

def readSection (lastName : List UInt8) : ReadM Section := do
  let type ← readUint8
  let size ← readVaruint32
  failIf (size = 0) (.parseFailed "Zero length section")
  let nameStart ← getPtr
  failIf (nameStart + size > (← getEnd)) (.parseFailed "Section too large")
  let name ← readSectionName lastName type
  let start ← getPtr
  -- a name that is longer than the section wraps the size
  let content ← takeBytes (BitVec.ofNat 32 size - BitVec.ofNat 32 (start - nameStart)).toNat
  pure ⟨type, name, content, start⟩

theorem readUint8_lt {file : WasmSection} {p q : Nat} {b : UInt8} (h : readUint8 file p = .ok (b, q)) :
    p < q := by
  unfold readUint8 at h
  split at h
  · cases h
  · obtain ⟨-, rfl⟩ := Prod.mk.inj (Except.ok.inj h)
    exact Nat.lt_succ_self p

theorem readSection_lt {file : WasmSection} {lastName : List UInt8} {p q : Nat} {sec : Section}
    (h : readSection lastName file p = .ok (sec, q)) : p < q := by
  have hptr : Advances getPtr := fun _ p _ _ h => (Prod.mk.inj (Except.ok.inj h)).2 ▸ Nat.le_refl p
  have hend : Advances getEnd := fun _ p _ _ h => (Prod.mk.inj (Except.ok.inj h)).2 ▸ Nat.le_refl p
  have htake : ∀ n, Advances (takeBytes n) := fun n _ p _ _ h =>
    (Prod.mk.inj (Except.ok.inj h)).2 ▸ Nat.le_add_right p n
  have hsize : Advances readVaruint32 :=
    Advances.bind (fun _ _ _ _ h => (Metadata.decodeULEB128_lt h).le) fun _ =>
      Advances.bind (advances_failIf _ _) fun _ => advances_pure _
  have hname : Advances readString := fun _ _ _ _ h => (Metadata.readString_lt h).le
  obtain ⟨type, k, htype, hrest⟩ := bind_ok.1 h
  refine Nat.lt_of_lt_of_le (readUint8_lt htype) ?_
  refine (Advances.bind hsize fun size => Advances.bind (advances_failIf _ _) fun _ => Advances.bind hptr fun _ =>
    Advances.bind hend fun _ => Advances.bind (advances_failIf _ _) fun _ =>
    Advances.bind (hname.ite (advances_pure lastName)) fun _ => Advances.bind hptr fun _ =>
    Advances.bind (htake _) fun _ => advances_pure _) file k sec q hrest

/-- `while (Ctx.Ptr < Ctx.End)` of the constructor. -/
def readSections (file : WasmSection) (lastName : List UInt8) (obj : Object) (p : Nat) : Except Error Object :=
  if p < ctxEnd file then
    match _hread : readSection lastName file p with
    | .error e => .error e
    | .ok (sec, q) =>
      match parseSection obj sec.type sec.name ⟨[], sec.content, fun i => byteAt file (sec.start + i)⟩ 0 with
      | .error e => .error e
      | .ok (obj, _) => readSections file sec.name { obj with sections := obj.sections ++ [sec] } q
  else .ok obj
termination_by ctxEnd file - p
decreasing_by
  have hlt := readSection_lt ‹_›
  omega

/-- The constructor of `WasmObjectFile`, on the bytes of a file and what the memory holds behind. -/
def parse (file : WasmSection) : Except Error Object :=
  if file.content.take 4 ≠ [0x00, 0x61, 0x73, 0x6d] then .error (.parseFailed "Bad magic number")
  else if 4 + 4 > ctxEnd file then .error (.parseFailed "Missing version number")
  else
    match readUint32 file 4 with
    | .error e => .error e
    | .ok (version, p) =>
      if version ≠ [1, 0, 0, 0] then .error (.parseFailed "Bad version number")
      else readSections file [] .empty p

end WasmObjectFile

end Lld
