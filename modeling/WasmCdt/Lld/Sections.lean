import WasmCdt.Lld.Export
import WasmCdt.Lld.Writer

/-!
# The sections of the linked file

`createTypeSection`, `createImportSection` and the others of `Writer.cpp`
(`wasm_llvm/tools/lld/wasm`), `calculateExports`, and the functions of `WriterUtils.cpp` that write
the parts. The output is not relocatable and has no names of functions.
-/

namespace Lld

open Leb128

/-! ## `WriterUtils.cpp` -/

/-- The bytes of a `StringRef`. -/
def charBytes (s : Text) : List UInt8 := s.map fun c => byte c.toNat

def writeStr (s : List UInt8) : List UInt8 := encodeU s.length ++ s

def writeSig (sig : Signature) : List UInt8 :=
  writeU8 0x60 ++ writeSize sig.paramTypes.length ++ sig.paramTypes ++
    match sig.returnType with
    | none => writeUleb128 0
    | some type => writeUleb128 1 ++ writeU8 type

/-- An `int64_t` is given to `writeSleb128`, which takes an `int32_t`. Constants of floating point are
a fatal error, and nothing is written. -/
def writeInitExpr : WasmInitExpr → List UInt8
  | .i32Const value => writeU8 0x41 ++ writeSleb128 value ++ writeU8 0x0b
  | .i64Const value => writeU8 0x42 ++ writeSleb128 (value.setWidth 32) ++ writeU8 0x0b
  | .getGlobal global => writeU8 0x23 ++ writeUleb128 global.toNat ++ writeU8 0x0b
  | _ => []

def writeLimits (limits : WasmLimits) : List UInt8 :=
  writeU8 (if limits.maximum.isSome then 1 else 0) ++ writeUleb128 limits.initial ++
    match limits.maximum with
    | none => []
    | some maximum => writeUleb128 maximum

def writeGlobalType (type : WasmGlobalType) : List UInt8 :=
  writeU8 type.type ++ writeU8 (if type.isMutable then 1 else 0)

def writeGlobal (global : WasmGlobal) : List UInt8 := writeGlobalType global.type ++ writeInitExpr global.initExpr

def writeTableType (type : WasmTable) : List UInt8 :=
  writeU8 WasmObjectFile.anyfunc ++ writeLimits type.limits

def writeImport (im : WasmImport) : List UInt8 :=
  writeStr im.module ++ writeStr im.field ++
    match im.kind with
    | .function sigIndex => writeU8 0 ++ writeUleb128 sigIndex
    | .table type => writeU8 1 ++ writeTableType type
    | .memory limits => writeU8 2 ++ writeLimits limits
    | .global type => writeU8 3 ++ writeGlobalType type

def writeExport (ex : WasmExport) : List UInt8 :=
  writeStr (charBytes ex.name) ++ writeU8 (UInt8.ofBitVec ex.kind) ++ writeUleb128 ex.index.toNat

/-- A section with the parts behind their number. -/
def synthetic {T Seg α : Type} (type : UInt8) (write : α → List UInt8) (parts : List α) : OutputSection T Seg :=
  .synthetic type (writeSize parts.length ++ parts.flatMap write)

/-! ## The output -/

structure OutputConfig extends LayoutConfig where
  importMemory : Bool
  importTable : Bool
  exportTable : Bool
  exportAll : Bool
  compressRelocTargets : Bool
  /-- `Config->exports`. -/
  exports : List WasmExport
  deriving DecidableEq

/-- `WASM_TYPE_I32`. -/
def typeI32 : UInt8 := 0x7f

namespace LinkState

variable {Sym Func Seg Global : Type} [DecidableEq Sym] [DecidableEq Func] [DecidableEq Seg]
  [DecidableEq Global] (P : LinkState Sym Func Seg Global) (m : Marks Sym (Func ⊕ Seg) Global)
  (cfg : OutputConfig)

section
variable (X : Indexes Sym Func Global) (M : Memory Seg)

def memoryLimits : WasmLimits :=
  ⟨M.numMemoryPages, if M.maxMemoryPages = 0 then none else some M.maxMemoryPages⟩

/-- The table has as many places as there are functions in it, and the null in front. -/
def tableType : WasmTable :=
  let tableSize := kInitialTableOffset + X.table.indirectFunctions.length
  ⟨WasmObjectFile.anyfunc, tableSize, some tableSize⟩

/-- An import of a symbol; the type of a function is registered. -/
def symbolImport (sym : Sym) : WasmImport :=
  let info := P.symbol sym
  ⟨charBytes "env".toList, charBytes info.name,
    if info.kind.isFunction then .function ((info.functionType.bind X.types.lookupType).getD 0)
    else .global (info.globalType.getD ⟨0, false⟩)⟩

def importList : List WasmImport :=
  (if cfg.importMemory then [⟨charBytes "env".toList, charBytes "memory".toList, .memory (memoryLimits M)⟩]
    else []) ++
  (if cfg.importTable then
      [⟨charBytes "env".toList, charBytes "__indirect_function_table".toList, .table (tableType X)⟩]
    else []) ++
  X.imports.importedSymbols.map (P.symbolImport X)

/-! ## `calculateExports` -/

/-- The symbols that the loop does not skip. -/
def isExported (sym : Sym) : Bool :=
  (P.symbol sym).kind.isDefined && !(P.input.isHidden sym && !cfg.exportAll) && !(P.symbol sym).isLocal &&
    P.input.isLive m sym

/-- A round of the loop: `Exports`, and `DefinedFakeGlobals`. -/
def addExport (E : List WasmExport × List Sym) (sym : Sym) : List WasmExport × List Sym :=
  let name := (P.symbol sym).name
  if !P.isExported m cfg sym then E
  else
    match (P.symbol sym).kind with
    | .definedFunction _ =>
      (E.1 ++ [⟨name, WASM_EXTERNAL_FUNCTION,
        BitVec.ofNat 32 ((P.functionIndex X.imports X.functions sym).getD 0)⟩], E.2)
    | .definedGlobal g =>
      if (P.global g).type.isMutable then E
      else (E.1 ++ [⟨name, WASM_EXTERNAL_GLOBAL,
        BitVec.ofNat 32 ((P.globalIndex X.imports X.globals sym).getD 0)⟩], E.2)
    | _ =>
      (E.1 ++ [⟨name, WASM_EXTERNAL_GLOBAL, BitVec.ofNat 32
        (X.imports.numImportedGlobals + X.globals.inputs.length + E.2.length)⟩], E.2 ++ [sym])

def calculateExports : List WasmExport × List Sym :=
  P.input.symbols.foldl (P.addExport m cfg X)
    ((if cfg.importMemory then [] else [⟨"memory".toList, WASM_EXTERNAL_MEMORY, 0⟩]) ++
      (if cfg.exportTable then [⟨"__indirect_function_table".toList, WASM_EXTERNAL_TABLE, 0⟩] else []), [])

/-- The globals of the files, and the addresses of data that is exported. -/
def globalList : List WasmGlobal :=
  X.globals.inputs.map P.global ++ (P.calculateExports m cfg X).2.map fun sym =>
    ⟨⟨typeI32, false⟩, .i32Const ((virtualAddress M (P.symbol sym).kind).getD 0)⟩

/-- What the table starts with. -/
def elemBody : List UInt8 :=
  writeUleb128 1 ++ writeUleb128 0 ++ writeInitExpr (.i32Const (BitVec.ofNat 32 kInitialTableOffset)) ++
    writeSize (P.elements X).length ++ (P.elements X).flatMap fun i => writeUleb128 (i.getD 0)

/-- A section, if there is something to write in it. -/
def unlessEmpty {T α : Type} (parts : List α) (sec : OutputSection T Seg) : List (OutputSection T Seg) :=
  if parts.isEmpty then [] else [sec]

section
-- what lies behind the copies that `should_export` compares
variable (past : WasmExport → WasmExport → Nat → Char)

/-- `createSections`, with the custom sections of the objects. -/
def createSections (customs : List (OutputSection (Target Sym) Seg)) :
    List (OutputSection (Target Sym) Seg) :=
  let imports := P.importList cfg X M
  let globals := P.globalList m cfg X M
  let functions := X.functions.inputs
  [synthetic 1 writeSig X.types.types] ++
  unlessEmpty imports (synthetic 2 writeImport imports) ++
  unlessEmpty functions (synthetic 3 (fun f => writeUleb128 ((X.types.lookupType (P.signature f)).getD 0)) functions) ++
  (if cfg.importTable then [] else [synthetic 4 writeTableType [tableType X]]) ++
  (if cfg.importMemory then [] else [synthetic 5 writeLimits [memoryLimits M]]) ++
  unlessEmpty globals (synthetic 6 writeGlobal globals) ++
  (match createExportSection past cfg.exports (P.calculateExports m cfg X).1 with
    | none => []
    | some exports => [synthetic 7 writeExport exports]) ++
  unlessEmpty (P.elements X) (.synthetic 9 (P.elemBody X)) ++
  unlessEmpty functions (.code (functions.map P.function)) ++
  unlessEmpty M.segments (.data M.segments) ++
  customs

end

end

end LinkState

end Lld
