import WasmCdt.Lld.OutputSections
import WasmCdt.Lld.WasmObjectFile

/-!
# Index spaces

What the linker numbers (`wasm_llvm/tools/lld/wasm/Writer.cpp`): imports, functions, entries of the
function table, types and globals; `ObjFile::calcNewValue` (`InputFiles.cpp`), which turns the
relocations into these numbers and into addresses; and the getters of `Symbols.cpp`. The output is
not relocatable, and `none` is an index that is not there where the code asserts one.
-/

namespace Lld

/-- What the index of a relocation means in its file: a symbol, or an entry of `types()`. -/
inductive Target (Sym : Type)
  | symbol (sym : Sym)
  | type (file index : Nat)
  deriving DecidableEq

/-- Data symbols whose address the linker sets. -/
inductive LinkerData
  | dsoHandle
  | dataEnd
  | heapBase
  deriving DecidableEq

inductive SymbolKind (Func Seg Global : Type)
  | definedFunction (func : Func)
  | definedData (segment : Seg) (offset : Nat)
  | linkerData (data : LinkerData)
  | definedGlobal (global : Global)
  | undefinedFunction
  | undefinedData
  | undefinedGlobal
  | lazy
  deriving DecidableEq

/-- A symbol; `functionType` and `globalType` are null for symbols of other kinds. -/
structure SymbolInfo (Func Seg Global : Type) where
  name : Text
  kind : SymbolKind Func Seg Global
  isWeak : Bool
  isLocal : Bool
  isUsedInRegularObj : Bool
  functionType : Option Signature
  globalType : Option WasmGlobalType

/-- What an object file has for the output. -/
structure ObjectFile (Func Seg Global : Type) where
  functions : List Func
  segments : List Seg
  globals : List Global
  types : List Signature

/-- The chunk or the global that is included with a symbol. -/
def SymbolKind.place {Func Seg Global : Type} : SymbolKind Func Seg Global → Place (Func ⊕ Seg) Global
  | .definedFunction func => .chunk (.inl func)
  | .definedData seg _ => .chunk (.inr seg)
  | .definedGlobal global => .global global
  | _ => .none

/-- `isDefined`. -/
def SymbolKind.isDefined {Func Seg Global : Type} : SymbolKind Func Seg Global → Bool
  | .definedFunction _ | .definedData _ _ | .linkerData _ | .definedGlobal _ => true
  | _ => false

def SymbolKind.isFunction {Func Seg Global : Type} : SymbolKind Func Seg Global → Bool
  | .definedFunction _ | .undefinedFunction => true
  | _ => false

/-- `DefinedData`. -/
def SymbolKind.isDefinedData {Func Seg Global : Type} : SymbolKind Func Seg Global → Bool
  | .definedData _ _ | .linkerData _ => true
  | _ => false

/-- The relocations that the marking can follow. -/
def Relocation.marked {Sym : Type} (rel : Relocation (Target Sym)) : Option (WasmRelocation Sym) :=
  match rel.target with
  | .symbol sym => some ⟨rel.kind.type, sym⟩
  | .type _ _ => none

/-- The linker's symbols and files, after symbol resolution. `isStub` are the functions made for weak
symbols that are not defined: they have the table index 0 from the start. -/
structure LinkState (Sym Func Seg Global : Type) where
  input : LinkInput Sym (Func ⊕ Seg) Global
  symbol : Sym → SymbolInfo Func Seg Global
  function : Func → InputFunction (Target Sym)
  signature : Func → Signature
  isStub : Func → Bool
  segment : Seg → InputSegment (Target Sym)
  global : Global → WasmGlobal
  files : List (ObjectFile Func Seg Global)
  syntheticFunctions : List Func
  syntheticGlobals : List Global
  place_eq : ∀ sym, input.place sym = (symbol sym).kind.place
  relocations_func : ∀ f, input.relocations (.inl f) = (function f).relocations.filterMap Relocation.marked
  relocations_seg : ∀ s, input.relocations (.inr s) = (segment s).relocations.filterMap Relocation.marked
  tableIndex_eq : ∀ sym, input.tableIndex sym =
    match (symbol sym).kind with
    | .definedFunction f => if isStub f then some 0 else none
    | _ => none

/-- `ImportedSymbols`, and the `FunctionIndex` and `GlobalIndex` of the symbols. -/
structure Imports (Sym : Type) where
  importedSymbols : List Sym
  numImportedFunctions : Nat
  numImportedGlobals : Nat
  functionIndex : Sym → Option Nat
  globalIndex : Sym → Option Nat

/-- `InputFunctions` with their `FunctionIndex`, or `InputGlobals` with their `GlobalIndex`. -/
structure Space (α : Type) where
  inputs : List α
  index : α → Option Nat

/-- `IndirectFunctions`, and the `TableIndex` of the symbols and of the functions. -/
structure FunctionTable (Sym Func : Type) where
  indirectFunctions : List Sym
  symIndex : Sym → Option Nat
  funcIndex : Func → Option Nat

/-- `Types`, and `TypeMap` and `TypeIsUsed` of the files. -/
structure TypeSpace where
  types : List Signature
  typeMap : Nat → Nat → Nat
  typeIsUsed : Nat → Nat → Bool

/-- The numbers of the output. -/
structure Indexes (Sym Func Global : Type) where
  imports : Imports Sym
  functions : Space Func
  table : FunctionTable Sym Func
  types : TypeSpace
  globals : Space Global

/-- `kInitialTableOffset`. -/
def kInitialTableOffset : Nat := 1

/-- A live function or global gets the next index behind the imported ones. -/
def Space.add {α : Type} [DecidableEq α] (live : α → Bool) (numImported : Nat) (S : Space α) (x : α) :
    Space α :=
  if live x then ⟨S.inputs ++ [x], Function.update S.index x (some (numImported + S.inputs.length))⟩
  else S

namespace TypeSpace

/-- `registerType`. -/
def register (T : TypeSpace) (sig : Signature) : TypeSpace :=
  if sig ∈ T.types then T else { T with types := T.types ++ [sig] }

/-- `TypeIndices`. -/
def indexOf (T : TypeSpace) (sig : Signature) : Nat := T.types.idxOf sig

/-- `lookupType`. -/
def lookupType (T : TypeSpace) (sig : Signature) : Option Nat :=
  if sig ∈ T.types then some (T.indexOf sig) else none

/-- `TypeMap[index] = registerType(sig)`. -/
def map (T : TypeSpace) (file index : Nat) (sig : Signature) : TypeSpace :=
  let S := T.register sig
  { S with
    typeMap := Function.update S.typeMap file (Function.update (S.typeMap file) index (S.indexOf sig)) }

/-- `TypeIsUsed[index] = true`. -/
def use (T : TypeSpace) (file index : Nat) : TypeSpace :=
  { T with
    typeIsUsed := Function.update T.typeIsUsed file (Function.update (T.typeIsUsed file) index true) }

end TypeSpace

namespace LinkState

variable {Sym Func Seg Global : Type} [DecidableEq Sym] [DecidableEq Func] [DecidableEq Seg]
  [DecidableEq Global] (P : LinkState Sym Func Seg Global) (m : Marks Sym (Func ⊕ Seg) Global)

/-! ## `calculateImports` -/

/-- The symbols that the loop does not skip. -/
def isImported (sym : Sym) : Bool :=
  match (P.symbol sym).kind with
  | .undefinedFunction | .undefinedGlobal =>
    !(P.symbol sym).isWeak && P.input.isLive m sym && (P.symbol sym).isUsedInRegularObj
  | _ => false

def addImport (I : Imports Sym) (sym : Sym) : Imports Sym :=
  if P.isImported m sym then
    if (P.symbol sym).kind.isFunction then
      { I with importedSymbols := I.importedSymbols ++ [sym]
               functionIndex := Function.update I.functionIndex sym (some I.numImportedFunctions)
               numImportedFunctions := I.numImportedFunctions + 1 }
    else
      { I with importedSymbols := I.importedSymbols ++ [sym]
               globalIndex := Function.update I.globalIndex sym (some I.numImportedGlobals)
               numImportedGlobals := I.numImportedGlobals + 1 }
  else I

def calculateImports : Imports Sym :=
  P.input.symbols.foldl (P.addImport m) ⟨[], 0, 0, fun _ => none, fun _ => none⟩

/-! ## `assignIndexes` -/

def functions : List Func := P.syntheticFunctions ++ P.files.flatMap ObjectFile.functions

def globals : List Global := P.syntheticGlobals ++ P.files.flatMap ObjectFile.globals

/-- The loops over the functions. -/
def assignFunctions (I : Imports Sym) : Space Func :=
  P.functions.foldl (Space.add (fun f => m.chunkLive (.inl f)) I.numImportedFunctions)
    ⟨[], fun _ => none⟩

/-- The loops over the globals. -/
def assignGlobals (I : Imports Sym) : Space Global :=
  P.globals.foldl (Space.add m.globalLive I.numImportedGlobals) ⟨[], fun _ => none⟩

/-- `hasFunctionIndex` and `getFunctionIndex`. -/
def functionIndex (I : Imports Sym) (F : Space Func) (sym : Sym) : Option Nat :=
  match (P.symbol sym).kind with
  | .definedFunction f => F.index f
  | _ => I.functionIndex sym

/-- `hasTableIndex` and `getTableIndex`. -/
def tableIndex (T : FunctionTable Sym Func) (sym : Sym) : Option Nat :=
  match (P.symbol sym).kind with
  | .definedFunction f => T.funcIndex f
  | _ => T.symIndex sym

/-- `getGlobalIndex`. -/
def globalIndex (I : Imports Sym) (G : Space Global) (sym : Sym) : Option Nat :=
  match (P.symbol sym).kind with
  | .definedGlobal g => G.index g
  | _ => I.globalIndex sym

/-- `setTableIndex`, and the symbol behind `IndirectFunctions`. -/
def addIndirect (T : FunctionTable Sym Func) (sym : Sym) : FunctionTable Sym Func :=
  let index := kInitialTableOffset + T.indirectFunctions.length
  match (P.symbol sym).kind with
  | .definedFunction f =>
    { T with indirectFunctions := T.indirectFunctions ++ [sym]
             funcIndex := Function.update T.funcIndex f (some index) }
  | _ =>
    { T with indirectFunctions := T.indirectFunctions ++ [sym]
             symIndex := Function.update T.symIndex sym (some index) }

def typeOf (file index : Nat) : Option Signature := (P.files[file]?).bind fun F => F.types[index]?

section
variable (I : Imports Sym) (F : Space Func)

/-- A relocation in `HandleRelocs`. -/
def handleReloc (S : FunctionTable Sym Func × TypeSpace) (rel : Relocation (Target Sym)) :
    FunctionTable Sym Func × TypeSpace :=
  match rel.kind, rel.target with
  | .tableIndexI32, .symbol sym | .tableIndexSleb, .symbol sym =>
    if (P.tableIndex S.1 sym).isSome || (P.functionIndex I F sym).isNone then S
    else (P.addIndirect S.1 sym, S.2)
  | .typeIndexLeb, .type file index =>
    match P.typeOf file index with
    | some sig => (S.1, (S.2.map file index sig).use file index)
    | none => S
  | _, _ => S

/-- The functions and segments of the files, in order. -/
def chunks : List (Func ⊕ Seg) :=
  P.files.flatMap fun F => F.functions.map .inl ++ F.segments.map .inr

def relocations : Func ⊕ Seg → List (Relocation (Target Sym))
  | .inl f => (P.function f).relocations
  | .inr s => (P.segment s).relocations

/-- The relocations that `HandleRelocs` meets: those of the live chunks. -/
def liveRelocations : List (Relocation (Target Sym)) := (P.chunks.filter m.chunkLive).flatMap P.relocations

/-- The loops over the relocations. -/
def assignTable : FunctionTable Sym Func × TypeSpace :=
  (P.liveRelocations m).foldl (P.handleReloc I F)
    (⟨[], fun _ => none, fun f => if P.isStub f then some 0 else none⟩, ⟨[], fun _ _ => 0, fun _ _ => false⟩)

end

/-! ## `calculateTypes` -/

/-- An entry of a file's `types()` in the first loop. -/
def mapUsed (T : TypeSpace) (entry : (Nat × Nat) × Signature) : TypeSpace :=
  if T.typeIsUsed entry.1.1 entry.1.2 then T.map entry.1.1 entry.1.2 entry.2 else T

/-- The types of the files, with the file's number and their index. -/
def fileTypes : List ((Nat × Nat) × Signature) :=
  P.files.zipIdx.flatMap fun F => F.1.types.zipIdx.map fun t => ((F.2, t.2), t.1)

/-- The signatures of the imported functions. -/
def importTypes (I : Imports Sym) : List Signature :=
  (I.importedSymbols.filter fun sym => (P.symbol sym).kind.isFunction).filterMap fun sym =>
    (P.symbol sym).functionType

def calculateTypes (I : Imports Sym) (F : Space Func) (T : TypeSpace) : TypeSpace :=
  (P.importTypes I ++ F.inputs.map P.signature).foldl TypeSpace.register (P.fileTypes.foldl mapUsed T)

def indexes : Indexes Sym Func Global :=
  let imports := P.calculateImports m
  let functions := P.assignFunctions m imports
  let (table, types) := P.assignTable m imports functions
  { imports, functions, table
    types := P.calculateTypes imports functions types
    globals := P.assignGlobals m imports }

/-! ## What the sections list -/

section
variable (X : Indexes Sym Func Global)

/-- The function indices in `createElemSection`: the table from `kInitialTableOffset` on. -/
def elements : List (Option Nat) :=
  X.table.indirectFunctions.map (P.functionIndex X.imports X.functions)

/-- The types in `createImportSection` and `createFunctionSection`; `none` is the error of
`lookupType`. -/
def functionTypes : List (Option Nat) :=
  (X.imports.importedSymbols.filter fun sym => (P.symbol sym).kind.isFunction).map
      (fun sym => (P.symbol sym).functionType.bind X.types.lookupType) ++
    X.functions.inputs.map fun f => X.types.lookupType (P.signature f)

end

/-! ## Values -/

/-- The live segments of the files, as `createOutputSegments` meets them. -/
def liveSegments : List Seg :=
  (P.files.flatMap ObjectFile.segments).filter fun seg => m.chunkLive (.inr seg)

def memory (cfg : LayoutConfig) : Memory Seg :=
  cfg.layoutMemory (createOutputSegments P.segment cfg.mergeDataSegments (P.liveSegments m))

/-- `getVirtualAddress`. -/
def virtualAddress (M : Memory Seg) : SymbolKind Func Seg Global → Option (BitVec 32)
  | .definedData seg offset => (M.address seg).map fun va => BitVec.ofNat 32 (va + offset)
  | .linkerData .dsoHandle => some (BitVec.ofNat 32 M.dataStart)
  | .linkerData .dataEnd => some (BitVec.ofNat 32 M.dataEnd)
  | .linkerData .heapBase => M.heapBase.map (BitVec.ofNat 32)
  | _ => none

/-- `calcNewValue`. -/
def calcNewValue (X : Indexes Sym Func Global) (M : Memory Seg) (rel : Relocation (Target Sym)) :
    Option (BitVec 32) :=
  match rel.kind, rel.target with
  | .tableIndexI32, .symbol sym | .tableIndexSleb, .symbol sym =>
    (P.tableIndex X.table sym).map (BitVec.ofNat 32)
  | .memoryAddrSleb, .symbol sym | .memoryAddrI32, .symbol sym | .memoryAddrLeb, .symbol sym =>
    if (P.symbol sym).kind.isDefinedData && P.input.isLive m sym then
      (virtualAddress M (P.symbol sym).kind).map (· + BitVec.ofInt 32 rel.addend)
    else some 0
  | .typeIndexLeb, .type file index => some (BitVec.ofNat 32 (X.types.typeMap file index))
  | .functionIndexLeb, .symbol sym => (P.functionIndex X.imports X.functions sym).map (BitVec.ofNat 32)
  | .globalIndexLeb, .symbol sym => (P.globalIndex X.imports X.globals sym).map (BitVec.ofNat 32)
  | _, _ => none

end LinkState

end Lld
