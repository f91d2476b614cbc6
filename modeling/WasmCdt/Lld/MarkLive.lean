import WasmCdt.Lld.Dispatch

/-!
# Dead-code elimination

`markLive` (`wasm_llvm/tools/lld/wasm/MarkLive.cpp`) and the live bits of symbols (`Symbols.cpp`).
Symbols, chunks and globals are identities; the `Live` bits of chunks and globals and the
`Referenced` bits of symbols are the state, with the worklist `Q`. `none` is a null pointer.
-/

namespace Lld

open Cdt

/-- `R_WEBASSEMBLY_TYPE_INDEX_LEB`, `R_WEBASSEMBLY_TABLE_INDEX_SLEB`,
`R_WEBASSEMBLY_TABLE_INDEX_I32` and the others. -/
inductive RelocType
  | typeIndexLeb
  | tableIndexSleb
  | tableIndexI32
  | other
  deriving DecidableEq, Repr

/-- A relocation, with the symbol that its index has in the chunk's file. -/
structure WasmRelocation (Sym : Type) where
  type : RelocType
  sym : Sym
  deriving DecidableEq

/-- What is included with a symbol: the chunk of a defined function or of defined data, or a defined
global. The other symbols have none. -/
inductive Place (Chunk Global : Type)
  | chunk (c : Chunk)
  | global (g : Global)
  | none
  deriving DecidableEq

/-- An object file; `functions` has the `SymbolName` of each function defined in it. -/
structure InputObject (Sym : Type) extends ObjFile where
  functions : List Text
  initFunctions : List Sym

/-- What `markLive` reads. The symbol table finds only symbols that it lists, and the symbol of
`__wasm_call_ctors` is the one that the driver has added first. -/
structure LinkInput (Sym Chunk Global : Type) where
  gcSections : Bool
  entry : Text
  callCtors : Option Sym
  symbols : List Sym
  find : Text → Option Sym
  objectFiles : List (InputObject Sym)
  isHidden : Sym → Bool
  place : Sym → Place Chunk Global
  relocations : Chunk → List (WasmRelocation Sym)
  tableIndex : Sym → Option Nat
  find_mem : ∀ {name : Text} {sym : Sym}, find name = some sym → sym ∈ symbols
  find_ctors : find ctorsName = callCtors

structure Marks (Sym Chunk Global : Type) where
  chunkLive : Chunk → Bool
  globalLive : Global → Bool
  referenced : Sym → Bool
  Q : List Chunk

variable {Sym Chunk Global : Type} [DecidableEq Sym] [DecidableEq Chunk] [DecidableEq Global]

namespace LinkInput

variable (L : LinkInput Sym Chunk Global)

def getChunk (sym : Sym) : Option Chunk :=
  match L.place sym with
  | .chunk c => some c
  | _ => none

def isLive (m : Marks Sym Chunk Global) (sym : Sym) : Bool :=
  match L.place sym with
  | .global g => m.globalLive g
  | .chunk c => m.chunkLive c
  | .none => m.referenced sym

/-- `Symbol::markLive`. -/
def markSymbol (m : Marks Sym Chunk Global) (sym : Sym) : Marks Sym Chunk Global :=
  match L.place sym with
  | .global g => { m with globalLive := Function.update m.globalLive g true,
                          referenced := Function.update m.referenced sym true }
  | .chunk c => { m with chunkLive := Function.update m.chunkLive c true,
                         referenced := Function.update m.referenced sym true }
  | .none => { m with referenced := Function.update m.referenced sym true }

/-- `Enqueue`. The last chunk pushed is the head of `Q`. -/
def enqueue (m : Marks Sym Chunk Global) : Option Sym → Marks Sym Chunk Global
  | none => m
  | some sym =>
    if L.isLive m sym then m
    else
      match L.getChunk sym with
      | some c => { L.markSymbol m sym with Q := c :: (L.markSymbol m sym).Q }
      | none => L.markSymbol m sym

/-! ## Roots -/

/-- A function that each action of its object is compared with: the action's stub, a hook or the
assertion. -/
def actionRoots (obj : InputObject Sym) : List (Option Sym) :=
  obj.functions.flatMap fun func => obj.wasmActions.flatMap fun act =>
    (if func = afterColon act then [L.find func] else []) ++
      (if func = preName ∨ func = postName ∨ func = assertName then [L.find func] else [])

/-- The stub of a notification, behind `code::action:`; without a colon the position wraps to 1. -/
def notifyStub (notif : Text) : Text :=
  match notif.find ':' with
  | some p => afterColon (notif.drop (p + 2))
  | none => afterColon (notif.drop 1)

def notifyRoots (obj : InputObject Sym) : List (Option Sym) :=
  obj.functions.flatMap fun func => obj.wasmNotify.flatMap fun notif =>
    if func = notifyStub notif then [L.find func] else []

/-- The calls of `Enqueue` before the loop, in order. -/
def roots : List (Option Sym) :=
  (if L.entry ≠ [] then [L.find L.entry] else []) ++ [L.callCtors] ++ [L.find dtorsName] ++
    (L.symbols.filter fun sym => !L.isHidden sym).map some ++
    (L.objectFiles.flatMap fun obj => obj.initFunctions.map some) ++
    L.objectFiles.flatMap L.actionRoots ++ L.objectFiles.flatMap L.notifyRoots

/-! ## The loop -/

/-- A relocation that pulls its symbol in. -/
def follows (reloc : WasmRelocation Sym) : Bool :=
  match reloc.type with
  | .typeIndexLeb => false
  | .tableIndexSleb | .tableIndexI32 => L.tableIndex reloc.sym != some 0
  | .other => true

/-- The relocations of a chunk taken from `Q`. -/
def scan (m : Marks Sym Chunk Global) (c : Chunk) : Marks Sym Chunk Global :=
  (L.relocations c).foldl (fun m reloc => if L.follows reloc then L.enqueue m (some reloc.sym) else m) m

/-- `while (!Q.empty())`; `none` is out of fuel. -/
def drain : Nat → Marks Sym Chunk Global → Option (Marks Sym Chunk Global)
  | 0, _ => none
  | fuel + 1, m =>
    match m.Q with
    | [] => some m
    | c :: Q => drain fuel (L.scan { m with Q := Q } c)

/-- Without garbage collection everything is live from the start. -/
def initial : Marks Sym Chunk Global :=
  ⟨fun _ => !L.gcSections, fun _ => !L.gcSections, fun _ => !L.gcSections, []⟩

def markLive (fuel : Nat) : Option (Marks Sym Chunk Global) :=
  if !L.gcSections then some L.initial else L.drain fuel (L.roots.foldl L.enqueue L.initial)

/-- The table as `createDispatchFunction` sees it, with the indices assigned after the marking. -/
def symtab (index : Sym → FunctionSymbol) : Symtab where
  objectFiles := L.objectFiles.map InputObject.toObjFile
  find name := (L.find name).map index
  symbols := L.symbols.length

end LinkInput

end Lld
