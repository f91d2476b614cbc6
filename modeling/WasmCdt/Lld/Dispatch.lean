import WasmCdt.Lib.WasmChain
import WasmCdt.Cdt.Utils

/-!
# The linker's `apply`

`Writer::createDispatchFunction` (`wasm_llvm/tools/lld/wasm/Writer.cpp`): the body of the
contract's entry function `apply(receiver, code, action)`, emitted as bytes. The output streams
are the byte lists the functions return; `LinkError` stands for the ways the emission ends without
a body.
-/

namespace Lld

open WasmCode Leb128 Cdt

/-! ## The linker's input -/

/-- A function symbol with its index in the output module. -/
structure FunctionSymbol where
  functionIndex : Nat
  index_lt : functionIndex < 2 ^ 32

/-- An object file: the strings of its `.wasm_actions` and `.wasm_notify` sections. -/
structure ObjFile where
  wasmActions : List Text
  wasmNotify : List Text

structure Symtab where
  objectFiles : List ObjFile
  find : Text → Option FunctionSymbol
  /-- The size of `getSymbols()`. -/
  symbols : Nat

inductive LinkError
  /-- A symbol that is not there is dereferenced. -/
  | nullSymbol (name : Text)
  /-- `std::string::substr` throws. -/
  | outOfRange
  | fatal (msg : String)

abbrev Link := Except LinkError

/-! ## Constants and writers -/

def assertName : Text := "wasm_assert_code".toList
def ctorsName : Text := "__wasm_call_ctors".toList
def preName : Text := "pre_dispatch".toList
def postName : Text := "post_dispatch".toList
def dtorsName : Text := "__cxa_finalize".toList

def OPCODE_CALL : UInt8 := 0x10
def OPCODE_IF : UInt8 := 0x4
def OPCODE_ELSE : UInt8 := 0x5
def OPCODE_END : UInt8 := 0xb
def OPCODE_GET_LOCAL : UInt8 := 0x20
def OPCODE_I64_EQ : UInt8 := 0x51
def OPCODE_I32_CONST : UInt8 := 0x41
def OPCODE_I64_CONST : UInt8 := 0x42

def WASM_COMPILER_ERROR_BASE : BitVec 64 := 8000000000000000000
def WASM_ERROR_NO_ACTION : BitVec 64 := WASM_COMPILER_ERROR_BASE
def WASM_ERROR_PRE_DISPATCH_FAIL : BitVec 64 := WASM_COMPILER_ERROR_BASE + 1

def writeU8 (byte : UInt8) : List UInt8 := [byte]

def writeUleb128 (number : Nat) : List UInt8 := encodeU number

def encodeSLEB128 (value : Int) : List UInt8 := encodeS value

/-! ## `create_if` -/

/-- `str.substr(0, str.find(":"))`. -/
def beforeColon (str : Text) : Text :=
  match str.find ':' with
  | some p => str.substr 0 p
  | none => str

/-- `str.substr(str.find(":")+1)`; without a colon the position wraps to the whole string. -/
def afterColon (str : Text) : Text :=
  match str.find ':' with
  | some p => str.drop (p + 1)
  | none => str

def lookup (S : Symtab) (name : Text) : Link FunctionSymbol :=
  match S.find name with
  | some sym => .ok sym
  | none => .error (.nullSymbol name)

def createIf (S : Symtab) (str : Text) (needElse : Bool) : Link (List UInt8) := do
  let nm := stringToName (beforeColon str)
  let funcSym ← lookup S (afterColon str)
  pure <| (if needElse then writeU8 OPCODE_ELSE else []) ++
    writeU8 OPCODE_I64_CONST ++ encodeSLEB128 nm.toInt ++
    writeU8 OPCODE_GET_LOCAL ++ writeUleb128 2 ++
    writeU8 OPCODE_I64_EQ ++
    writeU8 OPCODE_IF ++ writeU8 0x40 ++
    writeU8 OPCODE_GET_LOCAL ++ writeUleb128 0 ++
    writeU8 OPCODE_GET_LOCAL ++ writeUleb128 1 ++
    writeU8 OPCODE_CALL ++ writeUleb128 funcSym.functionIndex

/-- `create_if` over a list, with the flag the calls share. -/
def createIfs (S : Symtab) : List Text → Bool → Link (List UInt8)
  | [], _ => pure []
  | str :: strs, needElse => do
    let os ← createIf S str needElse
    let rest ← createIfs S strs true
    pure (os ++ rest)

def writeEnds (n : Nat) : List UInt8 := (List.replicate n (writeU8 OPCODE_END)).flatten

/-- The strings not met before (`std::set::insert(..).second`), in order. -/
def notDispatched : List Text → List Text → List Text
  | [], _ => []
  | str :: strs, hasDispatched =>
    if str ∈ hasDispatched then notDispatched strs hasDispatched
    else str :: notDispatched strs (str :: hasDispatched)

/-! ## Actions -/

/-- The index of `wasm_assert_code`, where it can be called. -/
def assertIdx (S : Symtab) : Option Nat :=
  match S.find assertName with
  | some sym => if sym.functionIndex < S.symbols then some sym.functionIndex else none
  | none => none

/-- A failed `wasm_assert_code(false, code)`. -/
def writeAssert (idx : Nat) (code : BitVec 64) : List UInt8 :=
  writeU8 OPCODE_I32_CONST ++ writeUleb128 0 ++
    writeU8 OPCODE_I64_CONST ++ encodeSLEB128 code.toInt ++
    writeU8 OPCODE_CALL ++ writeUleb128 idx

def actions (S : Symtab) : List Text :=
  notDispatched (S.objectFiles.flatMap ObjFile.wasmActions) []

/-- The assertion that no action was found. -/
def writeNoAction (S : Symtab) : Link (List UInt8) :=
  match assertIdx S with
  | some idx => pure (writeAssert idx WASM_ERROR_NO_ACTION)
  | none => .error (.fatal
      "fatal failure: contract with no actions and trying to create dispatcher")

def createActionDispatch (S : Symtab) : Link (List UInt8) := do
  let acts := actions S
  let ifs ← createIfs S acts false
  let tail ← writeNoAction S
  pure <| ifs ++ (if acts.length > 0 then writeU8 OPCODE_ELSE else []) ++ tail ++
    writeEnds acts.length

/-! ## Notifications -/

/-- `notify_handlers`: the handlers of each code, by the code's text in the map's order. -/
abbrev Handlers := List (Text × List Text)

/-- `notify_handlers[code_name].push_back(rest)`. -/
def Handlers.push (codeName rest : Text) : Handlers → Handlers
  | [] => [(codeName, [rest])]
  | (k, v) :: m =>
    if k = codeName then (k, v ++ [rest]) :: m
    else if codeName < k then (codeName, [rest]) :: (k, v) :: m
    else (k, v) :: Handlers.push codeName rest m

/-- `snotif.substr(0, idx)` and `snotif.substr(idx+2)`. -/
def splitNotify (snotif : Text) : Link (Text × Text) :=
  match snotif.find ':' with
  | some idx =>
    if idx + 2 ≤ snotif.length then pure (snotif.substr 0 idx, snotif.drop (idx + 2))
    else .error .outOfRange
  -- without a colon `idx` is `npos` and `idx+2` wraps to 1
  | none => if 1 ≤ snotif.length then pure (snotif, snotif.drop 1) else .error .outOfRange

def groupHandlers : List Text → Handlers → Link Handlers
  | [], m => pure m
  | notif :: notifs, m => do
    let (codeName, rest) ← splitNotify notif
    groupHandlers notifs (m.push codeName rest)

def notifs (S : Symtab) : List Text :=
  notDispatched (S.objectFiles.flatMap ObjFile.wasmNotify) []

def star : Text := ['*']

/-- The codes' groups, an `else` before all but the first. -/
def createGroups (S : Symtab) : Handlers → Bool → Link (List UInt8)
  | [], _ => pure []
  | (code, strs) :: m, needElse => do
    let ifs ← createIfs S strs false
    let rest ← createGroups S m true
    pure <| (if needElse then writeU8 OPCODE_ELSE else []) ++
      writeU8 OPCODE_I64_CONST ++ encodeSLEB128 (stringToRegid code).toInt ++
      writeU8 OPCODE_GET_LOCAL ++ writeUleb128 1 ++
      writeU8 OPCODE_I64_EQ ++
      writeU8 OPCODE_IF ++ writeU8 0x40 ++
      ifs ++ writeEnds strs.length ++ rest

def createNotifyDispatch (S : Symtab) : Link (List UInt8) := do
  let handlers ← groupHandlers (notifs S) []
  -- the loop's `continue` on the wildcard
  let groups := handlers.filter (·.1 ≠ star)
  let wild := (handlers.lookup star).getD []
  let gs ← createGroups S groups false
  let ws ← createIfs S wild false
  pure <| gs ++ (if wild ≠ [] ∧ groups.length > 0 then writeU8 OPCODE_ELSE else []) ++ ws ++
    writeEnds wild.length ++ writeEnds groups.length

/-! ## The body -/

/-- `get_local` of `receiver`, `code` and, for the hooks, `action`. -/
def writeLocals (n : Nat) : List UInt8 :=
  (List.range n).flatMap fun i => writeU8 OPCODE_GET_LOCAL ++ writeUleb128 i

def writeCtors (S : Symtab) : List UInt8 :=
  match S.find ctorsName with
  | some sym =>
    if sym.functionIndex ≠ 0 then writeU8 OPCODE_CALL ++ writeUleb128 sym.functionIndex else []
  | none => []

def writeDtors (S : Symtab) : List UInt8 :=
  match S.find dtorsName with
  | some sym =>
    if sym.functionIndex ≠ 0 ∧ sym.functionIndex < S.symbols then
      writeU8 OPCODE_I32_CONST ++ writeUleb128 0 ++
        writeU8 OPCODE_CALL ++ writeUleb128 sym.functionIndex
    else []
  | none => []

def writePre (S : Symtab) : List UInt8 :=
  match S.find preName with
  | some sym =>
    writeLocals 3 ++ writeU8 OPCODE_CALL ++ writeUleb128 sym.functionIndex ++
      writeU8 OPCODE_IF ++ writeU8 0x40
  | none => []

def writePost (S : Symtab) : List UInt8 :=
  match S.find postName with
  | some sym => writeLocals 3 ++ writeU8 OPCODE_CALL ++ writeUleb128 sym.functionIndex
  | none => []

/-- The `else` of the `if` that `writePre` opened. Its `END` is commented out in the source
(`//close pre_dispatch if`). -/
def writePreElse (S : Symtab) : Link (List UInt8) :=
  match S.find preName with
  | some _ =>
    match assertIdx S with
    | some idx => pure (writeU8 OPCODE_ELSE ++ writeAssert idx WASM_ERROR_PRE_DISPATCH_FAIL)
    | none => .error (.fatal ("fatal failure: contract with pre_dispatch, " ++
        "but no wasm_assert_code and trying to create dispatcher"))
  | none => pure []

def bodyContent (S : Symtab) : Link (List UInt8) := do
  let act ← createActionDispatch S
  let notif ← createNotifyDispatch S
  let preElse ← writePreElse S
  pure <| writeUleb128 0 ++ writeCtors S ++ writePre S ++
    writeLocals 2 ++ writeU8 OPCODE_I64_EQ ++ writeU8 OPCODE_IF ++ writeU8 0x40 ++
    act ++ writeU8 OPCODE_ELSE ++ notif ++ writeU8 OPCODE_END ++
    writePost S ++ writeDtors S ++ preElse ++ writeU8 OPCODE_END

/-- The size is written as a `uint32_t`. -/
def createDispatchFunction (S : Symtab) : Link (List UInt8) := do
  let body ← bodyContent S
  pure (writeUleb128 (body.length % 2 ^ 32) ++ body)

end Lld
