import WasmCdt.Cdt.AbiMerge
import WasmCdt.Cdt.Utils

/-!
# The two passes over a contract's declarations

What `wasm-cpp` takes from the syntax tree for actions: the ABI pass (`WasmMethodMatcher`,
`WasmRecordMatcher` and `abigen::add_action`) and the code-generation pass
(`VisitCXXMethodDecl` and `create_dispatch`), each over the declarations of one translation unit
in visiting order. The pass's membership tests are in `tools/include/wasm/gen.hpp`.
-/

namespace Cdt

/-! ## Declarations -/

/-- A `CXXRecordDecl`: its name and the names in its attributes. -/
structure RecordInfo where
  name : Text
  wasmAction : Option Text
  wasmContract : Option Text
  deriving DecidableEq

/-- A record with the record it is declared in. -/
structure RecordDecl extends RecordInfo where
  parent : Option RecordInfo
  deriving DecidableEq

/-- A `CXXMethodDecl`; `canonical` identifies the method among its redeclarations. -/
structure MethodDecl where
  canonical : Nat
  name : Text
  parent : RecordInfo
  wasmAction : Option Text
  wasmContract : Option Text
  deriving DecidableEq

inductive Decl
  | method (m : MethodDecl)
  | record (r : RecordDecl)
  deriving DecidableEq

def methodsOf (decls : List Decl) : List MethodDecl :=
  decls.filterMap fun d => match d with
    | .method m => some m
    | .record _ => none

/-- The declarations in visiting order. A method declared again is visited again. -/
structure TranslationUnit where
  decls : List Decl
  canonical_inj : ∀ m ∈ methodsOf decls, ∀ m' ∈ methodsOf decls,
    m.canonical = m'.canonical → m = m'

def TranslationUnit.methods (tu : TranslationUnit) : List MethodDecl := methodsOf tu.decls

/-! ## Names and membership -/

/-- `get_action_name`: the attribute's name, else the declaration's. -/
def getActionName (attr : Option Text) (name : Text) : Text :=
  let tmp := attr.getD []
  if tmp ≠ [] then tmp else name

def MethodDecl.actionName (m : MethodDecl) : Text := getActionName m.wasmAction m.name

def RecordInfo.actionName (r : RecordInfo) : Text := getActionName r.wasmAction r.name

/-- `is_wasm_contract` of a method. -/
def MethodDecl.isWasmContract (m : MethodDecl) (cn : Text) : Bool :=
  let name := match m.wasmContract with
    | some nm => nm
    | none => m.parent.wasmContract.getD []
  let name := if name = [] then m.parent.name else name
  name = cn

/-- `is_wasm_contract` of a record. -/
def RecordDecl.isWasmContract (r : RecordDecl) (cn : Text) : Bool :=
  let name := match r.wasmContract with
    | some nm => if nm = [] then r.name else nm
    | none =>
      match r.parent with
      | some pd =>
        match pd.wasmContract with
        | some nm => if nm = [] then pd.name else nm
        | none => []
      | none => []
  cn = name

/-- An annotated action method of the contract. -/
def MethodDecl.isActionOf (m : MethodDecl) (cn : Text) : Bool :=
  m.wasmAction.isSome && m.isWasmContract cn

/-- An annotated action record of the contract. -/
def RecordDecl.isActionOf (r : RecordDecl) (cn : Text) : Bool :=
  r.wasmAction.isSome && r.isWasmContract cn

/-! ## The ABI pass -/

inductive ToolError
  /-- `abigen_exception`. -/
  | abigen
  /-- `codegen error`: the compiler reported an error. -/
  | codegen
  deriving DecidableEq

/-- `std::set<abi_action>::insert`, the set ordered by name. -/
def insertAction (ret : AbiAction) : List AbiAction → List AbiAction
  | [] => [ret]
  | a :: as =>
    if ret.name < a.name then ret :: a :: as
    else if a.name < ret.name then a :: insertAction ret as
    else a :: as

/-- `add_action` of a method; a name that does not validate is only printed. -/
def addActionMethod (rcs : Text → Text) (m : MethodDecl) (actions : List AbiAction) :
    List AbiAction :=
  insertAction ⟨m.actionName, m.name, rcs m.actionName⟩ actions

/-- `add_action` of a record. -/
def addActionRecord (rcs : Text → Text) (r : RecordDecl) (actions : List AbiAction) :
    Except ToolError (List AbiAction) :=
  if validateName r.actionName then
    .ok (insertAction ⟨r.actionName, r.name, rcs r.actionName⟩ actions)
  else .error .abigen

/-- The matchers' `run`, one declaration after the other. -/
def abiPass (rcs : Text → Text) (cn : Text) :
    List Decl → List AbiAction → Except ToolError (List AbiAction)
  | [], actions => .ok actions
  | .method m :: decls, actions =>
    if m.isActionOf cn then abiPass rcs cn decls (addActionMethod rcs m actions)
    else abiPass rcs cn decls actions
  | .record r :: decls, actions =>
    if r.isActionOf cn then
      match addActionRecord rcs r actions with
      | .ok actions => abiPass rcs cn decls actions
      | .error e => .error e
    else abiPass rcs cn decls actions

/-! ## The code-generation pass -/

/-- A stub: the method it calls, and the action and symbol in its attribute. -/
structure Stub where
  method : MethodDecl
  action : Text
  symbol : Text
  deriving DecidableEq

/-- `getNameAsString()+"_"+getParent()->getNameAsString()`, after the prefix. -/
def MethodDecl.stubSymbol (m : MethodDecl) : Text :=
  "__wasm_action_".toList ++ m.name ++ '_' :: m.parent.name

/-- `full_action_name`. -/
def MethodDecl.fullActionName (m : MethodDecl) : Text := m.name ++ m.parent.name

def createActionDispatch (cn : Text) (m : MethodDecl) : List Stub :=
  if m.isWasmContract cn then [⟨m, m.actionName, m.stubSymbol⟩] else []

/-- `VisitCXXMethodDecl`, one method after the other; `actions` are the full names met. -/
def visitMethods (cn : Text) : List MethodDecl → List Text → List Stub
  | [], _ => []
  | m :: ms, actions =>
    if m.wasmAction.isSome then
      (if m.fullActionName ∈ actions then [] else createActionDispatch cn m) ++
        visitMethods cn ms (m.fullActionName :: actions)
    else visitMethods cn ms actions

/-- The pass; an invalid name is reported as an error, whatever contract it belongs to. -/
def codegenPass (cn : Text) (methods : List MethodDecl) : Except ToolError (List Stub) :=
  if methods.all fun m => !m.wasmAction.isSome || validateName m.actionName then
    .ok (visitMethods cn methods [])
  else .error .codegen

/-- What the two passes publish. -/
structure Output where
  abiActions : List AbiAction
  stubs : List Stub
  deriving DecidableEq

def generate (rcs : Text → Text) (cn : Text) (tu : TranslationUnit) : Except ToolError Output :=
  match abiPass rcs cn tu.decls [] with
  | .ok abiActions =>
    match codegenPass cn tu.methods with
    | .ok stubs => .ok ⟨abiActions, stubs⟩
    | .error e => .error e
  | .error e => .error e

end Cdt
