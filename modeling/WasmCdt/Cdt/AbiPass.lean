import WasmCdt.Cdt.Abigen
import WasmCdt.Cdt.QualType
import WasmCdt.Cdt.Codegen

/-!
# The ABI pass over the types of a contract

`abigen` (`tools/include/wasm/abigen.hpp`) from the actions and tables that the matchers of
`tools/wasm-cc/wasm-cpp.cpp.in` find: which definitions are recorded, in which order. The pass only
inserts into the sets of `_abi`, so that a recording is the list of what it inserts; `none` where an
exception ends it or a null pointer is followed.
-/

namespace Cdt

open QualType

/-! ## What is recorded -/

/-- A field of a recorded struct, with its C++ type. -/
inductive FieldSource
  /-- The field of a record, or the parameter of a method. -/
  | field (name : Text) (type : QualType)
  /-- The component of a pair, a map's pair or a tuple. -/
  | component (name : Text) (type : QualType)
  /-- The field `transaction_extensions`. -/
  | extensions (type : QualType)

namespace FieldSource

def toField : FieldSource → AbiField
  | field name type => ⟨name, getType type⟩
  | component name type => ⟨name, translateType type⟩
  | extensions _ => ⟨"transaction_extensions".toList, "extension[]".toList⟩

def type : FieldSource → QualType
  | field _ type => type
  | component _ type => type
  | extensions type => type

end FieldSource

/-- A definition of a type, with the C++ types that it is made of. -/
inductive Entity
  | struct (name : Text) (base : Option QualType) (fields : List FieldSource)
  | variant (name : Text) (alternatives : List QualType)
  | typedef (name : Text) (target : QualType)

/-- What is inserted into one of the sets. -/
inductive Recorded
  | entity (e : Entity)
  | action (a : AbiAction)
  | table (t : AbiTable)
  /-- Into `ctables`. -/
  | ctable (t : AbiTable)

namespace Recorded

def asStruct : Recorded → Option AbiStruct
  | entity (.struct name base fields) =>
    some ⟨name, (base.map getType).getD [], fields.map FieldSource.toField⟩
  | _ => none

def asVariant : Recorded → Option AbiVariant
  | entity (.variant name alternatives) => some ⟨name, alternatives.map translateType⟩
  | _ => none

def asTypedef : Recorded → Option AbiTypedef
  | entity (.typedef name target) => some ⟨name, translateType target⟩
  | _ => none

def asAction : Recorded → Option AbiAction
  | action a => some a
  | _ => none

def asTable : Recorded → Option AbiTable
  | table t => some t
  | _ => none

def asCtable : Recorded → Option AbiTable
  | ctable t => some t
  | _ => none

end Recorded

/-- What is in memory after everything is inserted, in that order. -/
def Abigen.ofRecorded (ricardianClauses : List AbiClause) (rs : List Recorded) : Abigen where
  version := "wasm::abi/1.1".toList
  structs := KeyedSet.ofList (rs.filterMap Recorded.asStruct)
  typedefs := KeyedSet.ofList (rs.filterMap Recorded.asTypedef)
  actions := KeyedSet.ofList (rs.filterMap Recorded.asAction)
  tables := KeyedSet.ofList (rs.filterMap Recorded.asTable)
  variants := KeyedSet.ofList (rs.filterMap Recorded.asVariant)
  ricardianClauses := ricardianClauses
  ctables := KeyedSet.ofList (rs.filterMap Recorded.asCtable)

/-! ## Types -/

abbrev Recording := Option (List Entity)

/-- One recording after the other. -/
def Recording.all : List Recording → Recording
  | [] => some []
  | r :: rs => do
    let es ← r
    let rest ← Recording.all rs
    pure (es ++ rest)

/-- What `add_map` inserts. -/
def mapEntity (t key value : QualType) : Entity :=
  let name := getType t
  .struct (name.take (name.length - 2)) none
    [.component "key".toList key, .component "value".toList value]

def addMap (t : QualType) : List QualType → List Recording → Recording
  | key :: value :: _, addKey :: addValue :: _ =>
    Recording.all [addKey, addValue, addKey, addValue, some [mapEntity t key value]]
  | _, _ => none

/-- What `add_pair` inserts. -/
def pairEntity (t first second : QualType) : Entity :=
  .struct (getType t) none [.component "first".toList first, .component "second".toList second]

def addPair (t : QualType) : List QualType → List Recording → Recording
  | first :: second :: _, addFirst :: addSecond :: _ =>
    Recording.all [addFirst, addSecond, addFirst, addSecond, some [pairEntity t first second]]
  | _, _ => none

/-- What `add_tuple` inserts. -/
def tupleEntity (t : QualType) (args : List QualType) : Entity :=
  .struct (getType t) none
    (args.mapIdx fun i arg => .component ("field_".toList ++ Nat.toDigits 10 i) arg)

/-- The type is taken as an elaborated one without a test. -/
def addTuple (t : QualType) (elaborated : Bool) (args : List QualType) (adds : List Recording) :
    Recording :=
  if elaborated then Recording.all (adds ++ [some [tupleEntity t args]]) else none

/-- As in `add_tuple`. -/
def addVariant (t : QualType) (elaborated : Bool) (args : List QualType) (adds : List Recording) :
    Recording :=
  if elaborated then Recording.all (adds ++ [some [.variant (getType t) args]]) else none

/-- The templates whose argument is added in their place. -/
def wrappers : List Text :=
  ["vector", "set", "deque", "list", "optional", "binary_extension", "ignore"].map String.toList

/-- The branches of `add_type` on a specialization `t`, with the recordings of its arguments, and that
of its class under `get_template_name`. -/
def addSpecialization (t : QualType) (elaborated : Bool) (name : Text) (args : List QualType)
    (adds : List Recording) (addClass : Recording) : Recording :=
  if name ∈ wrappers then adds.headD none
  else if name = "map".toList then addMap t args adds
  else if name = "pair".toList then addPair t args adds
  else if name = "tuple".toList then addTuple t elaborated args adds
  else if name = "variant".toList then addVariant t elaborated args adds
  else addClass

/-- The two tests at the head of `add_type`. -/
def guardType (t : QualType) (addTypedef otherwise : Recording) : Recording :=
  if t.isBuiltin then some [] else if t.isAliasing then addTypedef else otherwise

/-- The struct of `transaction_extensions`. -/
def extensionEntity : Entity :=
  .struct "extension".toList none
    [.component "type".toList (.scalar "uint16".toList "uint16".toList),
      .component "data".toList (.scalar "bytes".toList "bytes".toList)]

def transactionExtensions : Text := "transaction_extensions".toList

/-- The fields of a struct in the loop of `add_struct`. -/
def fieldSource : FieldDecl → FieldSource
  | .mk name type => if name = transactionExtensions then .extensions type else .field name type

/-- A base counts when it is the only one. -/
def onlyBase : List QualType → Option QualType
  | [base] => some base
  | _ => none

/-- What `add_struct` inserts for a class; an empty `rname` stands for the class's own name. -/
def structEntity (rname : Text) : CXXRecordDecl → Entity
  | .mk name bases fields =>
    .struct (if rname ≠ [] then rname else name) (onlyBase bases) (fields.map fieldSource)

mutual

/-- `add_type`. -/
def addType : QualType → Recording
  | .scalar printed wire => guardType (.scalar printed wire) (some []) (some [])
  | .record printed decl => guardType (.record printed decl) (some []) (addStruct [] decl)
  | .specialization printed elaborated decl args =>
    if decl.isWasmIgnore then addIgnoredArg args
    else
      guardType (.specialization printed elaborated decl args) (some [])
        (addSpecialization (.specialization printed elaborated decl args) elaborated decl.name args
          (addTypes args) (addStruct (getTemplateName decl args) decl))
  | .typedef printed desugar =>
    guardType (.typedef printed desugar)
      (Recording.all [if desugar.isBuiltin then some [] else addType desugar,
        some [.typedef (getBaseTypeName printed) desugar]])
      (addCanonical desugar)

/-- `add_type` after `get_ignored_type`. -/
def addIgnored : QualType → Recording
  | .scalar printed wire => guardType (.scalar printed wire) (some []) (some [])
  | .record printed decl => guardType (.record printed decl) (some []) (addStruct [] decl)
  | .specialization printed elaborated decl args =>
    guardType (.specialization printed elaborated decl args) (some [])
      (addSpecialization (.specialization printed elaborated decl args) elaborated decl.name args
        (addTypes args) (addStruct (getTemplateName decl args) decl))
  | .typedef printed desugar =>
    guardType (.typedef printed desugar)
      (Recording.all [if desugar.isBuiltin then some [] else addType desugar,
        some [.typedef (getBaseTypeName printed) desugar]])
      (addCanonical desugar)

def addIgnoredArg : List QualType → Recording
  | [] => none
  | arg :: _ => addIgnored arg

def addTypes : List QualType → List Recording
  | [] => []
  | t :: ts => addType t :: addTypes ts

/-- `add_struct` of the class that a type is in the end, if it is one. -/
def addCanonical : QualType → Recording
  | .scalar _ _ => some []
  | .record _ decl => addStruct [] decl
  | .specialization _ _ decl _ => addStruct [] decl
  | .typedef _ desugar => addCanonical desugar

def addStruct (rname : Text) : CXXRecordDecl → Recording
  | .mk name bases fields =>
    Recording.all [addBases bases, addFields fields,
      some [structEntity rname (.mk name bases fields)]]

def addBases : List QualType → Recording
  | [base] => addCanonical base
  | _ => some []

def addFields : List FieldDecl → Recording
  | [] => some []
  | .mk name type :: fields =>
    Recording.all [if name = transactionExtensions then some [extensionEntity] else addType type,
      addFields fields]

end

/-! ## The matchers -/

/-- A parameter; `type` is without reference and qualifiers. -/
structure Param where
  name : Text
  type : QualType
  declared : QualType

structure MethodVisit where
  decl : MethodDecl
  params : List Param

structure RecordVisit where
  decl : CXXRecordDecl
  wasmAction : Option Text
  wasmContract : Option Text
  wasmTable : Option Text
  parent : Option RecordInfo

def RecordVisit.toRecordDecl (r : RecordVisit) : RecordDecl :=
  { name := r.decl.name, wasmAction := r.wasmAction, wasmContract := r.wasmContract,
    parent := r.parent }

inductive Visit
  | method (m : MethodVisit)
  | record (r : RecordVisit)
  /-- A specialization of `index_table` or `table` for rows of class `r`; `name` is what
  `name_to_string` makes of its first argument. -/
  | rows (name : Text) (r : RecordVisit)

/-- The declaration of an action that may be visited. -/
def Visit.decl : Visit → Option Decl
  | method m => some (.method m.decl)
  | record r => some (.record r.toRecordDecl)
  | rows _ _ => none

/-- What the matchers are run on, in visiting order. Every class of the unit is visited. -/
structure TypedUnit where
  visits : List Visit
  rows_visited : ∀ name r, .rows name r ∈ visits → .record r ∈ visits

/-- What `add_struct` inserts for a method. -/
def methodEntity (m : MethodVisit) : Entity :=
  .struct m.decl.name none (m.params.map fun p => .field p.name p.type)

/-- `add_struct` of a method. -/
def addMethodStruct (m : MethodVisit) : Recording :=
  Recording.all (m.params.map (fun p => addType p.type) ++ [some [methodEntity m]])

/-- The loop over the fields after `add_struct`. -/
def addFieldTypes : CXXRecordDecl → Recording
  | .mk _ _ fields => Recording.all (fields.map fun | .mk _ type => addType type)

section
variable (rcs : Text → Text) (cn : Text)

/-- `WasmMethodMatcher`. -/
def visitMethod (m : MethodVisit) : Option (List Recorded) :=
  if m.decl.isActionOf cn then do
    let struct ← addMethodStruct m
    let types ← Recording.all (m.params.map fun p => addType p.declared)
    pure (struct.map .entity ++
      .action ⟨m.decl.actionName, m.decl.name, rcs m.decl.actionName⟩ :: types.map .entity)
  else some []

/-- `add_action` of a record throws on an invalid name. -/
def recordAction (r : RecordVisit) : Option AbiAction :=
  let name := r.toRecordDecl.actionName
  if validateName name then some ⟨name, r.decl.name, rcs name⟩ else none

def visitActionRecord (r : RecordVisit) : Option (List Recorded) :=
  if r.toRecordDecl.isActionOf cn then do
    let struct ← addStruct [] r.decl
    let action ← recordAction rcs r
    let types ← addFieldTypes r.decl
    pure (struct.map .entity ++ .action action :: types.map .entity)
  else some []

/-- `add_table` of a class. -/
def declaredTable (r : RecordVisit) : AbiTable :=
  ⟨getActionName r.wasmTable r.decl.name, r.decl.name, [], [], []⟩

def RecordVisit.isTableOf (r : RecordVisit) : Bool :=
  r.wasmTable.isSome && r.toRecordDecl.isWasmContract cn

def visitTableRecord (r : RecordVisit) : Option (List Recorded) :=
  if r.isTableOf cn then do
    let struct ← addStruct [] r.decl
    let types ← addFieldTypes r.decl
    pure (struct.map .entity ++ .ctable (declaredTable r) :: types.map .entity)
  else some []

/-- The matchers' `run`. -/
def visit : Visit → Option (List Recorded)
  | .method m => visitMethod rcs cn m
  | .record r => do
    let action ← visitActionRecord rcs cn r
    let table ← visitTableRecord cn r
    pure (action ++ table)
  | .rows name r => some (if r.isTableOf cn then [.table ⟨name, r.decl.name, [], [], []⟩] else [])

def visitAll : List Visit → Option (List Recorded)
  | [] => some []
  | v :: vs => do
    let rs ← visit rcs cn v
    let rest ← visitAll vs
    pure (rs ++ rest)

/-- The pass. -/
def TypedUnit.record (u : TypedUnit) : Option (List Recorded) := visitAll rcs cn u.visits

end

end Cdt
