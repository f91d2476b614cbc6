import WasmCdt.Cdt.AbiPass

/-!
# The ABI pass over a graph of classes

`add_type`, `add_struct` and what they call (`tools/include/wasm/abigen.hpp`), on types whose classes
are looked up in the unit's declarations: a class may have a type in itself, as
`struct node { std::vector<node> children; }`. The pass has no record of the classes that it is in, so
that a call is given how many calls may be inside one another.
-/

namespace Cdt.TypeGraph

/-! ## Types over declarations -/

/-- A `clang::QualType` over the classes `D`; the constructors are as in `QualType`. -/
inductive GraphType (D : Type)
  | scalar (printed wire : Text)
  | record (printed : Text) (decl : D)
  | specialization (printed : Text) (elaborated : Bool) (decl : D) (args : List (GraphType D))
  | typedef (printed : Text) (desugar : GraphType D)

/-- A `clang::CXXRecordDecl`. -/
structure ClassDecl (D : Type) where
  name : Text
  bases : List (GraphType D)
  fields : List (Text × GraphType D)

section
variable {D : Type} (decls : D → ClassDecl D)

mutual

/-- What names and tests read of a type: its classes are without bases and fields. -/
def shape : GraphType D → QualType
  | .scalar printed wire => .scalar printed wire
  | .record printed d => .record printed (.mk (decls d).name [] [])
  | .specialization printed elaborated d args =>
    .specialization printed elaborated (.mk (decls d).name [] []) (shapes args)
  | .typedef printed desugar => .typedef printed (shape desugar)

def shapes : List (GraphType D) → List QualType
  | [] => []
  | t :: ts => shape t :: shapes ts

end

def classShape (d : D) : CXXRecordDecl :=
  .mk (decls d).name (shapes decls (decls d).bases)
    ((decls d).fields.map fun f => .mk f.1 (shape decls f.2))

/-- `get_ignored_type`; `none` where there is no argument. -/
def getIgnoredType : GraphType D → Option (GraphType D)
  | .specialization printed elaborated d args =>
    if (decls d).name = "ignore".toList then args.head?
    else some (.specialization printed elaborated d args)
  | t => some t

/-- `getAsCXXRecordDecl`. -/
def getAsCXXRecordDecl : GraphType D → Option D
  | .scalar _ _ => none
  | .record _ d => some d
  | .specialization _ _ d _ => some d
  | .typedef _ desugar => getAsCXXRecordDecl desugar

/-! ## Runs -/

/-- What is inserted; `cls` is the class whose struct it is. -/
structure Insertion (D : Type) where
  cls : Option D
  entity : Entity

/-- Why a run has no result. -/
inductive Stop
  /-- More calls are inside one another than are given. -/
  | tooDeep
  /-- An exception ends it, or a null pointer is followed. -/
  | thrown
  deriving DecidableEq

abbrev Run (D : Type) := Except Stop (List (Insertion D))

/-- One run after the other. -/
def Run.all : List (Run D) → Run D
  | [] => .ok []
  | r :: rs => r.bind fun inserted => (Run.all rs).map fun rest => inserted ++ rest

def insert (e : Entity) : Run D := .ok [⟨none, e⟩]

/-! ## Types and classes

`add` is `add_type` and `addClass` is `add_struct` of a class. -/

variable (add : GraphType D → Run D) (addClass : Text → D → Run D)

/-- `add_typedef` of an alias. -/
def addTypedef (printed : Text) (desugar : GraphType D) : Run D :=
  Run.all [if (shape decls desugar).isBuiltin then .ok [] else add desugar,
    insert (.typedef (getBaseTypeName printed) (shape decls desugar))]

def addMap (t : GraphType D) : List (GraphType D) → Run D
  | key :: value :: _ =>
    Run.all [add key, add value, add key, add value,
      insert (mapEntity (shape decls t) (shape decls key) (shape decls value))]
  | _ => .error .thrown

def addPair (t : GraphType D) : List (GraphType D) → Run D
  | first :: second :: _ =>
    Run.all [add first, add second, add first, add second,
      insert (pairEntity (shape decls t) (shape decls first) (shape decls second))]
  | _ => .error .thrown

def addTuple (t : GraphType D) (elaborated : Bool) (args : List (GraphType D)) : Run D :=
  if elaborated then
    Run.all (args.map add ++ [insert (tupleEntity (shape decls t) (shapes decls args))])
  else .error .thrown

def addVariant (t : GraphType D) (elaborated : Bool) (args : List (GraphType D)) : Run D :=
  if elaborated then
    Run.all (args.map add ++
      [insert (.variant (QualType.getType (shape decls t)) (shapes decls args))])
  else .error .thrown

/-- The branches of `add_type` on a specialization `t`. -/
def addSpecialization (t : GraphType D) (elaborated : Bool) (d : D) (args : List (GraphType D)) :
    Run D :=
  let name := (decls d).name
  if name ∈ wrappers then
    match args with
    | arg :: _ => add arg
    | [] => .error .thrown
  else if name = "map".toList then addMap decls add t args
  else if name = "pair".toList then addPair decls add t args
  else if name = "tuple".toList then addTuple decls add t elaborated args
  else if name = "variant".toList then addVariant decls add t elaborated args
  else addClass (QualType.getTemplateName (.mk name [] []) (shapes decls args)) d

/-- `add_struct` of the class that a type is in the end, if it is one. -/
def addCanonical (t : GraphType D) : Run D :=
  match getAsCXXRecordDecl t with
  | some d => addClass [] d
  | none => .ok []

/-- `add_type` after `get_ignored_type`. -/
def ignoredBody (type : GraphType D) : Run D :=
  if (shape decls type).isBuiltin then .ok []
  else if (shape decls type).isAliasing then
    match type with
    | .typedef printed desugar => addTypedef decls add printed desugar
    | _ => .ok []
  else
    match type with
    | .specialization _ elaborated d args =>
      addSpecialization decls add addClass type elaborated d args
    | .scalar _ _ | .record _ _ | .typedef _ _ => addCanonical addClass type

/-- `add_type`. -/
def typeBody (t : GraphType D) : Run D :=
  match getIgnoredType decls t with
  | some type => ignoredBody decls add addClass type
  | none => .error .thrown

def addBases : List (GraphType D) → List (Run D)
  | [base] => [addCanonical addClass base]
  | _ => []

def addField (f : Text × GraphType D) : Run D :=
  if f.1 = transactionExtensions then insert extensionEntity else add f.2

/-- `add_struct` of a class. -/
def structBody (rname : Text) (d : D) : Run D :=
  Run.all (addBases addClass (decls d).bases ++ (decls d).fields.map (addField add) ++
    [.ok [⟨some d, structEntity rname (classShape decls d)⟩]])

mutual

/-- `add_type` with at most so many calls inside one another. -/
def addType : Nat → GraphType D → Run D
  | 0, _ => .error .tooDeep
  | n + 1, t => typeBody decls (addType n) (addStruct n) t

def addStruct : Nat → Text → D → Run D
  | 0, _, _ => .error .tooDeep
  | n + 1, rname, d => structBody decls (addType n) (addStruct n) rname d

end

end

/-! ## Actions and tables -/

/-- A parameter of an action; `type` is without reference and qualifiers. -/
structure Param (D : Type) where
  name : Text
  type : GraphType D
  declared : GraphType D

/-- What the matchers find: an action, or the class of an action or of a table. -/
inductive Root (D : Type)
  | method (name : Text) (params : List (Param D))
  | record (d : D)

section
variable {D : Type} (decls : D → ClassDecl D)

/-- What `add_struct` inserts for a method. -/
def methodEntity (name : Text) (params : List (Param D)) : Entity :=
  .struct name none (params.map fun p => .field p.name (shape decls p.type))

/-- The types that a matcher adds; the entries for the actions and tables are left out. -/
def addRoot (n : Nat) : Root D → Run D
  | .method name params =>
    Run.all (params.map (fun p => addType decls n p.type) ++
      insert (methodEntity decls name params) :: params.map (fun p => addType decls n p.declared))
  | .record d =>
    Run.all (addStruct decls n [] d :: (decls d).fields.map fun f => addType decls n f.2)

def collect (n : Nat) (roots : List (Root D)) : Run D := Run.all (roots.map (addRoot decls n))

end

end Cdt.TypeGraph
