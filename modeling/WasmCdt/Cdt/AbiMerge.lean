import WasmCdt.Base.Text

/-!
# Merging ABI documents

`ABIMerger` (`tools/include/wasm/abimerge.hpp`), on documents with the sections and keys that the
ABI generator writes. The comparison of version numbers, `std::stod(x)*10 < std::stod(y)*10`, is a
parameter.
-/

namespace Cdt

/-! ## Documents -/

structure AbiField where
  name : Text
  type : Text
  deriving DecidableEq

structure AbiStruct where
  name : Text
  base : Text
  fields : List AbiField
  deriving DecidableEq

structure AbiTypedef where
  newTypeName : Text
  type : Text
  deriving DecidableEq

structure AbiAction where
  name : Text
  type : Text
  ricardianContract : Text
  deriving DecidableEq

structure AbiTable where
  name : Text
  type : Text
  indexType : Text
  keyNames : List Text
  keyTypes : List Text
  deriving DecidableEq

structure AbiVariant where
  name : Text
  types : List Text
  deriving DecidableEq

structure AbiClause where
  id : Text
  body : Text
  deriving DecidableEq

structure Abi where
  comment : Text
  version : Text
  types : List AbiTypedef
  structs : List AbiStruct
  actions : List AbiAction
  tables : List AbiTable
  ricardianClauses : List AbiClause
  variants : List AbiVariant
  deriving DecidableEq

/-- The exceptions `merge` ends in. -/
inductive MergeError
  /-- From `substr` or `stod`, on a version without a number. -/
  | version
  | runtimeError (msg : Text)
  deriving DecidableEq

abbrev Merge := Except MergeError

/-! ## Tests of equality -/

def structIsSame (a b : AbiStruct) : Bool :=
  let sameFields := a.fields.length == b.fields.length
  if a.fields.all fun f => b.fields.any fun g => f.name == g.name && f.type == g.type then
    a.name == b.name && a.base == b.base && sameFields
  else false

def typeIsSame (a b : AbiTypedef) : Bool := a.newTypeName == b.newTypeName && a.type == b.type

def actionIsSame (a b : AbiAction) : Bool :=
  a.name == b.name && a.type == b.type && a.ricardianContract == b.ricardianContract

def variantIsSame (a b : AbiVariant) : Bool :=
  if a.types.all fun tya => b.types.any fun tyb => tyb == tya then a.name == b.name else false

def tableIsSame (a b : AbiTable) : Bool :=
  a.name == b.name && a.type == b.type && a.indexType == b.indexType && a.keyNames == b.keyNames &&
    a.keyTypes == b.keyTypes

def clauseIsSame (a b : AbiClause) : Bool := a.id == b.id && a.body == b.body

/-! ## `add_object` -/

section
variable {α : Type} (id : α → Text) (isSame : α → α → Bool)

/-- The message of a conflict. -/
def alreadyDefined (name : Text) : Text :=
  "Error, ABI structs malformed : ".toList ++ name ++ " already defined".toList

/-- The inner loop, over the objects of the first document. -/
def shouldSkip (objB : α) : List α → Bool → Merge Bool
  | [], skip => .ok skip
  | objA :: as, skip =>
    if id objA = id objB then
      if isSame objA objB then shouldSkip objB as true
      else .error (.runtimeError (alreadyDefined (id objA)))
    else shouldSkip objB as skip

/-- The outer loop: what is added of the second document. -/
def addLoop (as : List α) : List α → Merge (List α)
  | [] => .ok []
  | objB :: bs => do
    let skip ← shouldSkip id isSame objB as false
    let rest ← addLoop as bs
    pure (if skip then rest else objB :: rest)

def addObject (as bs : List α) : Merge (List α) := do
  let added ← addLoop id isSame as bs
  pure (as ++ added)

end

/-! ## `merge` -/

section
variable (stodLess : Text → Text → Option Bool)

/-- `ver.substr(ver.size()-3)`. -/
def versionDigits (ver : Text) : Merge Text :=
  if 3 ≤ ver.length then .ok (ver.drop (ver.length - 3)) else .error .version

def mergeVersion (verA verB : Text) : Merge Text := do
  let x ← versionDigits verA
  let y ← versionDigits verB
  match stodLess x y with
  | some less => pure (if less then verB else verA)
  | none => .error .version

def merge (abi other : Abi) : Merge Abi := do
  let version ← mergeVersion stodLess abi.version other.version
  let types ← addObject AbiTypedef.newTypeName typeIsSame abi.types other.types
  let structs ← addObject AbiStruct.name structIsSame abi.structs other.structs
  let actions ← addObject AbiAction.name actionIsSame abi.actions other.actions
  let tables ← addObject AbiTable.name tableIsSame abi.tables other.tables
  let clauses ← addObject AbiClause.id clauseIsSame abi.ricardianClauses other.ricardianClauses
  let variants ← addObject AbiVariant.name variantIsSame abi.variants other.variants
  pure ⟨abi.comment, version, types, structs, actions, tables, clauses, variants⟩

end

end Cdt
