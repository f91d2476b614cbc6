import WasmCdt.Cdt.AbiMerge
import WasmCdt.Cdt.TypeNames
import WasmCdt.Lib.KeyedSet
import Mathlib.Data.List.Lex

/-!
# Writing an ABI

`abigen::to_json` (`tools/include/wasm/abigen.hpp`): what the generator writes of the definitions it
has in memory. Structs and aliases that nothing is seen to use are left out.
-/

namespace Cdt

/-- The definitions in memory: `_abi`, and in `ctables` the tables declared by an attribute. -/
structure Abigen where
  version : Text
  structs : KeyedSet AbiStruct.name
  typedefs : KeyedSet AbiTypedef.newTypeName
  actions : KeyedSet AbiAction.name
  tables : KeyedSet AbiTable.name
  variants : KeyedSet AbiVariant.name
  ricardianClauses : List AbiClause
  ctables : KeyedSet AbiTable.name

namespace Abigen

/-- The inner loop of the table merge: whether a table of that type was met, and the tables seen
before it. -/
def metTable (type : Text) : List AbiTable → KeyedSet AbiTable.name → Bool × KeyedSet AbiTable.name
  | [], seen => (false, seen)
  | u :: us, seen => if type = u.type then (true, seen) else metTable type us (seen.insert u)

/-- The outer loop's body. -/
def mergeTable (tables : List AbiTable) (seen : KeyedSet AbiTable.name) (t : AbiTable) :
    KeyedSet AbiTable.name :=
  match metTable t.type tables seen with
  | (true, seen) => seen
  | (false, seen) => seen.insert t

/-- `set_of_tables`. -/
def setOfTables (g : Abigen) : KeyedSet AbiTable.name :=
  let declared := g.ctables.1.foldl (mergeTable g.tables.1) KeyedSet.empty
  g.tables.1.foldl (fun seen t => seen.insert t) declared

/-- The lambda `validate_struct`. -/
def validateStruct (g : Abigen) (as : AbiStruct) : Bool :=
  if isBuiltinType (translateText as.name) then false
  else
    (g.structs.1.any fun s =>
      (s.fields.any fun f => as.name == translateText (removeSuffix f.type)) ||
      (g.variants.1.any fun v => v.types.any fun vt => as.name == translateText (removeSuffix vt)) ||
      s.base == as.name) ||
    (g.actions.1.any fun a => as.name == translateText a.type) ||
    (g.setOfTables.1.any fun t => as.name == translateText t.type) ||
    (g.typedefs.1.any fun td => as.name == translateText (removeSuffix td.type))

/-- The lambda `validate_types`. -/
def validateTypes (g : Abigen) (td : AbiTypedef) : Bool :=
  (g.structs.1.any fun as =>
    g.validateStruct as && as.fields.any fun f => removeSuffix f.type == td.newTypeName) ||
  (g.tables.1.any fun t => t.type == td.newTypeName) ||
  (g.actions.1.any fun a => a.type == td.newTypeName) ||
  (g.typedefs.1.any fun td' => removeSuffix td'.type == td.newTypeName)

/-- `table_to_json`. -/
def tableToJson (t : AbiTable) : AbiTable := ⟨t.name, t.type, "i64".toList, [], []⟩

/-- `generate_json_comment`. -/
def generateJsonComment : Text :=
  "This file was generated with wasm-abigen.".toList ++ " DO NOT EDIT ".toList

/-- `to_json`. -/
def toJson (g : Abigen) : Abi where
  comment := generateJsonComment
  version := g.version
  types := g.typedefs.1.filter g.validateTypes
  structs := g.structs.1.filter g.validateStruct
  actions := g.actions.1
  tables := g.setOfTables.1.map tableToJson
  ricardianClauses := g.ricardianClauses
  variants := g.variants.1

/-- The definitions in memory as a document, with nothing left out. -/
def abi (g : Abigen) : Abi where
  comment := generateJsonComment
  version := g.version
  types := g.typedefs.1
  structs := g.structs.1
  actions := g.actions.1
  tables := g.tables.1 ++ g.ctables.1
  ricardianClauses := g.ricardianClauses
  variants := g.variants.1

end Abigen

/-! ## Closed documents -/

namespace Abi

/-- The names of types that a struct refers to. An empty base is none. -/
def structRefs (s : AbiStruct) : List Text :=
  (if s.base = [] then [] else [s.base]) ++ s.fields.map AbiField.type

/-- The names of types that a document refers to. -/
def refs (a : Abi) : List Text :=
  a.structs.flatMap structRefs ++ a.types.map AbiTypedef.type ++
    a.variants.flatMap AbiVariant.types ++ a.actions.map AbiAction.type ++
    a.tables.map AbiTable.type

/-- The names of the types that a document defines. -/
def names (a : Abi) : List Text :=
  a.structs.map AbiStruct.name ++ a.types.map AbiTypedef.newTypeName ++
    a.variants.map AbiVariant.name

/-- A builtin type or a defined one, up to decorations. -/
def Resolves (a : Abi) (r : Text) : Prop :=
  isBuiltinType (removeSuffix r) = true ∨ removeSuffix r ∈ a.names

instance (a : Abi) (r : Text) : Decidable (a.Resolves r) := inferInstanceAs (Decidable (_ ∨ _))

/-- Every name of a type resolves. -/
def Closed (a : Abi) : Prop := ∀ r ∈ a.refs, a.Resolves r

instance (a : Abi) : Decidable a.Closed := inferInstanceAs (Decidable (∀ r ∈ a.refs, a.Resolves r))

end Abi

/-! ## Where a definition is seen -/

namespace Abigen

/-- The places where `validate_struct` looks for the name of a struct. -/
inductive StructSeen (g : Abigen) (n : Text) : Prop
  | field {s : AbiStruct} {f : AbiField} (hs : s ∈ g.structs) (hf : f ∈ s.fields)
      (h : removeSuffix f.type = n)
  | base {s : AbiStruct} (hs : s ∈ g.structs) (h : s.base = n)
  | alternative {v : AbiVariant} {vt : Text} (hv : v ∈ g.variants) (hvt : vt ∈ v.types)
      (h : removeSuffix vt = n)
  | action {a : AbiAction} (ha : a ∈ g.actions) (h : a.type = n)
  | table {t : AbiTable} (ht : t ∈ g.setOfTables) (h : t.type = n)
  | target {td : AbiTypedef} (htd : td ∈ g.typedefs) (h : removeSuffix td.type = n)

/-- The places where `validate_types` looks for the name of an alias: of the structs those that are
seen, and no variants, no bases and no declared tables. -/
inductive AliasSeen (g : Abigen) (n : Text) : Prop
  | field {s : AbiStruct} {f : AbiField} (hs : s ∈ g.structs)
      (hname : isBuiltinType s.name = false) (hseen : g.StructSeen s.name) (hf : f ∈ s.fields)
      (h : removeSuffix f.type = n)
  | action {a : AbiAction} (ha : a ∈ g.actions) (h : a.type = n)
  | table {t : AbiTable} (ht : t ∈ g.tables) (h : t.type = n)
  | target {td : AbiTypedef} (htd : td ∈ g.typedefs) (h : removeSuffix td.type = n)

/-- The name of a type that is not left out. -/
def Kept (g : Abigen) (n : Text) : Prop :=
  isBuiltinType n = true ∨ (∃ v ∈ g.variants, v.name = n) ∨
    ((∃ s ∈ g.structs, s.name = n) ∧ g.StructSeen n) ∨
    ((∃ td ∈ g.typedefs, td.newTypeName = n) ∧ g.AliasSeen n)

/-- No alternative, base, action or table refers to a type that is seen nowhere. -/
structure NoneOverlooked (g : Abigen) : Prop where
  alternative : ∀ v ∈ g.variants, ∀ vt ∈ v.types, g.Kept (removeSuffix vt)
  base : ∀ s ∈ g.structs, isBuiltinType s.name = false → g.StructSeen s.name → s.base ≠ [] →
    g.Kept (removeSuffix s.base)
  action : ∀ a ∈ g.actions, g.Kept (removeSuffix a.type)
  table : ∀ t ∈ g.setOfTables, g.Kept (removeSuffix t.type)

end Abigen

end Cdt
