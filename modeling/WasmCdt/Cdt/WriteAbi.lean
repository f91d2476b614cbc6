import WasmCdt.Cdt.AbiMerge
import Mathlib.Data.List.Perm.Basic

/-!
# The ABI of a link

`Writer::writeABI` (`wasm_llvm/tools/lld/wasm/Writer.cpp`): the documents of the input objects merged
in their order, from the last one on; and when their order does not matter. `std::stod` and the
comparison of two numbers, `x*10 < y*10`, are parameters.
-/

namespace Cdt

section
variable {V : Type} (stod : Text → Option V) (less : V → V → Bool)

/-- `std::stod(x)*10 < std::stod(y)*10`. -/
def stodLess (x y : Text) : Option Bool := do
  let a ← stod x
  let b ← stod y
  pure (less a b)

/-- `writeABI`: nothing is written without documents. The last document is merged with all of them,
itself included. -/
def writeABI (abis : List Abi) : Merge (Option Abi) :=
  match abis.getLast? with
  | none => pure none
  | some back => do
    let abi ← abis.foldlM (merge (stodLess stod less)) back
    pure (some abi)

end

/-! ## The sections of a document -/

inductive Kind
  | types
  | structs
  | actions
  | tables
  | clauses
  | variants

namespace Kind

abbrev Def : Kind → Type
  | types => AbiTypedef
  | structs => AbiStruct
  | actions => AbiAction
  | tables => AbiTable
  | clauses => AbiClause
  | variants => AbiVariant

/-- The definitions of a section. -/
def defs : (k : Kind) → Abi → List k.Def
  | types => Abi.types
  | structs => Abi.structs
  | actions => Abi.actions
  | tables => Abi.tables
  | clauses => Abi.ricardianClauses
  | variants => Abi.variants

def name : (k : Kind) → k.Def → Text
  | types => AbiTypedef.newTypeName
  | structs => AbiStruct.name
  | actions => AbiAction.name
  | tables => AbiTable.name
  | clauses => AbiClause.id
  | variants => AbiVariant.name

/-- The test of the section. -/
def isSame : (k : Kind) → k.Def → k.Def → Bool
  | types => typeIsSame
  | structs => structIsSame
  | actions => actionIsSame
  | tables => tableIsSame
  | clauses => clauseIsSame
  | variants => variantIsSame

end Kind

/-- The two documents have the same definitions, with everything that is in them. -/
def SameDefinitions (a b : Abi) : Prop := ∀ (k : Kind) (x : k.Def), x ∈ k.defs a ↔ x ∈ k.defs b

/-! ## Order -/

section
variable {V : Type} (stod : Text → Option V) (less : V → V → Bool)

/-- Two links fail, or write the same definitions. -/
def SameOutcome : Merge (Option Abi) → Merge (Option Abi) → Prop
  | .error _, .error _ => True
  | .ok none, .ok none => True
  | .ok (some a), .ok (some b) => SameDefinitions a b
  | _, _ => False

/-- Every order of the documents has the same outcome. -/
def OrderIndependent (abis : List Abi) : Prop :=
  ∀ order : List Abi, order.Perm abis →
    SameOutcome (writeABI stod less abis) (writeABI stod less order)

/-- The version ends in three characters that read as a number. -/
def Abi.HasVersion (a : Abi) : Prop :=
  3 ≤ a.version.length ∧ (stod (a.version.drop (a.version.length - 3))).isSome

/-- The documents that define a name have one and the same set of definitions for it, and any two of
these pass the section's test. -/
def Uniform (abis : List Abi) : Prop :=
  ∀ k : Kind, ∀ a ∈ abis, ∀ b ∈ abis, ∀ x ∈ k.defs a, ∀ y ∈ k.defs b, k.name x = k.name y →
    k.isSame x y = true ∧ x ∈ k.defs b

/-- The definition is of the first document with its name. -/
def FirstIn (k : Kind) (abis : List Abi) (x : k.Def) : Prop :=
  ∃ before a after, abis = before ++ a :: after ∧ x ∈ k.defs a ∧
    ∀ b ∈ before, ∀ z ∈ k.defs b, k.name z ≠ k.name x

/-- A definition of `a` fails the test against the first document with its name. -/
def Clash (before : List Abi) (a : Abi) : Prop :=
  ∃ k x, FirstIn k before x ∧ ∃ y ∈ k.defs a, k.name x = k.name y ∧ k.isSame x y = false

/-- Some document clashes with those before it. -/
def Conflict (abis : List Abi) : Prop :=
  ∃ before a after, abis = before ++ a :: after ∧ Clash before a

/-- Every order, led by the document that the merger starts with, has a conflict. -/
def AlwaysConflict (abis : List Abi) : Prop :=
  ∀ before back, (before ++ [back]).Perm abis → Conflict (back :: (before ++ [back]))

end

end Cdt
