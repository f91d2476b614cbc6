import WasmCdt.Cdt.AbiPass
import Mathlib.Data.List.Forall2

/-!
# What is on the wire

The layout of the C++ types that the ABI describes, and what the type names of an ABI stand for.

* `Layout`: a layout as the tree of its parts. A type with a builtin's name is laid out as that
  builtin, `ignore` as its argument, a class as its only base and its fields.
* `Reads`: the layouts that a type name can stand for, where the recorded definitions are known.
* `Named`: the types that `add_type` records under the name by which they are referred to.
* `Entity.Same`: two definitions made of the same types, as far as one looks at these alone.
-/

namespace Cdt

open QualType

/-! ## Layouts -/

inductive Layout
  | builtin (name : Text)
  | extension (of : Layout)
  | array (of : Layout)
  | optional (of : Layout)
  | sequence (parts : List Layout)
  | choice (alternatives : List Layout)

/-- The layout of a specialization, from those of its arguments and of its class. -/
def specializationLayout (name : Text) (args : List Layout) (cls : Layout) : Layout :=
  if name = "ignore".toList then args.headD cls
  else if name = "binary_extension".toList then .extension (args.headD cls)
  else if name ∈ sequences then .array (args.headD cls)
  else if name = "optional".toList then .optional (args.headD cls)
  else if name = "map".toList then .array (.sequence (args.take 2))
  else if name = "pair".toList then .sequence (args.take 2)
  else if name = "tuple".toList then .sequence args
  else if name = "variant".toList then .choice args
  else cls

namespace QualType

/-- A builtin's layout for its name. -/
def builtinOr (t : QualType) (otherwise : Layout) : Layout :=
  if t.isBuiltin then .builtin (translateText (translateType t)) else otherwise

mutual

def layout : QualType → Layout
  | scalar printed wire => builtinOr (scalar printed wire) (.builtin wire)
  | record printed decl => builtinOr (record printed decl) (declLayout decl)
  | specialization printed elaborated decl args =>
    builtinOr (specialization printed elaborated decl args)
      (specializationLayout decl.name (layouts args) (declLayout decl))
  | typedef printed desugar => builtinOr (typedef printed desugar) (layout desugar)

def layouts : List QualType → List Layout
  | [] => []
  | t :: ts => layout t :: layouts ts

def declLayout : CXXRecordDecl → Layout
  | .mk _ bases fields => .sequence (baseLayouts bases ++ fieldLayouts fields)

def baseLayouts : List QualType → List Layout
  | [base] => [layout base]
  | _ => []

def fieldLayouts : List FieldDecl → List Layout
  | [] => []
  | .mk _ type :: fields => layout type :: fieldLayouts fields

end

end QualType

/-- The layout of what a definition is made of. -/
def Entity.layout : Entity → Layout
  | struct _ base fields =>
    .sequence (base.toList.map QualType.layout ++ fields.map fun f => f.type.layout)
  | variant _ alternatives => .choice (alternatives.map QualType.layout)
  | typedef _ target => target.layout

def Entity.name : Entity → Text
  | struct name _ _ => name
  | variant name _ => name
  | typedef name _ => name

/-! ## What a type name stands for -/

/-- No decoration at the end. -/
def Undecorated (t : Text) : Prop := removeSuffix t = t

instance (t : Text) : Decidable (Undecorated t) := inferInstanceAs (Decidable (_ = _))

/-- A builtin type, or the name of a recorded definition, with decorations. -/
inductive Reads (es : List Entity) : Text → Layout → Prop
  | builtin {b : Text} (h : isBuiltinType b = true) : Reads es b (.builtin (translateText b))
  | entity {e : Entity} (he : e ∈ es) (hbuiltin : isBuiltinType e.name = false)
      (hname : Undecorated e.name) : Reads es e.name e.layout
  | extension {r : Text} {l : Layout} (h : Reads es r l) : Reads es (r ++ ['$']) (.extension l)
  | array {r : Text} {l : Layout} (h : Reads es r l) : Reads es (r ++ "[]".toList) (.array l)
  | optional {r : Text} {l : Layout} (h : Reads es r l) : Reads es (r ++ ['?']) (.optional l)

/-! ## Types that are recorded under their names -/

/-- A class that is recorded under the name by which it is referred to, itself or by typedefs of the
same name. -/
inductive NamedClass : QualType → Prop
  | record {printed : Text} {decl : CXXRecordDecl} (hname : getBaseTypeName printed = decl.name)
      (hsuffix : Undecorated decl.name) : NamedClass (.record printed decl)
  | typedef {printed : Text} {desugar : QualType}
      (hname : getBaseTypeName printed = getType desugar) (h : NamedClass desugar) :
      NamedClass (.typedef printed desugar)

/-- The templates that `add_type` has a branch for. -/
def handled : List Text := wrappers ++ ["map", "pair", "tuple", "variant"].map String.toList

/-- A type that `add_type` records under the name by which it is referred to. No enum is one, nor an
arithmetic type that is not translated. -/
inductive Named : QualType → Prop
  | builtin {t : QualType} (h : t.isBuiltin = true) : Named t
  | cls {t : QualType} (h : NamedClass t) : Named t
  | typedef {printed : Text} {desugar : QualType}
      (halias : (QualType.typedef printed desugar).isAliasing = true)
      (hsuffix : Undecorated (getBaseTypeName printed)) : Named (.typedef printed desugar)
  /-- A container of such a type. -/
  | wrapper {printed : Text} {elaborated : Bool} {decl : CXXRecordDecl} {arg : QualType}
      {args : List QualType} (hprinted : '<' ∈ getBaseTypeName printed)
      (hname : decl.name ∈ wrappers) (h : Named arg) :
      Named (.specialization printed elaborated decl (arg :: args))
  /-- A map or a pair whose second component's name has no decoration. -/
  | pair {printed : Text} {elaborated : Bool} {decl : CXXRecordDecl} {first second : QualType}
      {args : List QualType} (hprinted : '<' ∈ getBaseTypeName printed)
      (hname : decl.name = "map".toList ∨ decl.name = "pair".toList)
      (hsuffix : Undecorated (translateType second)) :
      Named (.specialization printed elaborated decl (first :: second :: args))
  /-- A tuple, or a variant whose last alternative's name has no decoration. -/
  | product {printed : Text} {elaborated : Bool} {decl : CXXRecordDecl} {args : List QualType}
      (hprinted : '<' ∈ getBaseTypeName printed)
      (hname : decl.name = "tuple".toList ∨ decl.name = "variant".toList)
      (hsuffix : Undecorated (translateType (.specialization printed elaborated decl args))) :
      Named (.specialization printed elaborated decl args)
  /-- An instance of another template, if its name is the same with the arguments' own names. -/
  | template {printed : Text} {elaborated : Bool} {decl : CXXRecordDecl} {args : List QualType}
      (hprinted : '<' ∈ getBaseTypeName printed) (hname : decl.name ∉ handled)
      (hargs : getTemplateName decl args =
        translateType (.specialization printed elaborated decl args))
      (hsuffix : Undecorated (getTemplateName decl args)) :
      Named (.specialization printed elaborated decl args)

/-- A base is added as a class. -/
def NamedBase (t : QualType) : Prop := isBuiltinType (getType t) = true ∨ NamedClass t

def FieldSource.Named : FieldSource → Prop
  | field _ type => Cdt.Named type
  | component _ type => Cdt.Named type
  | extensions _ => True

/-- The types that a definition is made of are recorded under the names by which it refers to them. -/
def Entity.ComponentsNamed : Entity → Prop
  | struct _ base fields => (∀ b ∈ base, NamedBase b) ∧ ∀ f ∈ fields, f.Named
  | variant _ alternatives => ∀ t ∈ alternatives, Named t
  | typedef _ target => Named target

/-- What a step of the pass inserts refers to types by the names under which they are recorded. -/
def Recorded.Named : Recorded → Prop
  | entity e => e.ComponentsNamed
  | action a => Undecorated a.type
  | table t => Undecorated t.type
  | ctable t => Undecorated t.type

/-! ## Definitions of one name -/

/-- One type, or two named ones of the same name. -/
def SameType (t t' : QualType) : Prop :=
  t = t' ∨ translateType t = translateType t' ∧ Named t ∧ Named t'

def SameBase (t t' : QualType) : Prop :=
  t = t' ∨ getType t = getType t' ∧ NamedBase t ∧ NamedBase t'

/-- `transaction_extensions` is written alike whatever its type is. -/
def FieldSource.Same : FieldSource → FieldSource → Prop
  | extensions type, extensions type' => type = type'
  | extensions _, _ => False
  | _, extensions _ => False
  | f, f' => SameType f.type f'.type

/-- Two definitions of one kind, of the same types. -/
def Entity.Same : Entity → Entity → Prop
  | struct _ base fields, struct _ base' fields' =>
    Option.Rel SameBase base base' ∧ List.Forall₂ FieldSource.Same fields fields'
  | variant _ alternatives, variant _ alternatives' => List.Forall₂ SameType alternatives alternatives'
  | typedef _ target, typedef _ target' => SameType target target'
  | _, _ => False

def Recorded.asEntity : Recorded → Option Entity
  | entity e => some e
  | _ => none

/-- The definitions among what is recorded. -/
def entitiesOf (rs : List Recorded) : List Entity := rs.filterMap Recorded.asEntity

/-- A step records no definition under the name of a different one. -/
def Recorded.NoClash (before : List Recorded) : Recorded → Prop
  | entity e => ∀ e' ∈ entitiesOf before, e'.name = e.name → e'.Same e
  | _ => True

/-- One name has one layout. -/
def Coherent (es : List Entity) : Prop :=
  ∀ e ∈ es, ∀ e' ∈ es, e.name = e'.name → e.layout = e'.layout

/-- What is in memory under the name of a definition is that definition, up to names of fields. -/
def Abigen.Keeps (g : Abigen) : Entity → Prop
  | .struct name base fields => ∃ s ∈ g.structs, s.name = name ∧
      s.base = (base.map getType).getD [] ∧
      s.fields.map AbiField.type = fields.map fun f => f.toField.type
  | .variant name alternatives => ∃ v ∈ g.variants, v.name = name ∧
      v.types = alternatives.map translateType
  | .typedef name target => ∃ td ∈ g.typedefs, td.newTypeName = name ∧
      td.type = translateType target

end Cdt
