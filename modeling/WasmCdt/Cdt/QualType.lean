import WasmCdt.Cdt.TypeNames

/-!
# Types as the ABI generator sees them

A `clang::QualType` with what `generation_utils` (`tools/include/wasm/gen.hpp`) reads of it, and the
names that it computes. What `getAsString` prints is part of the type. An integer argument of a
template stands as a scalar that is printed as its value; `get_template_argument` past the last
argument has no meaning in the source, and gives an empty name here.
-/

namespace Cdt

mutual

inductive QualType
  /-- An arithmetic type, an enum or a reference, and the builtin type that is on the wire. -/
  | scalar (printed wire : Text)
  /-- A class, unless it is written as a specialization: also what replaces a template parameter. -/
  | record (printed : Text) (decl : CXXRecordDecl)
  /-- `elaborated` when the template's namespace is written too. -/
  | specialization (printed : Text) (elaborated : Bool) (decl : CXXRecordDecl)
      (args : List QualType)
  | typedef (printed : Text) (desugar : QualType)

inductive CXXRecordDecl
  | mk (name : Text) (bases : List QualType) (fields : List FieldDecl)

inductive FieldDecl
  | mk (name : Text) (type : QualType)

end

namespace CXXRecordDecl

def name : CXXRecordDecl → Text
  | mk name _ _ => name

/-- The attribute `ignore`, which of the library's classes the template of that name has. -/
def isWasmIgnore (decl : CXXRecordDecl) : Bool := decl.name = "ignore".toList

end CXXRecordDecl

namespace QualType

/-- `getAsString`. -/
def printed : QualType → Text
  | scalar printed _ => printed
  | record printed _ => printed
  | specialization printed _ _ _ => printed
  | typedef printed _ => printed

end QualType

/-! ## Names of types -/

/-- Before a blank at the end of `long`, `signed` or `unsigned`; the text is reversed. -/
def endsInPrefix (rest : Text) : Bool :=
  ["long", "signed", "unsigned"].any fun s =>
    let s := s.toList
    s.reverse.isPrefixOf rest && (rest.drop s.length).head?.getD ' ' == ' '

/-- The loop of `get_base_type_name`: the text up to the current character, reversed, the depth of the
template brackets, and the text after the character. The letters of a prefix are passed one by one,
the first character is not looked at. -/
def baseNameLoop (typeStr : Text) : Text → Int → Text → Text
  | [], _, _ => typeStr
  | [_], _, _ => typeStr
  | c :: d :: rest, nested, after =>
    let nested := if c = '>' then nested + 1 else if c = '<' then nested - 1 else nested
    if c = ':' ∧ nested = 0 then after
    else if c = ' ' ∧ nested = 0 then
      if endsInPrefix (d :: rest) then baseNameLoop typeStr (d :: rest) nested (c :: after)
      else after
    else baseNameLoop typeStr (d :: rest) nested (c :: after)

/-- `get_base_type_name`. -/
def getBaseTypeName (typeStr : Text) : Text := baseNameLoop typeStr typeStr.reverse 0 []

def replaceChar (c : Char) : Char :=
  if c = '<' ∨ c = '>' ∨ c = ',' ∨ c = ' ' ∨ c = ':' then '_' else c

def replaceInName (name : Text) : Text := name.map replaceChar

/-- The containers that are written as `[]`. -/
def sequences : List Text := ["vector", "set", "deque", "list"].map String.toList

/-- The branches of `translate_type` on a specialization, with the translated arguments and the
arguments' own names. -/
def specializationName (name : Text) (args printedArgs : List Text) : Text :=
  let t0 := args.getD 0 []
  let t1 := args.getD 1 []
  if name = "ignore".toList then t0
  else if name = "binary_extension".toList then t0 ++ ['$']
  else if name ∈ sequences then
    if t0 = "int8".toList then "bytes".toList else t0 ++ "[]".toList
  else if name = "optional".toList then t0 ++ ['?']
  else if name = "map".toList then
    replaceInName ("pair_".toList ++ t0 ++ '_' :: t1 ++ "[]".toList)
  else if name = "pair".toList then replaceInName ("pair_".toList ++ t0 ++ '_' :: t1)
  else if name = "array".toList then replaceInName (t0 ++ t1)
  else if name = "tuple".toList then
    replaceInName ("tuple_".toList ++ ['_'].intercalate printedArgs)
  else translateText (replaceInName (name ++ '_' :: ['_'].intercalate args))

namespace QualType

/-- `_translate_type` of a type. -/
def ownName (t : QualType) : Text := translateText (getBaseTypeName t.printed)

mutual

def translateType : QualType → Text
  | scalar printed _ => translateText (getBaseTypeName printed)
  | record printed _ => translateText (getBaseTypeName printed)
  | specialization _ _ decl args =>
    specializationName decl.name (translateTypes args) (args.map ownName)
  | typedef printed _ => translateText (getBaseTypeName printed)

def translateTypes : List QualType → List Text
  | [] => []
  | t :: ts => translateType t :: translateTypes ts

end

/-- `get_template_name`. -/
def getTemplateName (decl : CXXRecordDecl) (args : List QualType) : Text :=
  translateText (replaceInName (decl.name ++ '_' :: ['_'].intercalate (args.map ownName)))

/-- `get_ignored_type`. -/
def getIgnoredType : QualType → QualType
  | specialization printed elaborated decl (arg :: args) =>
    if decl.isWasmIgnore then arg else specialization printed elaborated decl (arg :: args)
  | t => t

def getType (t : QualType) : Text := translateType (getIgnoredType t)

/-- `get_type_alias_string`. -/
def getTypeAliasString : QualType → Text
  | typedef _ desugar => getType desugar
  | t => getType t

/-- `is_builtin_type` of a type. -/
def isBuiltin (t : QualType) : Bool := isBuiltinType (translateType t)

def isAliasing (t : QualType) : Bool :=
  if t.isBuiltin then false
  else if '<' ∈ getBaseTypeName t.printed then false
  else getBaseTypeName t.printed ≠ getTypeAliasString t

end QualType

end Cdt
