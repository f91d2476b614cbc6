import WasmCdt.Base.Text

/-!
# Ricardian documents

`simple_ricardian_tokenizer` (`tools/include/wasm/gen.hpp`): the contracts and clauses of a Markdown
file, each behind a heading with its id. Positions are numbers. `source[i]` is a NUL at the end of
the text and whatever the memory holds behind it. The functions that move `index` return it, also
where they do not match.
-/

namespace Cdt

namespace Ricardian

/-- The text, and the memory behind its NUL. -/
structure Source where
  text : Text
  memory : Nat → Char

/-- `substr` throws `std::out_of_range`. -/
inductive ParseError
  | outOfRange
  deriving DecidableEq, Repr

def isWs (c : Char) : Bool := c == ' ' || c == '\n' || c == '\r' || c == '\t'

/-- `ws` behind a character. -/
def countWs (c : Char) (ws : Nat) : Nat := if isWs c then ws + 1 else 0

section
variable (source : Source)

/-- `source[i]`. -/
def charAt (i : Nat) : Char := (source.text ++ ['\x00']).getD i (source.memory i)

def size : Nat := source.text.length

/-- `eat_ws(i)`: the distance from `index` to the end of the whitespace at `i`. -/
def eatWs (index i : Nat) : Nat :=
  if !isWs (charAt source i) then 0 else i + ((source.text.drop i).takeWhile isWs).length - index

/-- The loop of `check`. -/
def checkLoop (index : Nat) : Text → Nat → Option Nat
  | [], i => some i
  | c :: sub, i =>
    let i := i + eatWs source index i
    if c ≠ charAt source i then none else checkLoop index sub (i + 1)

def check (sub : Text) (index : Nat) : Bool × Nat :=
  match checkLoop source index sub index with
  | none => (false, index)
  | some i => (true, i + eatWs source i i)

/-- `check(sub) && ...`. -/
def checks : List Text → Nat → Bool × Nat
  | [], index => (true, index)
  | sub :: subs, index =>
    if (check source sub index).1 then checks subs (check source sub index).2 else check source sub index

def isDecl (type : Text) (index : Nat) : Bool × Nat :=
  checks source ["<".toList, "h1".toList, "class".toList, "=".toList, '\"' :: type ++ ['\"'],
    ">".toList] index

def substr (pos n : Nat) : Except ParseError Text :=
  if pos ≤ size source then .ok (source.text.substr pos n) else .error .outOfRange

/-- The loop of `get_decl` over the text from `after` on: the end of the id, and the whitespace
before it. -/
def declLoop : Text → Nat → Nat → Nat × Nat
  | [], after, ws => (after, ws)
  | c :: s, after, ws => if c = '<' then (after, ws) else declLoop s (after + 1) (countWs c ws)

/-- `get_decl`, with the index that it leaves. -/
def getDecl (type : Text) (index : Nat) : Except ParseError (Option Text × Nat) :=
  if (isDecl source type index).1 then
    let before := (isDecl source type index).2
    let after := (declLoop (source.text.drop before) before 0).1
    let ws := (declLoop (source.text.drop before) before 0).2
    let closing := checks source ["<".toList, "/h1".toList, ">".toList] after
    if closing.1 then do
      let id ← substr source before (after - before - ws)
      pure (some id, closing.2)
    else pure (none, closing.2)
  else pure (none, (isDecl source type index).2)

/-- The loop of `get_body` over the text from `i` on. -/
def bodyLoop (type : Text) : Text → Nat → Nat → Nat × Nat
  | [], i, ws => (i, ws)
  | c :: s, i, ws =>
    if (isDecl source type i).1 then (i, ws) else bodyLoop type s (i + 1) (countWs c ws)

def getBody (type : Text) (index : Nat) : Except ParseError (Text × Nat) := do
  let before := index
  let i := (bodyLoop source type (source.text.drop before) before 0).1
  let ws := (bodyLoop source type (source.text.drop before) before 0).2
  let body ← substr source before (i - before - ws)
  pure (body, i)

/-- The loop of `parse`; `none` is out of fuel. -/
def parseLoop (type : Text) :
    Nat → Nat → List (Text × Text) → Option (Except ParseError (List (Text × Text)))
  | 0, _, _ => none
  | fuel + 1, index, ret =>
    if index < size source then
      match getDecl source type index with
      | .error e => some (.error e)
      | .ok (none, _) => some (.ok [])
      | .ok (some id, index) =>
        match getBody source type index with
        | .error e => some (.error e)
        | .ok (body, index) => parseLoop type fuel index (ret ++ [(id, body)])
    else some (.ok ret)

def parse (type : Text) (fuel : Nat) : Option (Except ParseError (List (Text × Text))) :=
  parseLoop source type fuel 0 []

end

end Ricardian

end Cdt
