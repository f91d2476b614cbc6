import WasmCdt.Core.Exec
import WasmCdt.Lib.Loop

/-!
# Ropes

`core/rope.hpp`: texts under construction, as trees whose nodes several ropes may share. A node is
named by the number of its allocation. A pointer to characters is the list of the bytes that can be
read from it.
-/

namespace Wasmlib

/-- `rope_node`, without its mutable members. -/
inductive RopeNode
  | concat (left right : Option Nat)
  | str (cStr : List UInt8) (size : BitVec 32)
  deriving DecidableEq

/-- The mutable members of all nodes: `temp`, and `temp_left` of the concatenations. -/
structure Marks where
  temp : Nat → Option Nat
  tempLeft : Nat → Bool

structure RopeHeap where
  nodes : List RopeNode
  marks : Marks

namespace Marks

def setTemp (n : Nat) (p : Option Nat) (m : Marks) : Marks :=
  { m with temp := fun x => if x = n then p else m.temp x }

def setTempLeft (n : Nat) (b : Bool) (m : Marks) : Marks :=
  { m with tempLeft := fun x => if x = n then b else m.tempLeft x }

/-- The initial members of a new node. -/
def init (n : Nat) (m : Marks) : Marks := (m.setTemp n none).setTempLeft n false

/-- `temp` of the root, if there is one, is null. -/
def setRoot : Option Nat → Marks → Marks
  | some r, m => m.setTemp r none
  | none, m => m

end Marks

/-- `new rope_node(..)`. -/
def RopeHeap.new (n : RopeNode) (h : RopeHeap) : Nat × RopeHeap :=
  (h.nodes.length, ⟨h.nodes ++ [n], h.marks.init h.nodes.length⟩)

structure Rope where
  root : Option Nat
  size : BitVec 32
  deriving DecidableEq

namespace Rope

/-! ## Copying out -/

/-- `memcpy(buffer + off, src, n)`. -/
def memcpy (buffer : List UInt8) (off : Nat) (src : List UInt8) (n : Nat) : Exec (List UInt8) :=
  if n ≤ src.length ∧ off + n ≤ buffer.length then
    pure (buffer.take off ++ (src.take n ++ buffer.drop (off + n)))
  else .error .fault

/-- The local state of the private `c_str`. -/
structure Traversal where
  marks : Marks
  buffer : List UInt8
  off : BitVec 32
  goingDown : Bool
  r : Option Nat

namespace Traversal

/-- From the concatenation `r` down into a child. -/
def enter (r child : Nat) (left : Bool) (s : Traversal) : Traversal :=
  { s with
    marks := (s.marks.setTempLeft r left).setTemp child (some r)
    goingDown := true
    r := some child }

/-- Back to where `r` was entered from. -/
def leave (r : Nat) (s : Traversal) : Traversal :=
  { s with goingDown := false, r := s.marks.temp r }

/-- A round of the loop. -/
def step (nodes : List RopeNode) (s : Traversal) : Exec Traversal :=
  match s.r with
  | none => pure s
  | some r =>
    if s.goingDown then
      match nodes[r]? with
      | some (.concat (some left) _) => pure (s.enter r left true)
      | some (.concat none (some right)) => pure (s.enter r right false)
      | some (.concat none none) => pure (s.leave r)
      | some (.str cStr size) => do
        let off := s.off - size
        let buffer ← memcpy s.buffer off.toNat cStr size.toNat
        pure ({ s with off := off, buffer := buffer }.leave r)
      | none => .error .fault
    else
      match nodes[r]? with
      | some (.concat _ (some right)) =>
        if s.marks.tempLeft r then pure (s.enter r right false) else pure (s.leave r)
      | some (.concat _ none) => pure (s.leave r)
      -- `std::get<concat_t>` of a string
      | some (.str _ _) => .error .fault
      | none => .error .fault

end Traversal

/-- `c_str()`, into a new buffer with arbitrary content; `none` is out of fuel. -/
def cStr (fuel : Nat) (garbage : Nat → UInt8) (h : RopeHeap) (self : Rope) :
    Exec (Option (List UInt8 × RopeHeap)) := do
  let ret := (List.range (self.size + 1).toNat).map garbage
  let s ← Loop.run (fun s => s.r.isSome) (Traversal.step h.nodes) fuel
    { marks := h.marks.setRoot self.root, buffer := ret, off := self.size, goingDown := true, r := self.root }
  match s with
  | none => pure none
  | some s =>
    let ret ← memcpy s.buffer self.size.toNat [0] 1
    pure (some (ret, { h with marks := s.marks }))

def length (self : Rope) : BitVec 32 := self.size

/-! ## Construction -/

def intOne : SInt 32 := ⟨1, by decide⟩

/-- `while (str[i++]);` -/
def strlenLoop : List UInt8 → SInt 32 → Exec (SInt 32)
  | [], _ => .error .fault
  | c :: str, i => do
    let i ← defined (i.add intOne)
    if c ≠ 0 then strlenLoop str i else pure i

def strlen (str : List UInt8) : Exec (BitVec 32) := do
  let i ← strlenLoop str ⟨0, by decide⟩
  pure (BitVec.ofInt 32 i.val)

/-- A string under a concatenation of its own. -/
def newStr (s : List UInt8) (size : BitVec 32) (h : RopeHeap) : Nat × RopeHeap :=
  let (str, h) := h.new (.str s size)
  h.new (.concat (some str) none)

/-- `rope(const char*)`. -/
def ofCStr (s : List UInt8) (h : RopeHeap) : Exec (Rope × RopeHeap) := do
  let n ← strlen s
  let (root, h) := newStr s (n - 1) h
  pure (⟨some root, n - 1⟩, h)

/-- `rope(std::string_view)`. -/
def ofView (s : List UInt8) (size : BitVec 32) (h : RopeHeap) : Rope × RopeHeap :=
  let (root, h) := newStr s size h
  (⟨some root, size⟩, h)

/-- The private `append` of a node. -/
def appendNode (rn : Option Nat) (useLeft : Bool) (self : Rope) (h : RopeHeap) :
    Exec (Rope × RopeHeap) :=
  match rn with
  | none => .error (.abort "append should only allow concat nodes")
  | some rn =>
    match h.nodes[rn]? with
    | some (.concat left _) =>
      if useLeft then
        let (root, h) := h.new (.concat (some rn) self.root)
        pure ({ self with root := some root }, h)
      else
        pure ({ self with root := some rn },
          { h with nodes := h.nodes.set rn (.concat left self.root) })
    | some (.str _ _) => .error (.abort "append should only allow concat nodes")
    | none => .error .fault

/-- `append(const char*, size_t)`. -/
def append (s : List UInt8) (len : BitVec 32) (self : Rope) (h : RopeHeap) :
    Exec (Rope × RopeHeap) := do
  let (rn, h) := newStr s len h
  let (self, h) ← self.appendNode (some rn) false h
  pure ({ self with size := self.size + len }, h)

/-- `append(const char (&)[N])`, of an array of all its bytes. -/
def appendArray (s : List UInt8) (self : Rope) (h : RopeHeap) : Exec (Rope × RopeHeap) :=
  self.append s (BitVec.ofNat 32 s.length) h

/-- `append(const rope&)`, also of the rope itself. -/
def appendRope (self r : Rope) (h : RopeHeap) : Exec (Rope × RopeHeap) := do
  let (self, h) ← self.appendNode r.root true h
  pure ({ self with size := self.size + r.size }, h)

/-- `operator+=(const char*)`. -/
def addCStr (s : List UInt8) (self : Rope) (h : RopeHeap) : Exec (Rope × RopeHeap) := do
  let n ← strlen s
  self.append s (n - 1) h

/-- `operator+=(const rope&)`. -/
def addRope (self r : Rope) (h : RopeHeap) : Exec (Rope × RopeHeap) := self.appendRope r h

end Rope

/-! ## Looking up -/

/-- What the private `at` has by reference. -/
structure Rope.Lookup where
  ret : UInt8
  indexSoFar : BitVec 32
  stop : Bool

/-- The private `at`, from the node `rn` on; `none` is out of fuel. -/
def Rope.atNode (nodes : List RopeNode) (index : BitVec 32) :
    Nat → Option Nat → Lookup → Exec (Option Lookup)
  | 0, _, _ => pure none
  | _ + 1, none, s => pure (some s)
  | fuel + 1, some rn, s =>
    match nodes[rn]? with
    | some (.concat left right) =>
      if s.stop then pure (some s)
      else do
        match ← atNode nodes index fuel left s with
        | none => pure none
        | some s => atNode nodes index fuel right s
    | some (.str cStr size) =>
      let indexSoFar := s.indexSoFar - size
      if indexSoFar ≤ index then do
        let c ← defined cStr[(index - indexSoFar).toNat]?
        pure (some ⟨c, indexSoFar, true⟩)
      else pure (some { s with indexSoFar := indexSoFar })
    | none => .error .fault

/-- `at(index)`. -/
def Rope.at (fuel : Nat) (index : BitVec 32) (h : RopeHeap) (self : Rope) :
    Exec (Option UInt8) := do
  let s ← atNode h.nodes index fuel self.root ⟨0, self.size, false⟩
  pure (s.map (·.ret))

/-! ## Runs -/

/-- The ropes of a program, by the order in which they were made, and their nodes. -/
structure RopeWorld where
  heap : RopeHeap
  ropes : List Rope

inductive RopeCall
  | ofCStr (s : List UInt8)
  | ofView (s : List UInt8) (size : BitVec 32)
  | copy (i : Nat)
  /-- A literal of these characters: the array has one more. -/
  | appendLiteral (i : Nat) (chars : List UInt8)
  | append (i : Nat) (s : List UInt8) (len : BitVec 32)
  | appendRope (i j : Nat)
  | addCStr (i : Nat) (s : List UInt8)
  | addRope (i j : Nat)

namespace RopeWorld

/-- The rope of a number; there is no other. -/
def rope (w : RopeWorld) (i : Nat) : Exec Rope := defined w.ropes[i]?

def push (r : Rope × RopeHeap) (w : RopeWorld) : RopeWorld := ⟨r.2, w.ropes ++ [r.1]⟩

def put (i : Nat) (r : Rope × RopeHeap) (w : RopeWorld) : RopeWorld := ⟨r.2, w.ropes.set i r.1⟩

def step (w : RopeWorld) : RopeCall → Exec RopeWorld
  | .ofCStr s => do
    let r ← Rope.ofCStr s w.heap
    pure (w.push r)
  | .ofView s size => pure (w.push (Rope.ofView s size w.heap))
  | .copy i => do
    let self ← w.rope i
    pure (w.push (self, w.heap))
  | .appendLiteral i chars => do
    let self ← w.rope i
    let r ← self.appendArray (chars ++ [0]) w.heap
    pure (w.put i r)
  | .append i s len => do
    let self ← w.rope i
    let r ← self.append s len w.heap
    pure (w.put i r)
  | .appendRope i j => do
    let self ← w.rope i
    let other ← w.rope j
    let r ← self.appendRope other w.heap
    pure (w.put i r)
  | .addCStr i s => do
    let self ← w.rope i
    let r ← self.addCStr s w.heap
    pure (w.put i r)
  | .addRope i j => do
    let self ← w.rope i
    let other ← w.rope j
    let r ← self.addRope other w.heap
    pure (w.put i r)

def run (w : RopeWorld) : List RopeCall → Exec RopeWorld
  | [] => pure w
  | c :: cs => do
    let w ← w.step c
    w.run cs

def start : RopeWorld := ⟨⟨[], ⟨fun _ => none, fun _ => false⟩⟩, []⟩

end RopeWorld

/-! ## Strings -/

/-- The `std::string` of a C string. -/
def cText (s : List UInt8) : List UInt8 := s.takeWhile (· ≠ 0)

/-- What the call does to strings in the ropes' place. -/
def RopeCall.concat (ts : List (List UInt8)) : RopeCall → List (List UInt8)
  | .ofCStr s => ts ++ [cText s]
  | .ofView s size => ts ++ [s.take size.toNat]
  | .copy i => ts ++ [ts.getD i []]
  | .appendLiteral i chars => ts.set i (ts.getD i [] ++ chars)
  | .append i s len => ts.set i (ts.getD i [] ++ s.take len.toNat)
  | .appendRope i j => ts.set i (ts.getD i [] ++ ts.getD j [])
  | .addCStr i s => ts.set i (ts.getD i [] ++ cText s)
  | .addRope i j => ts.set i (ts.getD i [] ++ ts.getD j [])

def RopeCall.concatAll (ts : List (List UInt8)) (cs : List RopeCall) : List (List UInt8) :=
  cs.foldl RopeCall.concat ts

end Wasmlib
