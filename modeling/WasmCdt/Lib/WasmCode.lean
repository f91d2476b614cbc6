import WasmCdt.Lib.Leb128

/-!
# Function bodies of WebAssembly: binary form, nesting, execution

The instructions a call dispatcher needs: constants, locals, comparison, calls and
`if`/`else`/`end` with the empty block type.

* `decodeBody` reads a function's code (local declarations, instructions), `decodeFunc` an entry of
  the code section (a size, then the code); `decodeBody_encode`: the binary form of a list of
  instructions reads back.
* `wellNested` is the format's structure check over a flat instruction list; `Balanced` lists are
  transparent to it (`wellNested_balanced`).
* `step`/`run` execute a flat list. A branch not taken is skipped instruction by instruction, so a
  run is one pass over the list; on `Balanced` code an `if` has the meaning of the structured
  statement (`run_ite`, `run_if`).
-/

namespace WasmCode

open Leb128

/-! ## Instructions and their binary form -/

inductive Instr
  | localGet (i : Nat)
  | i32Const (v : Int)
  | i64Const (v : Int)
  | i64Eq
  | call (f : Nat)
  | if_
  | else_
  | end_
  deriving DecidableEq, Repr

/-- The block type of a block without results. -/
def emptyBlock : UInt8 := 0x40

def Instr.encode : Instr → List UInt8
  | .localGet i => 0x20 :: encodeU i
  | .i32Const v => 0x41 :: encodeS v
  | .i64Const v => 0x42 :: encodeS v
  | .i64Eq => [0x51]
  | .call f => 0x10 :: encodeU f
  | .if_ => [0x04, emptyBlock]
  | .else_ => [0x05]
  | .end_ => [0x0b]

/-- The immediates are in the ranges of their encodings. -/
def Instr.Fits : Instr → Prop
  | .localGet i => i < 2 ^ 32
  | .i32Const v => -2 ^ 31 ≤ v ∧ v < 2 ^ 31
  | .i64Const v => -2 ^ 63 ≤ v ∧ v < 2 ^ 63
  | .call f => f < 2 ^ 32
  | _ => True

def encode (is : List Instr) : List UInt8 := is.flatMap Instr.encode

@[simp] theorem encode_nil : encode [] = [] := rfl

@[simp] theorem encode_cons (i : Instr) (is : List Instr) :
    encode (i :: is) = i.encode ++ encode is := rfl

@[simp] theorem encode_append (is js : List Instr) : encode (is ++ js) = encode is ++ encode js :=
  List.flatMap_append

def decodeInstr : List UInt8 → Option (Instr × List UInt8)
  | [] => none
  | op :: bs =>
    if op = 0x20 then (decodeU 32 bs).map fun p => (.localGet p.1, p.2)
    else if op = 0x41 then (decodeS 32 bs).map fun p => (.i32Const p.1, p.2)
    else if op = 0x42 then (decodeS 64 bs).map fun p => (.i64Const p.1, p.2)
    else if op = 0x51 then some (.i64Eq, bs)
    else if op = 0x10 then (decodeU 32 bs).map fun p => (.call p.1, p.2)
    else if op = 0x04 then
      match bs with
      | t :: bs => if t = emptyBlock then some (.if_, bs) else none
      | [] => none
    else if op = 0x05 then some (.else_, bs)
    else if op = 0x0b then some (.end_, bs)
    else none

theorem decodeInstr_encode {i : Instr} (h : i.Fits) (rest : List UInt8) :
    decodeInstr (i.encode ++ rest) = some (i, rest) := by
  cases i with
  | localGet i => simp [Instr.encode, decodeInstr, decodeU_encodeU i rest h]
  | i32Const v => simp [Instr.encode, decodeInstr, decodeS_encodeS v (N := 32) rest h.1 h.2]
  | i64Const v => simp [Instr.encode, decodeInstr, decodeS_encodeS v (N := 64) rest h.1 h.2]
  | call f => simp [Instr.encode, decodeInstr, decodeU_encodeU f rest h]
  | i64Eq => simp [Instr.encode, decodeInstr]
  | if_ => simp [Instr.encode, decodeInstr]
  | else_ => simp [Instr.encode, decodeInstr]
  | end_ => simp [Instr.encode, decodeInstr]

/-- The instructions of `bs`, all of it; every instruction has a byte, so `bs.length` rounds
suffice. -/
def decodeLoop : Nat → List UInt8 → Option (List Instr)
  | _, [] => some []
  | 0, _ :: _ => none
  | fuel + 1, b :: bs =>
    (decodeInstr (b :: bs)).bind fun p => (decodeLoop fuel p.2).map (p.1 :: ·)

def decode (bs : List UInt8) : Option (List Instr) := decodeLoop bs.length bs

theorem Instr.encode_ne_nil (i : Instr) : i.encode ≠ [] := by
  cases i <;> simp [Instr.encode]

theorem decodeLoop_encode : ∀ (is : List Instr) (fuel : Nat), (∀ i ∈ is, i.Fits) →
    (encode is).length ≤ fuel → decodeLoop fuel (encode is) = some is
  | [], fuel, _, _ => by cases fuel <;> rfl
  | i :: is, fuel, h, hf => by
    have hi := decodeInstr_encode (h i (.head _)) (encode is)
    obtain ⟨b, bs, hb⟩ := List.exists_cons_of_ne_nil i.encode_ne_nil
    rw [encode_cons] at hf ⊢
    rw [hb] at hi hf ⊢
    simp only [List.cons_append, List.length_cons, List.length_append] at hi hf ⊢
    cases fuel with
    | zero => omega
    | succ fuel =>
      simp only [decodeLoop, hi, Option.bind_some,
        decodeLoop_encode is fuel (fun j hj => h j (.tail _ hj)) (by omega), Option.map_some]

theorem decode_encode {is : List Instr} (h : ∀ i ∈ is, i.Fits) : decode (encode is) = some is :=
  decodeLoop_encode is _ h (Nat.le_refl _)

/-- Skips `n` local declarations (a count and a value type each). -/
def skipLocals : Nat → List UInt8 → Option (List UInt8)
  | 0, bs => some bs
  | n + 1, bs =>
    match decodeU 32 bs with
    | some (_, _ :: bs) => skipLocals n bs
    | _ => none

/-- The instructions of a function's code: local declarations, then instructions. -/
def decodeBody (bs : List UInt8) : Option (List Instr) :=
  match decodeU 32 bs with
  | some (n, bs) => (skipLocals n bs).bind decode
  | none => none

/-- The instructions of an entry of the code section: a size, then the code. -/
def decodeFunc (bs : List UInt8) : Option (List Instr) :=
  match decodeU 32 bs with
  | some (size, body) => if body.length = size then decodeBody body else none
  | none => none

/-- The code of a function without locals. -/
def encodeBody (is : List Instr) : List UInt8 := encodeU 0 ++ encode is

theorem decodeBody_encode {is : List Instr} (h : ∀ i ∈ is, i.Fits) :
    decodeBody (encodeBody is) = some is := by
  unfold decodeBody encodeBody
  rw [decodeU_encodeU 0 _ (by norm_num)]
  simp only [skipLocals, Option.bind_some, decode_encode h]

/-! ## Nesting -/

/-- An open construct: the function, an `if` without `else` so far, an `else`. -/
inductive Frame
  | func
  | ifArm
  | elseArm
  deriving DecidableEq, Repr

/-- The structure check, with the open constructs innermost first: every `end` closes the
innermost construct, an `else` belongs to an `if` that has none yet, the function's own `end` is
the last instruction. -/
def wellNested : List Frame → List Instr → Bool
  | [], [] => true
  | _ :: _, [] => false
  | [], _ :: _ => false
  | fs, .if_ :: is => wellNested (.ifArm :: fs) is
  | .ifArm :: fs, .else_ :: is => wellNested (.elseArm :: fs) is
  | _ :: _, .else_ :: _ => false
  | _ :: fs, .end_ :: is => wellNested fs is
  | fs, _ :: is => wellNested fs is

/-- A well-formed function body. -/
def validBody (bs : List UInt8) : Bool :=
  match decodeBody bs with
  | some is => wellNested [.func] is
  | none => false

/-- A well-formed entry of the code section. -/
def validFunc (bs : List UInt8) : Bool :=
  match decodeFunc bs with
  | some is => wellNested [.func] is
  | none => false

def Instr.isPlain : Instr → Bool
  | .if_ | .else_ | .end_ => false
  | _ => true

/-- Instructions whose `if`s are all closed. -/
inductive Balanced : List Instr → Prop
  | nil : Balanced []
  | plain {i : Instr} {is : List Instr} : i.isPlain = true → Balanced is → Balanced (i :: is)
  | ifThen {t is : List Instr} : Balanced t → Balanced is →
      Balanced (.if_ :: (t ++ .end_ :: is))
  | ifElse {t e is : List Instr} : Balanced t → Balanced e → Balanced is →
      Balanced (.if_ :: (t ++ .else_ :: (e ++ .end_ :: is)))

theorem Balanced.append {xs ys : List Instr} (hx : Balanced xs) (hy : Balanced ys) :
    Balanced (xs ++ ys) := by
  induction hx with
  | nil => exact hy
  | plain hi _ ih => exact .plain hi ih
  | ifThen ht _ _ ih =>
    simp only [List.cons_append, List.append_assoc]
    exact .ifThen ht ih
  | ifElse ht he _ _ _ ih =>
    simp only [List.cons_append, List.append_assoc]
    exact .ifElse ht he ih

theorem Balanced.all_plain : ∀ {is : List Instr}, (∀ i ∈ is, i.isPlain = true) → Balanced is
  | [], _ => .nil
  | i :: _, h => .plain (h i (.head _)) (Balanced.all_plain fun j hj => h j (.tail _ hj))

theorem wellNested_plain {i : Instr} (h : i.isPlain = true) (f : Frame) (fs : List Frame)
    (is : List Instr) : wellNested (f :: fs) (i :: is) = wellNested (f :: fs) is := by
  cases i <;> simp [Instr.isPlain] at h <;> simp [wellNested]

theorem wellNested_balanced {xs : List Instr} (hx : Balanced xs) :
    ∀ (f : Frame) (fs : List Frame) (rest : List Instr),
      wellNested (f :: fs) (xs ++ rest) = wellNested (f :: fs) rest := by
  induction hx with
  | nil => intro f fs rest; rfl
  | plain hi _ ih =>
    intro f fs rest
    rw [List.cons_append, wellNested_plain hi, ih]
  | ifThen _ _ iht ih =>
    intro f fs rest
    simp only [List.cons_append, List.append_assoc, wellNested, iht, ih]
  | ifElse _ _ _ iht ihe ih =>
    intro f fs rest
    simp only [List.cons_append, List.append_assoc, wellNested, iht, ihe, ih]

/-! ## Execution -/

inductive Val
  | i32 (v : BitVec 32)
  | i64 (v : BitVec 64)
  deriving DecidableEq, Repr

/-- A call made, with its arguments in order. -/
structure Event where
  func : Nat
  args : List Val
  deriving DecidableEq, Repr

/-- The functions that can be called: how many arguments each takes, and what it returns (`none`:
the call traps). -/
structure Env where
  arity : Nat → Nat
  result : Nat → List Val → Option (List Val)

inductive Mode
  | exec
  /-- Skipping an arm, `depth` constructs deep in it; `toElse` if its `else` resumes. -/
  | skip (depth : Nat) (toElse : Bool)
  | trapped
  | stuck
  deriving DecidableEq, Repr

structure Cfg where
  mode : Mode
  stack : List Val
  trace : List Event
  deriving DecidableEq, Repr

def Cfg.push (c : Cfg) (v : Val) : Cfg := { c with stack := v :: c.stack }

def Cfg.to (c : Cfg) (m : Mode) : Cfg := { c with mode := m }

/-- A call: pops the arguments, records the event, pushes the results. -/
def Cfg.call (E : Env) (c : Cfg) (f : Nat) : Cfg :=
  if c.stack.length < E.arity f then c.to .stuck
  else
    let args := (c.stack.take (E.arity f)).reverse
    let trace := c.trace ++ [⟨f, args⟩]
    match E.result f args with
    | some vs => ⟨.exec, vs.reverse ++ c.stack.drop (E.arity f), trace⟩
    | none => ⟨.trapped, c.stack, trace⟩

/-- An instruction in execution. -/
def execInstr (E : Env) (locals : List Val) (c : Cfg) : Instr → Cfg
  | .localGet i =>
    match locals[i]? with
    | some v => c.push v
    | none => c.to .stuck
  | .i32Const v => c.push (.i32 (BitVec.ofInt 32 v))
  | .i64Const v => c.push (.i64 (BitVec.ofInt 64 v))
  | .i64Eq =>
    match c.stack with
    | .i64 a :: .i64 b :: rest => { c with stack := .i32 (if a = b then 1 else 0) :: rest }
    | _ => c.to .stuck
  | .call f => c.call E f
  | .if_ =>
    match c.stack with
    | .i32 v :: rest => ⟨if v = 0 then .skip 0 true else .exec, rest, c.trace⟩
    | _ => c.to .stuck
  | .else_ => c.to (.skip 0 false)
  | .end_ => c

/-- An instruction in a skipped arm. -/
def skipInstr (c : Cfg) (depth : Nat) (toElse : Bool) : Instr → Cfg
  | .if_ => c.to (.skip (depth + 1) toElse)
  | .else_ => if depth = 0 ∧ toElse then c.to .exec else c
  | .end_ => if depth = 0 then c.to .exec else c.to (.skip (depth - 1) toElse)
  | _ => c

def step (E : Env) (locals : List Val) (c : Cfg) (i : Instr) : Cfg :=
  match c.mode with
  | .exec => execInstr E locals c i
  | .skip depth toElse => skipInstr c depth toElse i
  | .trapped | .stuck => c

def run (E : Env) (locals : List Val) (c : Cfg) (is : List Instr) : Cfg :=
  is.foldl (step E locals) c

section
variable (E : Env) (locals : List Val)

@[simp] theorem run_nil (c : Cfg) : run E locals c [] = c := rfl

@[simp] theorem run_cons (c : Cfg) (i : Instr) (is : List Instr) :
    run E locals c (i :: is) = run E locals (step E locals c i) is := rfl

theorem run_append (c : Cfg) (is js : List Instr) :
    run E locals c (is ++ js) = run E locals (run E locals c is) js :=
  List.foldl_append

theorem run_trapped (s : List Val) (t : List Event) (is : List Instr) :
    run E locals ⟨.trapped, s, t⟩ is = ⟨.trapped, s, t⟩ := by
  induction is with
  | nil => rfl
  | cons i is ih => exact ih

theorem run_stuck (s : List Val) (t : List Event) (is : List Instr) :
    run E locals ⟨.stuck, s, t⟩ is = ⟨.stuck, s, t⟩ := by
  induction is with
  | nil => rfl
  | cons i is ih => exact ih

/-- Balanced code in a skipped arm leaves no mark. -/
theorem run_skip {xs : List Instr} (hx : Balanced xs) : ∀ (d : Nat) (b : Bool) (s : List Val)
    (t : List Event), run E locals ⟨.skip d b, s, t⟩ xs = ⟨.skip d b, s, t⟩ := by
  induction hx with
  | nil => intro d b s t; rfl
  | @plain i is hi _ ih =>
    intro d b s t
    have hs : skipInstr ⟨.skip d b, s, t⟩ d b i = ⟨.skip d b, s, t⟩ := by
      cases i <;> simp [Instr.isPlain] at hi <;> rfl
    simpa [step, hs] using ih d b s t
  | ifThen _ _ iht ih =>
    intro d b s t
    simp [run_append, step, skipInstr, Cfg.to, iht, ih]
  | ifElse _ _ _ iht ihe ih =>
    intro d b s t
    simp [run_append, step, skipInstr, Cfg.to, iht, ihe, ih]

/-- A configuration in execution, or one that stopped. -/
def Cfg.Live (c : Cfg) : Prop := c.mode = .exec ∨ c.mode = .trapped ∨ c.mode = .stuck

theorem execInstr_live {i : Instr} (hi : i.isPlain = true) {c : Cfg} (hc : c.mode = .exec) :
    (execInstr E locals c i).Live := by
  cases i <;> simp [Instr.isPlain] at hi <;> simp only [execInstr]
  case localGet i => split <;> simp [Cfg.Live, Cfg.push, Cfg.to, hc]
  case i32Const => simp [Cfg.Live, Cfg.push, hc]
  case i64Const => simp [Cfg.Live, Cfg.push, hc]
  case i64Eq => split <;> simp [Cfg.Live, Cfg.to, hc]
  case call f =>
    unfold Cfg.call
    split
    · simp [Cfg.Live, Cfg.to]
    · dsimp only
      split <;> simp [Cfg.Live]

theorem step_end {c : Cfg} (hc : c.Live) : step E locals c .end_ = c := by
  rcases hc with h | h | h <;> simp [step, h, execInstr]

/-- After the first arm, the second is skipped. -/
theorem run_else {c : Cfg} (hc : c.Live) {e : List Instr} (he : Balanced e) (is : List Instr) :
    run E locals c (.else_ :: (e ++ .end_ :: is)) = run E locals c is := by
  obtain ⟨m, s, t⟩ := c
  rcases hc with h | h | h <;> simp only at h <;> subst h
  · simp [run_append, step, execInstr, Cfg.to, run_skip E locals he, skipInstr]
  · rw [run_trapped, run_trapped]
  · rw [run_stuck, run_stuck]

theorem run_ifThen_of_live {t : List Instr} (ht : Balanced t) (v : BitVec 32) (s : List Val)
    (tr : List Event) (hl : (run E locals ⟨.exec, s, tr⟩ t).Live) (is : List Instr) :
    run E locals ⟨.exec, .i32 v :: s, tr⟩ (.if_ :: (t ++ .end_ :: is)) =
      run E locals (if v = 0 then ⟨.exec, s, tr⟩ else run E locals ⟨.exec, s, tr⟩ t) is := by
  rw [run_cons, run_append, run_cons]
  by_cases hv : v = 0
  · simp [hv, step, execInstr, run_skip E locals ht, skipInstr, Cfg.to]
  · simp only [step, execInstr, hv, ↓reduceIte]
    exact congrArg (run E locals · is) (step_end E locals hl)

theorem run_ifElse_of_live {t e : List Instr} (ht : Balanced t) (he : Balanced e) (v : BitVec 32)
    (s : List Val) (tr : List Event) (hlt : (run E locals ⟨.exec, s, tr⟩ t).Live)
    (hle : (run E locals ⟨.exec, s, tr⟩ e).Live) (is : List Instr) :
    run E locals ⟨.exec, .i32 v :: s, tr⟩ (.if_ :: (t ++ .else_ :: (e ++ .end_ :: is))) =
      run E locals
        (if v = 0 then run E locals ⟨.exec, s, tr⟩ e else run E locals ⟨.exec, s, tr⟩ t) is := by
  rw [run_cons, run_append]
  by_cases hv : v = 0
  · simp only [hv, step, execInstr, run_skip E locals ht, ↓reduceIte]
    rw [run_cons, run_append, run_cons]
    exact congrArg (run E locals · is) (step_end E locals hle)
  · simp only [step, execInstr, hv, ↓reduceIte]
    exact run_else E locals hlt he is

/-- A configuration about to run an `if` takes one of its arms or is stuck. -/
theorem step_if_cases {c : Cfg} (hc : c.mode = .exec) :
    (∃ v s, c = ⟨.exec, .i32 v :: s, c.trace⟩) ∨
      step E locals c .if_ = ⟨.stuck, c.stack, c.trace⟩ := by
  obtain ⟨m, s, t⟩ := c
  simp only at hc
  subst hc
  match s with
  | .i32 v :: s => exact .inl ⟨v, s, rfl⟩
  | .i64 v :: s => exact .inr rfl
  | [] => exact .inr rfl

/-- Balanced code ends in execution or stopped. -/
theorem run_live {xs : List Instr} (hx : Balanced xs) :
    ∀ {c : Cfg}, c.Live → (run E locals c xs).Live := by
  have stopped : ∀ {c : Cfg} (is : List Instr), c.mode = .trapped ∨ c.mode = .stuck →
      (run E locals c is).Live := by
    intro ⟨m, s, t⟩ is h
    rcases h with h | h <;> simp only at h <;> subst h
    · exact .inr (.inl (by rw [run_trapped]))
    · exact .inr (.inr (by rw [run_stuck]))
  induction hx with
  | nil => intro c hc; exact hc
  | @plain i is hi _ ih =>
    intro c hc
    rcases hc with hc | hc
    · rw [run_cons]
      apply ih
      simpa [step, hc] using execInstr_live E locals hi hc
    · exact stopped _ hc
  | ifThen ht _ iht ih =>
    intro c hc
    rcases hc with hc | hc
    · rcases step_if_cases E locals hc with ⟨v, s, hs⟩ | hs
      · rw [hs, run_ifThen_of_live E locals ht v s _ (iht (.inl rfl))]
        apply ih
        split
        · exact .inl rfl
        · exact iht (.inl rfl)
      · rw [run_cons, hs]
        exact stopped _ (.inr rfl)
    · exact stopped _ hc
  | ifElse ht he _ iht ihe ih =>
    intro c hc
    rcases hc with hc | hc
    · rcases step_if_cases E locals hc with ⟨v, s, hs⟩ | hs
      · rw [hs, run_ifElse_of_live E locals ht he v s _ (iht (.inl rfl)) (ihe (.inl rfl))]
        apply ih
        split
        · exact ihe (.inl rfl)
        · exact iht (.inl rfl)
      · rw [run_cons, hs]
        exact stopped _ (.inr rfl)
    · exact stopped _ hc

/-- **An `if` runs its body when the condition is not zero.** -/
theorem run_if {t : List Instr} (ht : Balanced t) (v : BitVec 32) (s : List Val) (tr : List Event)
    (is : List Instr) :
    run E locals ⟨.exec, .i32 v :: s, tr⟩ (.if_ :: (t ++ .end_ :: is)) =
      run E locals (if v = 0 then ⟨.exec, s, tr⟩ else run E locals ⟨.exec, s, tr⟩ t) is :=
  run_ifThen_of_live E locals ht v s tr (run_live E locals ht (.inl rfl)) is

/-- **An `if` with an `else` runs one of its arms.** -/
theorem run_ite {t e : List Instr} (ht : Balanced t) (he : Balanced e) (v : BitVec 32)
    (s : List Val) (tr : List Event) (is : List Instr) :
    run E locals ⟨.exec, .i32 v :: s, tr⟩ (.if_ :: (t ++ .else_ :: (e ++ .end_ :: is))) =
      run E locals
        (if v = 0 then run E locals ⟨.exec, s, tr⟩ e else run E locals ⟨.exec, s, tr⟩ t) is :=
  run_ifElse_of_live E locals ht he v s tr (run_live E locals ht (.inl rfl))
    (run_live E locals he (.inl rfl)) is

end

end WasmCode
