import WasmCdt.Lld.Dispatch

/-!
# The instructions of `apply`

`bodyInstrs` is the instruction list behind the emitted bytes, with the handler lists as nests of
`arms`; `bodyContent_eq`: the emitted body is its binary form. `mainCode` (everything between the
hooks) is `Balanced`, so the rest of the development reasons on nests and never on bytes.
-/

namespace Lld

open WasmCode Leb128 Cdt

theorem Link.bind_ok {α β : Type} {x : Link α} {f : α → Link β} {b : β} (h : x >>= f = .ok b) :
    ∃ a, x = .ok a ∧ f a = .ok b := by
  cases x with
  | error e => cases h
  | ok a => exact ⟨a, rfl, h⟩

/-! ## Handlers as arms -/

/-- The index of the function named `name`. -/
def Symtab.indexOf (S : Symtab) (name : Text) : Nat :=
  match S.find name with
  | some sym => sym.functionIndex
  | none => 0

/-- The function index behind a linked string. -/
def stubIndex (S : Symtab) (str : Text) : Nat := S.indexOf (afterColon str)

/-- The call of a stub with `receiver` and `code`. -/
def stubCall (S : Symtab) (str : Text) : List Instr :=
  [.localGet 0, .localGet 1, .call (stubIndex S str)]

/-- A linked string `name:stub` as an arm of the comparison with `action`. -/
def ifArm (S : Symtab) (str : Text) : Arm := ⟨stringToName (beforeColon str), stubCall S str⟩

/-- The handlers of one list, as the nest on `action`. -/
def handlerArms (S : Symtab) (strs : List Text) (tail : Option (List Instr)) : List Instr :=
  arms 2 (strs.map (ifArm S)) tail

theorem createIf_eq {S : Symtab} {str : Text} {needElse : Bool} {os : List UInt8}
    (h : createIf S str needElse = .ok os) :
    os = encode ((if needElse then [.else_] else []) ++ (ifArm S str).test 2 ++
      .if_ :: stubCall S str) := by
  obtain ⟨sym, hsym, h⟩ := Link.bind_ok h
  have hidx : stubIndex S str = sym.functionIndex := by
    unfold lookup at hsym
    unfold stubIndex Symtab.indexOf
    cases hf : S.find (afterColon str) with
    | some sym' =>
      rw [hf] at hsym
      cases hsym
      rfl
    | none =>
      rw [hf] at hsym
      cases hsym
  cases h
  cases needElse <;>
    simp [encode, Instr.encode, Arm.test, ifArm, stubCall, hidx, writeU8, writeUleb128,
      encodeSLEB128, OPCODE_ELSE, OPCODE_I64_CONST, OPCODE_GET_LOCAL, OPCODE_I64_EQ, OPCODE_IF,
      OPCODE_CALL, emptyBlock]

theorem createIfs_eq {S : Symtab} : ∀ {strs : List Text} {needElse : Bool} {os : List UInt8},
    createIfs S strs needElse = .ok os →
    os = encode (openings 2 (strs.map (ifArm S)) needElse)
  | [], _, _, h => by cases h; rfl
  | str :: strs, needElse, os, h => by
    obtain ⟨o1, h1, h⟩ := Link.bind_ok h
    obtain ⟨o2, h2, h⟩ := Link.bind_ok h
    cases h
    rw [createIf_eq h1, createIfs_eq h2, ← encode_append]
    simp [openings, ifArm]

theorem writeEnds_eq (n : Nat) : writeEnds n = encode (List.replicate n .end_) := by
  induction n with
  | zero => rfl
  | succ n ih =>
    rw [writeEnds, List.replicate_succ, List.flatten_cons] at *
    rw [ih]
    rfl

/-- A handler list without a tail, closed. -/
theorem createIfs_ends {S : Symtab} {strs : List Text} {os : List UInt8}
    (h : createIfs S strs false = .ok os) :
    os ++ writeEnds strs.length = encode (handlerArms S strs none) := by
  rw [createIfs_eq h, writeEnds_eq, ← encode_append]
  cases strs with
  | nil => rfl
  | cons str strs =>
    have := openings_arms 2 none (ifArm S str) (strs.map (ifArm S))
    simp only [elseTail, List.append_nil, List.length_map] at this
    simp only [handlerArms, List.map_cons, List.length_cons, this]

/-! ## Actions -/

/-- A failed `wasm_assert_code`. -/
def assertCall (idx : Nat) (code : BitVec 64) : List Instr :=
  [.i32Const 0, .i64Const code.toInt, .call idx]

theorem writeAssert_eq (idx : Nat) (code : BitVec 64) :
    writeAssert idx code = encode (assertCall idx code) := by
  simp [writeAssert, assertCall, encode, Instr.encode, writeU8, writeUleb128, encodeSLEB128,
    OPCODE_I32_CONST, OPCODE_I64_CONST, OPCODE_CALL, encodeU, encodeULoop, encodeS, encodeSLoop]

def actionCode (S : Symtab) (idx : Nat) : List Instr :=
  handlerArms S (actions S) (some (assertCall idx WASM_ERROR_NO_ACTION))

theorem createActionDispatch_eq {S : Symtab} {os : List UInt8}
    (h : createActionDispatch S = .ok os) :
    ∃ idx, assertIdx S = some idx ∧ os = encode (actionCode S idx) := by
  obtain ⟨ifs, h1, h⟩ := Link.bind_ok h
  obtain ⟨tail, h2, h⟩ := Link.bind_ok h
  cases h
  unfold writeNoAction at h2
  split at h2
  · rename_i idx hidx
    cases h2
    refine ⟨idx, hidx, ?_⟩
    rw [createIfs_eq h1, writeAssert_eq, writeEnds_eq, actionCode, handlerArms]
    cases actions S with
    | nil => simp [openings, arms]
    | cons str strs =>
      have := openings_arms 2 (some (assertCall idx WASM_ERROR_NO_ACTION)) (ifArm S str)
        (strs.map (ifArm S))
      simp only [List.length_map] at this
      simp [← this, elseTail, encode, Instr.encode, writeU8, OPCODE_ELSE]
  · cases h2

/-! ## Notifications -/

/-- A code's group as an arm of the comparison with `code`. -/
def groupArm (S : Symtab) (g : Text × List Text) : Arm :=
  ⟨stringToRegid g.1, handlerArms S g.2 none⟩

/-- The codes' groups of a handler map, without the wildcard's. -/
def groupsOf (m : Handlers) : Handlers := m.filter (·.1 ≠ star)

/-- The wildcard's handlers. -/
def wildOf (m : Handlers) : List Text := (m.lookup star).getD []

/-- The wildcard's nest, if it has handlers. -/
def wildCode (S : Symtab) (m : Handlers) : Option (List Instr) :=
  if wildOf m = [] then none else some (handlerArms S (wildOf m) none)

def notifyCode (S : Symtab) (m : Handlers) : List Instr :=
  arms 1 ((groupsOf m).map (groupArm S)) (wildCode S m)

theorem createGroups_eq {S : Symtab} : ∀ {m : Handlers} {needElse : Bool} {os : List UInt8},
    createGroups S m needElse = .ok os →
    os = encode (openings 1 (m.map (groupArm S)) needElse)
  | [], _, _, h => by cases h; rfl
  | (code, strs) :: m, needElse, os, h => by
    obtain ⟨ifs, h1, h⟩ := Link.bind_ok h
    obtain ⟨rest, h2, h⟩ := Link.bind_ok h
    cases h
    rw [createGroups_eq h2]
    have hb := createIfs_ends h1
    cases needElse <;>
      simp [openings, groupArm, Arm.test, Instr.encode, ← hb, writeU8, writeUleb128,
        encodeSLEB128, OPCODE_ELSE, OPCODE_I64_CONST, OPCODE_GET_LOCAL, OPCODE_I64_EQ, OPCODE_IF,
        emptyBlock]

theorem createNotifyDispatch_eq {S : Symtab} {os : List UInt8}
    (h : createNotifyDispatch S = .ok os) :
    ∃ m, groupHandlers (notifs S) [] = .ok m ∧ os = encode (notifyCode S m) := by
  obtain ⟨m, hm, h⟩ := Link.bind_ok h
  obtain ⟨gs, h1, h⟩ := Link.bind_ok h
  obtain ⟨ws, h2, h⟩ := Link.bind_ok h
  cases h
  refine ⟨m, hm, ?_⟩
  have hw : ws ++ writeEnds (wildOf m).length = encode (handlerArms S (wildOf m) none) :=
    createIfs_ends h2
  have hg : gs = encode (openings 1 ((groupsOf m).map (groupArm S)) false) := createGroups_eq h1
  -- the wildcard's nest with the `else` before it
  have htail : (if wildOf m ≠ [] ∧ (groupsOf m).length > 0 then writeU8 OPCODE_ELSE else []) ++
      (ws ++ writeEnds (wildOf m).length) = encode (if (groupsOf m).length > 0 then
        elseTail (wildCode S m) else (wildCode S m).getD []) := by
    rw [hw]
    unfold wildCode
    by_cases hwild : wildOf m = []
    · simp [hwild, elseTail, handlerArms, arms]
    · by_cases hgrp : (groupsOf m).length > 0
      · simp [hwild, hgrp, elseTail, Instr.encode, writeU8, OPCODE_ELSE]
      · simp [hwild, hgrp]
  change gs ++ (if wildOf m ≠ [] ∧ (groupsOf m).length > 0 then writeU8 OPCODE_ELSE else []) ++
    ws ++ writeEnds (wildOf m).length ++ writeEnds (groupsOf m).length = _
  rw [List.append_assoc gs, List.append_assoc gs, List.append_assoc (ite _ _ _), htail, hg,
    writeEnds_eq, notifyCode, ← encode_append, ← encode_append]
  cases hgrp : groupsOf m with
  | nil => simp [openings, arms]
  | cons g gs' =>
    have := openings_arms 1 (wildCode S m) (groupArm S g) (gs'.map (groupArm S))
    simp only [List.length_map] at this
    simp only [List.map_cons, List.length_cons, ← this]
    simp

/-! ## The body -/

def ctorsCode (S : Symtab) : List Instr :=
  match S.find ctorsName with
  | some sym => if sym.functionIndex ≠ 0 then [.call sym.functionIndex] else []
  | none => []

def dtorsCode (S : Symtab) : List Instr :=
  match S.find dtorsName with
  | some sym =>
    if sym.functionIndex ≠ 0 ∧ sym.functionIndex < S.symbols then
      [.i32Const 0, .call sym.functionIndex]
    else []
  | none => []

/-- The call of a hook with `receiver`, `code` and `action`. -/
def hookCall (S : Symtab) (name : Text) : List Instr :=
  match S.find name with
  | some sym => [.localGet 0, .localGet 1, .localGet 2, .call sym.functionIndex]
  | none => []

/-- The dispatch proper: actions if `code` is `receiver`, notifications otherwise. -/
def mainCode (S : Symtab) (m : Handlers) (idx : Nat) : List Instr :=
  [.localGet 0, .localGet 1, .i64Eq] ++
    .if_ :: (actionCode S idx ++ .else_ :: (notifyCode S m ++ [.end_]))

/-- What follows the constructors, without the function's `end`. -/
def dispatchCode (S : Symtab) (m : Handlers) (idx : Nat) : List Instr :=
  mainCode S m idx ++ hookCall S postName ++ dtorsCode S

/-- The emitted instructions. Under `pre_dispatch` the dispatch stands in an `if` whose `end` is
not emitted. -/
def bodyInstrs (S : Symtab) (m : Handlers) (idx : Nat) : List Instr :=
  match S.find preName with
  | some _ =>
    ctorsCode S ++ hookCall S preName ++
      .if_ :: (dispatchCode S m idx ++ .else_ :: (assertCall idx WASM_ERROR_PRE_DISPATCH_FAIL ++
        [.end_]))
  | none => ctorsCode S ++ dispatchCode S m idx ++ [.end_]

theorem writeCtors_eq (S : Symtab) : writeCtors S = encode (ctorsCode S) := by
  unfold writeCtors ctorsCode
  cases S.find ctorsName with
  | none => rfl
  | some sym =>
    dsimp only
    split <;> simp [Instr.encode, writeU8, writeUleb128, OPCODE_CALL]

theorem writeDtors_eq (S : Symtab) : writeDtors S = encode (dtorsCode S) := by
  unfold writeDtors dtorsCode
  cases S.find dtorsName with
  | none => rfl
  | some sym =>
    dsimp only
    split <;> simp [Instr.encode, writeU8, writeUleb128, OPCODE_CALL, OPCODE_I32_CONST, encodeU,
      encodeULoop, encodeS, encodeSLoop]

theorem writePost_eq (S : Symtab) :
    writePost S = encode (hookCall S postName) := by
  unfold writePost hookCall
  cases S.find postName with
  | none => rfl
  | some sym =>
    simp [writeLocals, List.range_succ, Instr.encode, writeU8, writeUleb128, OPCODE_CALL,
      OPCODE_GET_LOCAL]

theorem writePre_eq {S : Symtab} {sym : FunctionSymbol}
    (h : S.find preName = some sym) :
    writePre S = encode (hookCall S preName ++ [.if_]) := by
  simp [writePre, hookCall, h, writeLocals, List.range_succ, Instr.encode, writeU8, writeUleb128,
    OPCODE_CALL, OPCODE_GET_LOCAL, OPCODE_IF, emptyBlock]

/-- **The emitted body is the binary form of `bodyInstrs`**, after the count of local
declarations. -/
theorem bodyContent_eq {S : Symtab} {body : List UInt8} (h : bodyContent S = .ok body) :
    ∃ m idx, groupHandlers (notifs S) [] = .ok m ∧ assertIdx S = some idx ∧
      body = encodeBody (bodyInstrs S m idx) := by
  obtain ⟨act, h1, h⟩ := Link.bind_ok h
  obtain ⟨notif, h2, h⟩ := Link.bind_ok h
  obtain ⟨preElse, h3, h⟩ := Link.bind_ok h
  cases h
  obtain ⟨idx, hidx, rfl⟩ := createActionDispatch_eq h1
  obtain ⟨m, hm, rfl⟩ := createNotifyDispatch_eq h2
  refine ⟨m, idx, hm, hidx, ?_⟩
  have hmain : writeLocals 2 ++ writeU8 OPCODE_I64_EQ ++ writeU8 OPCODE_IF ++ writeU8 0x40 ++
      encode (actionCode S idx) ++ writeU8 OPCODE_ELSE ++ encode (notifyCode S m) ++
      writeU8 OPCODE_END = encode (mainCode S m idx) := by
    simp [mainCode, writeLocals, List.range_succ, Instr.encode, writeU8, writeUleb128,
      OPCODE_GET_LOCAL, OPCODE_I64_EQ, OPCODE_IF, OPCODE_ELSE, OPCODE_END, emptyBlock]
  unfold bodyInstrs
  unfold writePreElse at h3
  cases hpre : S.find preName with
  | none =>
    simp only [hpre] at h3
    cases h3
    simp only [encodeBody, writePre, hpre, writeCtors_eq, writePost_eq, writeDtors_eq,
      List.append_nil, dispatchCode, encode_append, ← hmain, writeUleb128]
    simp [Instr.encode, writeU8, OPCODE_END]
  | some sym =>
    simp only [hpre, hidx] at h3
    cases h3
    simp only [encodeBody, writePre_eq hpre, writeCtors_eq, writePost_eq, writeDtors_eq,
      writeAssert_eq, dispatchCode, encode_append, encode_cons, ← hmain, writeUleb128]
    simp [Instr.encode, writeU8, OPCODE_ELSE, OPCODE_END]

/-! ## Ranges and nesting -/

theorem stubIndex_lt (S : Symtab) (str : Text) : stubIndex S str < 2 ^ 32 := by
  unfold stubIndex Symtab.indexOf
  split
  · exact FunctionSymbol.index_lt _
  · norm_num

theorem assertIdx_lt {S : Symtab} {idx : Nat} (h : assertIdx S = some idx) : idx < 2 ^ 32 := by
  unfold assertIdx at h
  split at h
  · rename_i sym _
    split at h
    · cases h; exact sym.index_lt
    · cases h
  · cases h

theorem stubCall_plain (S : Symtab) (str : Text) : ∀ i ∈ stubCall S str, i.isPlain = true := by
  simp [stubCall, Instr.isPlain]

theorem assertCall_plain (idx : Nat) (code : BitVec 64) :
    ∀ i ∈ assertCall idx code, i.isPlain = true := by
  simp [assertCall, Instr.isPlain]

theorem hookCall_plain (S : Symtab) (name : Text) : ∀ i ∈ hookCall S name, i.isPlain = true := by
  unfold hookCall
  split <;> simp [Instr.isPlain]

theorem ctorsCode_plain (S : Symtab) : ∀ i ∈ ctorsCode S, i.isPlain = true := by
  unfold ctorsCode
  split
  · split <;> simp [Instr.isPlain]
  · simp

theorem dtorsCode_plain (S : Symtab) : ∀ i ∈ dtorsCode S, i.isPlain = true := by
  unfold dtorsCode
  split
  · split <;> simp [Instr.isPlain]
  · simp

theorem ifArm_balanced (S : Symtab) (strs : List Text) :
    ∀ a ∈ strs.map (ifArm S), Balanced a.body := by
  intro a ha
  obtain ⟨str, -, rfl⟩ := List.mem_map.1 ha
  exact .all_plain (stubCall_plain S str)

theorem handlerArms_balanced (S : Symtab) (strs : List Text) {tail : Option (List Instr)}
    (ht : ∀ t, tail = some t → Balanced t) : Balanced (handlerArms S strs tail) :=
  arms_balanced 2 (ifArm_balanced S strs) ht

theorem actionCode_balanced (S : Symtab) (idx : Nat) : Balanced (actionCode S idx) :=
  handlerArms_balanced S _ fun _ h => Option.some.inj h ▸ .all_plain (assertCall_plain _ _)

theorem groupArm_balanced (S : Symtab) (m : Handlers) :
    ∀ a ∈ m.map (groupArm S), Balanced a.body := by
  intro a ha
  obtain ⟨g, -, rfl⟩ := List.mem_map.1 ha
  exact handlerArms_balanced S g.2 (by simp)

theorem wildCode_balanced (S : Symtab) (m : Handlers) :
    ∀ t, wildCode S m = some t → Balanced t := by
  intro t h
  unfold wildCode at h
  split at h
  · cases h
  · cases h
    exact handlerArms_balanced S _ (by simp)

theorem notifyCode_balanced (S : Symtab) (m : Handlers) : Balanced (notifyCode S m) :=
  arms_balanced 1 (groupArm_balanced S _) (wildCode_balanced S m)

theorem mainCode_balanced (S : Symtab) (m : Handlers) (idx : Nat) : Balanced (mainCode S m idx) :=
  (Balanced.all_plain (by simp [Instr.isPlain])).append
    (.ifElse (actionCode_balanced S idx) (notifyCode_balanced S m) .nil)

theorem dispatchCode_balanced (S : Symtab) (m : Handlers) (idx : Nat) :
    Balanced (dispatchCode S m idx) :=
  ((mainCode_balanced S m idx).append (.all_plain (hookCall_plain S _))).append
    (.all_plain (dtorsCode_plain S))

end Lld
