import WasmCdt.Lld.Proof.Routing

/-!
# The functions that the emitted `apply` names

`Called S name`: the linker's input has `apply` call the function `name`, for one reason or another.

* `call_mem_arms`: the calls of a nest are those of its bodies and of its tail.
* `createDispatchFunction_calls`: the calls in the emitted body are those of the functions called.
-/

namespace Lld

open WasmCode Leb128 Cdt

/-- The reasons for a call. The assertion is called in every body that is emitted. -/
inductive Called (S : Symtab) : Text → Prop
  | action {str : Text} (h : str ∈ actions S) : Called S (afterColon str)
  | notify {notif code rest : Text} (h : notif ∈ notifs S) (hsplit : splitNotify notif = .ok (code, rest)) :
      Called S (afterColon rest)
  | assert : Called S assertName
  | pre (h : (S.find preName).isSome = true) : Called S preName
  | post (h : (S.find postName).isSome = true) : Called S postName
  | ctors (h : (S.find ctorsName).isSome = true) (hidx : S.indexOf ctorsName ≠ 0) : Called S ctorsName
  | dtors (h : (S.find dtorsName).isSome = true) (hidx : S.indexOf dtorsName ≠ 0)
      (hlt : S.indexOf dtorsName < S.symbols) : Called S dtorsName

/-! ## Nests -/

variable {S : Symtab} {m : Handlers} {i idx : Nat}

theorem call_mem_test {loc : Nat} (a : Arm) : .call i ∉ a.test loc := by
  simp [Arm.test]

theorem call_mem_arms {loc : Nat} {as : List Arm} {tail : Option (List Instr)} :
    .call i ∈ arms loc as tail ↔ (∃ a ∈ as, .call i ∈ a.body) ∨ ∃ t, tail = some t ∧ .call i ∈ t := by
  induction as with
  | nil =>
    cases tail with
    | none => simp [arms]
    | some t => simp [arms]
  | cons a as ih =>
    have hmore : .call i ∈ a.test loc ++ .if_ :: (a.body ++ .else_ :: (arms loc as tail ++ [.end_])) ↔
        .call i ∈ a.body ∨ .call i ∈ arms loc as tail := by
      simp [call_mem_test]
    cases as with
    | nil =>
      cases tail with
      | none => simp [arms, call_mem_test]
      | some t =>
        rw [arms, hmore, ih]
        · simp
        · simp
    | cons b bs =>
      rw [arms, hmore, ih, ← or_assoc]
      · simp
      · simp

theorem call_mem_handlerArms {strs : List Text} {tail : Option (List Instr)} :
    .call i ∈ handlerArms S strs tail ↔
      (∃ str ∈ strs, i = stubIndex S str) ∨ ∃ t, tail = some t ∧ .call i ∈ t := by
  unfold handlerArms
  rw [call_mem_arms]
  simp [ifArm, stubCall]

theorem call_mem_assertCall {code : BitVec 64} : .call i ∈ assertCall idx code ↔ i = idx := by
  simp [assertCall]

theorem call_mem_actionCode :
    .call i ∈ actionCode S idx ↔ (∃ str ∈ actions S, i = stubIndex S str) ∨ i = idx := by
  unfold actionCode
  rw [call_mem_handlerArms]
  simp [call_mem_assertCall]

theorem call_mem_wildCode :
    (∃ t, wildCode S m = some t ∧ .call i ∈ t) ↔ ∃ str ∈ wildOf m, i = stubIndex S str := by
  unfold wildCode
  by_cases hnil : wildOf m = []
  · simp [hnil]
  · simp [hnil, call_mem_handlerArms]

/-- The handlers of the codes and of the wildcard: all that the map has. -/
theorem call_mem_notifyCode (hm : m.Ok) :
    .call i ∈ notifyCode S m ↔ ∃ code, ∃ str ∈ (m.lookup code).getD [], i = stubIndex S str := by
  unfold notifyCode
  rw [call_mem_arms, call_mem_wildCode]
  constructor
  · intro h
    rcases h with ⟨a, ha, hcall⟩ | ⟨str, hstr, hi⟩
    · obtain ⟨g, hg, rfl⟩ := List.mem_map.1 ha
      obtain ⟨str, hstr, hi⟩ := (call_mem_handlerArms.1 hcall).resolve_right (by simp)
      refine ⟨g.1, str, ?_, hi⟩
      rw [lookup_of_mem hm.sorted (List.mem_filter.1 hg).1]
      exact hstr
    · exact ⟨star, str, hstr, hi⟩
  · intro h
    obtain ⟨code, str, hstr, hi⟩ := h
    by_cases hcode : code = star
    · subst hcode
      exact .inr ⟨str, hstr, hi⟩
    · cases hlook : m.lookup code with
      | none => simp [hlook] at hstr
      | some v =>
        rw [hlook, Option.getD_some] at hstr
        have hg : (code, v) ∈ groupsOf m := List.mem_filter.2 ⟨mem_of_lookup hlook, by simpa using hcode⟩
        refine .inl ⟨groupArm S (code, v), List.mem_map_of_mem hg, ?_⟩
        exact call_mem_handlerArms.2 (.inl ⟨str, hstr, hi⟩)

theorem mem_lookup_groupHandlers (hm : groupHandlers (notifs S) [] = .ok m) {code str : Text} :
    str ∈ (m.lookup code).getD [] ↔ ∃ notif ∈ notifs S, splitNotify notif = .ok (code, str) := by
  have hrest : ∀ notif, restOf code notif = some str ↔ splitNotify notif = .ok (code, str) := by
    intro notif
    unfold restOf
    cases splitNotify notif with
    | error e => simp
    | ok p =>
      simp only [Except.ok.injEq, Option.ite_none_right_eq_some, Option.some.injEq]
      constructor
      · intro h
        rw [← h.1, ← h.2]
      · intro h
        rw [h]
        exact ⟨rfl, rfl⟩
  rw [(groupHandlers_spec hm ⟨.nil, by simp⟩).2 code]
  simp only [List.lookup_nil, Option.getD_none, List.nil_append, List.mem_filterMap, hrest]

/-! ## The body -/

theorem indexOf_some {name : Text} {sym : FunctionSymbol} (h : S.find name = some sym) :
    S.indexOf name = sym.functionIndex := by
  unfold Symtab.indexOf
  rw [h]

theorem call_mem_hookCall {name : Text} :
    .call i ∈ hookCall S name ↔ (S.find name).isSome = true ∧ i = S.indexOf name := by
  unfold hookCall
  cases h : S.find name with
  | none => simp
  | some sym => simp [indexOf_some h]

theorem call_mem_ctorsCode :
    .call i ∈ ctorsCode S ↔
      ((S.find ctorsName).isSome = true ∧ S.indexOf ctorsName ≠ 0) ∧ i = S.indexOf ctorsName := by
  unfold ctorsCode
  cases h : S.find ctorsName with
  | none => simp
  | some sym =>
    rw [indexOf_some h]
    by_cases hidx : sym.functionIndex = 0
    · simp [hidx]
    · simp [hidx]

theorem call_mem_dtorsCode :
    .call i ∈ dtorsCode S ↔ ((S.find dtorsName).isSome = true ∧ S.indexOf dtorsName ≠ 0 ∧
      S.indexOf dtorsName < S.symbols) ∧ i = S.indexOf dtorsName := by
  unfold dtorsCode
  cases h : S.find dtorsName with
  | none => simp
  | some sym =>
    rw [indexOf_some h]
    by_cases hidx : sym.functionIndex ≠ 0 ∧ sym.functionIndex < S.symbols
    · simp [hidx]
    · simp [hidx]

theorem assertIdx_indexOf (h : assertIdx S = some idx) : idx = S.indexOf assertName := by
  unfold assertIdx at h
  unfold Symtab.indexOf
  cases hfind : S.find assertName with
  | none =>
    rw [hfind] at h
    cases h
  | some sym =>
    rw [hfind] at h
    simp only [Option.ite_none_right_eq_some, Option.some.injEq] at h
    exact h.2.symm

theorem call_mem_mainCode (hm : m.Ok) :
    .call i ∈ mainCode S m idx ↔ ((∃ str ∈ actions S, i = stubIndex S str) ∨ i = idx) ∨
      ∃ code, ∃ str ∈ (m.lookup code).getD [], i = stubIndex S str := by
  unfold mainCode
  simp [call_mem_actionCode, call_mem_notifyCode hm]

/-- The calls of the instructions are those of the functions called. -/
theorem call_mem_bodyInstrs (hm : groupHandlers (notifs S) [] = .ok m)
    (hidx : assertIdx S = some idx) :
    .call i ∈ bodyInstrs S m idx ↔ ∃ name, Called S name ∧ S.indexOf name = i := by
  have hok : m.Ok := (groupHandlers_spec hm ⟨.nil, by simp⟩).1
  have hbody : .call i ∈ bodyInstrs S m idx ↔
      .call i ∈ ctorsCode S ∨ .call i ∈ hookCall S preName ∨ .call i ∈ mainCode S m idx ∨
        .call i ∈ hookCall S postName ∨ .call i ∈ dtorsCode S := by
    have hassert : i = idx → .call i ∈ mainCode S m idx := fun h =>
      (call_mem_mainCode hok).2 (.inl (.inr h))
    unfold bodyInstrs dispatchCode
    cases hpre : S.find preName with
    | none =>
      have hnone : .call i ∉ hookCall S preName := by simp [call_mem_hookCall, hpre]
      simp [hnone]
    | some sym =>
      simp only [List.mem_append, List.mem_cons, call_mem_assertCall, reduceCtorEq, false_or,
        List.not_mem_nil, or_false]
      constructor
      · intro h
        rcases h with (hc | hp) | ((hm | hp) | hd) | ha
        · exact .inl hc
        · exact .inr (.inl hp)
        · exact .inr (.inr (.inl hm))
        · exact .inr (.inr (.inr (.inl hp)))
        · exact .inr (.inr (.inr (.inr hd)))
        · exact .inr (.inr (.inl (hassert ha)))
      · intro h
        rcases h with hc | hp | hm | hp | hd
        · exact .inl (.inl hc)
        · exact .inl (.inr hp)
        · exact .inr (.inl (.inl (.inl hm)))
        · exact .inr (.inl (.inl (.inr hp)))
        · exact .inr (.inl (.inr hd))
  rw [hbody, call_mem_ctorsCode, call_mem_hookCall, call_mem_mainCode hok, call_mem_hookCall,
    call_mem_dtorsCode, assertIdx_indexOf hidx]
  constructor
  · intro h
    rcases h with ⟨⟨hc, h0⟩, rfl⟩ | ⟨hp, rfl⟩ | ((⟨str, hstr, rfl⟩ | rfl) | ⟨code, str, hstr, rfl⟩) |
      ⟨hp, rfl⟩ | ⟨⟨hd, h0, hlt⟩, rfl⟩
    · exact ⟨_, .ctors hc h0, rfl⟩
    · exact ⟨_, .pre hp, rfl⟩
    · exact ⟨_, .action hstr, rfl⟩
    · exact ⟨_, .assert, rfl⟩
    · obtain ⟨notif, hnotif, hsplit⟩ := (mem_lookup_groupHandlers hm).1 hstr
      exact ⟨_, .notify hnotif hsplit, rfl⟩
    · exact ⟨_, .post hp, rfl⟩
    · exact ⟨_, .dtors hd h0 hlt, rfl⟩
  · intro h
    obtain ⟨name, hname, rfl⟩ := h
    cases hname with
    | action hstr => exact .inr (.inr (.inl (.inl (.inl ⟨_, hstr, rfl⟩))))
    | notify hnotif hsplit =>
      exact .inr (.inr (.inl (.inr ⟨_, _, (mem_lookup_groupHandlers hm).2 ⟨_, hnotif, hsplit⟩, rfl⟩)))
    | assert => exact .inr (.inr (.inl (.inl (.inr rfl))))
    | pre hp => exact .inr (.inl ⟨hp, rfl⟩)
    | post hp => exact .inr (.inr (.inr (.inl ⟨hp, rfl⟩)))
    | ctors hc h0 => exact .inl ⟨⟨hc, h0⟩, rfl⟩
    | dtors hd h0 hlt => exact .inr (.inr (.inr (.inr ⟨⟨hd, h0, hlt⟩, rfl⟩)))

/-! ## The functions called are there -/

theorem lookup_found {name : Text} {sym : FunctionSymbol} (h : lookup S name = .ok sym) :
    (S.find name).isSome = true := by
  unfold lookup at h
  cases hfind : S.find name with
  | none =>
    rw [hfind] at h
    cases h
  | some sym => rfl

theorem createIfs_found {strs : List Text} {needElse : Bool} {os : List UInt8}
    (h : createIfs S strs needElse = .ok os) : ∀ str ∈ strs, (S.find (afterColon str)).isSome = true := by
  induction strs generalizing needElse os with
  | nil => exact fun str hstr => nomatch hstr
  | cons str strs ih =>
    obtain ⟨os', hif, h⟩ := Link.bind_ok h
    obtain ⟨rest, hrest, -⟩ := Link.bind_ok h
    obtain ⟨sym, hsym, -⟩ := Link.bind_ok hif
    exact List.forall_mem_cons.2 ⟨lookup_found hsym, ih hrest⟩

theorem createGroups_found {needElse : Bool} {os : List UInt8}
    (h : createGroups S m needElse = .ok os) : StubsFound S m := by
  induction m generalizing needElse os with
  | nil => exact fun g hg => nomatch hg
  | cons g m ih =>
    obtain ⟨ifs, hifs, h⟩ := Link.bind_ok h
    obtain ⟨rest, hrest, -⟩ := Link.bind_ok h
    exact List.forall_mem_cons.2 ⟨createIfs_found hifs, ih hrest⟩

theorem createNotifyDispatch_found {os : List UInt8} (h : createNotifyDispatch S = .ok os)
    {notif code rest : Text} (hnotif : notif ∈ notifs S) (hsplit : splitNotify notif = .ok (code, rest)) :
    (S.find (afterColon rest)).isSome = true := by
  obtain ⟨m, hm, h⟩ := Link.bind_ok h
  obtain ⟨gs, hgs, h⟩ := Link.bind_ok h
  obtain ⟨ws, hws, -⟩ := Link.bind_ok h
  have hmem : rest ∈ (m.lookup code).getD [] := (mem_lookup_groupHandlers hm).2 ⟨notif, hnotif, hsplit⟩
  by_cases hcode : code = star
  · subst hcode
    exact createIfs_found hws rest hmem
  · cases hlook : m.lookup code with
    | none => simp [hlook] at hmem
    | some v =>
      rw [hlook, Option.getD_some] at hmem
      have hg : (code, v) ∈ groupsOf m := List.mem_filter.2 ⟨mem_of_lookup hlook, by simpa using hcode⟩
      exact createGroups_found hgs _ hg rest hmem

theorem called_found {body : List UInt8} (h : bodyContent S = .ok body) {name : Text}
    (hname : Called S name) : (S.find name).isSome = true := by
  obtain ⟨act, hact, h⟩ := Link.bind_ok h
  obtain ⟨notif, hnotif, -⟩ := Link.bind_ok h
  cases hname with
  | action hstr =>
    obtain ⟨ifs, hifs, -⟩ := Link.bind_ok hact
    exact createIfs_found hifs _ hstr
  | notify hmem hsplit => exact createNotifyDispatch_found hnotif hmem hsplit
  | assert =>
    obtain ⟨idx, hidx, -⟩ := createActionDispatch_eq hact
    unfold assertIdx at hidx
    cases hfind : S.find assertName with
    | none =>
      rw [hfind] at hidx
      cases hidx
    | some sym => rfl
  | pre h => exact h
  | post h => exact h
  | ctors h => exact h
  | dtors h => exact h

/-- **The calls in the emitted bytes** are those of the functions called, which are all there. -/
theorem createDispatchFunction_calls {bytes : List UInt8} (h : createDispatchFunction S = .ok bytes) :
    ∃ is, bytes = writeUleb128 ((encodeBody is).length % 2 ^ 32) ++ encodeBody is ∧
      (∀ i, .call i ∈ is ↔ ∃ name, Called S name ∧ S.indexOf name = i) ∧
      ∀ name, Called S name → (S.find name).isSome = true := by
  obtain ⟨body, hbody, h⟩ := Link.bind_ok h
  obtain ⟨m, idx, hm, hidx, rfl⟩ := bodyContent_eq hbody
  exact ⟨bodyInstrs S m idx, (Except.ok.inj h).symm, fun i => call_mem_bodyInstrs hm hidx,
    fun _ hname => called_found hbody hname⟩

end Lld
