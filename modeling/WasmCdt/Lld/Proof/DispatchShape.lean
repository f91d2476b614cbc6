import WasmCdt.Lld.Proof.DispatchCode

/-!
# When the emitted `apply` is well-formed

`createDispatchFunction_valid_iff`: on linked input (`Linked`: every stub symbol and
`wasm_assert_code` are there) the emission succeeds, and the bytes are a well-formed function body
exactly when no object defines `pre_dispatch`, whose `if` is never closed.
-/

namespace Lld

open WasmCode Leb128 Cdt

/-! ## Emission succeeds on linked input -/

/-- The linked strings have the form their attributes are written in, and their stubs exist. -/
structure Linked (S : Symtab) : Prop where
  assert : ∃ idx, assertIdx S = some idx
  action : ∀ str ∈ actions S, (S.find (afterColon str)).isSome
  notify : ∀ str ∈ notifs S, ∃ code rest, splitNotify str = .ok (code, rest) ∧
    (S.find (afterColon rest)).isSome

/-- Every handler of the map has its stub. -/
def StubsFound (S : Symtab) (m : Handlers) : Prop :=
  ∀ g ∈ m, ∀ str ∈ g.2, (S.find (afterColon str)).isSome

theorem createIfs_ok {S : Symtab} : ∀ {strs : List Text} (needElse : Bool),
    (∀ str ∈ strs, (S.find (afterColon str)).isSome) → ∃ os, createIfs S strs needElse = .ok os
  | [], _, _ => ⟨_, rfl⟩
  | str :: strs, needElse, h => by
    obtain ⟨sym, hsym⟩ := Option.isSome_iff_exists.1 (h str (.head _))
    obtain ⟨os, hos⟩ := createIfs_ok true fun s hs => h s (.tail _ hs)
    exact ⟨_, by simp only [createIfs, createIf, lookup, hsym, hos, bind, Except.bind]; rfl⟩

theorem push_stubsFound {S : Symtab} (code : Text) {rest : Text}
    (hr : (S.find (afterColon rest)).isSome) : ∀ {m : Handlers}, StubsFound S m →
      StubsFound S (m.push code rest)
  | [], _ => by simp [Handlers.push, StubsFound, hr]
  | (k, v) :: m, h => by
    rw [Handlers.push]
    split
    · intro g hg str hstr
      rcases List.mem_cons.1 hg with rfl | hg
      · rcases List.mem_append.1 hstr with hstr | hstr
        · exact h (k, v) (.head _) str hstr
        · exact List.mem_singleton.1 hstr ▸ hr
      · exact h g (.tail _ hg) str hstr
    · split
      · intro g hg str hstr
        rcases List.mem_cons.1 hg with rfl | hg
        · exact List.mem_singleton.1 hstr ▸ hr
        · exact h g hg str hstr
      · intro g hg str hstr
        rcases List.mem_cons.1 hg with rfl | hg
        · exact h (k, v) (.head _) str hstr
        · exact push_stubsFound code hr (fun g hg => h g (.tail _ hg)) g hg str hstr

theorem groupHandlers_ok {S : Symtab} : ∀ {strs : List Text} {m : Handlers},
    (∀ str ∈ strs, ∃ code rest, splitNotify str = .ok (code, rest) ∧
      (S.find (afterColon rest)).isSome) → StubsFound S m →
    ∃ m', groupHandlers strs m = .ok m' ∧ StubsFound S m'
  | [], m, _, hm => ⟨m, rfl, hm⟩
  | str :: strs, m, h, hm => by
    obtain ⟨code, rest, hsplit, hr⟩ := h str (.head _)
    obtain ⟨m', hm', hs⟩ := groupHandlers_ok (fun s hs => h s (.tail _ hs))
      (push_stubsFound code hr hm)
    refine ⟨m', ?_, hs⟩
    rw [groupHandlers, hsplit]
    exact hm'

theorem createGroups_ok {S : Symtab} : ∀ {m : Handlers} (needElse : Bool), StubsFound S m →
    ∃ os, createGroups S m needElse = .ok os
  | [], _, _ => ⟨_, rfl⟩
  | (code, strs) :: m, needElse, h => by
    obtain ⟨ifs, hifs⟩ := createIfs_ok false (h (code, strs) (.head _))
    obtain ⟨os, hos⟩ := createGroups_ok true fun g hg => h g (.tail _ hg)
    exact ⟨_, by simp only [createGroups, hifs, hos, bind, Except.bind]; rfl⟩

theorem mem_of_lookup {m : Handlers} {k : Text} {v : List Text} (h : m.lookup k = some v) :
    (k, v) ∈ m := by
  induction m with
  | nil => simp at h
  | cons g m ih =>
    rw [List.lookup_cons] at h
    split at h
    · rename_i hk
      cases h
      rw [eq_of_beq hk]
      exact .head _
    · exact .tail _ (ih h)

theorem createNotifyDispatch_ok {S : Symtab} (hS : Linked S) :
    ∃ os, createNotifyDispatch S = .ok os := by
  obtain ⟨m, hm, hs⟩ := groupHandlers_ok hS.notify (m := []) (by simp [StubsFound])
  obtain ⟨gs, hgs⟩ := createGroups_ok (m := groupsOf m) false
    fun g hg => hs g (List.mem_filter.1 hg).1
  obtain ⟨ws, hws⟩ : ∃ ws, createIfs S (wildOf m) false = .ok ws := by
    refine createIfs_ok false fun str hstr => ?_
    unfold wildOf at hstr
    cases hw : m.lookup star with
    | none => simp [hw] at hstr
    | some v => exact hs _ (mem_of_lookup hw) str (by simpa [hw] using hstr)
  unfold groupsOf at hgs
  unfold wildOf at hws
  exact ⟨_, by simp only [createNotifyDispatch, hm, hgs, hws, bind, Except.bind]; rfl⟩

theorem createActionDispatch_ok {S : Symtab} (hS : Linked S) :
    ∃ os, createActionDispatch S = .ok os := by
  obtain ⟨idx, hidx⟩ := hS.assert
  obtain ⟨ifs, hifs⟩ := createIfs_ok false hS.action
  exact ⟨_, by
    simp only [createActionDispatch, hifs, writeNoAction, hidx, bind, Except.bind]; rfl⟩

theorem bodyContent_ok {S : Symtab} (hS : Linked S) : ∃ body, bodyContent S = .ok body := by
  obtain ⟨idx, hidx⟩ := hS.assert
  obtain ⟨act, hact⟩ := createActionDispatch_ok hS
  obtain ⟨notif, hnotif⟩ := createNotifyDispatch_ok hS
  obtain ⟨preElse, hpre⟩ : ∃ os, writePreElse S = .ok os := by
    unfold writePreElse
    cases S.find preName with
    | none => exact ⟨_, rfl⟩
    | some _ => rw [hidx]; exact ⟨_, rfl⟩
  exact ⟨_, by simp only [bodyContent, hact, hnotif, hpre, bind, Except.bind]; rfl⟩

/-! ## The immediates fit -/

theorem i64Const_fits (v : BitVec 64) : (Instr.i64Const v.toInt).Fits :=
  ⟨by simpa using v.le_toInt, by simpa using v.toInt_lt⟩

theorem test_fits {loc : Nat} (hloc : loc < 2 ^ 32) (a : Arm) : ∀ i ∈ a.test loc, i.Fits := by
  intro i hi
  simp only [Arm.test, List.mem_cons, List.not_mem_nil, or_false] at hi
  rcases hi with rfl | rfl | rfl
  · exact i64Const_fits a.key
  · exact hloc
  · trivial

theorem arms_fits {loc : Nat} (hloc : loc < 2 ^ 32) : ∀ {as : List Arm}
    {tail : Option (List Instr)}, (∀ a ∈ as, ∀ i ∈ a.body, i.Fits) →
    (∀ t, tail = some t → ∀ i ∈ t, i.Fits) → ∀ i ∈ arms loc as tail, i.Fits
  | [], none, _, _ => by simp [arms]
  | [], some t, _, ht => ht t rfl
  | [a], none, h, _ => by
    intro i hi
    simp only [arms, List.mem_append, List.mem_cons, List.not_mem_nil, or_false] at hi
    rcases hi with hi | rfl | hi | rfl
    · exact test_fits hloc a i hi
    · trivial
    · exact h a (.head _) i hi
    · trivial
  | [a], some t, h, ht => by
    intro i hi
    simp only [arms, Option.getD_some, List.mem_append, List.mem_cons, List.not_mem_nil,
      or_false] at hi
    rcases hi with hi | rfl | hi | rfl | hi | rfl
    · exact test_fits hloc a i hi
    · trivial
    · exact h a (.head _) i hi
    · trivial
    · exact ht t rfl i hi
    · trivial
  | a :: b :: as, tail, h, ht => by
    intro i hi
    rw [arms] at hi
    simp only [List.mem_append, List.mem_cons, List.not_mem_nil, or_false] at hi
    rcases hi with hi | rfl | hi | rfl | hi | rfl
    · exact test_fits hloc a i hi
    · trivial
    · exact h a (.head _) i hi
    · trivial
    · exact arms_fits hloc (fun c hc => h c (.tail _ hc)) ht i hi
    · trivial
    · simp

theorem handlerArms_fits (S : Symtab) (strs : List Text) {tail : Option (List Instr)}
    (ht : ∀ t, tail = some t → ∀ i ∈ t, i.Fits) : ∀ i ∈ handlerArms S strs tail, i.Fits := by
  refine arms_fits (by norm_num) (fun a ha => ?_) ht
  obtain ⟨str, -, rfl⟩ := List.mem_map.1 ha
  intro i hi
  simp only [ifArm, stubCall, List.mem_cons, List.not_mem_nil, or_false] at hi
  rcases hi with rfl | rfl | rfl
  · exact Nat.two_pow_pos 32
  · exact Nat.one_lt_two_pow (by norm_num)
  · exact stubIndex_lt S str

theorem assertCall_fits {idx : Nat} (hidx : idx < 2 ^ 32) (code : BitVec 64) :
    ∀ i ∈ assertCall idx code, i.Fits := by
  intro i hi
  simp only [assertCall, List.mem_cons, List.not_mem_nil, or_false] at hi
  rcases hi with rfl | rfl | rfl
  · exact ⟨by norm_num, by norm_num⟩
  · exact i64Const_fits code
  · exact hidx

theorem hookCall_fits (S : Symtab) (name : Text) : ∀ i ∈ hookCall S name, i.Fits := by
  unfold hookCall
  split
  · rename_i sym _
    intro i hi
    simp only [List.mem_cons, List.not_mem_nil, or_false] at hi
    rcases hi with rfl | rfl | rfl | rfl <;> simp only [Instr.Fits]
    · norm_num
    · norm_num
    · norm_num
    · exact sym.index_lt
  · simp

theorem ctorsCode_fits (S : Symtab) : ∀ i ∈ ctorsCode S, i.Fits := by
  unfold ctorsCode
  split
  · rename_i sym _
    split
    · simpa [Instr.Fits] using sym.index_lt
    · simp
  · simp

theorem dtorsCode_fits (S : Symtab) : ∀ i ∈ dtorsCode S, i.Fits := by
  unfold dtorsCode
  split
  · rename_i sym _
    split
    · simpa [Instr.Fits] using sym.index_lt
    · simp
  · simp

theorem notifyCode_fits (S : Symtab) (m : Handlers) : ∀ i ∈ notifyCode S m, i.Fits := by
  refine arms_fits (by norm_num) (fun a ha => ?_) (fun t ht => ?_)
  · obtain ⟨g, -, rfl⟩ := List.mem_map.1 ha
    exact handlerArms_fits S g.2 (by simp)
  · unfold wildCode at ht
    split at ht
    · cases ht
    · cases ht
      exact handlerArms_fits S _ (by simp)

theorem dispatchCode_fits (S : Symtab) (m : Handlers) {idx : Nat} (hidx : idx < 2 ^ 32) :
    ∀ i ∈ dispatchCode S m idx, i.Fits := by
  have hact : ∀ i ∈ actionCode S idx, i.Fits :=
    handlerArms_fits S _ fun t ht => Option.some.inj ht ▸ assertCall_fits hidx _
  intro i hi
  simp only [dispatchCode, mainCode, List.mem_append, List.mem_cons, List.not_mem_nil,
    or_false] at hi
  rcases hi with (((rfl | rfl | rfl) | rfl | hi | rfl | hi | rfl) | hi) | hi
  · exact Nat.two_pow_pos 32
  · exact Nat.one_lt_two_pow (by norm_num)
  · trivial
  · trivial
  · exact hact i hi
  · trivial
  · exact notifyCode_fits S m i hi
  · trivial
  · exact hookCall_fits S _ i hi
  · exact dtorsCode_fits S i hi

theorem bodyInstrs_fits (S : Symtab) (m : Handlers) {idx : Nat} (hidx : idx < 2 ^ 32) :
    ∀ i ∈ bodyInstrs S m idx, i.Fits := by
  intro i hi
  unfold bodyInstrs at hi
  split at hi
  · simp only [List.mem_append, List.mem_cons, List.not_mem_nil, or_false] at hi
    rcases hi with (hi | hi) | rfl | hi | rfl | hi | rfl
    · exact ctorsCode_fits S i hi
    · exact hookCall_fits S _ i hi
    · trivial
    · exact dispatchCode_fits S m hidx i hi
    · trivial
    · exact assertCall_fits hidx _ i hi
    · trivial
  · simp only [List.mem_append, List.mem_cons, List.not_mem_nil, or_false] at hi
    rcases hi with (hi | hi) | rfl
    · exact ctorsCode_fits S i hi
    · exact dispatchCode_fits S m hidx i hi
    · trivial

/-! ## Nesting -/

/-- Without `pre_dispatch` the body closes everything it opens. -/
theorem bodyInstrs_nested {S : Symtab} (hpre : S.find preName = none) (m : Handlers) (idx : Nat) :
    wellNested [.func] (bodyInstrs S m idx) = true := by
  simp only [bodyInstrs, hpre]
  rw [wellNested_balanced ((Balanced.all_plain (ctorsCode_plain S)).append
    (dispatchCode_balanced S m idx))]
  rfl

/-- Under `pre_dispatch` the last `end` closes the hook's `if`, and the function stays open. -/
theorem bodyInstrs_open {S : Symtab} {sym : FunctionSymbol} (hpre : S.find preName = some sym)
    (m : Handlers) (idx : Nat) : wellNested [.func] (bodyInstrs S m idx) = false := by
  simp only [bodyInstrs, hpre]
  rw [wellNested_balanced ((Balanced.all_plain (ctorsCode_plain S)).append
    (.all_plain (hookCall_plain S _)))]
  simp only [wellNested]
  rw [wellNested_balanced (dispatchCode_balanced S m idx)]
  simp only [wellNested]
  rw [wellNested_balanced (.all_plain (assertCall_plain idx _))]
  rfl

/-- Below the limit of the size field only the body decides. -/
theorem validFunc_sized {body : List UInt8} (h : body.length < 2 ^ 32) :
    validFunc (encodeU body.length ++ body) = validBody body := by
  unfold validFunc decodeFunc
  rw [decodeU_encodeU _ _ h]
  simp only [↓reduceIte]
  rfl

/-- An entry whose size field does not hold its size is not well-formed. -/
theorem validFunc_size {body : List UInt8} (h : validFunc (encodeU (body.length % 2 ^ 32) ++ body) =
    true) : body.length < 2 ^ 32 := by
  unfold validFunc decodeFunc at h
  rw [decodeU_encodeU _ _ (Nat.mod_lt _ (Nat.two_pow_pos 32))] at h
  simp only at h
  by_contra hge
  rw [if_neg fun he => by have := Nat.mod_lt body.length (Nat.two_pow_pos 32); omega] at h
  cases h

/-- **The emitted function is well-formed exactly without `pre_dispatch`**: its body for every
size, and with the size field in front as far as that field reaches. -/
theorem createDispatchFunction_valid_iff {S : Symtab} (hS : Linked S) :
    ∃ body, createDispatchFunction S = .ok (writeUleb128 (body.length % 2 ^ 32) ++ body) ∧
      (validBody body = true ↔ S.find preName = none) ∧
      (validFunc (writeUleb128 (body.length % 2 ^ 32) ++ body) = true ↔
        S.find preName = none ∧ body.length < 2 ^ 32) := by
  obtain ⟨body, hbody⟩ := bodyContent_ok hS
  refine ⟨body, by rw [createDispatchFunction, hbody]; rfl, ?_⟩
  obtain ⟨m, idx, -, hidx, rfl⟩ := bodyContent_eq hbody
  -- the bytes decode to the instructions, and only the nesting decides
  have hbody : validBody (encodeBody (bodyInstrs S m idx)) =
      wellNested [.func] (bodyInstrs S m idx) := by
    rw [validBody, decodeBody_encode (bodyInstrs_fits S m (assertIdx_lt hidx))]
  have hnested : wellNested [.func] (bodyInstrs S m idx) = true ↔ S.find preName = none := by
    cases hpre : S.find preName with
    | none => simp [bodyInstrs_nested hpre]
    | some sym => simp [bodyInstrs_open hpre]
  refine ⟨by rw [hbody, hnested], ?_⟩
  rw [← hnested, ← hbody]
  refine ⟨fun h => ?_, fun ⟨h, hlen⟩ => ?_⟩
  · have hlen := validFunc_size h
    exact ⟨by rwa [writeUleb128, Nat.mod_eq_of_lt hlen, validFunc_sized hlen] at h, hlen⟩
  · rwa [writeUleb128, Nat.mod_eq_of_lt hlen, validFunc_sized hlen]

/-- The symbols of `names`, in index order. -/
def symtabOf (objectFiles : List ObjFile) (names : List Text) : Symtab where
  objectFiles := objectFiles
  find n := if n ∈ names then
    some ⟨names.idxOf n % 2 ^ 32, Nat.mod_lt _ (Nat.two_pow_pos 32)⟩ else none
  symbols := names.length

/-- One action, under a `pre_dispatch`: the body ends inside the `if`. -/
theorem createDispatchFunction_pre_invalid :
    (createDispatchFunction (symtabOf [⟨["hi:stub".toList], []⟩]
      [assertName, preName, "stub".toList])).toOption.map validFunc = some false := by
  decide

/-- The same action without the hook. -/
theorem createDispatchFunction_valid_hi :
    ∃ body, createDispatchFunction (symtabOf [⟨["hi:stub".toList], []⟩]
        [assertName, "stub".toList]) = .ok (writeUleb128 (body.length % 2 ^ 32) ++ body) ∧
      validBody body = true := by
  obtain ⟨body, hbytes, hvalid, -⟩ := createDispatchFunction_valid_iff
    (S := symtabOf [⟨["hi:stub".toList], []⟩] [assertName, "stub".toList])
    ⟨⟨0, by decide⟩, by decide, by simp [notifs, symtabOf, notDispatched]⟩
  exact ⟨body, hbytes, hvalid.2 (by decide)⟩

end Lld
