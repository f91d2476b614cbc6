import WasmCdt.Lld.Proof.DispatchRun
import WasmCdt.Cdt.Proof.Regid

/-!
# Which handler the emitted `apply` calls

The linked strings as the compiler writes them (`HandlerDecl`, `NotifyDecl`), and the handler that a
call of `apply` reaches, as a search of the declarations in link order:

* `apply_routes_action`: called with `code = receiver`, the first action whose name encodes
  `action`, else the assertion; otherwise no action's stub.
* `apply_routes_notify`: called with another `code`, among the handlers of the code if it has any,
  and else among the wildcards: a wildcard is out of reach of a code with handlers of its own
  (`apply_shadows_wildcard`).
-/

namespace Lld

open WasmCode Leb128 Cdt

/-! ## Searches of a list without duplicates -/

/-- Dropping repetitions does not change the first match. -/
theorem find?_notDispatched {p : Text → Bool} : ∀ {strs seen : List Text},
    (∀ s ∈ seen, p s = false) → (notDispatched strs seen).find? p = strs.find? p
  | [], _, _ => rfl
  | str :: strs, seen, h => by
    rw [notDispatched]
    split
    · rename_i hmem
      rw [find?_notDispatched h, List.find?_cons, h str hmem]
    · rw [List.find?_cons, List.find?_cons]
      cases hp : p str with
      | true => rfl
      | false =>
        exact find?_notDispatched fun s hs => by
          rcases List.mem_cons.1 hs with rfl | hs
          · exact hp
          · exact h s hs

theorem mem_of_mem_notDispatched {s : Text} : ∀ {strs seen : List Text},
    s ∈ notDispatched strs seen → s ∈ strs
  | [], _, h => h
  | str :: strs, seen, h => by
    rw [notDispatched] at h
    split at h
    · exact .tail _ (mem_of_mem_notDispatched h)
    · cases h with
      | head => exact .head _
      | tail _ h => exact .tail _ (mem_of_mem_notDispatched h)

/-! ## Linked strings -/

theorem beforeColon_append {name : Text} (h : ':' ∉ name) (stub : Text) :
    beforeColon (name ++ ':' :: stub) = name := by
  simp [beforeColon, Text.find_append h, Text.substr]

theorem afterColon_append {name : Text} (h : ':' ∉ name) (stub : Text) :
    afterColon (name ++ ':' :: stub) = stub := by
  simp [afterColon, Text.find_append h, List.drop_append]

/-- A handler as the compiler declares it: an action's name and the stub, in a linked string
`action:stub`. -/
structure HandlerDecl where
  action : Text
  stub : Text

def HandlerDecl.str (d : HandlerDecl) : Text := d.action ++ ':' :: d.stub

/-- The call of a declared stub. -/
def HandlerDecl.event (S : Symtab) (d : HandlerDecl) (receiver code : BitVec 64) : Event :=
  ⟨S.indexOf d.stub, [.i64 receiver, .i64 code]⟩

/-- What a list of handlers amounts to: the first that encodes `action`, else `tail`. -/
def firstMatch (S : Symtab) (decls : List HandlerDecl) (tail : List Event)
    (receiver code action : BitVec 64) : List Event :=
  match decls.find? (fun d => stringToName d.action = action) with
  | some d => [d.event S receiver code]
  | none => tail

theorem handlerEvents_map {S : Symtab} {tail : List Event} {receiver code action : BitVec 64} :
    ∀ {decls : List HandlerDecl}, (∀ d ∈ decls, ':' ∉ d.action) →
    handlerEvents S (decls.map HandlerDecl.str) tail receiver code action =
      firstMatch S decls tail receiver code action
  | [], _ => rfl
  | d :: decls, h => by
    have hd := h d (.head _)
    have ih : handlerEvents S (decls.map HandlerDecl.str) tail receiver code action =
        firstMatch S decls tail receiver code action :=
      handlerEvents_map fun d' hd' => h d' (.tail _ hd')
    simp only [handlerEvents, firstMatch, List.map_cons, List.find?_cons] at ih ⊢
    have hb : beforeColon d.str = d.action := beforeColon_append hd d.stub
    rw [hb]
    by_cases hk : action = stringToName d.action
    · simp only [hk, decide_true, HandlerDecl.event, stubEvent, stubIndex]
      rw [show afterColon d.str = d.stub from afterColon_append hd d.stub]
    · simp only [hk, Ne.symm hk, decide_false]
      exact ih

/-- Only the first match counts, so repetitions in the list do not. -/
theorem handlerEvents_congr {S : Symtab} {strs strs' : List Text} {tail : List Event}
    {receiver code action : BitVec 64} (h : ∀ p : Text → Bool, strs.find? p = strs'.find? p) :
    handlerEvents S strs tail receiver code action =
      handlerEvents S strs' tail receiver code action := by
  rw [handlerEvents, h]
  rfl

/-! ## Actions -/

theorem handlerEvents_actions {S : Symtab} {decls : List HandlerDecl} {tail : List Event}
    {receiver code action : BitVec 64}
    (hdecls : S.objectFiles.flatMap ObjFile.wasmActions = decls.map HandlerDecl.str)
    (hname : ∀ d ∈ decls, validateName d.action = true) :
    handlerEvents S (actions S) tail receiver code action =
      firstMatch S decls tail receiver code action := by
  rw [← handlerEvents_map fun d hd => colon_not_mem_of_validateName (hname d hd), ← hdecls]
  exact handlerEvents_congr fun p => find?_notDispatched (by simp)

/-- The functions that `apply` calls for other reasons than an action. -/
def otherCallees (S : Symtab) : List Nat :=
  (ctorsEvents S ++ dtorsEvents S).map Event.func ++
    (notifs S).filterMap fun notif => (splitNotify notif).toOption.map fun p => stubIndex S p.2

theorem notifyEvents_otherCallees {S : Symtab} {m : Handlers} {receiver code action : BitVec 64}
    (hm : groupHandlers (notifs S) [] = .ok m) {e : Event}
    (he : e ∈ notifyEvents S m receiver code action) : e.func ∈ otherCallees S := by
  have key : ∀ g ∈ m, e ∈ handlerEvents S g.2 [] receiver code action →
      e.func ∈ otherCallees S := by
    intro g hg he
    unfold handlerEvents at he
    split at he
    · rename_i str hstr
      obtain rfl := List.mem_singleton.1 he
      rcases mem_groupHandlers hm hg (List.mem_of_find?_eq_some hstr) with ⟨n, hn, hs⟩ | ⟨_, h, -⟩
      · exact List.mem_append_right _ (List.mem_filterMap.2 ⟨n, hn, by simp [hs, Except.toOption,
          stubEvent]⟩)
      · cases h
    · cases he
  unfold notifyEvents at he
  split at he
  · rename_i g hg
    exact key g (List.mem_filter.1 (List.mem_of_find?_eq_some hg)).1 he
  · unfold wildOf at he
    cases hw : m.lookup star with
    | none => simp [hw, handlerEvents] at he
    | some v => exact key _ (mem_of_lookup hw) (by simpa [hw] using he)

/-- **Routing of actions**: with `code = receiver` the first linked action that encodes `action` is
called, with `(receiver, code)`, or else the assertion; with another `code` nothing is called that
is only an action's stub. -/
theorem apply_routes_action {S : Symtab} (hS : Linked S) (hpre : S.find preName = none)
    (hpost : S.find postName = none) (decls : List HandlerDecl)
    (hdecls : S.objectFiles.flatMap ObjFile.wasmActions = decls.map HandlerDecl.str)
    (hname : ∀ d ∈ decls, validateName d.action = true) :
    ∃ body idx, bodyContent S = .ok body ∧ assertIdx S = some idx ∧
      ∀ E, Typed S E → ∀ receiver code action, ∃ c,
        runApply E body receiver code action = some c ∧
        (code = receiver → c.trace = callSeq E (ctorsEvents S ++
          firstMatch S decls [assertEvent idx WASM_ERROR_NO_ACTION] receiver code action ++
          dtorsEvents S)) ∧
        (code ≠ receiver → ∀ e ∈ c.trace, e.func ∈ otherCallees S) := by
  obtain ⟨body, m, idx, hbody, hm, hidx, hrun⟩ := runApply_trace hS hpre hpost
  refine ⟨body, idx, hbody, hidx, fun E hE receiver code action => ?_⟩
  obtain ⟨c, hc, htr⟩ := hrun E hE receiver code action
  refine ⟨c, hc, fun heq => ?_, fun hne e he => ?_⟩
  · rw [htr, mainEvents, if_pos heq, handlerEvents_actions hdecls hname]
  · rw [htr, mainEvents, if_neg hne] at he
    rcases List.mem_append.1 (callSeq_subset E he) with he | he
    · rcases List.mem_append.1 he with he | he
      · exact List.mem_append_left _ (List.mem_map_of_mem (List.mem_append_left _ he))
      · exact notifyEvents_otherCallees hm he
    · exact List.mem_append_left _ (List.mem_map_of_mem (List.mem_append_right _ he))

/-- Callees of two arguments that return. -/
def returningEnv : Env := ⟨fun _ => 2, fun _ _ => some []⟩

theorem returningEnv_typed {S : Symtab} (hctors : S.find ctorsName = none)
    (hdtors : S.find dtorsName = none) : Typed S returningEnv where
  assert _ _ := ⟨rfl, by simp [returningEnv]⟩
  action _ _ := ⟨rfl, by simp [returningEnv]⟩
  notify _ _ _ _ _ := ⟨rfl, by simp [returningEnv]⟩
  ctors _ h := absurd (hctors ▸ h) (by simp)
  dtors _ h := absurd (hdtors ▸ h) (by simp)

theorem apply_routes_action_hi :
    ∃ body c, bodyContent (symtabOf [⟨["hi:stub".toList], []⟩] [assertName, "stub".toList]) =
        .ok body ∧
      runApply returningEnv body 7 7 (stringToName "hi".toList) = some c ∧
      c.trace = [⟨1, [.i64 7, .i64 7]⟩] := by
  obtain ⟨body, idx, hbody, hidx, hrun⟩ := apply_routes_action
    (S := symtabOf [⟨["hi:stub".toList], []⟩] [assertName, "stub".toList])
    ⟨⟨0, by decide⟩, by decide, by simp [notifs, symtabOf, notDispatched]⟩ rfl rfl
    [⟨"hi".toList, "stub".toList⟩] rfl (by decide)
  obtain rfl : 0 = idx := Option.some.inj hidx
  obtain ⟨c, hc, htr, -⟩ := hrun returningEnv (returningEnv_typed rfl rfl) 7 7
    (stringToName "hi".toList)
  exact ⟨body, c, hbody, hc, by rw [htr rfl]; decide⟩

/-! ## Notifications -/

/-- A notification handler as declared, `code::action` with its stub; `code` is a regid or `*`. -/
structure NotifyDecl extends HandlerDecl where
  code : Text
  code_colon : ':' ∉ code

def NotifyDecl.str (d : NotifyDecl) : Text := d.code ++ ':' :: ':' :: d.toHandlerDecl.str

theorem splitNotify_str (d : NotifyDecl) :
    splitNotify d.str = .ok (d.code, d.toHandlerDecl.str) := by
  have hlen : d.code.length + 2 ≤ (d.code ++ ':' :: ':' :: d.toHandlerDecl.str).length := by
    simp only [List.length_append, List.length_cons]
    omega
  have htake : (d.code ++ ':' :: ':' :: d.toHandlerDecl.str).take d.code.length = d.code :=
    List.take_left
  have hdrop : (d.code ++ ':' :: ':' :: d.toHandlerDecl.str).drop (d.code.length + 2) =
      d.toHandlerDecl.str := by
    rw [List.drop_append, List.drop_of_length_le (by omega)]
    simp
  rw [splitNotify, NotifyDecl.str, Text.find_append d.code_colon]
  simp only [if_pos hlen, Text.substr, List.drop_zero, htake, hdrop]
  rfl

/-- The handlers declared under the text `k`. -/
def declaredFor (k : Text) (decls : List NotifyDecl) : List HandlerDecl :=
  (decls.filter (·.code = k)).map NotifyDecl.toHandlerDecl

/-- The handlers declared for the account `code`. -/
def declaredForCode (code : BitVec 64) (decls : List NotifyDecl) : List HandlerDecl :=
  (decls.filter fun d => d.code ≠ star ∧ stringToRegid d.code = code).map NotifyDecl.toHandlerDecl

/-- The handlers a notification of `code` is searched in. -/
def notifyCandidates (code : BitVec 64) (decls : List NotifyDecl) : List HandlerDecl :=
  if declaredForCode code decls = [] then declaredFor star decls else declaredForCode code decls

/-- What a linked string adds to the handlers under `k`. -/
def restOf (k notif : Text) : Option Text :=
  match splitNotify notif with
  | .ok (code, rest) => if code = k then some rest else none
  | .error _ => none

theorem filterMap_restOf (k : Text) : ∀ (decls : List NotifyDecl),
    (decls.map NotifyDecl.str).filterMap (restOf k) = (declaredFor k decls).map HandlerDecl.str
  | [] => rfl
  | d :: decls => by
    have ih := filterMap_restOf k decls
    rw [List.map_cons, List.filterMap_cons, ih, restOf, splitNotify_str]
    by_cases hk : d.code = k <;> simp [hk, declaredFor]

/-! ### The map of handlers -/

/-- The keys are in order, and no group is empty. -/
structure Handlers.Ok (m : Handlers) : Prop where
  sorted : m.Pairwise fun g g' => g.1 < g'.1
  nonempty : ∀ g ∈ m, g.2 ≠ []

theorem key_of_mem_push {code rest : Text} {g : Text × List Text} : ∀ {m : Handlers},
    g ∈ m.push code rest → g.1 = code ∨ ∃ g' ∈ m, g'.1 = g.1
  | [], h => .inl (by rw [List.mem_singleton.1 h])
  | (k, v) :: m, h => by
    rw [Handlers.push] at h
    split at h
    · rcases List.mem_cons.1 h with rfl | h
      · exact .inr ⟨(k, v), .head _, rfl⟩
      · exact .inr ⟨g, .tail _ h, rfl⟩
    · split at h
      · rcases List.mem_cons.1 h with rfl | h
        · exact .inl rfl
        · exact .inr ⟨g, h, rfl⟩
      · rcases List.mem_cons.1 h with rfl | h
        · exact .inr ⟨(k, v), .head _, rfl⟩
        · rcases key_of_mem_push h with h | ⟨g', hg', he⟩
          · exact .inl h
          · exact .inr ⟨g', .tail _ hg', he⟩

theorem push_ok (code rest : Text) : ∀ {m : Handlers}, m.Ok → (m.push code rest).Ok
  | [], _ => ⟨List.pairwise_singleton _ _, by simp [Handlers.push]⟩
  | (k, v) :: m, h => by
    obtain ⟨hk, hs⟩ := List.pairwise_cons.1 h.sorted
    have hne := List.forall_mem_cons.1 h.nonempty
    rw [Handlers.push]
    split
    · exact ⟨List.pairwise_cons.2 ⟨hk, hs⟩, List.forall_mem_cons.2 ⟨by simp, hne.2⟩⟩
    · rename_i hne'
      split
      · rename_i hlt
        refine ⟨List.pairwise_cons.2 ⟨fun g hg => ?_, h.sorted⟩,
          List.forall_mem_cons.2 ⟨by simp, h.nonempty⟩⟩
        rcases List.mem_cons.1 hg with rfl | hg
        · exact hlt
        · exact lt_trans hlt (hk g hg)
      · rename_i hnlt
        have hrec := push_ok code rest ⟨hs, hne.2⟩
        refine ⟨List.pairwise_cons.2 ⟨fun g hg => ?_, hrec.sorted⟩,
          List.forall_mem_cons.2 ⟨hne.1, hrec.nonempty⟩⟩
        rcases key_of_mem_push hg with he | ⟨g', hg', he⟩
        · exact he ▸ lt_of_le_of_ne (not_lt.1 hnlt) hne'
        · exact he ▸ hk g' hg'

theorem lookup_cons_ne {k k' : Text} (h : k ≠ k') (v : List Text) (m : Handlers) :
    List.lookup k ((k', v) :: m) = m.lookup k := by
  rw [List.lookup_cons, beq_eq_false_iff_ne.2 h]

theorem lookup_of_mem {k : Text} {v : List Text} : ∀ {m : Handlers},
    (m.Pairwise fun g g' => g.1 < g'.1) → (k, v) ∈ m → m.lookup k = some v
  | (k', v') :: m, hs, h => by
    obtain ⟨hk, hs⟩ := List.pairwise_cons.1 hs
    rcases List.mem_cons.1 h with h | h
    · cases h
      exact List.lookup_cons_self
    · rw [lookup_cons_ne (hk _ h).ne']
      exact lookup_of_mem hs h

theorem lookup_lt {k : Text} : ∀ {m : Handlers}, (∀ g ∈ m, k < g.1) → m.lookup k = none
  | [], _ => rfl
  | (k', v') :: m, h => by
    obtain ⟨h1, h2⟩ := List.forall_mem_cons.1 h
    rw [lookup_cons_ne h1.ne]
    exact lookup_lt h2

theorem lookup_push {code rest : Text} (k : Text) : ∀ {m : Handlers},
    (m.Pairwise fun g g' => g.1 < g'.1) →
    ((m.push code rest).lookup k).getD [] =
      (m.lookup k).getD [] ++ if code = k then [rest] else []
  | [], _ => by
    rw [Handlers.push]
    by_cases hk : code = k
    · subst hk
      simp
    · rw [lookup_cons_ne (Ne.symm hk)]
      simp [hk]
  | (k', v) :: m, hs => by
    obtain ⟨hlt', hs⟩ := List.pairwise_cons.1 hs
    rw [Handlers.push]
    split
    · rename_i he
      subst he
      by_cases hk : k' = k
      · subst hk
        simp
      · rw [lookup_cons_ne (Ne.symm hk), lookup_cons_ne (Ne.symm hk)]
        simp [hk]
    · rename_i hne
      split
      · rename_i hlt
        by_cases hk : code = k
        · subst hk
          have hnone : List.lookup code ((k', v) :: m) = none := lookup_lt fun g hg => by
            rcases List.mem_cons.1 hg with rfl | hg
            · exact hlt
            · exact lt_trans hlt (hlt' g hg)
          simp [hnone]
        · rw [lookup_cons_ne (Ne.symm hk)]
          simp [hk]
      · by_cases hk : k' = k
        · subst hk
          simp [Ne.symm hne]
        · rw [lookup_cons_ne (Ne.symm hk), lookup_cons_ne (Ne.symm hk)]
          exact lookup_push k hs

theorem groupHandlers_spec : ∀ {strs : List Text} {m m' : Handlers},
    groupHandlers strs m = .ok m' → m.Ok →
    m'.Ok ∧ ∀ k, (m'.lookup k).getD [] = (m.lookup k).getD [] ++ strs.filterMap (restOf k)
  | [], m, m', h, hm => by
    cases h
    exact ⟨hm, by simp⟩
  | notif :: strs, m, m', h, hm => by
    obtain ⟨⟨code, rest⟩, hsplit, h⟩ := Link.bind_ok h
    obtain ⟨hok, hlook⟩ := groupHandlers_spec h (push_ok code rest hm)
    refine ⟨hok, fun k => ?_⟩
    rw [hlook, lookup_push k hm.sorted, List.append_assoc, List.filterMap_cons, restOf, hsplit]
    by_cases hk : code = k <;> simp [hk]

/-! ### The handler reached -/

/-- A group holds the handlers declared under its text, up to repetitions. -/
theorem lookup_groupHandlers {S : Symtab} {decls : List NotifyDecl} {m : Handlers}
    (hdecls : S.objectFiles.flatMap ObjFile.wasmNotify = decls.map NotifyDecl.str)
    (hm : groupHandlers (notifs S) [] = .ok m) (k : Text) (p : Text → Bool) :
    ((m.lookup k).getD []).find? p = ((declaredFor k decls).map HandlerDecl.str).find? p := by
  have hlook := (groupHandlers_spec hm ⟨.nil, by simp⟩).2 k
  rw [hlook, ← filterMap_restOf, ← hdecls]
  simp only [List.lookup_nil, Option.getD_none, List.nil_append, List.find?_filterMap, notifs]
  rw [find?_notDispatched (by simp)]

theorem mem_groupHandlers_key {S : Symtab} {decls : List NotifyDecl} {m : Handlers}
    (hdecls : S.objectFiles.flatMap ObjFile.wasmNotify = decls.map NotifyDecl.str)
    (hm : groupHandlers (notifs S) [] = .ok m) {d : NotifyDecl} (hd : d ∈ decls) :
    ∃ v, (d.code, v) ∈ m := by
  have hfind := lookup_groupHandlers hdecls hm d.code (fun _ => true)
  have hmem : d.toHandlerDecl.str ∈ (declaredFor d.code decls).map HandlerDecl.str :=
    List.mem_map_of_mem (List.mem_map_of_mem (List.mem_filter.2 ⟨hd, by simp⟩))
  cases hl : m.lookup d.code with
  | some v => exact ⟨v, mem_of_lookup hl⟩
  | none =>
    rw [hl] at hfind
    exact absurd (List.find?_eq_none.1 hfind.symm _ hmem) (by simp)

theorem code_of_mem_groups {S : Symtab} {decls : List NotifyDecl} {m : Handlers}
    (hdecls : S.objectFiles.flatMap ObjFile.wasmNotify = decls.map NotifyDecl.str)
    (hm : groupHandlers (notifs S) [] = .ok m) {g : Text × List Text} (hg : g ∈ m) :
    ∃ d ∈ decls, d.code = g.1 := by
  have hok := (groupHandlers_spec hm ⟨.nil, by simp⟩).1
  have hfind := lookup_groupHandlers hdecls hm g.1 (fun _ => true)
  rw [lookup_of_mem hok.sorted hg, Option.getD_some] at hfind
  obtain ⟨s, l, hl⟩ := List.exists_cons_of_ne_nil (hok.nonempty g hg)
  rw [hl, List.find?_cons] at hfind
  obtain ⟨h, hh, -⟩ := List.mem_map.1 (List.mem_of_find?_eq_some hfind.symm)
  obtain ⟨d, hd, -⟩ := List.mem_map.1 hh
  exact ⟨d, (List.mem_filter.1 hd).1, by simpa using (List.mem_filter.1 hd).2⟩

theorem notifyEvents_declared {S : Symtab} {decls : List NotifyDecl} {m : Handlers}
    {receiver code action : BitVec 64}
    (hdecls : S.objectFiles.flatMap ObjFile.wasmNotify = decls.map NotifyDecl.str)
    (hname : ∀ d ∈ decls, validateName d.action = true)
    (hcode : ∀ d ∈ decls, ∀ d' ∈ decls, d.code ≠ star → d'.code ≠ star →
      stringToRegid d.code = stringToRegid d'.code → d.code = d'.code)
    (hm : groupHandlers (notifs S) [] = .ok m) :
    notifyEvents S m receiver code action =
      firstMatch S (notifyCandidates code decls) [] receiver code action := by
  have hok := (groupHandlers_spec hm ⟨.nil, by simp⟩).1
  have hlist : ∀ k, handlerEvents S ((m.lookup k).getD []) [] receiver code action =
      firstMatch S (declaredFor k decls) [] receiver code action := by
    intro k
    rw [handlerEvents_congr fun p => lookup_groupHandlers hdecls hm k p]
    refine handlerEvents_map fun h hh => ?_
    obtain ⟨d, hd, rfl⟩ := List.mem_map.1 hh
    exact colon_not_mem_of_validateName (hname d (List.mem_filter.1 hd).1)
  unfold notifyEvents
  cases hf : (groupsOf m).find? (fun g => code = stringToRegid g.1) with
  | some g =>
    obtain ⟨hg, hstar⟩ := List.mem_filter.1 (List.mem_of_find?_eq_some hf)
    have hkey : code = stringToRegid g.1 := by simpa using List.find?_some hf
    have hstar : g.1 ≠ star := by simpa using hstar
    obtain ⟨d, hd, hdk⟩ := code_of_mem_groups hdecls hm hg
    have hsame : declaredForCode code decls = declaredFor g.1 decls := by
      refine congrArg _ (List.filter_congr fun d' hd' => ?_)
      rw [decide_eq_decide]
      constructor
      · rintro ⟨hs, hr⟩
        rw [← hdk]
        exact hcode d' hd' d hd hs (hdk ▸ hstar) (by rw [hr, hkey, hdk])
      · intro he
        exact ⟨he ▸ hstar, by rw [he, hkey]⟩
    have hne : declaredForCode code decls ≠ [] := by
      rw [hsame]
      exact List.ne_nil_of_mem (List.mem_map_of_mem (List.mem_filter.2 ⟨hd, by simp [hdk]⟩))
    have := hlist g.1
    rw [lookup_of_mem hok.sorted hg, Option.getD_some] at this
    rw [notifyCandidates, if_neg hne, hsame]
    exact this
  | none =>
    have hnil : declaredForCode code decls = [] := by
      refine List.map_eq_nil_iff.2 (List.filter_eq_nil_iff.2 fun d hd hdc => ?_)
      obtain ⟨hs, hr⟩ := of_decide_eq_true hdc
      obtain ⟨v, hv⟩ := mem_groupHandlers_key hdecls hm hd
      exact List.find?_eq_none.1 hf _ (List.mem_filter.2 ⟨hv, by simpa using hs⟩) (by simp [hr])
    rw [notifyCandidates, if_pos hnil]
    exact hlist star

/-- **Routing of notifications**: a notification of another `code` reaches the first matching
handler among those declared for `code` or, if none is declared for `code` at all, among the
wildcards. The texts the handlers are declared under denote distinct accounts. -/
theorem apply_routes_notify {S : Symtab} (hS : Linked S) (hpre : S.find preName = none)
    (hpost : S.find postName = none) (decls : List NotifyDecl)
    (hdecls : S.objectFiles.flatMap ObjFile.wasmNotify = decls.map NotifyDecl.str)
    (hname : ∀ d ∈ decls, validateName d.action = true)
    (hcode : ∀ d ∈ decls, ∀ d' ∈ decls, d.code ≠ star → d'.code ≠ star →
      stringToRegid d.code = stringToRegid d'.code → d.code = d'.code) :
    ∃ body, bodyContent S = .ok body ∧ ∀ E, Typed S E → ∀ receiver code action,
      code ≠ receiver → ∃ c, runApply E body receiver code action = some c ∧
        c.trace = callSeq E (ctorsEvents S ++
          firstMatch S (notifyCandidates code decls) [] receiver code action ++ dtorsEvents S) := by
  obtain ⟨body, m, idx, hbody, hm, -, hrun⟩ := runApply_trace hS hpre hpost
  refine ⟨body, hbody, fun E hE receiver code action hne => ?_⟩
  obtain ⟨c, hc, htr⟩ := hrun E hE receiver code action
  exact ⟨c, hc, by rw [htr, mainEvents, if_neg hne, notifyEvents_declared hdecls hname hcode hm]⟩

/-- The calls of `apply` for linked notification strings, whose stubs are `s1` and `s2`. -/
def notifyTrace (strs : List Text) (receiver code action : BitVec 64) : Option (List Event) :=
  (bodyContent (symtabOf [⟨[], strs⟩] [assertName, "s1".toList, "s2".toList])).toOption.bind
    fun body => (runApply returningEnv body receiver code action).map Cfg.trace

/-- A wildcard for `b` is not called for an account with a handler for `a`; nor is a handler of an
account that is declared under two texts. -/
theorem apply_shadows_wildcard :
    validateRegid "1-2".toList = true ∧ validateRegid "01-2".toList = true ∧
    validateName "a".toList = true ∧ validateName "b".toList = true ∧
    notifyTrace ["1-2::a:s1".toList, "*::b:s2".toList] 0 (stringToRegid "1-2".toList)
      (stringToName "b".toList) = some [] ∧
    notifyTrace ["1-2::a:s1".toList, "01-2::b:s2".toList] 0 (stringToRegid "1-2".toList)
      (stringToName "a".toList) = some [] := by
  decide +kernel

theorem apply_routes_notify_wildcard :
    ∃ body c, bodyContent (symtabOf [⟨[], ["1-2::a:s1".toList, "*::b:s2".toList]⟩]
        [assertName, "s1".toList, "s2".toList]) = .ok body ∧
      runApply returningEnv body 0 (stringToRegid "3-4".toList) (stringToName "b".toList) =
        some c ∧
      c.trace = [⟨2, [.i64 0, .i64 (stringToRegid "3-4".toList)]⟩] := by
  obtain ⟨body, hbody, hrun⟩ := apply_routes_notify
    (S := symtabOf [⟨[], ["1-2::a:s1".toList, "*::b:s2".toList]⟩]
      [assertName, "s1".toList, "s2".toList])
    ⟨⟨0, by decide⟩, by decide, by
      intro str hstr
      have hmem : str = "1-2::a:s1".toList ∨ str = "*::b:s2".toList := by
        simpa [notifs, symtabOf, notDispatched] using hstr
      rcases hmem with rfl | rfl
      · exact ⟨"1-2".toList, "a:s1".toList, rfl, by decide⟩
      · exact ⟨"*".toList, "b:s2".toList, rfl, by decide⟩⟩ rfl rfl
    [⟨⟨"a".toList, "s1".toList⟩, "1-2".toList, by decide⟩,
      ⟨⟨"b".toList, "s2".toList⟩, "*".toList, by decide⟩]
    rfl (by decide) (by simp [star])
  obtain ⟨c, hc, htr⟩ := hrun returningEnv (returningEnv_typed rfl rfl) 0
    (stringToRegid "3-4".toList) (stringToName "b".toList) (by decide)
  exact ⟨body, c, hbody, hc, by rw [htr]; decide⟩

/-! ## Declared codes -/

/-- **When an accepted code is the account it reads as**: the toolchain prints the encoded word back
as the declared text, and so the word that the linker compares with, exactly if the text is
canonical. Canonical codes that differ are different accounts. -/
theorem accepted_regid_iff (s : Text) :
    ((validateRegid s = true → regidToString (stringToRegid s) = s ∧
        ∀ S strs, regidToString (groupArm S (s, strs)).key = s) ↔
      validateRegid s = false ∨ CanonicalRegid s) ∧
    ∀ s', CanonicalRegid s → CanonicalRegid s' → stringToRegid s = stringToRegid s' → s = s' := by
  refine ⟨⟨fun h => ?_, ?_⟩, fun s' h h' heq => h.inj h' heq⟩
  · cases hs : validateRegid s with
    | false => exact .inl rfl
    | true => exact .inr ((regidToString_stringToRegid_iff s).1 (h hs).1)
  · rintro (hrefused | hcanon) hs
    · rw [hs] at hrefused
      cases hrefused
    · have hprint := (regidToString_stringToRegid_iff s).2 hcanon
      exact ⟨hprint, fun _ _ => hprint⟩

/-- A code without a separator is accepted and denotes another account than it reads as; so do two
codes of one account, the index of one of them running over. -/
theorem accepted_regid_collision :
    validateRegid "12".toList = true ∧
    regidToString (stringToRegid "12".toList) = "12-12".toList ∧
    validateRegid "1-1048577".toList = true ∧ validateRegid "2-1".toList = true ∧
    stringToRegid "1-1048577".toList = stringToRegid "2-1".toList := by
  decide

end Lld
