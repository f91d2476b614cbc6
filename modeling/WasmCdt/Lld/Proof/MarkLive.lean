import WasmCdt.Lib.Worklist
import WasmCdt.Lld.MarkLive
import WasmCdt.Lld.Proof.DispatchCalls
import Mathlib.Data.Fintype.Card

/-!
# What dead-code elimination keeps

* `enqueue_isLive`, `enqueue_pending`: what a symbol marks, and that the chunks still to be taken
  from `Q` or to be marked do not become more.
* `drain_isSome`: so the loop ends, with a round for every chunk at most.
* `marked_enqueue`, `marked_drain`: the marking's invariant.
* `isLive_iff`: the symbols that end up live.
* `dispatch_targets_live_iff`: **the inputs for which the calls of `apply` are to live functions.**
-/

namespace Lld

open Cdt Worklist

/-- What is marked live with a symbol. -/
inductive LiveBit (Sym Chunk Global : Type)
  | chunk (c : Chunk)
  | global (g : Global)
  | symbol (sym : Sym)

variable {Sym Chunk Global : Type}

namespace Marks

def get (m : Marks Sym Chunk Global) : LiveBit Sym Chunk Global → Bool
  | .chunk c => m.chunkLive c
  | .global g => m.globalLive g
  | .symbol sym => m.referenced sym

end Marks

namespace LinkInput

variable {L : LinkInput Sym Chunk Global} {m : Marks Sym Chunk Global} {sym t : Sym} {c : Chunk}

def bit (L : LinkInput Sym Chunk Global) (sym : Sym) : LiveBit Sym Chunk Global :=
  match L.place sym with
  | .chunk c => .chunk c
  | .global g => .global g
  | .none => .symbol sym

theorem isLive_eq : L.isLive m sym = m.get (L.bit sym) := by
  unfold isLive bit
  cases L.place sym with
  | chunk c => rfl
  | global g => rfl
  | none => rfl

theorem getChunk_eq_some : L.getChunk sym = some c ↔ L.bit sym = .chunk c := by
  unfold getChunk bit
  cases L.place sym with
  | chunk d => simp
  | global g => simp
  | none => simp

/-! ## The invariant -/

/-- A relocation that pulls its symbol in leads from a chunk to what the symbol marks. -/
def Pulls (L : LinkInput Sym Chunk Global) (x y : LiveBit Sym Chunk Global) : Prop :=
  ∃ c, x = .chunk c ∧ ∃ reloc ∈ L.relocations c, L.follows reloc = true ∧ y = L.bit reloc.sym

def RootBit (L : LinkInput Sym Chunk Global) (x : LiveBit Sym Chunk Global) : Prop :=
  ∃ sym, some sym ∈ L.roots ∧ x = L.bit sym

/-- What is marked so far. -/
def Seen (L : LinkInput Sym Chunk Global) (m : Marks Sym Chunk Global)
    (x : LiveBit Sym Chunk Global) : Prop :=
  ∃ sym, x = L.bit sym ∧ L.isLive m sym = true

/-- The chunks in `Q`, and what else waits. -/
def Waiting (m : Marks Sym Chunk Global) (also : LiveBit Sym Chunk Global → Prop)
    (x : LiveBit Sym Chunk Global) : Prop :=
  also x ∨ ∃ c ∈ m.Q, x = .chunk c

abbrev Invariant (L : LinkInput Sym Chunk Global) (m : Marks Sym Chunk Global)
    (also : LiveBit Sym Chunk Global → Prop) : Prop :=
  Marked L.Pulls L.RootBit (L.Seen m) (Waiting m also)

theorem seen_bit : L.Seen m (L.bit sym) ↔ L.isLive m sym = true := by
  constructor
  · intro h
    obtain ⟨t, hbit, hlive⟩ := h
    rwa [isLive_eq, hbit, ← isLive_eq]
  · intro h
    exact ⟨sym, rfl, h⟩

/-- The symbols that a chunk's relocations pull in. -/
def pulled (L : LinkInput Sym Chunk Global) (c : Chunk) : List (Option Sym) :=
  ((L.relocations c).filter L.follows).map fun reloc => some reloc.sym

theorem mem_pulled : some sym ∈ L.pulled c ↔
    ∃ reloc ∈ L.relocations c, L.follows reloc = true ∧ reloc.sym = sym := by
  simp [pulled, and_assoc]

theorem initial_isLive : L.isLive L.initial sym = !L.gcSections := by
  unfold isLive initial
  cases L.place sym with
  | chunk c => rfl
  | global g => rfl
  | none => rfl

/-! ## The roots -/

/-- Why a symbol is a root. -/
inductive Root (L : LinkInput Sym Chunk Global) : Sym → Prop
  | entry {sym : Sym} (hne : L.entry ≠ []) (h : L.find L.entry = some sym) : Root L sym
  | ctors {sym : Sym} (h : L.callCtors = some sym) : Root L sym
  | dtors {sym : Sym} (h : L.find dtorsName = some sym) : Root L sym
  | visible {sym : Sym} (hmem : sym ∈ L.symbols) (h : L.isHidden sym = false) : Root L sym
  | init {obj : InputObject Sym} {sym : Sym} (hobj : obj ∈ L.objectFiles)
      (h : sym ∈ obj.initFunctions) : Root L sym
  | stub {obj : InputObject Sym} {act : Text} {sym : Sym} (hobj : obj ∈ L.objectFiles)
      (hact : act ∈ obj.wasmActions) (hfunc : afterColon act ∈ obj.functions)
      (h : L.find (afterColon act) = some sym) : Root L sym
  | hook {obj : InputObject Sym} {func : Text} {sym : Sym} (hobj : obj ∈ L.objectFiles)
      (hact : obj.wasmActions ≠ []) (hfunc : func ∈ obj.functions)
      (hname : func = preName ∨ func = postName ∨ func = assertName) (h : L.find func = some sym) :
      Root L sym
  | notify {obj : InputObject Sym} {notif : Text} {sym : Sym} (hobj : obj ∈ L.objectFiles)
      (hnotif : notif ∈ obj.wasmNotify) (hfunc : notifyStub notif ∈ obj.functions)
      (h : L.find (notifyStub notif) = some sym) : Root L sym

theorem mem_actionRoots {obj : InputObject Sym} : some sym ∈ L.actionRoots obj ↔
    (∃ act ∈ obj.wasmActions, afterColon act ∈ obj.functions ∧ L.find (afterColon act) = some sym) ∨
      obj.wasmActions ≠ [] ∧ ∃ func ∈ obj.functions,
        (func = preName ∨ func = postName ∨ func = assertName) ∧ L.find func = some sym := by
  unfold actionRoots
  simp only [List.mem_flatMap, List.mem_append, List.mem_ite_nil_right, List.mem_singleton]
  constructor
  · intro h
    obtain ⟨func, hfunc, act, hact, ⟨rfl, hfind⟩ | ⟨hname, hfind⟩⟩ := h
    · exact .inl ⟨act, hact, hfunc, hfind.symm⟩
    · exact .inr ⟨List.ne_nil_of_mem hact, func, hfunc, hname, hfind.symm⟩
  · intro h
    rcases h with ⟨act, hact, hfunc, hfind⟩ | ⟨hne, func, hfunc, hname, hfind⟩
    · exact ⟨_, hfunc, act, hact, .inl ⟨rfl, hfind.symm⟩⟩
    · obtain ⟨act, hact⟩ := List.exists_mem_of_ne_nil _ hne
      exact ⟨func, hfunc, act, hact, .inr ⟨hname, hfind.symm⟩⟩

theorem mem_notifyRoots {obj : InputObject Sym} : some sym ∈ L.notifyRoots obj ↔
    ∃ notif ∈ obj.wasmNotify, notifyStub notif ∈ obj.functions ∧
      L.find (notifyStub notif) = some sym := by
  unfold notifyRoots
  simp only [List.mem_flatMap, List.mem_ite_nil_right, List.mem_singleton]
  constructor
  · intro h
    obtain ⟨func, hfunc, notif, hnotif, rfl, hfind⟩ := h
    exact ⟨notif, hnotif, hfunc, hfind.symm⟩
  · intro h
    obtain ⟨notif, hnotif, hfunc, hfind⟩ := h
    exact ⟨_, hfunc, notif, hnotif, rfl, hfind.symm⟩

theorem mem_roots : some sym ∈ L.roots ↔ L.Root sym := by
  unfold roots
  simp only [List.mem_append, List.mem_ite_nil_right, List.mem_singleton, List.mem_map,
    List.mem_filter, List.mem_flatMap, Option.some.injEq, exists_eq_right, mem_actionRoots,
    mem_notifyRoots, Bool.not_eq_true']
  constructor
  · intro h
    rcases h with (((((⟨hne, h⟩ | h) | h) | ⟨hmem, h⟩) | ⟨obj, hobj, h⟩) | ⟨obj, hobj, h⟩) | ⟨obj, hobj, h⟩
    · exact .entry hne h.symm
    · exact .ctors h.symm
    · exact .dtors h.symm
    · exact .visible hmem h
    · exact .init hobj h
    · rcases h with ⟨act, hact, hfunc, hfind⟩ | ⟨hne, func, hfunc, hname, hfind⟩
      · exact .stub hobj hact hfunc hfind
      · exact .hook hobj hne hfunc hname hfind
    · obtain ⟨notif, hnotif, hfunc, hfind⟩ := h
      exact .notify hobj hnotif hfunc hfind
  · intro h
    cases h with
    | entry hne h => exact .inl (.inl (.inl (.inl (.inl (.inl ⟨hne, h.symm⟩)))))
    | ctors h => exact .inl (.inl (.inl (.inl (.inl (.inr h.symm)))))
    | dtors h => exact .inl (.inl (.inl (.inl (.inr h.symm))))
    | visible hmem h => exact .inl (.inl (.inl (.inr ⟨hmem, h⟩)))
    | init hobj h => exact .inl (.inl (.inr ⟨_, hobj, h⟩))
    | stub hobj hact hfunc h => exact .inl (.inr ⟨_, hobj, .inl ⟨_, hact, hfunc, h⟩⟩)
    | hook hobj hact hfunc hname h => exact .inl (.inr ⟨_, hobj, .inr ⟨hact, _, hfunc, hname, h⟩⟩)
    | notify hobj hnotif hfunc h => exact .inr ⟨_, hobj, _, hnotif, hfunc, h⟩

/-- A root leads to the symbol, through relocations that pull in one symbol after the other. -/
def Kept (L : LinkInput Sym Chunk Global) (sym : Sym) : Prop :=
  ∃ r, L.Root r ∧ Relation.ReflTransGen L.Pulls (L.bit r) (L.bit sym)

theorem reached_iff_kept : Reached L.Pulls L.RootBit (L.bit sym) ↔ L.Kept sym := by
  constructor
  · intro h
    obtain ⟨x, ⟨r, hr, rfl⟩, hreach⟩ := h
    exact ⟨r, mem_roots.1 hr, hreach⟩
  · intro h
    obtain ⟨r, hr, hreach⟩ := h
    exact ⟨_, ⟨r, mem_roots.2 hr, rfl⟩, hreach⟩

theorem Root.kept (h : L.Root sym) : L.Kept sym := ⟨sym, h, .refl⟩

/-! ## The functions that `apply` calls -/

/-- The symbol of a function that the emitted `apply` calls. -/
def Target (L : LinkInput Sym Chunk Global) (index : Sym → FunctionSymbol) (sym : Sym) : Prop :=
  ∃ name, Called (L.symtab index) name ∧ L.find name = some sym

/-- The call instructions in the emitted body have the indices of the targets. -/
theorem call_iff_target {index : Sym → FunctionSymbol} {bytes : List UInt8}
    (h : createDispatchFunction (L.symtab index) = .ok bytes) :
    ∃ is, bytes = writeUleb128 ((WasmCode.encodeBody is).length % 2 ^ 32) ++ WasmCode.encodeBody is ∧
      ∀ i, .call i ∈ is ↔ ∃ sym, L.Target index sym ∧ (index sym).functionIndex = i := by
  obtain ⟨is, hbytes, hcalls, hfound⟩ := createDispatchFunction_calls h
  refine ⟨is, hbytes, fun i => ?_⟩
  have hindex : ∀ {name sym}, L.find name = some sym →
      (L.symtab index).indexOf name = (index sym).functionIndex := by
    intro name sym hfind
    have hsym : (L.symtab index).find name = some (index sym) := congrArg (Option.map index) hfind
    exact indexOf_some hsym
  rw [hcalls]
  constructor
  · intro h
    obtain ⟨name, hname, rfl⟩ := h
    have hsome : ((L.find name).map index).isSome = true := hfound name hname
    rw [Option.isSome_map] at hsome
    obtain ⟨sym, hfind⟩ := Option.isSome_iff_exists.1 hsome
    exact ⟨sym, ⟨name, hname, hfind⟩, (hindex hfind).symm⟩
  · intro h
    obtain ⟨sym, ⟨name, hname, hfind⟩, rfl⟩ := h
    exact ⟨name, hname, hindex hfind⟩

/-! ## One symbol -/

variable [DecidableEq Sym] [DecidableEq Chunk] [DecidableEq Global]

theorem enqueue_some : L.enqueue m (some sym) =
    if L.isLive m sym then m
    else
      match L.getChunk sym with
      | some c => { L.markSymbol m sym with Q := c :: (L.markSymbol m sym).Q }
      | none => L.markSymbol m sym := rfl

theorem markSymbol_isLive : L.isLive (L.markSymbol m sym) t = true ↔
    L.isLive m t = true ∨ L.bit t = L.bit sym := by
  unfold markSymbol isLive bit
  cases hs : L.place sym with
  | chunk c =>
    cases ht : L.place t with
    | chunk d => by_cases h : d = c <;> simp [h]
    | global g => simp
    | none => simp [show t ≠ sym by rintro rfl; simp [hs] at ht]
  | global g =>
    cases ht : L.place t with
    | chunk d => simp
    | global g' => by_cases h : g' = g <;> simp [h]
    | none => simp [show t ≠ sym by rintro rfl; simp [hs] at ht]
  | none =>
    cases ht : L.place t with
    | chunk d => simp
    | global g => simp
    | none => by_cases h : t = sym <;> simp [h]

theorem markSymbol_Q : (L.markSymbol m sym).Q = m.Q := by
  unfold markSymbol
  cases L.place sym with
  | chunk c => rfl
  | global g => rfl
  | none => rfl

theorem enqueue_isLive : L.isLive (L.enqueue m (some sym)) t = true ↔
    L.isLive m t = true ∨ L.bit t = L.bit sym := by
  have hmark : L.isLive (L.markSymbol m sym) t = true ↔ L.isLive m t = true ∨ L.bit t = L.bit sym :=
    markSymbol_isLive
  rw [enqueue_some]
  by_cases hlive : L.isLive m sym = true
  · rw [if_pos hlive]
    refine ⟨.inl, fun h => h.elim id fun hbit => ?_⟩
    rw [isLive_eq, hbit, ← isLive_eq, hlive]
  · rw [if_neg hlive]
    cases L.getChunk sym with
    | none => exact hmark
    | some c => exact hmark

theorem mem_enqueue_Q : c ∈ (L.enqueue m (some sym)).Q ↔
    c ∈ m.Q ∨ L.isLive m sym = false ∧ L.bit sym = .chunk c := by
  rw [enqueue_some]
  by_cases hlive : L.isLive m sym = true
  · simp [hlive]
  · rw [if_neg hlive]
    rw [Bool.not_eq_true] at hlive
    cases hchunk : L.getChunk sym with
    | none =>
      have hne : L.bit sym ≠ .chunk c := fun h => by simp [getChunk_eq_some.2 h] at hchunk
      simp [markSymbol_Q, hne]
    | some d =>
      simp only [markSymbol_Q, List.mem_cons, hlive, getChunk_eq_some.1 hchunk, LiveBit.chunk.injEq,
        true_and]
      constructor
      · intro h
        exact h.elim (fun h => .inr h.symm) .inl
      · intro h
        exact h.elim .inr fun h => .inl h.symm

/-! ## The loop ends -/

section
variable [Fintype Chunk]

/-- The chunks that are not live, and those in `Q`. -/
def pending (m : Marks Sym Chunk Global) : Nat :=
  (Finset.univ.filter fun c => m.chunkLive c = false).card + m.Q.length

theorem enqueue_pending (o : Option Sym) : pending (L.enqueue m o) = pending m := by
  cases o with
  | none => rfl
  | some sym =>
    rw [enqueue_some]
    by_cases hlive : L.isLive m sym = true
    · rw [if_pos hlive]
    · rw [if_neg hlive]
      unfold isLive at hlive
      unfold getChunk markSymbol pending
      cases hplace : L.place sym with
      | global g => rfl
      | none => rfl
      | chunk c =>
        simp only [hplace, Bool.not_eq_true] at hlive
        have herase : (Finset.univ.filter fun d => Function.update m.chunkLive c true d = false)
            = (Finset.univ.filter fun d => m.chunkLive d = false).erase c := by
          ext d
          by_cases hd : d = c
          · simp [hd]
          · simp [hd]
        have hmem : c ∈ Finset.univ.filter fun d => m.chunkLive d = false := by simp [hlive]
        have hpos := Finset.card_pos.2 ⟨c, hmem⟩
        simp only [herase, Finset.card_erase_of_mem hmem, List.length_cons]
        omega

theorem scan_pending : pending (L.scan m c) = pending m := by
  unfold scan
  refine List.foldlRecOn (motive := fun m' => pending m' = pending m) _ _ rfl fun m' h reloc _ => ?_
  split
  · rw [enqueue_pending, h]
  · exact h

/-- **The loop ends.** -/
theorem drain_isSome {fuel : Nat} (h : pending m < fuel) : (L.drain fuel m).isSome = true := by
  induction fuel generalizing m with
  | zero => omega
  | succ fuel ih =>
    unfold drain
    split
    · rfl
    · rename_i c Q hQ
      have hpop : pending { m with Q := Q } + 1 = pending m := by
        unfold pending
        rw [hQ, List.length_cons, Nat.add_assoc]
      refine ih ?_
      rw [scan_pending]
      omega

end

/-! ## The invariant is kept -/

theorem seen_enqueue {x : LiveBit Sym Chunk Global} :
    L.Seen (L.enqueue m (some sym)) x ↔ L.Seen m x ∨ x = L.bit sym := by
  constructor
  · intro h
    obtain ⟨t, rfl, hlive⟩ := h
    rcases enqueue_isLive.1 hlive with hlive | hbit
    · exact .inl ⟨t, rfl, hlive⟩
    · exact .inr hbit
  · intro h
    rcases h with ⟨t, rfl, hlive⟩ | rfl
    · exact ⟨t, rfl, enqueue_isLive.2 (.inl hlive)⟩
    · exact ⟨sym, rfl, enqueue_isLive.2 (.inr rfl)⟩

variable {also : LiveBit Sym Chunk Global → Prop}

theorem marked_enqueue (h : L.Invariant m also) (hsym : Reached L.Pulls L.RootBit (L.bit sym)) :
    L.Invariant (L.enqueue m (some sym)) also := by
  refine h.visit hsym (fun x => seen_enqueue) (fun x hx => ?_) ?_
  · rcases hx with hx | ⟨c, hc, rfl⟩
    · exact .inl hx
    · exact .inr ⟨c, mem_enqueue_Q.2 (.inl hc), rfl⟩
  · by_cases hlive : L.isLive m sym = true
    · exact .inl (seen_bit.2 hlive)
    · by_cases hchunk : ∃ c, L.bit sym = .chunk c
      · obtain ⟨c, hc⟩ := hchunk
        rw [Bool.not_eq_true] at hlive
        exact .inr (.inl (.inr ⟨c, mem_enqueue_Q.2 (.inr ⟨hlive, hc⟩), hc⟩))
      · refine .inr (.inr fun y hy => ?_)
        obtain ⟨c, hc, -⟩ := hy
        exact hchunk ⟨c, hc⟩

/-- The calls of `Enqueue` for the roots: all are marked, and what was live stays live. -/
theorem marked_roots {roots : List (Option Sym)} (h : L.Invariant m also)
    (hroots : ∀ sym, some sym ∈ roots → Reached L.Pulls L.RootBit (L.bit sym)) :
    L.Invariant (roots.foldl L.enqueue m) also ∧
      ∀ sym, some sym ∈ roots ∨ L.isLive m sym = true → L.isLive (roots.foldl L.enqueue m) sym = true := by
  induction roots generalizing m with
  | nil => exact ⟨h, fun sym hsym => hsym.resolve_left List.not_mem_nil⟩
  | cons o roots ih =>
    have htail := fun sym hsym => hroots sym (.tail _ hsym)
    rw [List.foldl_cons]
    cases o with
    | none =>
      obtain ⟨hinv, hlive⟩ := ih (m := L.enqueue m none) h htail
      refine ⟨hinv, fun sym hsym => hlive sym ?_⟩
      exact hsym.imp_left fun hmem => (List.mem_cons.1 hmem).resolve_left (by simp)
    | some r =>
      obtain ⟨hinv, hlive⟩ := ih (marked_enqueue h (hroots r (.head _))) htail
      refine ⟨hinv, fun sym hsym => hlive sym ?_⟩
      rcases hsym with hmem | hold
      · rcases List.mem_cons.1 hmem with heq | hmem
        · exact .inr (enqueue_isLive.2 (.inr (by rw [Option.some.inj heq])))
        · exact .inl hmem
      · exact .inr (enqueue_isLive.2 (.inl hold))

theorem scan_eq : L.scan m c = (L.pulled c).foldl L.enqueue m := by
  unfold scan pulled
  rw [List.foldl_map, List.foldl_filter]

/-- The chunk taken from `Q` waits until its relocations are followed. -/
theorem marked_scan {Q : List Chunk} (h : L.Invariant m fun _ => False) (hQ : m.Q = c :: Q)
    (hc : Reached L.Pulls L.RootBit (.chunk c)) :
    L.Invariant (L.scan { m with Q := Q } c) (fun _ => False) ∧
      ∀ sym, L.isLive m sym = true → L.isLive (L.scan { m with Q := Q } c) sym = true := by
  have hpop : L.Invariant { m with Q := Q } fun x => x = .chunk c := by
    refine ⟨h.sound, fun x hx => (h.closed x hx).imp_left fun hw => ?_⟩
    obtain ⟨d, hd, rfl⟩ := hw.resolve_left id
    rw [hQ] at hd
    rcases List.mem_cons.1 hd with rfl | hd
    · exact .inl rfl
    · exact .inr ⟨d, hd, rfl⟩
  have hpulled : ∀ sym, some sym ∈ L.pulled c → Reached L.Pulls L.RootBit (L.bit sym) := by
    intro sym hsym
    obtain ⟨reloc, hmem, hfollows, rfl⟩ := mem_pulled.1 hsym
    exact reached_step hc ⟨c, rfl, reloc, hmem, hfollows, rfl⟩
  obtain ⟨hinv, hlive⟩ := marked_roots hpop hpulled
  rw [scan_eq]
  refine ⟨hinv.finish (x := .chunk c) ?_ ?_, fun sym hsym => hlive sym (.inr hsym)⟩
  · intro y hy
    obtain ⟨d, hd, reloc, hmem, hfollows, rfl⟩ := hy
    cases hd
    exact seen_bit.2 (hlive _ (.inl (mem_pulled.2 ⟨reloc, hmem, hfollows, rfl⟩)))
  · intro x hx
    rcases hx with rfl | hx
    · exact .inl rfl
    · exact .inr (.inr hx)

/-- Every chunk in `Q` has been reached. -/
def QReached (L : LinkInput Sym Chunk Global) (m : Marks Sym Chunk Global) : Prop :=
  ∀ c ∈ m.Q, Reached L.Pulls L.RootBit (.chunk c)

theorem qReached_roots {roots : List (Option Sym)} (h : L.QReached m)
    (hroots : ∀ sym, some sym ∈ roots → Reached L.Pulls L.RootBit (L.bit sym)) :
    L.QReached (roots.foldl L.enqueue m) := by
  refine List.foldlRecOn (motive := L.QReached) _ _ h fun m h o ho => ?_
  cases o with
  | none => exact h
  | some sym =>
    intro c hc
    rcases mem_enqueue_Q.1 hc with hc | ⟨-, hbit⟩
    · exact h c hc
    · exact hbit ▸ hroots sym ho

/-- **What the loop keeps**, and that nothing waits in the end. -/
theorem marked_drain {fuel : Nat} {m' : Marks Sym Chunk Global} (h : L.Invariant m fun _ => False)
    (hQ : L.QReached m) (hdrain : L.drain fuel m = some m') :
    L.Invariant m' (fun _ => False) ∧ m'.Q = [] ∧
      ∀ sym, L.isLive m sym = true → L.isLive m' sym = true := by
  induction fuel generalizing m with
  | zero => cases hdrain
  | succ fuel ih =>
    unfold drain at hdrain
    split at hdrain
    · rename_i hempty
      obtain rfl := Option.some.inj hdrain
      exact ⟨h, hempty, fun _ hsym => hsym⟩
    · rename_i c Q hcons
      have hc : Reached L.Pulls L.RootBit (.chunk c) := hQ c (hcons ▸ .head _)
      obtain ⟨hinv, hgrow⟩ := marked_scan h hcons hc
      have hrest : L.QReached (L.scan { m with Q := Q } c) := by
        rw [scan_eq]
        refine qReached_roots (fun d hd => hQ d (hcons ▸ .tail _ hd)) fun sym hsym => ?_
        obtain ⟨reloc, hmem, hfollows, rfl⟩ := mem_pulled.1 hsym
        exact reached_step hc ⟨c, rfl, reloc, hmem, hfollows, rfl⟩
      obtain ⟨hinv', hempty, hgrow'⟩ := ih hinv hrest hdrain
      exact ⟨hinv', hempty, fun sym hsym => hgrow' sym (hgrow sym hsym)⟩

/-! ## What is live -/

/-- **The symbols that end up live**: those that the roots reach through relocations. -/
theorem isLive_iff {fuel : Nat} {m : Marks Sym Chunk Global} (hgc : L.gcSections = true)
    (h : L.markLive fuel = some m) (sym : Sym) :
    L.isLive m sym = true ↔ Reached L.Pulls L.RootBit (L.bit sym) := by
  unfold markLive at h
  rw [hgc, Bool.not_true, if_neg Bool.false_ne_true] at h
  have hstart : L.Invariant L.initial fun _ => False := by
    have hnone : ∀ x, ¬ L.Seen L.initial x := by
      intro x hx
      obtain ⟨sym, -, hlive⟩ := hx
      rw [initial_isLive, hgc] at hlive
      cases hlive
    exact ⟨fun x hx => absurd hx (hnone x), fun x hx => absurd hx (hnone x)⟩
  have hroots : ∀ sym, some sym ∈ L.roots → Reached L.Pulls L.RootBit (L.bit sym) :=
    fun sym hsym => reached_root ⟨sym, hsym, rfl⟩
  obtain ⟨hmarked, hlive⟩ := marked_roots hstart hroots
  have hnoQ : L.QReached L.initial := fun c hc => nomatch hc
  have hQ := qReached_roots hnoQ hroots
  obtain ⟨hinv, hempty, hgrow⟩ := marked_drain hmarked hQ h
  rw [← seen_bit]
  refine hinv.done (fun x hx => ?_) (fun x hx => ?_) (L.bit sym)
  · obtain ⟨r, hr, rfl⟩ := hx
    exact seen_bit.2 (hgrow r (hlive r (.inl hr)))
  · obtain ⟨c, hc, -⟩ := hx.resolve_left id
    rw [hempty] at hc
    cases hc

theorem markLive_isSome [Fintype Chunk] {fuel : Nat} (h : Fintype.card Chunk < fuel) :
    (L.markLive fuel).isSome = true := by
  unfold markLive
  split
  · rfl
  · refine drain_isSome ?_
    have hstart : pending L.initial ≤ Fintype.card Chunk := by
      unfold pending
      exact Finset.card_le_univ _
    have hroots : pending (L.roots.foldl L.enqueue L.initial) = pending L.initial :=
      List.foldlRecOn (motive := fun m => pending m = pending L.initial) _ _ rfl
        fun m hm o _ => by rw [enqueue_pending, hm]
    omega

/-! ## The live targets -/

/-- The live targets, by what keeps a symbol. -/
theorem targets_live_iff {fuel : Nat} {m : Marks Sym Chunk Global} {index : Sym → FunctionSymbol}
    (h : L.markLive fuel = some m) :
    (∀ sym, L.Target index sym → L.isLive m sym = true) ↔
      ∀ sym, L.Target index sym → L.gcSections = true → L.isHidden sym = true → L.Kept sym := by
  constructor
  · intro hlive sym htarget hgc _
    exact reached_iff_kept.1 ((isLive_iff hgc h sym).1 (hlive sym htarget))
  · intro hkept sym htarget
    cases hgc : L.gcSections with
    | false =>
      have hall : m = L.initial := by
        unfold markLive at h
        rw [hgc, Bool.not_false, if_pos rfl] at h
        exact (Option.some.inj h).symm
      rw [hall, initial_isLive, hgc]
      rfl
    | true =>
      refine (isLive_iff hgc h sym).2 (reached_iff_kept.2 ?_)
      cases hhidden : L.isHidden sym with
      | true => exact hkept sym htarget hgc hhidden
      | false =>
        obtain ⟨name, -, hfind⟩ := htarget
        exact (Root.visible (L.find_mem hfind) hhidden).kept

/-- **The dispatcher's targets**: the marking ends; the calls in the emitted body are those of the
targets; and all of these are live if and only if each hidden one is kept by a root. -/
theorem dispatch_targets_live_iff [Fintype Chunk] (index : Sym → FunctionSymbol) {fuel : Nat}
    (hfuel : Fintype.card Chunk < fuel) :
    ∃ m, L.markLive fuel = some m ∧
      ∀ bytes, createDispatchFunction (L.symtab index) = .ok bytes →
        (∃ is, bytes = writeUleb128 ((WasmCode.encodeBody is).length % 2 ^ 32) ++
            WasmCode.encodeBody is ∧
          ∀ i, .call i ∈ is ↔ ∃ sym, L.Target index sym ∧ (index sym).functionIndex = i) ∧
        ((∀ sym, L.Target index sym → L.isLive m sym = true) ↔
          ∀ sym, L.Target index sym → L.gcSections = true → L.isHidden sym = true → L.Kept sym) := by
  have hsome : (L.markLive fuel).isSome = true := markLive_isSome hfuel
  obtain ⟨m, hm⟩ := Option.isSome_iff_exists.1 hsome
  exact ⟨m, hm, fun _ hbytes => ⟨call_iff_target hbytes, targets_live_iff hm⟩⟩

/-! ## Two contracts -/

/-- `__wasm_call_ctors`, `apply`, the assertion (an import), a stub and `pre_dispatch`. -/
def sampleFind (name : Text) : Option (Fin 5) :=
  if name = ctorsName then some 0
  else if name = "apply".toList then some 1
  else if name = assertName then some 2
  else if name = "pay".toList then some 3
  else if name = preName then some 4
  else none

/-- One object, with a hidden `pre_dispatch` that nothing refers to. -/
def sampleInput (wasmActions wasmNotify : List Text) : LinkInput (Fin 5) (Fin 4) (Fin 0) where
  gcSections := true
  entry := "apply".toList
  callCtors := some 0
  symbols := [0, 1, 2, 3, 4]
  find := sampleFind
  objectFiles := [⟨⟨wasmActions, wasmNotify⟩, ["pay".toList, preName], []⟩]
  isHidden sym := sym == 0 || sym == 4
  place
    | 0 => .chunk 0
    | 1 => .chunk 1
    | 2 => .none
    | 3 => .chunk 2
    | 4 => .chunk 3
  relocations _ := []
  tableIndex _ := none
  find_mem {_ sym} _ := (show ∀ sym : Fin 5, sym ∈ [0, 1, 2, 3, 4] by decide) sym
  find_ctors := if_pos rfl

def sampleIndex (sym : Fin 5) : FunctionSymbol := ⟨sym, by omega⟩

/-- With an action the hook is a root. -/
theorem dispatch_targets_live_action :
    Fintype.card (Fin 4) < 5 ∧
    ∃ m, (sampleInput ["hi:pay".toList] []).markLive 5 = some m ∧
      ∀ bytes, createDispatchFunction ((sampleInput ["hi:pay".toList] []).symtab sampleIndex) = .ok bytes →
        ∀ sym, (sampleInput ["hi:pay".toList] []).Target sampleIndex sym →
          (sampleInput ["hi:pay".toList] []).isLive m sym = true := by
  have hfuel : Fintype.card (Fin 4) < 5 := by decide
  obtain ⟨m, hm, h⟩ := dispatch_targets_live_iff (L := sampleInput ["hi:pay".toList] []) sampleIndex hfuel
  refine ⟨hfuel, m, hm, fun bytes hbytes => (h bytes hbytes).2.2 fun sym _ _ hhidden => ?_⟩
  have hsym : sym = 0 ∨ sym = 4 := by simpa [sampleInput] using hhidden
  rcases hsym with rfl | rfl
  · exact (Root.ctors rfl).kept
  · exact (Root.hook (.head _) (List.cons_ne_nil _ _) (.tail _ (.head _)) (.inl rfl) (by decide)).kept

/-- With a notification only it is not, and `apply` calls it all the same. -/
theorem dispatch_target_discarded :
    ¬ ∀ (L : LinkInput (Fin 5) (Fin 4) (Fin 0)) (index : Fin 5 → FunctionSymbol) (fuel : Nat)
      (m : Marks (Fin 5) (Fin 4) (Fin 0)) (bytes : List UInt8), L.markLive fuel = some m →
      createDispatchFunction (L.symtab index) = .ok bytes →
      ∀ sym, L.Target index sym → L.isLive m sym = true := by
  intro h
  obtain ⟨m, hm, hdead⟩ : ∃ m, (sampleInput [] ["bank::hi:pay".toList]).markLive 5 = some m ∧
      (sampleInput [] ["bank::hi:pay".toList]).isLive m 4 = false := ⟨_, rfl, by decide⟩
  obtain ⟨bytes, hbytes⟩ : ∃ bytes, createDispatchFunction
      ((sampleInput [] ["bank::hi:pay".toList]).symtab sampleIndex) = .ok bytes := ⟨_, rfl⟩
  have hpre : (sampleInput [] ["bank::hi:pay".toList]).Target sampleIndex 4 :=
    ⟨preName, .pre (by decide), by decide⟩
  have hlive := h _ _ _ _ _ hm hbytes 4 hpre
  rw [hdead] at hlive
  cases hlive

end LinkInput

end Lld
