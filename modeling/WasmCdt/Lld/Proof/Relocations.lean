import WasmCdt.Lld.Proof.Indexes
import WasmCdt.Lld.Proof.MarkLive
import WasmCdt.Lld.Proof.MemoryLayout

/-!
# What the relocations of the output mean

The object reader accepts a relocation only against a symbol of its kind, and symbol resolution leaves
no weak function without a definition: `LinkState.Ok`.

* `pulled_isLive`: what the relocations of live chunks pull in is live.
* `functionIndex_isSome`, `globalIndex_isSome`, `address_isSome`: live symbols have their numbers.
* `calcNewValue_resolves`: **every relocation of a live chunk has a value, and it means in the output
  what the relocation means in its file.**
* `callIndirect_resolves`: **an indirect call is one of the function whose address was taken, if the
  types agree**; otherwise it traps, as it does for a stub.
-/

namespace Lld

open Numbering Worklist

/-! ## What is live -/

namespace LinkInput

variable {Sym Chunk Global : Type} [DecidableEq Sym] [DecidableEq Chunk] [DecidableEq Global]
  {L : LinkInput Sym Chunk Global}

/-- Only the chunks of symbols are marked. -/
theorem enqueue_chunkLive {m : Marks Sym Chunk Global} (h : ∀ c, m.chunkLive c = true → L.Seen m (.chunk c))
    (o : Option Sym) : ∀ c, (L.enqueue m o).chunkLive c = true → L.Seen (L.enqueue m o) (.chunk c) := by
  cases o with
  | none => exact h
  | some sym =>
    intro c hc
    rw [seen_enqueue]
    by_cases hlive : L.isLive m sym = true
    · rw [enqueue_some, if_pos hlive] at hc
      exact .inl (h c hc)
    · rw [enqueue_some, if_neg hlive] at hc
      unfold getChunk markSymbol at hc
      unfold bit
      cases hplace : L.place sym with
      | chunk d =>
        simp only [hplace] at hc
        by_cases hcd : c = d
        · exact .inr (by rw [hcd])
        · rw [Function.update_of_ne hcd] at hc
          exact .inl (h c hc)
      | global g =>
        simp only [hplace] at hc
        exact .inl (h c hc)
      | none =>
        simp only [hplace] at hc
        exact .inl (h c hc)

theorem drain_chunkLive {fuel : Nat} {m m' : Marks Sym Chunk Global}
    (h : ∀ c, m.chunkLive c = true → L.Seen m (.chunk c)) (hdrain : L.drain fuel m = some m') :
    ∀ c, m'.chunkLive c = true → L.Seen m' (.chunk c) := by
  induction fuel generalizing m with
  | zero => cases hdrain
  | succ fuel ih =>
    unfold drain at hdrain
    split at hdrain
    · obtain rfl := Option.some.inj hdrain
      exact h
    · rename_i c Q hQ
      have hpop : ∀ d, Marks.chunkLive { m with Q := Q } d = true → L.Seen { m with Q := Q } (.chunk d) := h
      refine ih ?_ hdrain
      rw [scan_eq]
      exact List.foldlRecOn (motive := fun m => ∀ d, m.chunkLive d = true → L.Seen m (.chunk d)) _ _ hpop
        fun m hm o _ => enqueue_chunkLive hm o

/-- **What the relocations of live chunks pull in** is live. -/
theorem pulled_isLive {fuel : Nat} {m : Marks Sym Chunk Global} (h : L.markLive fuel = some m) {c : Chunk}
    (hc : m.chunkLive c = true) {reloc : WasmRelocation Sym} (hmem : reloc ∈ L.relocations c)
    (hfollows : L.follows reloc = true) : L.isLive m reloc.sym = true := by
  cases hgc : L.gcSections with
  | false =>
    rw [markLive, hgc, Bool.not_false, if_pos rfl] at h
    rw [← Option.some.inj h, initial_isLive, hgc]
    rfl
  | true =>
    have hdrain := h
    rw [markLive, hgc, Bool.not_true, if_neg Bool.false_ne_true] at hdrain
    have hstart : ∀ c, L.initial.chunkLive c = true → L.Seen L.initial (.chunk c) := by
      intro c hc
      rw [initial, hgc] at hc
      cases hc
    have hroots : ∀ c, (L.roots.foldl L.enqueue L.initial).chunkLive c = true →
        L.Seen (L.roots.foldl L.enqueue L.initial) (.chunk c) :=
      List.foldlRecOn (motive := fun m => ∀ c, m.chunkLive c = true → L.Seen m (.chunk c)) _ _ hstart
        fun m hm o _ => enqueue_chunkLive hm o
    obtain ⟨sym, hbit, hlive⟩ := drain_chunkLive hroots hdrain c hc
    have hreached := (isLive_iff hgc h sym).1 hlive
    refine (isLive_iff hgc h reloc.sym).2 (reached_step hreached ?_)
    exact ⟨c, hbit.symm, reloc, hmem, hfollows, rfl⟩

end LinkInput

namespace LinkState

variable {Sym Func Seg Global : Type} (P : LinkState Sym Func Seg Global)

/-! ## Programs -/

/-- The symbol is a function that the output can have. -/
def Callable (sym : Sym) : Prop :=
  match (P.symbol sym).kind with
  | .definedFunction f => f ∈ P.functions
  | .undefinedFunction => sym ∈ P.input.symbols ∧ (P.symbol sym).isWeak = false ∧
      (P.symbol sym).isUsedInRegularObj = true
  | _ => False

def HasGlobal (sym : Sym) : Prop :=
  match (P.symbol sym).kind with
  | .definedGlobal g => g ∈ P.globals
  | .undefinedGlobal => sym ∈ P.input.symbols ∧ (P.symbol sym).isWeak = false ∧
      (P.symbol sym).isUsedInRegularObj = true
  | _ => False

/-- Data that is not defined has the address 0. -/
def HasData (sym : Sym) : Prop :=
  match (P.symbol sym).kind with
  | .definedData seg _ => seg ∈ P.files.flatMap ObjectFile.segments
  | .linkerData _ | .undefinedData => True
  | _ => False

/-- A relocation is against a symbol of its kind. -/
def RelocOk (rel : Relocation (Target Sym)) : Prop :=
  match rel.kind, rel.target with
  | .functionIndexLeb, .symbol sym | .tableIndexI32, .symbol sym | .tableIndexSleb, .symbol sym =>
    P.Callable sym
  | .memoryAddrSleb, .symbol sym | .memoryAddrI32, .symbol sym | .memoryAddrLeb, .symbol sym =>
    P.HasData sym
  | .globalIndexLeb, .symbol sym => P.HasGlobal sym
  | .typeIndexLeb, .type file index => (P.typeOf file index).isSome
  | _, _ => False

/-- The files after symbol resolution. -/
structure Ok : Prop where
  relocations : ∀ c ∈ P.chunks, ∀ rel ∈ P.relocations c, P.RelocOk rel
  segments : (P.files.flatMap ObjectFile.segments).Nodup

/-- The type of the function that a symbol stands for. -/
def typeOfFunction : Sym ⊕ Func → Option Signature
  | .inl sym => (P.symbol sym).functionType
  | .inr f => some (P.signature f)

section
variable (X : Indexes Sym Func Global)

/-- The numbers fit 32 bits. -/
structure Fits : Prop where
  functions : (P.functionSpace X.imports X.functions).length < 2 ^ 32
  table : kInitialTableOffset + X.table.indirectFunctions.length < 2 ^ 32
  globals : (P.globalSpace X.imports X.globals).length < 2 ^ 32
  types : X.types.types.length < 2 ^ 32

/-- The function index at a place of the table; the places before `kInitialTableOffset` are null. -/
def tableSlot (slot : Nat) : Option Nat :=
  if slot < kInitialTableOffset then none else (P.elements X)[slot - kInitialTableOffset]?.join

def tableEntry (slot : Nat) : Option (Sym ⊕ Func) :=
  (P.tableSlot X slot).bind fun i => (P.functionSpace X.imports X.functions)[i]?

/-- `call_indirect`: the function that is called; `none` is a trap. -/
def callIndirect (type slot : Nat) : Option (Sym ⊕ Func) :=
  (P.tableSlot X slot).bind fun i =>
    if (P.functionTypes X)[i]?.join = some type then (P.functionSpace X.imports X.functions)[i]? else none

variable (M : Memory Seg)

/-- The addresses that the linker sets. -/
def linkerAddress (M : Memory Seg) : LinkerData → Option Nat
  | .dsoHandle => some M.dataStart
  | .dataEnd => some M.dataEnd
  | .heapBase => M.heapBase

/-- What the value of a relocation has to be. -/
def Resolves (rel : Relocation (Target Sym)) (v : BitVec 32) : Prop :=
  match rel.kind, rel.target with
  | .functionIndexLeb, .symbol sym =>
    (P.functionSpace X.imports X.functions)[v.toNat]? = some (P.denotes sym)
  | .tableIndexI32, .symbol sym | .tableIndexSleb, .symbol sym =>
    if (P.stubIndex (P.denotes sym)).isSome then v = 0
    else P.tableEntry X v.toNat = some (P.denotes sym)
  | .memoryAddrSleb, .symbol sym | .memoryAddrI32, .symbol sym | .memoryAddrLeb, .symbol sym =>
    match (P.symbol sym).kind with
    | .definedData seg offset => ∃ va, (seg, va) ∈ places M.segments ∧
        v = BitVec.ofNat 32 (va + offset) + BitVec.ofInt 32 rel.addend
    | .linkerData data => ∃ va, linkerAddress M data = some va ∧
        v = BitVec.ofNat 32 va + BitVec.ofInt 32 rel.addend
    | _ => v = 0
  | .globalIndexLeb, .symbol sym =>
    (P.globalSpace X.imports X.globals)[v.toNat]? = some (P.denotesGlobal sym)
  | .typeIndexLeb, .type file index =>
    ∃ sig, P.typeOf file index = some sig ∧ X.types.types[v.toNat]? = some sig
  | _, _ => False

end

/-! ## Live symbols have their numbers -/

/-- The segments of the output are the live ones. -/
theorem memory_members (m : Marks Sym (Func ⊕ Seg) Global) (cfg : LayoutConfig) :
    (members (P.memory m cfg).segments).Perm (P.liveSegments m) := by
  rw [memory, layoutMemory_members]
  exact createOutputSegments_members _ _

section
variable {P} {m : Marks Sym (Func ⊕ Seg) Global} {sym : Sym}

theorem address_isSome [DecidableEq Seg] (hP : P.Ok) (cfg : LayoutConfig) {seg : Seg} (hmem : seg ∈ P.files.flatMap ObjectFile.segments)
    (hlive : m.chunkLive (.inr seg) = true) :
    ∃ va, (seg, va) ∈ places (P.memory m cfg).segments ∧ (P.memory m cfg).address seg = some (uint32 va) := by
  have hperm : (members (P.memory m cfg).segments).Perm (P.liveSegments m) := P.memory_members m cfg
  have hnodup := hperm.nodup_iff.2 (hP.segments.filter _)
  have hplaced := hperm.mem_iff.2 (List.mem_filter.2 ⟨hmem, hlive⟩)
  rw [← places_fst] at hplaced
  obtain ⟨p, hp, rfl⟩ := List.mem_map.1 hplaced
  exact ⟨p.2, hp, address_of_mem hnodup hp⟩

variable [DecidableEq Sym] [DecidableEq Func] [DecidableEq Global]

theorem functionIndex_isSome (hsym : P.Callable sym) (hlive : P.input.isLive m sym = true) :
    (P.functionIndex (P.indexes m).imports (P.indexes m).functions sym).isSome := by
  unfold Callable at hsym
  cases hkind : (P.symbol sym).kind with
  | definedFunction f =>
    rw [hkind] at hsym
    have hplace : P.input.place sym = .chunk (.inl f) := by rw [P.place_eq, hkind]; rfl
    rw [LinkInput.isLive, hplace] at hlive
    obtain ⟨hinputs, hnum⟩ := P.assignFunctions_ok m (P.calculateImports m)
    have hf : f ∈ (P.assignFunctions m (P.calculateImports m)).inputs :=
      hinputs ▸ List.mem_filter.2 ⟨hsym, hlive⟩
    rw [functionIndex, hkind]
    exact hnum.total f hf
  | undefinedFunction =>
    rw [hkind] at hsym
    obtain ⟨hlisted, hweak, hused⟩ := hsym
    have himported : P.isImported m sym = true := by simp [isImported, hkind, hweak, hused, hlive]
    have hmem : sym ∈ P.importedFunctions (P.calculateImports m) :=
      List.mem_filter.2 ⟨importedSymbols_eq P m ▸ List.mem_filter.2 ⟨hlisted, himported⟩,
        by simp [hkind, SymbolKind.isFunction]⟩
    rw [functionIndex, hkind]
    exact (P.calculateImports_ok m).functions.total sym hmem
  | _ => simp [hkind] at hsym

theorem globalIndex_isSome (hsym : P.HasGlobal sym) (hlive : P.input.isLive m sym = true) :
    (P.globalIndex (P.indexes m).imports (P.indexes m).globals sym).isSome := by
  unfold HasGlobal at hsym
  cases hkind : (P.symbol sym).kind with
  | definedGlobal g =>
    rw [hkind] at hsym
    have hplace : P.input.place sym = .global g := by rw [P.place_eq, hkind]; rfl
    rw [LinkInput.isLive, hplace] at hlive
    obtain ⟨hinputs, hnum⟩ := P.assignGlobals_ok m (P.calculateImports m)
    have hg : g ∈ (P.assignGlobals m (P.calculateImports m)).inputs :=
      hinputs ▸ List.mem_filter.2 ⟨hsym, hlive⟩
    rw [globalIndex, hkind]
    exact hnum.total g hg
  | undefinedGlobal =>
    rw [hkind] at hsym
    obtain ⟨hlisted, hweak, hused⟩ := hsym
    have himported : P.isImported m sym = true := by simp [isImported, hkind, hweak, hused, hlive]
    have hmem : sym ∈ P.importedGlobals (P.calculateImports m) :=
      List.mem_filter.2 ⟨importedSymbols_eq P m ▸ List.mem_filter.2 ⟨hlisted, himported⟩,
        by simp [hkind, SymbolKind.isFunction]⟩
    rw [globalIndex, hkind]
    exact (P.calculateImports_ok m).globals.total sym hmem
  | _ => simp [hkind] at hsym

end

/-! ## The table -/

section
variable {P} {X : Indexes Sym Func Global} {sym : Sym}

theorem functionTypes_eq : P.functionTypes X = (P.functionSpace X.imports X.functions).map fun x =>
    (P.typeOfFunction x).bind X.types.lookupType := by
  simp only [functionTypes, functionSpace, importedFunctions, List.map_append, List.map_map]
  rfl

theorem lookupType_iff {T : TypeSpace} (h : T.types.Nodup) {sig : Signature} {i : Nat} :
    T.lookupType sig = some i ↔ T.types[i]? = some sig := by
  unfold TypeSpace.lookupType TypeSpace.indexOf
  constructor
  · intro hi
    split at hi
    · rename_i hmem
      rw [← Option.some.inj hi]
      exact T.getElem?_indexOf sig hmem
    · cases hi
  · intro hi
    obtain ⟨hlt, rfl⟩ := List.getElem?_eq_some_iff.1 hi
    rw [if_pos (List.getElem_mem hlt), h.idxOf_getElem i hlt]

/-- The type of a function of the output, compared with one that is registered. -/
theorem functionTypes_iff (hnodup : X.types.types.Nodup) {j t : Nat} {x : Sym ⊕ Func} {sig : Signature}
    (hx : (P.functionSpace X.imports X.functions)[j]? = some x) (ht : X.types.types[t]? = some sig) :
    (P.functionTypes X)[j]?.join = some t ↔ P.typeOfFunction x = some sig := by
  rw [functionTypes_eq, List.getElem?_map, hx, Option.map_some, Option.join_some, Option.bind_eq_some_iff]
  constructor
  · intro htype
    obtain ⟨sig', hsig', hlookup⟩ := htype
    have hsame := (lookupType_iff hnodup).1 hlookup
    rw [ht] at hsame
    rw [hsig', Option.some.inj hsame]
  · intro hsig
    exact ⟨sig, hsig, (lookupType_iff hnodup).2 ht⟩

variable [DecidableEq Sym] [DecidableEq Func] [DecidableEq Global] {m : Marks Sym (Func ⊕ Seg) Global}

/-- The place of a symbol's function in the table. -/
theorem tableSlot_denotes {i : Nat} (hi : P.tableIndex (P.indexes m).table sym = some i) :
    if (P.stubIndex (P.denotes sym)).isSome then i = 0
    else ∃ j, P.tableSlot (P.indexes m) i = some j ∧
      (P.functionSpace (P.indexes m).imports (P.indexes m).functions)[j]? = some (P.denotes sym) := by
  have hT := (P.assignTable_ok (P.calculateImports m) (P.assignFunctions m (P.calculateImports m)) m).1
  have hplace := tableIndex_denotes hT hi
  split at hplace
  · rename_i hstub
    rwa [if_pos hstub]
  · rename_i hstub
    obtain ⟨hle, hpos⟩ := hplace
    rw [if_neg hstub]
    rw [List.getElem?_map, Option.map_eq_some_iff] at hpos
    obtain ⟨s, hs, hdenotes⟩ := hpos
    obtain ⟨j, hj⟩ := Option.isSome_iff_exists.1 (hT.indexed s (List.mem_of_getElem? hs))
    refine ⟨j, ?_, hdenotes ▸ functionIndex_denotes (P.calculateImports_ok m) hj⟩
    rw [tableSlot, if_neg (Nat.not_lt.2 hle), elements, List.getElem?_map]
    change (Option.map (P.functionIndex (P.calculateImports m) (P.assignFunctions m (P.calculateImports m)))
      ((P.assignTable m _ _).1.indirectFunctions[i - kInitialTableOffset]?)).join = some j
    rw [hs]
    exact hj

end

/-! ## Relocations -/

section
variable {P} {sym : Sym}

/-- A relocation with a function's address does not pull in a stub. -/
theorem follows_table {type : RelocType} (htype : type = .tableIndexI32 ∨ type = .tableIndexSleb)
    (hstub : P.stubIndex (P.denotes sym) = none) : P.input.follows ⟨type, sym⟩ = true := by
  have hindex : P.input.tableIndex sym = none := by
    rw [P.tableIndex_eq]
    unfold denotes at hstub
    cases hkind : (P.symbol sym).kind with
    | definedFunction f =>
      rw [hkind] at hstub
      exact hstub
    | _ => rfl
  rcases htype with rfl | rfl <;> simp [LinkInput.follows, hindex]

/-- A position in a list that fits 32 bits. -/
theorem toNat_of_getElem? {α : Type} {xs : List α} {i : Nat} {x : α} (h : xs[i]? = some x)
    (hlen : xs.length < 2 ^ 32) : (BitVec.ofNat 32 i).toNat = i := by
  have hlt := (List.getElem?_eq_some_iff.1 h).1
  exact Nat.mod_eq_of_lt (by omega)

variable {m : Marks Sym (Func ⊕ Seg) Global} {fuel : Nat} {c : Func ⊕ Seg} {rel : Relocation (Target Sym)}

theorem mem_liveRelocations (hc : c ∈ P.chunks) (hlive : m.chunkLive c = true)
    (hrel : rel ∈ P.relocations c) : rel ∈ P.liveRelocations m :=
  List.mem_flatMap.2 ⟨c, List.mem_filter.2 ⟨hc, hlive⟩, hrel⟩

/-- The address of live data. -/
theorem memory_resolves [DecidableEq Seg] (hP : P.Ok) {cfg : LayoutConfig} (hcfg : cfg.relocatable = false)
    (hsym : P.HasData sym) (hlive : P.input.isLive m sym = true) (addend : Int) :
    ∃ v, (if (P.symbol sym).kind.isDefinedData && P.input.isLive m sym then
        (virtualAddress (P.memory m cfg) (P.symbol sym).kind).map (· + BitVec.ofInt 32 addend)
      else some 0) = some v ∧
      match (P.symbol sym).kind with
      | .definedData seg offset => ∃ va, (seg, va) ∈ places (P.memory m cfg).segments ∧
          v = BitVec.ofNat 32 (va + offset) + BitVec.ofInt 32 addend
      | .linkerData data => ∃ va, linkerAddress (P.memory m cfg) data = some va ∧
          v = BitVec.ofNat 32 va + BitVec.ofInt 32 addend
      | _ => v = 0 := by
  rw [hlive, Bool.and_true]
  unfold HasData at hsym
  cases hkind : (P.symbol sym).kind with
  | definedData seg offset =>
    rw [hkind] at hsym
    have hplace : P.input.place sym = .chunk (.inr seg) := by rw [P.place_eq, hkind]; rfl
    rw [LinkInput.isLive, hplace] at hlive
    obtain ⟨va, hplaced, haddress⟩ := address_isSome hP cfg hsym hlive
    have hwrap : BitVec.ofNat 32 (uint32 va + offset) = BitVec.ofNat 32 (va + offset) := by
      apply BitVec.eq_of_toNat_eq
      simp [uint32]
    exact ⟨BitVec.ofNat 32 (va + offset) + BitVec.ofInt 32 addend,
      by simp [SymbolKind.isDefinedData, virtualAddress, haddress, hwrap], va, hplaced, rfl⟩
  | linkerData data =>
    have hset : (linkerAddress (P.memory m cfg) data).isSome := by
      cases data <;> simp [linkerAddress, memory, LayoutConfig.layoutMemory, hcfg]
    obtain ⟨va, hva⟩ := Option.isSome_iff_exists.1 hset
    have haddress : virtualAddress (P.memory m cfg)
        (.linkerData data : SymbolKind Func Seg Global) = some (BitVec.ofNat 32 va) := by
      cases data <;> simp only [linkerAddress, Option.some.injEq] at hva <;> simp [virtualAddress, hva]
    exact ⟨BitVec.ofNat 32 va + BitVec.ofInt 32 addend,
      by simp [SymbolKind.isDefinedData, haddress], va, hva, rfl⟩
  | undefinedData => exact ⟨0, by simp [SymbolKind.isDefinedData], rfl⟩
  | _ => simp [hkind] at hsym

variable [DecidableEq Sym] [DecidableEq Func] [DecidableEq Global]

theorem function_resolves (hfits : P.Fits (P.indexes m)) (hsym : P.Callable sym)
    (hlive : P.input.isLive m sym = true) :
    ∃ i, P.functionIndex (P.indexes m).imports (P.indexes m).functions sym = some i ∧
      (P.functionSpace (P.indexes m).imports (P.indexes m).functions)[(BitVec.ofNat 32 i).toNat]?
        = some (P.denotes sym) := by
  obtain ⟨i, hi⟩ := Option.isSome_iff_exists.1 (functionIndex_isSome hsym hlive)
  have hpos := functionIndex_denotes (P.calculateImports_ok m) hi
  exact ⟨i, hi, by rwa [toNat_of_getElem? hpos hfits.functions]⟩

theorem global_resolves (hfits : P.Fits (P.indexes m)) (hsym : P.HasGlobal sym)
    (hlive : P.input.isLive m sym = true) :
    ∃ i, P.globalIndex (P.indexes m).imports (P.indexes m).globals sym = some i ∧
      (P.globalSpace (P.indexes m).imports (P.indexes m).globals)[(BitVec.ofNat 32 i).toNat]?
        = some (P.denotesGlobal sym) := by
  obtain ⟨i, hi⟩ := Option.isSome_iff_exists.1 (globalIndex_isSome hsym hlive)
  have hpos := globalIndex_denotes (P.calculateImports_ok m) hi
  exact ⟨i, hi, by rwa [toNat_of_getElem? hpos hfits.globals]⟩

/-- A type that is used is in the output. -/
theorem type_resolves (hfits : P.Fits (P.indexes m)) (hc : c ∈ P.chunks) (hlive : m.chunkLive c = true)
    (hrel : rel ∈ P.relocations c) (hkind : rel.kind = .typeIndexLeb) {file index : Nat}
    (htarget : rel.target = .type file index) (hsome : (P.typeOf file index).isSome) :
    ∃ sig, P.typeOf file index = some sig ∧
      (P.indexes m).types.types[(BitVec.ofNat 32 ((P.indexes m).types.typeMap file index)).toNat]?
        = some sig := by
  obtain ⟨-, hS, hhandled⟩ :=
    P.assignTable_ok (P.calculateImports m) (P.assignFunctions m (P.calculateImports m)) m
  obtain ⟨htypes, hused, -⟩ :=
    calculateTypes_ok hS (P.calculateImports m) (P.assignFunctions m (P.calculateImports m))
  obtain ⟨sig, hsig⟩ := Option.isSome_iff_exists.1 hsome
  have huse := (hhandled rel (mem_liveRelocations hc hlive hrel)).2 file index sig hkind htarget hsig
  rw [← hused] at huse
  obtain ⟨sig', hsig', hpos⟩ := htypes.used file index huse
  exact ⟨sig', hsig', by rwa [show (BitVec.ofNat 32 ((P.indexes m).types.typeMap file index)).toNat
    = (P.indexes m).types.typeMap file index from toNat_of_getElem? hpos hfits.types]⟩

variable [DecidableEq Seg]

/-- The marking has followed the relocation. -/
theorem reloc_isLive (hm : P.input.markLive fuel = some m) (hlive : m.chunkLive c = true)
    (hrel : rel ∈ P.relocations c) (htarget : rel.target = .symbol sym)
    (hfollows : P.input.follows ⟨rel.kind.type, sym⟩ = true) : P.input.isLive m sym = true := by
  have hmarked : rel.marked = some ⟨rel.kind.type, sym⟩ := by rw [Relocation.marked, htarget]
  have hmem : ⟨rel.kind.type, sym⟩ ∈ P.input.relocations c := by
    cases c with
    | inl f =>
      rw [P.relocations_func]
      exact List.mem_filterMap.2 ⟨rel, hrel, hmarked⟩
    | inr s =>
      rw [P.relocations_seg]
      exact List.mem_filterMap.2 ⟨rel, hrel, hmarked⟩
  exact LinkInput.pulled_isLive hm hlive hmem hfollows

/-- An address that is taken is in the table, unless it is that of a stub. -/
theorem table_resolves (hfits : P.Fits (P.indexes m)) (hm : P.input.markLive fuel = some m)
    (hc : c ∈ P.chunks) (hlive : m.chunkLive c = true) (hrel : rel ∈ P.relocations c)
    (hkind : rel.kind.isTable = true) (htarget : rel.target = .symbol sym) (hsym : P.Callable sym) :
    ∃ i, P.tableIndex (P.indexes m).table sym = some i ∧
      if (P.stubIndex (P.denotes sym)).isSome then i = 0
      else ∃ j, P.tableSlot (P.indexes m) (BitVec.ofNat 32 i).toNat = some j ∧
        (P.functionSpace (P.indexes m).imports (P.indexes m).functions)[j]? = some (P.denotes sym) := by
  obtain ⟨hT, -, hhandled⟩ :=
    P.assignTable_ok (P.calculateImports m) (P.assignFunctions m (P.calculateImports m)) m
  have hsome : (P.tableIndex (P.indexes m).table sym).isSome := by
    cases hstub : P.stubIndex (P.denotes sym) with
    | some i =>
      rw [tableIndex_eq']
      exact hT.numbered.keeps _ (by rw [hstub]; rfl)
    | none =>
      have htype : rel.kind.type = .tableIndexI32 ∨ rel.kind.type = .tableIndexSleb := by
        cases hk : rel.kind <;> rw [hk] at hkind <;> simp [RelocKind.isTable, RelocKind.type] at hkind ⊢
      have hsymlive := reloc_isLive hm hlive hrel htarget (follows_table htype hstub)
      exact (hhandled rel (mem_liveRelocations hc hlive hrel)).1 sym hkind htarget
        (functionIndex_isSome hsym hsymlive)
  obtain ⟨i, hi⟩ := Option.isSome_iff_exists.1 hsome
  have hplace := tableSlot_denotes hi
  refine ⟨i, hi, ?_⟩
  split at hplace
  · rename_i hstub
    rwa [if_pos hstub]
  · rename_i hstub
    obtain ⟨j, hj, hx⟩ := hplace
    have hlt : i < 2 ^ 32 := by
      rw [tableSlot] at hj
      split at hj
      · cases hj
      · have hlen := (List.getElem?_eq_some_iff.1 (Option.join_eq_some_iff.1 hj)).1
        have htable := hfits.table
        rw [elements, List.length_map] at hlen
        omega
    rw [if_neg hstub]
    exact ⟨j, by rwa [show (BitVec.ofNat 32 i).toNat = i from Nat.mod_eq_of_lt hlt], hx⟩

/-- **Every relocation of a live chunk has a value**, which means in the output what the relocation
means in its file. -/
theorem calcNewValue_resolves (hP : P.Ok) (hm : P.input.markLive fuel = some m)
    (hfits : P.Fits (P.indexes m)) {cfg : LayoutConfig} (hcfg : cfg.relocatable = false)
    (hc : c ∈ P.chunks) (hlive : m.chunkLive c = true) (hrel : rel ∈ P.relocations c) :
    ∃ v, P.calcNewValue m (P.indexes m) (P.memory m cfg) rel = some v ∧
      P.Resolves (P.indexes m) (P.memory m cfg) rel v := by
  have hok := hP.relocations c hc rel hrel
  have hfollowed : ∀ sym, rel.target = .symbol sym → rel.kind.type = .other →
      P.input.isLive m sym = true := fun sym htarget htype =>
    reloc_isLive hm hlive hrel htarget (by rw [htype]; rfl)
  have htable : ∀ sym, rel.kind.isTable = true → rel.target = .symbol sym → P.Callable sym →
      ∃ v, (P.tableIndex (P.indexes m).table sym).map (BitVec.ofNat 32) = some v ∧
        if (P.stubIndex (P.denotes sym)).isSome then v = 0
        else P.tableEntry (P.indexes m) v.toNat = some (P.denotes sym) := by
    intro sym hkind htarget hsym
    obtain ⟨i, hi, hplace⟩ := table_resolves hfits hm hc hlive hrel hkind htarget hsym
    refine ⟨BitVec.ofNat 32 i, by rw [hi]; rfl, ?_⟩
    split at hplace
    · rename_i hstub
      rw [if_pos hstub, hplace]
      rfl
    · rename_i hstub
      obtain ⟨j, hj, hx⟩ := hplace
      rw [if_neg hstub, tableEntry, hj]
      exact hx
  unfold RelocOk at hok
  unfold calcNewValue Resolves
  cases hkind : rel.kind with
  | functionIndexLeb =>
    cases htarget : rel.target with
    | symbol sym =>
      simp only [hkind, htarget] at hok ⊢
      obtain ⟨i, hi, hpos⟩ := function_resolves hfits hok (hfollowed sym htarget (by rw [hkind]; rfl))
      exact ⟨BitVec.ofNat 32 i, by rw [hi]; rfl, hpos⟩
    | type file index => simp [hkind, htarget] at hok
  | globalIndexLeb =>
    cases htarget : rel.target with
    | symbol sym =>
      simp only [hkind, htarget] at hok ⊢
      obtain ⟨i, hi, hpos⟩ := global_resolves hfits hok (hfollowed sym htarget (by rw [hkind]; rfl))
      exact ⟨BitVec.ofNat 32 i, by rw [hi]; rfl, hpos⟩
    | type file index => simp [hkind, htarget] at hok
  | tableIndexI32 | tableIndexSleb =>
    cases htarget : rel.target with
    | symbol sym =>
      simp only [hkind, htarget] at hok ⊢
      exact htable sym (by rw [hkind]; rfl) htarget hok
    | type file index => simp [hkind, htarget] at hok
  | memoryAddrLeb | memoryAddrSleb | memoryAddrI32 =>
    cases htarget : rel.target with
    | symbol sym =>
      simp only [hkind, htarget] at hok ⊢
      exact memory_resolves hP hcfg hok (hfollowed sym htarget (by rw [hkind]; rfl)) rel.addend
    | type file index => simp [hkind, htarget] at hok
  | typeIndexLeb =>
    cases htarget : rel.target with
    | symbol sym => simp [hkind, htarget] at hok
    | type file index =>
      simp only [hkind, htarget] at hok ⊢
      exact ⟨_, rfl, type_resolves hfits hc hlive hrel hkind htarget hok⟩
  | functionOffsetI32 | sectionOffsetI32 => simp [hkind] at hok

/-- **An indirect call** is one of the function whose address was taken, if the types agree, and traps
otherwise, as it does for a stub. -/
theorem callIndirect_resolves (hP : P.Ok) (hm : P.input.markLive fuel = some m)
    (hfits : P.Fits (P.indexes m)) {cfg : LayoutConfig} {c' : Func ⊕ Seg}
    {rel' : Relocation (Target Sym)} {file index : Nat}
    (hc : c ∈ P.chunks) (hlive : m.chunkLive c = true) (hrel : rel ∈ P.relocations c)
    (hkind : rel.kind.isTable = true) (htarget : rel.target = .symbol sym)
    (hc' : c' ∈ P.chunks) (hlive' : m.chunkLive c' = true) (hrel' : rel' ∈ P.relocations c')
    (hkind' : rel'.kind = .typeIndexLeb) (htarget' : rel'.target = .type file index) :
    ∃ slot type, P.calcNewValue m (P.indexes m) (P.memory m cfg) rel = some slot ∧
      P.calcNewValue m (P.indexes m) (P.memory m cfg) rel' = some type ∧
      P.callIndirect (P.indexes m) type.toNat slot.toNat =
        if P.stubIndex (P.denotes sym) = none ∧ P.typeOfFunction (P.denotes sym) = P.typeOf file index then
          some (P.denotes sym)
        else none := by
  have hok' := hP.relocations c' hc' rel' hrel'
  simp only [RelocOk, hkind', htarget'] at hok'
  obtain ⟨sig, hsig, htype⟩ := type_resolves hfits hc' hlive' hrel' hkind' htarget' hok'
  have hsym : P.Callable sym := by
    have hok := hP.relocations c hc rel hrel
    unfold RelocOk at hok
    cases hk : rel.kind <;> rw [hk] at hkind <;> simp [RelocKind.isTable] at hkind <;>
      simpa [hk, htarget] using hok
  obtain ⟨i, hi, hplace⟩ := table_resolves hfits hm hc hlive hrel hkind htarget hsym
  refine ⟨BitVec.ofNat 32 i, BitVec.ofNat 32 ((P.indexes m).types.typeMap file index), ?_, ?_, ?_⟩
  · unfold calcNewValue
    cases hk : rel.kind <;> rw [hk] at hkind <;> simp [RelocKind.isTable] at hkind <;> simp [htarget, hi]
  · simp [calcNewValue, hkind', htarget']
  · split at hplace
    · rename_i hstub
      have hne : ¬ (P.stubIndex (P.denotes sym) = none ∧
          P.typeOfFunction (P.denotes sym) = P.typeOf file index) := fun h => by simp [h.1] at hstub
      rw [if_neg hne, hplace]
      rfl
    · rename_i hstub
      obtain ⟨j, hj, hx⟩ := hplace
      have hnone : P.stubIndex (P.denotes sym) = none := by simpa using hstub
      obtain ⟨-, hS, -⟩ :=
        P.assignTable_ok (P.calculateImports m) (P.assignFunctions m (P.calculateImports m)) m
      have hnodup : (P.indexes m).types.types.Nodup :=
        (calculateTypes_ok hS (P.calculateImports m) (P.assignFunctions m (P.calculateImports m))).1.nodup
      rw [callIndirect, hj, Option.bind_some]
      simp only [functionTypes_iff hnodup hx htype, hx, hsig, hnone, true_and]

end

/-! ## A contract that calls through the table -/

/-- The symbols: `apply`, an import, data, and a function that is not defined anywhere. -/
inductive SampleSym
  | apply
  | imported
  | data
  | weak
  deriving DecidableEq

/-- `apply`: an address for an indirect call of another one, and a call with what is in the data. -/
def sampleFunction : InputFunction (Target SampleSym) where
  data := [36, 0, 0x41, 0x80, 0x80, 0x80, 0x80, 0, 0x41, 0x80, 0x80, 0x80, 0x80, 0, 0x11, 0x80, 0x80, 0x80, 0x80, 0, 0,
    0x41, 0, 0x28, 2, 0x80, 0x80, 0x80, 0x80, 0, 0x10, 0x80, 0x80, 0x80, 0x80, 0, 0x0b]
  inputSectionOffset := 0
  relocations := [⟨.tableIndexSleb, .symbol .imported, 3, 0⟩, ⟨.tableIndexSleb, .symbol .weak, 9, 0⟩,
    ⟨.typeIndexLeb, .type 0 0, 15, 0⟩, ⟨.memoryAddrLeb, .symbol .data, 25, 4⟩,
    ⟨.functionIndexLeb, .symbol .imported, 31, 0⟩]
  synthetic := false

def sampleSegment : InputSegment (Target SampleSym) where
  data := [1, 2, 3, 4]
  inputSectionOffset := 6
  relocations := []
  name := ".data.x".toList
  alignment := 4

/-- The function `true` is the stub. -/
def sampleSymbol : SampleSym → SymbolInfo Bool Unit Empty
  | .apply => ⟨"apply".toList, .definedFunction false, false, false, true, some ⟨[], none⟩, none⟩
  | .imported => ⟨"prints".toList, .undefinedFunction, false, false, true, some ⟨[0x7f], none⟩, none⟩
  | .data => ⟨"x".toList, .definedData () 0, false, false, true, none, none⟩
  | .weak => ⟨"hook".toList, .definedFunction true, false, false, true, some ⟨[], none⟩, none⟩

def sample : LinkState SampleSym Bool Unit Empty where
  input :=
    { gcSections := true
      entry := "apply".toList
      callCtors := none
      symbols := [.apply, .imported, .data, .weak]
      find := fun name => if name = "apply".toList then some .apply else none
      objectFiles := []
      isHidden := fun sym => sym != .apply
      place := fun sym => (sampleSymbol sym).kind.place
      relocations := fun
        | .inl false => sampleFunction.relocations.filterMap Relocation.marked
        | _ => []
      tableIndex := fun sym => if sym = .weak then some 0 else none
      find_mem := fun {_ sym} _ => by cases sym <;> decide
      find_ctors := rfl }
  symbol := sampleSymbol
  function stub := if stub then ⟨⟨[3, 0, 0, 11], 0, []⟩, true⟩ else sampleFunction
  signature _ := ⟨[], none⟩
  isStub stub := stub
  segment _ := sampleSegment
  global g := g.elim
  files := [⟨[false], [()], [], [⟨[0x7f], none⟩, ⟨[], none⟩]⟩]
  syntheticFunctions := [true]
  syntheticGlobals := []
  place_eq _ := rfl
  relocations_func f := by cases f <;> rfl
  relocations_seg _ := rfl
  tableIndex_eq sym := by cases sym <;> rfl

def sampleMarks : Marks SampleSym (Bool ⊕ Unit) Empty := (sample.input.markLive 4).getD sample.input.initial

theorem sample_markLive : sample.input.markLive 4 = some sampleMarks := rfl

theorem sample_ok : sample.Ok := by
  constructor
  · simp [sample, chunks, relocations, sampleFunction, sampleSegment, RelocOk, Callable, HasData, typeOf,
      functions, sampleSymbol]
  · decide

theorem sample_fits : sample.Fits (sample.indexes sampleMarks) := by
  constructor <;> decide

/-- The options' defaults. -/
def sampleConfig : LayoutConfig := ⟨false, true, false, 1024, 65536, 0, 0⟩

/-- The address of the import is its place in the table. -/
theorem calcNewValue_resolves_sample :
    sample.Ok ∧ sample.input.markLive 4 = some sampleMarks ∧
    ∃ v, sample.calcNewValue sampleMarks (sample.indexes sampleMarks)
        (sample.memory sampleMarks sampleConfig) ⟨.tableIndexSleb, .symbol .imported, 3, 0⟩ = some v ∧
      sample.tableEntry (sample.indexes sampleMarks) v.toNat = some (.inl .imported) := by
  have hc : .inl false ∈ sample.chunks := by simp [sample, chunks]
  have hrel : ⟨.tableIndexSleb, .symbol .imported, 3, 0⟩ ∈ sample.relocations (.inl false) := by decide
  exact ⟨sample_ok, sample_markLive,
    calcNewValue_resolves sample_ok sample_markLive sample_fits rfl hc (by decide) hrel⟩

/-- The import takes an argument, as the call through the table gives one. -/
theorem callIndirect_resolves_sample :
    sample.Ok ∧ sample.input.markLive 4 = some sampleMarks ∧
    ∃ slot type, sample.calcNewValue sampleMarks (sample.indexes sampleMarks)
        (sample.memory sampleMarks sampleConfig) ⟨.tableIndexSleb, .symbol .imported, 3, 0⟩ = some slot ∧
      sample.calcNewValue sampleMarks (sample.indexes sampleMarks)
        (sample.memory sampleMarks sampleConfig) ⟨.typeIndexLeb, .type 0 0, 15, 0⟩ = some type ∧
      sample.callIndirect (sample.indexes sampleMarks) type.toNat slot.toNat = some (.inl .imported) := by
  have hc : .inl false ∈ sample.chunks := by simp [sample, chunks]
  have hrel : ⟨.tableIndexSleb, .symbol .imported, 3, 0⟩ ∈ sample.relocations (.inl false) := by decide
  have hrel' : ⟨.typeIndexLeb, .type 0 0, 15, 0⟩ ∈ sample.relocations (.inl false) := by decide
  exact ⟨sample_ok, sample_markLive, callIndirect_resolves sample_ok sample_markLive sample_fits hc
    (by decide) hrel rfl rfl hc (by decide) hrel' rfl rfl⟩

end LinkState

end Lld
