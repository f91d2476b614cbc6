import WasmCdt.Lib.Numbering
import WasmCdt.Lld.Writer

/-!
# What the indices of the output mean

The function index space has the imported functions and then the live functions of the files; the
table has a null entry and then the functions whose address is taken.

* `functionIndex_denotes`, `globalIndex_denotes`: a symbol's index is the place of what it denotes.
* `tableIndex_denotes`: **its table index is the place of a function of the same denotation**, or 0
  for a stub; no function is in the table twice.
* `typeMap_ok`: the types that a file uses are where its `TypeMap` says.
-/

namespace Lld

open Numbering

/-! ## Spaces -/

theorem space_add {α : Type} [DecidableEq α] (live : α → Bool) (start : Nat) (xs : List α) :
    ∀ S : Space α, Numbered start (fun _ => none) S.inputs S.index →
      (xs.foldl (Space.add live start) S).inputs = S.inputs ++ xs.filter live ∧
        Numbered start (fun _ => none) (xs.foldl (Space.add live start) S).inputs
          (xs.foldl (Space.add live start) S).index := by
  induction xs with
  | nil => exact fun S h => ⟨by simp, h⟩
  | cons x xs ih =>
    intro S h
    rw [List.foldl_cons, List.filter_cons]
    cases hlive : live x with
    | true =>
      have hadd : Space.add live start S x
          = ⟨S.inputs ++ [x], Function.update S.index x (some (start + S.inputs.length))⟩ := by
        rw [Space.add, if_pos hlive]
      obtain ⟨hinputs, hnum⟩ := ih (Space.add live start S x) (hadd ▸ h.push x)
      exact ⟨by rw [hinputs, hadd]; simp, hnum⟩
    | false =>
      have hadd : Space.add live start S x = S := by
        rw [Space.add, hlive, if_neg Bool.false_ne_true]
      rw [hadd]
      exact ih S h

/-- Whether a relocation takes the address of a function. -/
def RelocKind.isTable : RelocKind → Bool
  | .tableIndexI32 | .tableIndexSleb => true
  | _ => false

namespace LinkState

variable {Sym Func Seg Global : Type} (P : LinkState Sym Func Seg Global)
  (m : Marks Sym (Func ⊕ Seg) Global)

/-- The function that a symbol stands for: an import, or a function of the output. -/
def denotes (sym : Sym) : Sym ⊕ Func :=
  match (P.symbol sym).kind with
  | .definedFunction f => .inr f
  | _ => .inl sym

def denotesGlobal (sym : Sym) : Sym ⊕ Global :=
  match (P.symbol sym).kind with
  | .definedGlobal g => .inr g
  | _ => .inl sym

def importedFunctions (I : Imports Sym) : List Sym :=
  I.importedSymbols.filter fun sym => (P.symbol sym).kind.isFunction

def importedGlobals (I : Imports Sym) : List Sym :=
  I.importedSymbols.filter fun sym => !(P.symbol sym).kind.isFunction

/-- The functions of the output in the order of their indices. -/
def functionSpace (I : Imports Sym) (F : Space Func) : List (Sym ⊕ Func) :=
  (P.importedFunctions I).map .inl ++ F.inputs.map .inr

def globalSpace (I : Imports Sym) (G : Space Global) : List (Sym ⊕ Global) :=
  (P.importedGlobals I).map .inl ++ G.inputs.map .inr

/-! ## Imports -/

structure ImportsOk (I : Imports Sym) : Prop where
  functions : Numbered 0 (fun _ => none) (P.importedFunctions I) I.functionIndex
  numFunctions : I.numImportedFunctions = (P.importedFunctions I).length
  globals : Numbered 0 (fun _ => none) (P.importedGlobals I) I.globalIndex
  numGlobals : I.numImportedGlobals = (P.importedGlobals I).length

section
variable [DecidableEq Sym]

theorem addImport_ok {I : Imports Sym} (h : P.ImportsOk I) (sym : Sym) :
    P.ImportsOk (P.addImport m I sym) := by
  unfold addImport
  split
  · split
    · rename_i hfunc
      have hf := h.functions.push sym
      rw [Nat.zero_add, ← h.numFunctions] at hf
      constructor
      · simpa [importedFunctions, hfunc] using hf
      · simp [importedFunctions, hfunc, h.numFunctions]
      · simpa [importedGlobals, hfunc] using h.globals
      · simpa [importedGlobals, hfunc] using h.numGlobals
    · rename_i hfunc
      rw [Bool.not_eq_true] at hfunc
      have hg := h.globals.push sym
      rw [Nat.zero_add, ← h.numGlobals] at hg
      constructor
      · simpa [importedFunctions, hfunc] using h.functions
      · simpa [importedFunctions, hfunc] using h.numFunctions
      · simpa [importedGlobals, hfunc] using hg
      · simp [importedGlobals, hfunc, h.numGlobals]
  · exact h

theorem importedSymbols_eq :
    (P.calculateImports m).importedSymbols = P.input.symbols.filter (P.isImported m) := by
  have hloop : ∀ (syms : List Sym) (I : Imports Sym), (syms.foldl (P.addImport m) I).importedSymbols
      = I.importedSymbols ++ syms.filter (P.isImported m) := by
    intro syms
    induction syms with
    | nil => simp
    | cons sym syms ih =>
      intro I
      rw [List.foldl_cons, ih, List.filter_cons]
      unfold addImport
      split
      · split <;> simp
      · rfl
  simpa [calculateImports] using hloop P.input.symbols ⟨[], 0, 0, fun _ => none, fun _ => none⟩

theorem calculateImports_ok : P.ImportsOk (P.calculateImports m) := by
  unfold calculateImports
  refine List.foldlRecOn (motive := P.ImportsOk) _ _ ?_ fun I h sym _ => P.addImport_ok m h sym
  exact ⟨.nil 0 _, rfl, .nil 0 _, rfl⟩

end

/-! ## Functions and globals -/

theorem assignFunctions_ok [DecidableEq Func] (I : Imports Sym) :
    (P.assignFunctions m I).inputs = P.functions.filter (fun f => m.chunkLive (.inl f)) ∧
      Numbered I.numImportedFunctions (fun _ => none) (P.assignFunctions m I).inputs
        (P.assignFunctions m I).index := by
  simpa [assignFunctions] using space_add (fun f => m.chunkLive (.inl f)) I.numImportedFunctions P.functions
    ⟨[], fun _ => none⟩ (.nil _ _)

theorem assignGlobals_ok [DecidableEq Global] (I : Imports Sym) :
    (P.assignGlobals m I).inputs = P.globals.filter m.globalLive ∧
      Numbered I.numImportedGlobals (fun _ => none) (P.assignGlobals m I).inputs
        (P.assignGlobals m I).index := by
  simpa [assignGlobals] using space_add m.globalLive I.numImportedGlobals P.globals ⟨[], fun _ => none⟩ (.nil _ _)

variable {P m}

theorem functionIndex_eq (I : Imports Sym) (F : Space Func) (sym : Sym) :
    P.functionIndex I F sym = Sum.elim I.functionIndex F.index (P.denotes sym) := by
  unfold functionIndex denotes
  cases (P.symbol sym).kind <;> rfl

theorem globalIndex_eq (I : Imports Sym) (G : Space Global) (sym : Sym) :
    P.globalIndex I G sym = Sum.elim I.globalIndex G.index (P.denotesGlobal sym) := by
  unfold globalIndex denotesGlobal
  cases (P.symbol sym).kind <;> rfl

/-- **The index of a function symbol** is the place of what it denotes. -/
theorem functionIndex_denotes [DecidableEq Func] {I : Imports Sym} (hI : P.ImportsOk I) {sym : Sym}
    {i : Nat} (h : P.functionIndex I (P.assignFunctions m I) sym = some i) :
    (P.functionSpace I (P.assignFunctions m I))[i]? = some (P.denotes sym) := by
  rw [functionIndex_eq] at h
  exact hI.functions.both (hI.numFunctions ▸ (P.assignFunctions_ok m I).2) h

theorem globalIndex_denotes [DecidableEq Global] {I : Imports Sym} (hI : P.ImportsOk I) {sym : Sym}
    {i : Nat} (h : P.globalIndex I (P.assignGlobals m I) sym = some i) :
    (P.globalSpace I (P.assignGlobals m I))[i]? = some (P.denotesGlobal sym) := by
  rw [globalIndex_eq] at h
  exact hI.globals.both (hI.numGlobals ▸ (P.assignGlobals_ok m I).2) h

/-! ## The table -/

/-- The table index of a function. -/
def tableOf (T : FunctionTable Sym Func) : Sym ⊕ Func → Option Nat := Sum.elim T.symIndex T.funcIndex

/-- The indices that stubs have from the start. -/
def stubIndex (P : LinkState Sym Func Seg Global) : Sym ⊕ Func → Option Nat
  | .inl _ => none
  | .inr f => if P.isStub f then some 0 else none

theorem tableIndex_eq' (T : FunctionTable Sym Func) (sym : Sym) :
    P.tableIndex T sym = tableOf T (P.denotes sym) := by
  unfold tableIndex denotes
  cases (P.symbol sym).kind <;> rfl

section
variable [DecidableEq Sym] [DecidableEq Func]

theorem addIndirect_indirect (T : FunctionTable Sym Func) (sym : Sym) :
    (P.addIndirect T sym).indirectFunctions = T.indirectFunctions ++ [sym] := by
  unfold addIndirect
  cases (P.symbol sym).kind <;> rfl

theorem addIndirect_tableOf (T : FunctionTable Sym Func) (sym : Sym) :
    tableOf (P.addIndirect T sym) = Function.update (tableOf T) (P.denotes sym)
      (some (kInitialTableOffset + T.indirectFunctions.length)) := by
  funext x
  unfold addIndirect denotes
  cases (P.symbol sym).kind <;> cases x <;> simp [tableOf, Function.update_apply]

variable (P) (I : Imports Sym) (F : Space Func)

/-- The functions in the table have their numbers, and a function index; they are there once, and
none is a stub. -/
structure TableOk (T : FunctionTable Sym Func) : Prop where
  numbered : Numbered kInitialTableOffset P.stubIndex (T.indirectFunctions.map P.denotes) (tableOf T)
  nodup : (T.indirectFunctions.map P.denotes).Nodup
  noStub : ∀ x ∈ T.indirectFunctions.map P.denotes, P.stubIndex x = none
  indexed : ∀ sym ∈ T.indirectFunctions, (P.functionIndex I F sym).isSome

variable {P I F}

theorem addIndirect_ok {T : FunctionTable Sym Func} (h : P.TableOk I F T) {sym : Sym}
    (hnew : P.tableIndex T sym = none) (hindex : (P.functionIndex I F sym).isSome) :
    P.TableOk I F (P.addIndirect T sym) := by
  have hnot : P.denotes sym ∉ T.indirectFunctions.map P.denotes := fun hmem => by
    have hsome := h.numbered.total _ hmem
    rw [← tableIndex_eq', hnew] at hsome
    cases hsome
  constructor
  · have hpush := h.numbered.push (P.denotes sym)
    rw [List.length_map, ← addIndirect_tableOf] at hpush
    rwa [addIndirect_indirect, List.map_append]
  · rw [addIndirect_indirect, List.map_append, List.map_singleton, List.nodup_append]
    exact ⟨h.nodup, by simp, fun x hx y hy hxy =>
      hnot (List.mem_singleton.1 hy ▸ hxy ▸ hx)⟩
  · intro x hx
    rw [addIndirect_indirect, List.map_append, List.map_singleton, List.mem_append,
      List.mem_singleton] at hx
    rcases hx with hx | rfl
    · exact h.noStub x hx
    · by_contra hstub
      have hkept := h.numbered.keeps _ (Option.isSome_iff_ne_none.2 hstub)
      rw [← tableIndex_eq', hnew] at hkept
      cases hkept
  · intro s hs
    rw [addIndirect_indirect, List.mem_append, List.mem_singleton] at hs
    rcases hs with hs | rfl
    · exact h.indexed s hs
    · exact hindex

theorem addIndirect_isSome {T : FunctionTable Sym Func} {sym : Sym} {x : Sym ⊕ Func}
    (h : (tableOf T x).isSome) : (tableOf (P.addIndirect T sym) x).isSome := by
  rw [addIndirect_tableOf, Function.update_apply]
  split
  · rfl
  · exact h

theorem addIndirect_self (T : FunctionTable Sym Func) (sym : Sym) :
    (P.tableIndex (P.addIndirect T sym) sym).isSome := by
  rw [tableIndex_eq', addIndirect_tableOf, Function.update_self]
  rfl

/-- A relocation that takes the address of a function. -/
theorem handleReloc_table {S : FunctionTable Sym Func × TypeSpace} {rel : Relocation (Target Sym)}
    {sym : Sym} (hkind : rel.kind.isTable = true) (htarget : rel.target = .symbol sym) :
    P.handleReloc I F S rel =
      if (P.tableIndex S.1 sym).isSome || (P.functionIndex I F sym).isNone then S
      else (P.addIndirect S.1 sym, S.2) := by
  unfold handleReloc
  rw [htarget]
  cases hk : rel.kind <;> rw [hk] at hkind <;> simp [RelocKind.isTable] at hkind ⊢

/-- A relocation with the index of a type. -/
theorem handleReloc_type {S : FunctionTable Sym Func × TypeSpace} {rel : Relocation (Target Sym)}
    {file index : Nat} {sig : Signature} (hkind : rel.kind = .typeIndexLeb)
    (htarget : rel.target = .type file index) (hsig : P.typeOf file index = some sig) :
    P.handleReloc I F S rel = (S.1, (S.2.map file index sig).use file index) := by
  unfold handleReloc
  rw [hkind, htarget]
  simp only [hsig]

/-- What a relocation can do to the table and the types. -/
theorem handleReloc_cases (S : FunctionTable Sym Func × TypeSpace) (rel : Relocation (Target Sym)) :
    P.handleReloc I F S rel = S ∨
      (∃ sym, P.tableIndex S.1 sym = none ∧ (P.functionIndex I F sym).isSome ∧
        P.handleReloc I F S rel = (P.addIndirect S.1 sym, S.2)) ∨
      ∃ file index sig, P.typeOf file index = some sig ∧
        P.handleReloc I F S rel = (S.1, (S.2.map file index sig).use file index) := by
  cases htarget : rel.target with
  | symbol sym =>
    cases hkind : rel.kind.isTable with
    | true =>
      rw [handleReloc_table hkind htarget]
      split
      · exact .inl rfl
      · rename_i hcond
        rw [Bool.or_eq_true, not_or, Bool.not_eq_true, Option.isSome_eq_false_iff,
          Option.isNone_iff_eq_none] at hcond
        have hindex : (P.functionIndex I F sym).isSome := by
          cases hf : P.functionIndex I F sym with
          | none => simp [hf] at hcond
          | some i => rfl
        exact .inr (.inl ⟨sym, hcond.1, hindex, rfl⟩)
    | false =>
      refine .inl ?_
      unfold handleReloc
      rw [htarget]
      cases hk : rel.kind <;> rw [hk] at hkind <;> simp [RelocKind.isTable] at hkind ⊢
  | type file index =>
    by_cases hkind : rel.kind = .typeIndexLeb
    · cases hsig : P.typeOf file index with
      | some sig => exact .inr (.inr ⟨file, index, sig, hsig, handleReloc_type hkind htarget hsig⟩)
      | none =>
        refine .inl ?_
        unfold handleReloc
        rw [hkind, htarget]
        simp only [hsig]
    · refine .inl ?_
      unfold handleReloc
      rw [htarget]
      cases hk : rel.kind <;> first | exact absurd hk hkind | rfl

end

end LinkState

/-! ## Types -/

namespace TypeSpace

variable (T : TypeSpace) (sig : Signature)

theorem register_prefix : T.types <+: (T.register sig).types := by
  unfold register
  split
  · exact List.prefix_refl _
  · exact List.prefix_append _ _

theorem mem_register : sig ∈ (T.register sig).types := by
  unfold register
  split
  · assumption
  · simp

theorem register_nodup (h : T.types.Nodup) : (T.register sig).types.Nodup := by
  unfold register
  split
  · exact h
  · rename_i hnot
    rw [List.nodup_append]
    exact ⟨h, by simp, fun x hx y hy hxy => hnot (List.mem_singleton.1 hy ▸ hxy ▸ hx)⟩

theorem register_maps : (T.register sig).typeMap = T.typeMap ∧ (T.register sig).typeIsUsed = T.typeIsUsed := by
  unfold register
  split <;> exact ⟨rfl, rfl⟩

/-- A registered signature is where `TypeIndices` says. -/
theorem getElem?_indexOf (h : sig ∈ T.types) : T.types[T.indexOf sig]? = some sig := by
  rw [indexOf, List.getElem?_eq_some_iff]
  exact ⟨List.idxOf_lt_length_of_mem h, List.getElem_idxOf _⟩

end TypeSpace

theorem getElem?_of_prefix {α : Type} {xs ys : List α} {i : Nat} {x : α} (h : xs <+: ys)
    (hi : xs[i]? = some x) : ys[i]? = some x := by
  obtain ⟨zs, rfl⟩ := h
  rw [List.getElem?_append_left (List.getElem?_eq_some_iff.1 hi).1]
  exact hi

namespace LinkState

variable {Sym Func Seg Global : Type} (P : LinkState Sym Func Seg Global)

/-- Used types are where the file's `TypeMap` says; no type is there twice. -/
structure TypesOk (T : TypeSpace) : Prop where
  nodup : T.types.Nodup
  used : ∀ file index, T.typeIsUsed file index = true → ∃ sig, P.typeOf file index = some sig ∧
    T.types[T.typeMap file index]? = some sig

variable {P} {T : TypeSpace}

theorem TypesOk.register (h : P.TypesOk T) (sig : Signature) : P.TypesOk (T.register sig) := by
  obtain ⟨hmap, hused⟩ := T.register_maps sig
  refine ⟨T.register_nodup sig h.nodup, fun file index hi => ?_⟩
  rw [hused] at hi
  obtain ⟨s, hs, hpos⟩ := h.used file index hi
  exact ⟨s, hs, by rw [hmap]; exact getElem?_of_prefix (T.register_prefix sig) hpos⟩

theorem map_typeMap (T : TypeSpace) (file index : Nat) (sig : Signature) (file' index' : Nat) :
    (T.map file index sig).typeMap file' index' =
      if file' = file ∧ index' = index then (T.register sig).indexOf sig else T.typeMap file' index' := by
  have hmap := (T.register_maps sig).1
  by_cases hf : file' = file
  · subst hf
    by_cases hi : index' = index
    · subst hi
      simp [TypeSpace.map]
    · simp [TypeSpace.map, hi, hmap]
  · simp [TypeSpace.map, hf, hmap]

theorem TypesOk.map (h : P.TypesOk T) {file index : Nat} {sig : Signature}
    (hsig : P.typeOf file index = some sig) : P.TypesOk (T.map file index sig) ∧
      (T.map file index sig).types[(T.map file index sig).typeMap file index]? = some sig := by
  have hreg := h.register sig
  have hself := (T.register sig).getElem?_indexOf sig (T.mem_register sig)
  refine ⟨⟨hreg.nodup, fun file' index' hi => ?_⟩, ?_⟩
  · obtain ⟨s, hs, hpos⟩ := hreg.used file' index' hi
    rw [map_typeMap]
    by_cases hsame : file' = file ∧ index' = index
    · rw [if_pos hsame]
      obtain ⟨rfl, rfl⟩ := hsame
      exact ⟨sig, hsig, hself⟩
    · rw [if_neg hsame]
      refine ⟨s, hs, ?_⟩
      rwa [(T.register_maps sig).1] at hpos
  · rw [map_typeMap, if_pos ⟨rfl, rfl⟩]
    exact hself

theorem use_typeIsUsed (T : TypeSpace) (file index file' index' : Nat) :
    (T.use file index).typeIsUsed file' index' =
      if file' = file ∧ index' = index then true else T.typeIsUsed file' index' := by
  by_cases hf : file' = file
  · subst hf
    by_cases hi : index' = index
    · subst hi
      simp [TypeSpace.use]
    · simp [TypeSpace.use, hi]
  · simp [TypeSpace.use, hf]

theorem TypesOk.use (h : P.TypesOk T) {file index : Nat} {sig : Signature}
    (hsig : P.typeOf file index = some sig) (hpos : T.types[T.typeMap file index]? = some sig) :
    P.TypesOk (T.use file index) := by
  refine ⟨h.nodup, fun file' index' hi => ?_⟩
  rw [use_typeIsUsed] at hi
  split at hi
  · rename_i hsame
    obtain ⟨rfl, rfl⟩ := hsame
    exact ⟨sig, hsig, hpos⟩
  · exact h.used file' index' hi

theorem map_typeIsUsed (T : TypeSpace) (file index : Nat) (sig : Signature) :
    (T.map file index sig).typeIsUsed = T.typeIsUsed :=
  (T.register_maps sig).2

/-! ## The relocations of the live chunks -/

section
variable [DecidableEq Sym] [DecidableEq Func] (P) (I : Imports Sym) (F : Space Func)

/-- The relocation's function is in the table, or the relocation's type is used. -/
def Handled (S : FunctionTable Sym Func × TypeSpace) (rel : Relocation (Target Sym)) : Prop :=
  (∀ sym, rel.kind.isTable = true → rel.target = .symbol sym → (P.functionIndex I F sym).isSome →
    (P.tableIndex S.1 sym).isSome) ∧
  ∀ file index sig, rel.kind = .typeIndexLeb → rel.target = .type file index →
    P.typeOf file index = some sig → S.2.typeIsUsed file index = true

variable {P I F}

theorem handleReloc_ok {S : FunctionTable Sym Func × TypeSpace} (hT : P.TableOk I F S.1)
    (hS : P.TypesOk S.2) (rel : Relocation (Target Sym)) :
    P.TableOk I F (P.handleReloc I F S rel).1 ∧ P.TypesOk (P.handleReloc I F S rel).2 := by
  rcases handleReloc_cases S rel with heq | ⟨sym, hnew, hindex, heq⟩ | ⟨file, index, sig, hsig, heq⟩
  · rw [heq]
    exact ⟨hT, hS⟩
  · rw [heq]
    exact ⟨addIndirect_ok hT hnew hindex, hS⟩
  · rw [heq]
    obtain ⟨hmap, hpos⟩ := hS.map hsig
    exact ⟨hT, hmap.use hsig hpos⟩

/-- What is handled stays handled. -/
theorem Handled.step {S : FunctionTable Sym Func × TypeSpace} {rel : Relocation (Target Sym)}
    (h : P.Handled I F S rel) (rel' : Relocation (Target Sym)) :
    P.Handled I F (P.handleReloc I F S rel') rel := by
  rcases handleReloc_cases S rel' with heq | ⟨sym, -, -, heq⟩ | ⟨file, index, sig, -, heq⟩
  · rwa [heq]
  · rw [heq]
    refine ⟨fun s hk ht hi => ?_, h.2⟩
    rw [tableIndex_eq']
    exact addIndirect_isSome (tableIndex_eq' S.1 s ▸ h.1 s hk ht hi)
  · rw [heq]
    refine ⟨h.1, fun f i s hk ht hs => ?_⟩
    rw [use_typeIsUsed, map_typeIsUsed, h.2 f i s hk ht hs, ite_self]

theorem handled_self (S : FunctionTable Sym Func × TypeSpace) (rel : Relocation (Target Sym)) :
    P.Handled I F (P.handleReloc I F S rel) rel := by
  refine ⟨fun sym hkind htarget hindex => ?_, fun file index sig hkind htarget hsig => ?_⟩
  · rw [handleReloc_table hkind htarget]
    split
    · rename_i hcond
      rw [Bool.or_eq_true] at hcond
      rcases hcond with hsome | hnone
      · exact hsome
      · rw [Option.isNone_iff_eq_none] at hnone
        rw [hnone] at hindex
        cases hindex
    · exact addIndirect_self _ _
  · rw [handleReloc_type hkind htarget hsig, use_typeIsUsed, if_pos ⟨rfl, rfl⟩]

theorem handleRelocs_ok (rels : List (Relocation (Target Sym))) :
    ∀ S : FunctionTable Sym Func × TypeSpace, P.TableOk I F S.1 → P.TypesOk S.2 →
      (P.TableOk I F (rels.foldl (P.handleReloc I F) S).1 ∧
        P.TypesOk (rels.foldl (P.handleReloc I F) S).2) ∧
      ∀ rel, (rel ∈ rels ∨ P.Handled I F S rel) →
        P.Handled I F (rels.foldl (P.handleReloc I F) S) rel := by
  induction rels with
  | nil => exact fun S hT hS => ⟨⟨hT, hS⟩, fun rel h => h.resolve_left List.not_mem_nil⟩
  | cons r rels ih =>
    intro S hT hS
    obtain ⟨hT', hS'⟩ := handleReloc_ok hT hS r
    obtain ⟨hok, hhandled⟩ := ih (P.handleReloc I F S r) hT' hS'
    refine ⟨hok, fun rel h => hhandled rel ?_⟩
    rcases h with hmem | hdone
    · rcases List.mem_cons.1 hmem with rfl | hmem
      · exact .inr (handled_self S rel)
      · exact .inl hmem
    · exact .inr (hdone.step r)

variable (P I F) (m : Marks Sym (Func ⊕ Seg) Global)

theorem assignTable_ok : P.TableOk I F (P.assignTable m I F).1 ∧ P.TypesOk (P.assignTable m I F).2 ∧
    ∀ rel ∈ P.liveRelocations m, P.Handled I F (P.assignTable m I F) rel := by
  have hstart : tableOf (⟨[], fun _ => none, fun f => if P.isStub f then some 0 else none⟩ :
      FunctionTable Sym Func) = P.stubIndex := by
    funext x
    cases x <;> rfl
  obtain ⟨⟨hT, hS⟩, hhandled⟩ := handleRelocs_ok (P := P) (I := I) (F := F) (P.liveRelocations m)
    (⟨[], fun _ => none, fun f => if P.isStub f then some 0 else none⟩, ⟨[], fun _ _ => 0, fun _ _ => false⟩)
    ⟨hstart ▸ .nil _ _, List.nodup_nil, by simp, by simp⟩ ⟨List.nodup_nil, by simp⟩
  exact ⟨hT, hS, fun rel hrel => hhandled rel (.inl hrel)⟩

end

variable {I : Imports Sym} {F : Space Func}

/-- **The table index of a symbol** is 0 for a stub, and else the place of a function that the symbol
denotes. -/
theorem tableIndex_denotes {T : FunctionTable Sym Func} (h : P.TableOk I F T) {sym : Sym} {i : Nat}
    (hi : P.tableIndex T sym = some i) :
    if (P.stubIndex (P.denotes sym)).isSome then i = 0
    else kInitialTableOffset ≤ i ∧
      (T.indirectFunctions.map P.denotes)[i - kInitialTableOffset]? = some (P.denotes sym) := by
  have hzero : ∀ x i, P.stubIndex x = some i → i = 0 := by
    intro x i hx
    cases x with
    | inl s => cases hx
    | inr f =>
      rw [stubIndex] at hx
      split at hx
      · exact (Option.some.inj hx).symm
      · cases hx
  rcases h.numbered.sound _ i (tableIndex_eq' T sym ▸ hi) with hstub | ⟨hle, hpos⟩
  · rw [if_pos (by rw [hstub]; rfl)]
    exact hzero _ i hstub
  · rw [if_neg (by rw [h.noStub _ (List.mem_of_getElem? hpos)]; exact Bool.false_ne_true)]
    exact ⟨hle, hpos⟩

/-! ## `calculateTypes` -/

theorem mem_fileTypes {file index : Nat} {sig : Signature} (h : ((file, index), sig) ∈ P.fileTypes) :
    P.typeOf file index = some sig := by
  simp only [fileTypes, List.mem_flatMap, List.mem_map, Prod.mk.injEq] at h
  obtain ⟨⟨F, n⟩, hF, ⟨s, k⟩, hs, ⟨rfl, rfl⟩, rfl⟩ := h
  rw [List.mem_zipIdx_iff_getElem?] at hF hs
  simp only [typeOf, hF, Option.bind_some, hs]

theorem mapUsed_ok {T : TypeSpace} (h : P.TypesOk T) {entry : (Nat × Nat) × Signature}
    (hentry : entry ∈ P.fileTypes) :
    P.TypesOk (mapUsed T entry) ∧ (mapUsed T entry).typeIsUsed = T.typeIsUsed := by
  unfold mapUsed
  split
  · exact ⟨(h.map (mem_fileTypes hentry)).1, map_typeIsUsed _ _ _ _⟩
  · exact ⟨h, rfl⟩

theorem registers_ok (sigs : List Signature) : ∀ T : TypeSpace, P.TypesOk T →
    P.TypesOk (sigs.foldl TypeSpace.register T) ∧
      (sigs.foldl TypeSpace.register T).typeIsUsed = T.typeIsUsed ∧
      ∀ sig, (sig ∈ sigs ∨ sig ∈ T.types) → sig ∈ (sigs.foldl TypeSpace.register T).types := by
  induction sigs with
  | nil => exact fun T h => ⟨h, rfl, fun sig hsig => hsig.resolve_left List.not_mem_nil⟩
  | cons s sigs ih =>
    intro T h
    obtain ⟨hok, hused, hmem⟩ := ih (T.register s) (h.register s)
    refine ⟨hok, hused.trans (T.register_maps s).2, fun sig hsig => hmem sig ?_⟩
    rcases hsig with hsig | hsig
    · rcases List.mem_cons.1 hsig with rfl | hsig
      · exact .inr (T.mem_register sig)
      · exact .inl hsig
    · exact .inr ((T.register_prefix s).subset hsig)

/-- **The types of the output**: those that files use are where their `TypeMap` says, and the
signatures of all functions are there. -/
theorem calculateTypes_ok {T : TypeSpace} (h : P.TypesOk T) (I : Imports Sym) (F : Space Func) :
    P.TypesOk (P.calculateTypes I F T) ∧ (P.calculateTypes I F T).typeIsUsed = T.typeIsUsed ∧
      ∀ sig ∈ P.importTypes I ++ F.inputs.map P.signature, sig ∈ (P.calculateTypes I F T).types := by
  have hloop : P.TypesOk (P.fileTypes.foldl mapUsed T) ∧
      (P.fileTypes.foldl mapUsed T).typeIsUsed = T.typeIsUsed := by
    refine List.foldlRecOn (motive := fun T' => P.TypesOk T' ∧ T'.typeIsUsed = T.typeIsUsed) _ _
      ⟨h, rfl⟩ fun T' hT' entry hentry => ?_
    obtain ⟨hok, hused⟩ := mapUsed_ok hT'.1 hentry
    exact ⟨hok, hused.trans hT'.2⟩
  obtain ⟨hok, hused, hmem⟩ := registers_ok (P.importTypes I ++ F.inputs.map P.signature)
    (P.fileTypes.foldl mapUsed T) hloop.1
  exact ⟨hok, hused.trans hloop.2, fun sig hsig => hmem sig (.inl hsig)⟩

end LinkState

end Lld
