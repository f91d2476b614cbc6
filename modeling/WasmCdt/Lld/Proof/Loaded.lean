import WasmCdt.Lib.Overlay
import WasmCdt.Lld.Proof.Linked

/-!
# The linked module as it is loaded

What stands at the indices, in the table and at the addresses of the module that the reader has
found in the linked file.

* `Relinked`: bytes with other operands at the sites of relocations, and nothing else changed.
* `payload_split`, `payload_gap`: the chunks of a segment in its bytes, with zeros between them.
* `writeFile_loaded`: **the loaded module is the linked program**.
-/

namespace Lld

open Cursor FileBuffer ForkJoin Leb128 Overlay Placement Reading
open WasmObjectFile (Object WasmFunction SegmentRead readBack)

/-! ## Operands -/

/-- Other bytes at the sites, each read as a value that is allowed there; all else is as it was. -/
inductive Relinked {T : Type} (operand : Relocation T → BitVec 32 → Prop) :
    Nat → List (Relocation T) → List UInt8 → List UInt8 → Prop
  | done {pos : Nat} (bytes : List UInt8) : Relinked operand pos [] bytes bytes
  | site {pos : Nat} {rel : Relocation T} {rels : List (Relocation T)}
      {gap old new bytes bytes' : List UInt8} {v : BitVec 32} :
      rel.offset = pos + gap.length → old.length = rel.kind.width →
      (∀ rest, rel.kind.coding.read (new ++ rest) = some (v, rest)) → operand rel v →
      Relinked operand (rel.offset + rel.kind.width) rels bytes bytes' →
      Relinked operand pos (rel :: rels) (gap ++ (old ++ bytes)) (gap ++ (new ++ bytes'))

/-- A chunk as it is written. -/
theorem InputChunk.relinked {T : Type} {C : InputChunk T} {enc : Relocation T → List UInt8}
    {operand : Relocation T → BitVec 32 → Prop} {last : Nat} {rels : List (Relocation T)}
    (hlast : C.inputSectionOffset ≤ last) (h : Placed last rels C.codeEnd)
    (hoperand : ∀ rel ∈ rels, ∃ v, operand rel v ∧
      ∀ rest, rel.kind.coding.read (enc rel ++ rest) = some (v, rest)) :
    Relinked operand last rels (C.slice last C.codeEnd) (C.rendered enc last rels) := by
  induction rels generalizing last with
  | nil => exact .done _
  | cons rel rels ih =>
    cases h with
    | cons hle hrels =>
      obtain ⟨v, hv, hread⟩ := hoperand rel List.mem_cons_self
      have hend := hrels.le
      have hoffset : C.inputSectionOffset ≤ rel.offset := Nat.le_trans hlast hle
      have hgap : (C.slice last rel.offset).length = rel.offset - last :=
        slice_length hlast (Nat.le_trans (Nat.le_add_right _ _) hend)
      have hsite : (C.slice rel.offset (rel.offset + rel.kind.width)).length = rel.kind.width := by
        rw [slice_length hoffset hend, Nat.add_sub_cancel_left]
      rw [slice_append hlast hle (Nat.le_trans (Nat.le_add_right _ _) hend),
        slice_append hoffset (Nat.le_add_right _ rel.kind.width) hend, rendered]
      refine .site ?_ hsite hread hv ?_
      · rw [hgap]
        omega
      · exact ih (Nat.le_trans hoffset (Nat.le_add_right _ _)) hrels
          fun r hr => hoperand r (List.mem_cons_of_mem _ hr)

/-! ## The bytes of a segment -/

section
variable {T Seg : Type} {info : Seg → InputSegment T} (calcNewValue : Relocation T → BitVec 32)

/-- A chunk in its segment. -/
theorem payload_split {stop last : Nat} {ps : List (Seg × Nat)}
    (h : Laid (segSize info) (segAlign info) last ps stop)
    (hok : ∀ p ∈ ps, (info p.1).toInputChunk.WellPlaced) {p : Seg × Nat} (hp : p ∈ ps) :
    ∃ before behind, payload calcNewValue info stop last ps
      = before ++ ((info p.1).patched calcNewValue ++ behind) ∧ last + before.length = p.2 := by
  induction ps generalizing last with
  | nil => cases hp
  | cons q ps ih =>
    cases h with
    | @cons _ _ o x _ hle hdvd hps =>
      rcases List.mem_cons.1 hp with rfl | hp
      · exact ⟨_, _, rfl, by rw [List.length_replicate]; exact Nat.add_sub_cancel' hle⟩
      · obtain ⟨before, behind, heq, hlen⟩ := ih hps (fun r hr => hok r (List.mem_cons_of_mem _ hr)) hp
        have hx := InputChunk.patched_length calcNewValue (hok (x, o) List.mem_cons_self).placed
        refine ⟨List.replicate (o - last) 0 ++ ((info x).patched calcNewValue ++ before), behind, ?_, ?_⟩
        · simp only [payload, heq, List.append_assoc]
        · unfold segSize at hlen
          simp only [List.length_append, List.length_replicate, hx]
          omega

/-- Between the chunks there are zeros. -/
theorem payload_gap {stop last : Nat} {ps : List (Seg × Nat)}
    (h : Laid (segSize info) (segAlign info) last ps stop)
    (hok : ∀ p ∈ ps, (info p.1).toInputChunk.WellPlaced) {j : Nat} {b : UInt8}
    (hgap : ∀ p ∈ ps, last + j < p.2 ∨ p.2 + segSize info p.1 ≤ last + j)
    (hb : (payload calcNewValue info stop last ps)[j]? = some b) : b = 0 := by
  induction ps generalizing last j with
  | nil => exact List.eq_of_mem_replicate (List.mem_of_getElem? hb)
  | cons q ps ih =>
    cases h with
    | @cons _ _ o x _ hle hdvd hps =>
      have hx : ((info x).patched calcNewValue).length = (info x).data.length :=
        InputChunk.patched_length calcNewValue (hok (x, o) List.mem_cons_self).placed
      rw [payload] at hb
      have hfirst : last + j < o ∨ o + segSize info x ≤ last + j := hgap (x, o) List.mem_cons_self
      rcases hfirst with hlt | hge
      · rw [List.getElem?_append_left (by rw [List.length_replicate]; omega)] at hb
        exact List.eq_of_mem_replicate (List.mem_of_getElem? hb)
      · unfold segSize at hge hps
        rw [List.getElem?_append_right (by rw [List.length_replicate]; omega),
          List.getElem?_append_right (by rw [List.length_replicate, hx]; omega), List.length_replicate, hx] at hb
        refine ih hps (fun r hr => hok r (List.mem_cons_of_mem _ hr)) (fun r hr => ?_) hb
        have hr' := hgap r (List.mem_cons_of_mem _ hr)
        omega

end

/-! ## What a module has -/

namespace WasmObjectFile.Object

variable (obj : Object)

/-- The names and the types of the functions that are imported. -/
def importedFunctions : List (List UInt8 × Nat) :=
  obj.imports.filterMap fun im =>
    match im.kind with
    | .function sigIndex => some (im.field, sigIndex)
    | _ => none

def importedGlobals : List (List UInt8 × WasmGlobalType) :=
  obj.imports.filterMap fun im =>
    match im.kind with
    | .global type => some (im.field, type)
    | _ => none

/-- The type of the function at an index. -/
def functionType (i : Nat) : Option Signature :=
  (obj.importedFunctions.map (·.2) ++ obj.functionTypes)[i]?.bind fun type => obj.signatures[type]?

/-- The function at an index, if it is not imported. -/
def function (i : Nat) : Option WasmFunction :=
  if i < obj.importedFunctions.length then none else obj.functions[i - obj.importedFunctions.length]?

def global (i : Nat) : Option WasmGlobal :=
  if i < obj.importedGlobals.length then none else obj.globals[i - obj.importedGlobals.length]?

/-- What a segment puts at a place of the table. -/
def elementAt (slot : Nat) (seg : WasmElemSegment) : Option (Option Nat) :=
  match seg.offset with
  | .i32Const o => if o.toNat ≤ slot then seg.functions[slot - o.toNat]?.map some else none
  | _ => none

/-- The table behind the element segments. -/
def tableEntry (slot : Nat) : Option Nat := after (elementAt slot) none obj.elemSegments

def contentAt (address : Nat) (seg : WasmSegment) : Option UInt8 :=
  match seg.offset with
  | .i32Const o => if o.toNat ≤ address then seg.content[address - o.toNat]? else none
  | _ => none

/-- The memory behind the data segments. -/
def image (address : Nat) : UInt8 := after (contentAt address) 0 obj.dataSegments

/-- What a segment puts at an address. -/
theorem contentAt_eq {Seg : Type} {S : OutputSegment Seg} {content : List UInt8} {seg : WasmSegment}
    (hseg : SegmentRead content S seg) (hstart : S.startVA < 2 ^ 32) (a : Nat) :
    contentAt a seg = if S.startVA ≤ a then content[a - S.startVA]? else none := by
  simp only [contentAt, hseg.offset, hseg.content, BitVec.toNat_ofNat, Nat.mod_eq_of_lt hstart]

end WasmObjectFile.Object

namespace LinkState

variable {Sym Func Seg Global : Type} {P : LinkState Sym Func Seg Global}
  {m : Marks Sym (Func ⊕ Seg) Global} {cfg : OutputConfig}
  [DecidableEq Sym] [DecidableEq Func] [DecidableEq Global]

/-! ## Exports -/

/-- What an export stands for: a function, a global, or the address of data, which is one of the globals
behind the others. -/
structure ExportMeans (P : LinkState Sym Func Seg Global) (m : Marks Sym (Func ⊕ Seg) Global) (cfg : OutputConfig)
    (fake : List Sym) (ex : WasmExport) : Prop where
  function : ex.kind = WASM_EXTERNAL_FUNCTION → ∃ sym ∈ P.input.symbols, P.isExported m cfg sym = true ∧
    ex.name = (P.symbol sym).name ∧
    (P.functionSpace (P.indexes m).imports (P.indexes m).functions)[ex.index.toNat]? = some (P.denotes sym)
  global : ex.kind = WASM_EXTERNAL_GLOBAL → ∃ sym ∈ P.input.symbols, P.isExported m cfg sym = true ∧
    ex.name = (P.symbol sym).name ∧
    ((P.globalSpace (P.indexes m).imports (P.indexes m).globals)[ex.index.toNat]? = some (P.denotesGlobal sym) ∨
      (P.symbol sym).kind.isDefinedData = true ∧ ∃ j, fake[j]? = some sym ∧ ex.index.toNat
        = (P.globalSpace (P.indexes m).imports (P.indexes m).globals).length + j)

theorem ExportMeans.append {fake : List Sym} {ex : WasmExport} (h : P.ExportMeans m cfg fake ex) (more : List Sym) :
    P.ExportMeans m cfg (fake ++ more) ex := by
  refine ⟨h.function, fun hkind => ?_⟩
  obtain ⟨sym, hsym, hexp, hname, hplace⟩ := h.global hkind
  refine ⟨sym, hsym, hexp, hname, hplace.imp_right ?_⟩
  rintro ⟨hdata, j, hj, hindex⟩
  exact ⟨hdata, j, by rw [List.getElem?_append_left (List.getElem?_eq_some_iff.1 hj).1, hj], hindex⟩

theorem addExport_means (h : P.Printable) (hfits : P.Fits (P.indexes m)) {E : List WasmExport × List Sym}
    (hE : ∀ ex ∈ E.1, P.ExportMeans m cfg E.2 ex)
    (hlt : (P.globalSpace (P.indexes m).imports (P.indexes m).globals).length + E.2.length < 2 ^ 32)
    {sym : Sym} (hsym : sym ∈ P.input.symbols) :
    ∀ ex ∈ (P.addExport m cfg (P.indexes m) E sym).1,
      P.ExportMeans m cfg (P.addExport m cfg (P.indexes m) E sym).2 ex := by
  have hdefined := h.defined sym hsym
  have hfake : (P.symbol sym).kind.isDefinedData = true → P.isExported m cfg sym = true →
      ∀ ex ∈ E.1 ++ [⟨(P.symbol sym).name, WASM_EXTERNAL_GLOBAL, BitVec.ofNat 32
        ((P.indexes m).imports.numImportedGlobals + (P.indexes m).globals.inputs.length + E.2.length)⟩],
      P.ExportMeans m cfg (E.2 ++ [sym]) ex := by
    intro hdata hexp
    refine List.forall_mem_append.2 ⟨fun ex hex => (hE ex hex).append [sym], List.forall_mem_singleton.2
      ⟨by simp [WASM_EXTERNAL_GLOBAL, WASM_EXTERNAL_FUNCTION], fun _ => ?_⟩⟩
    refine ⟨sym, hsym, hexp, rfl, .inr ⟨hdata, E.2.length, by simp, ?_⟩⟩
    rw [← globalSpace_length, BitVec.toNat_ofNat, Nat.mod_eq_of_lt hlt]
  unfold addExport
  cases hexp : P.isExported m cfg sym with
  | false => simpa using hE
  | true =>
    have hlive : P.input.isLive m sym = true := by
      simp only [isExported, Bool.and_eq_true] at hexp
      exact hexp.2
    simp only [Bool.not_true, Bool.false_eq_true, ↓reduceIte]
    cases hkind : (P.symbol sym).kind with
    | definedFunction f =>
      have hcall : P.Callable sym := by
        unfold Callable
        simpa [hkind] using hdefined
      refine List.forall_mem_append.2 ⟨hE, List.forall_mem_singleton.2 ⟨fun _ => ⟨sym, hsym, hexp, rfl, ?_⟩,
        by simp [WASM_EXTERNAL_GLOBAL, WASM_EXTERNAL_FUNCTION]⟩⟩
      obtain ⟨i, hi, hspace⟩ := function_resolves hfits hcall hlive
      rw [hi, Option.getD_some]
      exact hspace
    | definedGlobal g =>
      have hglobal : P.HasGlobal sym := by
        unfold HasGlobal
        simpa [hkind] using hdefined
      dsimp only
      split
      · exact hE
      · refine List.forall_mem_append.2 ⟨hE, List.forall_mem_singleton.2
          ⟨by simp [WASM_EXTERNAL_GLOBAL, WASM_EXTERNAL_FUNCTION], fun _ => ⟨sym, hsym, hexp, rfl, .inl ?_⟩⟩⟩
        obtain ⟨i, hi, hspace⟩ := global_resolves hfits hglobal hlive
        rw [hi, Option.getD_some]
        exact hspace
    | definedData seg offset => exact hfake (by rw [hkind]; rfl) hexp
    | linkerData d => exact hfake (by rw [hkind]; rfl) hexp
    | undefinedFunction | undefinedData | undefinedGlobal | «lazy» =>
      simp [isExported, hkind, SymbolKind.isDefined] at hexp

theorem addExports_means (h : P.Printable) (hfits : P.Fits (P.indexes m)) {syms : List Sym}
    (hsyms : ∀ sym ∈ syms, sym ∈ P.input.symbols) {E : List WasmExport × List Sym}
    (hE : ∀ ex ∈ E.1, P.ExportMeans m cfg E.2 ex)
    (hlt : (P.globalSpace (P.indexes m).imports (P.indexes m).globals).length
      + (syms.foldl (P.addExport m cfg (P.indexes m)) E).2.length < 2 ^ 32) :
    ∀ ex ∈ (syms.foldl (P.addExport m cfg (P.indexes m)) E).1,
      P.ExportMeans m cfg (syms.foldl (P.addExport m cfg (P.indexes m)) E).2 ex := by
  induction syms generalizing E with
  | nil => exact hE
  | cons sym syms ih =>
    have hlater := addExports_length P m cfg E (sym :: syms)
    refine ih (fun s hs => hsyms s (List.mem_cons_of_mem _ hs)) ?_ hlt
    exact addExport_means h hfits hE (by omega) (hsyms sym List.mem_cons_self)

/-- A round keeps the exports. -/
theorem addExport_subset (E : List WasmExport × List Sym) (sym : Sym) :
    E.1 ⊆ (P.addExport m cfg (P.indexes m) E sym).1 := by
  unfold addExport
  dsimp only
  split
  · exact List.Subset.refl _
  · split
    · exact List.subset_append_left _ _
    · split
      · exact List.Subset.refl _
      · exact List.subset_append_left _ _
    · exact List.subset_append_left _ _

theorem addExports_subset (E : List WasmExport × List Sym) (syms : List Sym) :
    E.1 ⊆ (syms.foldl (P.addExport m cfg (P.indexes m)) E).1 := by
  induction syms generalizing E with
  | nil => exact List.Subset.refl _
  | cons sym syms ih => exact List.Subset.trans (addExport_subset E sym) (ih _)

/-- **Every function that can be exported** is one of the candidates. -/
theorem mem_calculateExports {sym : Sym} (hsym : sym ∈ P.input.symbols) (hexp : P.isExported m cfg sym = true) {f : Func}
    (hkind : (P.symbol sym).kind = .definedFunction f) :
    ⟨(P.symbol sym).name, WASM_EXTERNAL_FUNCTION, BitVec.ofNat 32
        ((P.functionIndex (P.indexes m).imports (P.indexes m).functions sym).getD 0)⟩
      ∈ (P.calculateExports m cfg (P.indexes m)).1 := by
  obtain ⟨before, behind, hsplit⟩ := List.append_of_mem hsym
  rw [calculateExports, hsplit, List.foldl_append, List.foldl_cons]
  refine addExports_subset _ behind ?_
  simp only [addExport, hexp, hkind, Bool.not_true, Bool.false_eq_true, ↓reduceIte]
  exact List.mem_append_right _ List.mem_cons_self

theorem mem_writtenExports {past : WasmExport → WasmExport → Nat → Char} {ex : WasmExport} : ex ∈ P.writtenExports m cfg past ↔
    ex ∈ (P.calculateExports m cfg (P.indexes m)).1 ∧ shouldExport past cfg.exports ex = true := by
  unfold writtenExports createExportSection
  split
  · rename_i hnil
    rw [List.length_eq_zero_iff.1 hnil]
    simp
  · exact List.mem_filter

variable [DecidableEq Seg] {past : WasmExport → WasmExport → Nat → Char}
  {customs : List (List UInt8 × List (InputChunk (Target Sym)))} {parts : ∀ f, FunctionParts (P.function f)}
  {obj : Object}

/-! ## Imports -/

theorem Linked.importedFunctions (h : P.Linked m cfg past parts obj) :
    obj.importedFunctions = (P.importedFunctions (P.indexes m).imports).map fun sym =>
      (charBytes (P.symbol sym).name, ((P.symbol sym).functionType.bind (P.indexes m).types.lookupType).getD 0) := by
  have hsym : ∀ sym, (match (P.symbolImport (P.indexes m) sym).kind with
      | .function sigIndex => some ((P.symbolImport (P.indexes m) sym).field, sigIndex)
      | _ => none) = if (P.symbol sym).kind.isFunction then some (charBytes (P.symbol sym).name,
        ((P.symbol sym).functionType.bind (P.indexes m).types.lookupType).getD 0) else none := fun sym => by
    unfold symbolImport
    cases hkind : (P.symbol sym).kind.isFunction <;> simp [hkind]
  rw [Object.importedFunctions, h.imports, importList, List.filterMap_append, List.filterMap_append,
    List.filterMap_map, LinkState.importedFunctions, ← List.filterMap_eq_map', List.filterMap_filter]
  simp only [Function.comp_def, hsym]
  cases cfg.importMemory <;> cases cfg.importTable <;> simp

theorem Linked.importedGlobals (h : P.Linked m cfg past parts obj) :
    obj.importedGlobals = (P.importedGlobals (P.indexes m).imports).map fun sym =>
      (charBytes (P.symbol sym).name, (P.symbol sym).globalType.getD ⟨0, false⟩) := by
  have hsym : ∀ sym, (match (P.symbolImport (P.indexes m) sym).kind with
      | .global type => some ((P.symbolImport (P.indexes m) sym).field, type)
      | _ => none) = if !(P.symbol sym).kind.isFunction then some (charBytes (P.symbol sym).name,
        (P.symbol sym).globalType.getD ⟨0, false⟩) else none := fun sym => by
    unfold symbolImport
    cases hkind : (P.symbol sym).kind.isFunction <;> simp [hkind]
  rw [Object.importedGlobals, h.imports, importList, List.filterMap_append, List.filterMap_append,
    List.filterMap_map, LinkState.importedGlobals, ← List.filterMap_eq_map', List.filterMap_filter]
  simp only [Function.comp_def, hsym]
  cases cfg.importMemory <;> cases cfg.importTable <;> simp

/-- Behind the imports, the functions in the order of their indices. -/
theorem getElem?_space {α β : Type} {xs : List α} {ys : List β} {i : Nat} {y : β}
    (h : (xs.map Sum.inl ++ ys.map Sum.inr)[i]? = some (.inr y)) : xs.length ≤ i ∧ ys[i - xs.length]? = some y := by
  rcases Nat.lt_or_ge i xs.length with hlt | hge
  · rw [List.getElem?_append_left (by simpa using hlt), List.getElem?_map] at h
    cases hx : xs[i]? <;> simp [hx] at h
  · rw [List.getElem?_append_right (by simpa using hge), List.length_map, List.getElem?_map] at h
    cases hy : ys[i - xs.length]? <;> simp [hy] at h
    exact ⟨hge, congrArg some h⟩

theorem getElem?_imported {α β : Type} {xs : List α} {ys : List β} {i : Nat} {x : α}
    (h : (xs.map Sum.inl ++ ys.map Sum.inr)[i]? = some (.inl x)) : xs[i]? = some x := by
  rcases Nat.lt_or_ge i xs.length with hlt | hge
  · rw [List.getElem?_append_left (by simpa using hlt), List.getElem?_map] at h
    cases hx : xs[i]? <;> simp [hx] at h
    exact congrArg some h
  · rw [List.getElem?_append_right (by simpa using hge), List.getElem?_map] at h
    cases hy : ys[i - (xs.map (Sum.inl : α → α ⊕ β)).length]? <;> simp at h

/-! ## Functions -/

/-- What the linker relies on for its values. -/
structure Complete (P : LinkState Sym Func Seg Global) (cfg : OutputConfig) : Prop where
  ok : P.Ok
  /-- Functions that are made by the linker have no relocations. -/
  synthetic : ∀ f ∈ P.syntheticFunctions, (P.function f).relocations = []
  /-- The code of object files has LEB128 operands only, which can be compressed. -/
  leb : cfg.compressRelocTargets = true → ∀ f, ∀ rel ∈ (P.function f).relocations, rel.kind.coding ≠ .i32

section
variable {fuel : Nat}

theorem values_resolves (hP : P.Ok) (hm : P.input.markLive fuel = some m) (h : P.Writable m cfg past customs)
    {c : Func ⊕ Seg} {rel : Relocation (Target Sym)} (hc : c ∈ P.chunks) (hlive : m.chunkLive c = true)
    (hrel : rel ∈ P.relocations c) :
    P.Resolves (P.indexes m) (P.memory m cfg.toLayoutConfig) rel (P.values m cfg rel) := by
  obtain ⟨v, hv, hresolves⟩ := calcNewValue_resolves hP hm h.fits h.relocatable hc hlive hrel
  rw [values, hv]
  exact hresolves

theorem functions_resolve (hP : P.Complete cfg) (hm : P.input.markLive fuel = some m)
    (h : P.Writable m cfg past customs) {f : Func} (hf : f ∈ (P.indexes m).functions.inputs)
    {rel : Relocation (Target Sym)} (hrel : rel ∈ (P.function f).relocations) :
    P.Resolves (P.indexes m) (P.memory m cfg.toLayoutConfig) rel (P.values m cfg rel) := by
  have hinputs : (P.indexes m).functions.inputs = P.functions.filter fun f => m.chunkLive (.inl f) :=
    (P.assignFunctions_ok m (P.calculateImports m)).1
  rw [hinputs, List.mem_filter] at hf
  obtain ⟨hmem, hlive⟩ := hf
  rcases List.mem_append.1 hmem with hsynthetic | hfile
  · rw [hP.synthetic f hsynthetic] at hrel
    cases hrel
  · obtain ⟨F, hF, hfF⟩ := List.mem_flatMap.1 hfile
    refine values_resolves hP.ok hm h (c := .inl f) ?_ hlive hrel
    exact List.mem_flatMap.2 ⟨F, hF, List.mem_append_left _ (List.mem_map_of_mem hfF)⟩

theorem forall₂_getElem? {α β : Type} {R : α → β → Prop} {xs : List α} {ys : List β} (h : List.Forall₂ R xs ys)
    {i : Nat} {x : α} (hx : xs[i]? = some x) : ∃ y, ys[i]? = some y ∧ R x y := by
  induction h generalizing i with
  | nil => simp at hx
  | @cons a b xs ys hab _ ih =>
    cases i with
    | zero =>
      rw [List.getElem?_cons_zero] at hx ⊢
      exact ⟨b, rfl, Option.some.inj hx ▸ hab⟩
    | succ i => exact ih hx

/-- The function at an index. -/
theorem Linked.function (h : P.Linked m cfg past parts obj) {i : Nat} {f : Func}
    (hi : (P.functionSpace (P.indexes m).imports (P.indexes m).functions)[i]? = some (.inr f)) :
    f ∈ (P.indexes m).functions.inputs ∧ ∃ F, obj.function i = some F ∧ F.locals = (parts f).locals ∧
      F.body = (parts f).linkedCode cfg.compressRelocTargets (P.values m cfg) := by
  obtain ⟨hle, hf⟩ := getElem?_space hi
  have hlen : obj.importedFunctions.length = (P.importedFunctions (P.indexes m).imports).length := by
    rw [h.importedFunctions, List.length_map]
  obtain ⟨F, hF, hread⟩ := forall₂_getElem? h.functions hf
  refine ⟨List.mem_of_getElem? hf, F, ?_, hread⟩
  rw [Object.function, hlen, if_neg (Nat.not_lt.2 hle), hF]

/-- **The code of a live function** has operands that mean what its relocations mean. -/
theorem linkedCode_relinked (hP : P.Complete cfg) (hm : P.input.markLive fuel = some m)
    (h : P.Writable m cfg past customs) {f : Func} (hf : f ∈ (P.indexes m).functions.inputs)
    (part : FunctionParts (P.function f)) :
    Relinked (P.Resolves (P.indexes m) (P.memory m cfg.toLayoutConfig)) part.start (P.function f).relocations
      part.code (part.linkedCode cfg.compressRelocTargets (P.values m cfg)) := by
  have hstart : (P.function f).inputSectionOffset ≤ part.start := by
    unfold FunctionParts.start
    omega
  have hcode := part.slice_code
  rw [← hcode, FunctionParts.linkedCode]
  refine InputChunk.relinked hstart part.sites fun rel hrel => ?_
  refine ⟨P.values m cfg rel, functions_resolve hP hm h hf hrel, fun rest => ?_⟩
  split
  · exact read_encode rel.kind _ rest
  · rename_i hcompress
    refine read_encodeCompressed (hP.leb ?_ f rel hrel) _ rest
    simp only [Bool.or_eq_true, Bool.not_eq_true', not_or, Bool.not_eq_false] at hcompress
    exact hcompress.2

/-- The types of functions. -/
theorem Linked.functionType (h : P.Linked m cfg past parts obj) {i : Nat} {x : Sym ⊕ Func} {sig : Signature}
    (hi : (P.functionSpace (P.indexes m).imports (P.indexes m).functions)[i]? = some x)
    (hsig : P.typeOfFunction x = some sig) : obj.functionType i = some sig := by
  obtain ⟨-, hS, -⟩ :=
    P.assignTable_ok (P.calculateImports m) (P.assignFunctions m (P.calculateImports m)) m
  obtain ⟨-, -, hmem⟩ := calculateTypes_ok hS (P.calculateImports m) (P.assignFunctions m (P.calculateImports m))
  have hregistered : sig ∈ (P.indexes m).types.types := by
    refine hmem sig ?_
    rcases List.mem_append.1 (List.mem_of_getElem? hi) with hx | hx
    · obtain ⟨sym, hsym, rfl⟩ := List.mem_map.1 hx
      exact List.mem_append_left _ (List.mem_filterMap.2 ⟨sym, hsym, hsig⟩)
    · obtain ⟨f, hf, rfl⟩ := List.mem_map.1 hx
      exact List.mem_append_right _ (List.mem_map.2 ⟨f, hf, Option.some.inj hsig⟩)
  have htypeList : obj.importedFunctions.map (·.2) ++ obj.functionTypes
      = (P.functionSpace (P.indexes m).imports (P.indexes m).functions).map fun x =>
        ((P.typeOfFunction x).bind (P.indexes m).types.lookupType).getD 0 := by
    rw [h.importedFunctions, h.functionTypes, functionSpace, List.map_append, List.map_map, List.map_map, List.map_map]
    rfl
  have hlookup : (P.indexes m).types.lookupType sig = some ((P.indexes m).types.indexOf sig) := if_pos hregistered
  rw [Object.functionType, htypeList, List.getElem?_map, hi, Option.map_some, Option.bind_some, hsig,
    Option.bind_some, hlookup, Option.getD_some, h.signatures]
  exact TypeSpace.getElem?_indexOf _ _ hregistered

/-! ## Globals and the table -/

theorem Linked.global (h : P.Linked m cfg past parts obj) {i : Nat} {g : Global}
    (hi : (P.globalSpace (P.indexes m).imports (P.indexes m).globals)[i]? = some (.inr g)) :
    obj.global i = some (P.global g) := by
  obtain ⟨hle, hg⟩ := getElem?_space hi
  have hlen : obj.importedGlobals.length = (P.importedGlobals (P.indexes m).imports).length := by
    rw [h.importedGlobals, List.length_map]
  obtain ⟨hlt, -⟩ := List.getElem?_eq_some_iff.1 hg
  rw [Object.global, hlen, if_neg (Nat.not_lt.2 hle), h.globals, globalList,
    List.getElem?_append_left (by rwa [List.length_map]), List.getElem?_map, hg]
  rfl

/-- **The table** has the functions whose addresses are taken. -/
theorem Linked.tableEntry (h : P.Linked m cfg past parts obj) (slot : Nat) :
    obj.tableEntry slot = P.tableSlot (P.indexes m) slot := by
  have hindexed : ∀ e ∈ P.elements (P.indexes m), e = some (e.getD 0) := by
    have hT := (P.assignTable_ok (P.calculateImports m) (P.assignFunctions m (P.calculateImports m)) m).1
    rw [LinkState.elements, List.forall_mem_map]
    intro sym hsym
    obtain ⟨j, hj⟩ := Option.isSome_iff_exists.1 (hT.indexed sym hsym)
    have hindex : P.functionIndex (P.indexes m).imports (P.indexes m).functions sym = some j := hj
    rw [hindex]
    rfl
  rw [Object.tableEntry, h.elements, tableSlot]
  generalize P.elements (P.indexes m) = es at hindexed ⊢
  cases es with
  | nil => simp
  | cons e es =>
    rw [List.isEmpty_cons, if_neg Bool.false_ne_true, ← List.nil_append [_], after_concat, after_nil]
    have hoffset : (BitVec.ofNat 32 kInitialTableOffset).toNat = kInitialTableOffset := by decide
    simp only [Object.elementAt, hoffset]
    by_cases hslot : kInitialTableOffset ≤ slot
    · rw [if_pos hslot, if_neg (Nat.not_lt.2 hslot), List.getElem?_map]
      cases hentry : (e :: es)[slot - kInitialTableOffset]? with
      | none => rfl
      | some entry =>
        have hsome := hindexed entry (List.mem_of_getElem? hentry)
        simpa using hsome.symm
    · rw [if_neg hslot, if_pos (Nat.not_le.1 hslot)]
      rfl

/-! ## Data -/

/-- The byte that an output segment has for an address. -/
def segmentByte (P : LinkState Sym Func Seg Global) (m : Marks Sym (Func ⊕ Seg) Global) (cfg : OutputConfig)
    (S : OutputSegment Seg) (a : Nat) : Option UInt8 :=
  if S.startVA ≤ a then (payload (P.values m cfg) P.segment S.size 0 S.inputSegments)[a - S.startVA]? else none

theorem Writable.laid (h : P.Writable m cfg past customs) :
    Laid OutputSegment.size OutputSegment.alignment (P.memory m cfg.toLayoutConfig).dataStart
        (starts (P.memory m cfg.toLayoutConfig).segments) (P.memory m cfg.toLayoutConfig).dataEnd ∧
      (P.memory m cfg.toLayoutConfig).dataEnd < 2 ^ 32 := by
  obtain ⟨-, hlaid, hend⟩ := layoutMemory_laid h.relocatable h.alignment h.memory rfl
  have hfit := h.memory
  have hstart := dataStart_eq h.relocatable (by omega)
    (createOutputSegments P.segment cfg.mergeDataSegments (P.liveSegments m))
  refine ⟨hlaid, Nat.lt_of_le_of_lt hend ?_⟩
  rw [hstart]
  split <;> omega

section
variable (h : P.Writable m cfg past customs)
include h

theorem segmentByte_lt {S : OutputSegment Seg} (hS : S ∈ (P.memory m cfg.toLayoutConfig).segments) {a : Nat} {b : UInt8}
    (hb : P.segmentByte m cfg S a = some b) : S.startVA ≤ a ∧ a < S.startVA + S.size := by
  obtain ⟨hok, hplaced⟩ := h.ready S hS
  have hlen := payload_length (P.values m cfg) hok.laid hplaced
  unfold segmentByte at hb
  split at hb
  · rename_i hle
    have hlt := (List.getElem?_eq_some_iff.1 hb).1
    omega
  · cases hb

/-- No two segments have a byte for the same address. -/
theorem segmentByte_unique {S S' : OutputSegment Seg} (hS : S ∈ (P.memory m cfg.toLayoutConfig).segments)
    (hS' : S' ∈ (P.memory m cfg.toLayoutConfig).segments) {a : Nat} {b b' : UInt8}
    (hb : P.segmentByte m cfg S a = some b) (hb' : P.segmentByte m cfg S' a = some b') : b' = b := by
  have hlt := segmentByte_lt h hS hb
  have hlt' := segmentByte_lt h hS' hb'
  by_cases hne : (S, S.startVA) = (S', S'.startVA)
  · obtain ⟨rfl, -⟩ := Prod.mk.inj hne
    exact Option.some.inj (hb'.symm.trans hb)
  · have hapart := h.laid.1.apart _ (mem_starts hS) _ (mem_starts hS') hne
    dsimp only at hapart
    omega

variable (hlink : P.Linked m cfg past parts obj)
include hlink

/-- The segments of the file are the output segments. -/
theorem contentAt_segment {S : OutputSegment Seg} (hS : S ∈ (P.memory m cfg.toLayoutConfig).segments) :
    ∃ seg ∈ obj.dataSegments, ∀ a, Object.contentAt a seg = P.segmentByte m cfg S a := by
  obtain ⟨i, hi⟩ := List.getElem?_of_mem hS
  obtain ⟨seg, hseg, hread⟩ := forall₂_getElem? hlink.data hi
  have hbounds := h.laid.1.bounds _ (mem_starts hS)
  have hend := h.laid.2
  exact ⟨seg, List.mem_of_getElem? hseg, Object.contentAt_eq hread (by dsimp only at hbounds; omega)⟩

theorem segment_contentAt {seg : WasmObjectFile.WasmSegment} (hseg : seg ∈ obj.dataSegments) :
    ∃ S ∈ (P.memory m cfg.toLayoutConfig).segments, ∀ a, Object.contentAt a seg = P.segmentByte m cfg S a := by
  obtain ⟨i, hi⟩ := List.getElem?_of_mem hseg
  obtain ⟨S, hS, hread⟩ := forall₂_getElem? hlink.data.flip hi
  have hmem := List.mem_of_getElem? hS
  have hbounds := h.laid.1.bounds _ (mem_starts hmem)
  have hend := h.laid.2
  exact ⟨S, hmem, Object.contentAt_eq hread (by dsimp only at hbounds; omega)⟩

theorem image_eq {S : OutputSegment Seg} (hS : S ∈ (P.memory m cfg.toLayoutConfig).segments) {a : Nat} {b : UInt8}
    (hb : P.segmentByte m cfg S a = some b) : obj.image a = b := by
  refine after_eq (fun seg hseg b' hb' => ?_) (.inr ?_)
  · obtain ⟨S', hS', hcontent⟩ := segment_contentAt h hlink hseg
    rw [hcontent] at hb'
    exact segmentByte_unique h hS hS' hb hb'
  · obtain ⟨seg, hseg, hcontent⟩ := contentAt_segment h hlink hS
    exact ⟨seg, hseg, by rw [hcontent, hb]; rfl⟩

/-- **The data of a live segment** is at its address. -/
theorem image_place {p : Seg × Nat} (hp : p ∈ places (P.memory m cfg.toLayoutConfig).segments) {k : Nat} {b : UInt8}
    (hb : ((P.segment p.1).patched (P.values m cfg))[k]? = some b) : obj.image (p.2 + k) = b := by
  obtain ⟨S, hS, hpS⟩ := List.mem_flatMap.1 hp
  obtain ⟨q, hq, rfl⟩ := List.mem_map.1 hpS
  obtain ⟨hok, hplaced⟩ := h.ready S hS
  obtain ⟨before, behind, heq, hlen⟩ := payload_split (P.values m cfg) hok.laid hplaced hq
  have hindex : S.startVA + q.2 + k - S.startVA = before.length + k := by omega
  have hlt := (List.getElem?_eq_some_iff.1 hb).1
  refine image_eq h hlink hS ?_
  dsimp only at hb ⊢
  rw [segmentByte, if_pos (by omega), hindex, heq, List.getElem?_append_right (Nat.le_add_right _ _),
    Nat.add_sub_cancel_left, List.getElem?_append_left hlt]
  exact hb

/-- **Between the data** the memory has zeros. -/
theorem image_gap {a : Nat} (hgap : ∀ p ∈ places (P.memory m cfg.toLayoutConfig).segments,
    a < p.2 ∨ p.2 + (P.segment p.1).data.length ≤ a) : obj.image a = 0 := by
  refine after_eq (fun seg hseg b hb => ?_) (.inl rfl)
  obtain ⟨S, hS, hcontent⟩ := segment_contentAt h hlink hseg
  obtain ⟨hok, hplaced⟩ := h.ready S hS
  rw [hcontent] at hb
  obtain ⟨hle, -⟩ := segmentByte_lt h hS hb
  rw [segmentByte, if_pos hle] at hb
  refine payload_gap (P.values m cfg) hok.laid hplaced (fun q hq => ?_) hb
  have hq' := hgap (q.1, S.startVA + q.2) (List.mem_flatMap.2 ⟨S, hS, List.mem_map_of_mem
    (f := fun p => (p.1, S.startVA + p.2)) hq⟩)
  unfold segSize
  dsimp only at hq'
  omega

end

end

/-- **Exports stand for their symbols.** -/
theorem calculateExports_means (h : P.Writable m cfg past customs) :
    ∀ ex ∈ (P.calculateExports m cfg (P.indexes m)).1,
      P.ExportMeans m cfg (P.calculateExports m cfg (P.indexes m)).2 ex := by
  refine addExports_means h.printable h.fits (fun _ hsym => hsym) ?_ h.addresses
  intro ex hex
  rcases List.mem_append.1 hex with hex | hex
  · split at hex
    · cases hex
    · rw [List.mem_singleton.1 hex]
      exact ⟨by simp [WASM_EXTERNAL_MEMORY, WASM_EXTERNAL_FUNCTION], by simp [WASM_EXTERNAL_MEMORY, WASM_EXTERNAL_GLOBAL]⟩
  · split at hex
    · rw [List.mem_singleton.1 hex]
      exact ⟨by simp [WASM_EXTERNAL_TABLE, WASM_EXTERNAL_FUNCTION], by simp [WASM_EXTERNAL_TABLE, WASM_EXTERNAL_GLOBAL]⟩
    · cases hex

/-- Data that is exported: the global has its address. -/
theorem Linked.fakeGlobal (hlink : P.Linked m cfg past parts obj) (hP : P.Ok) (h : P.Writable m cfg past customs)
    {sym : Sym} (hsym : sym ∈ P.input.symbols) (hexp : P.isExported m cfg sym = true)
    (hdata : (P.symbol sym).kind.isDefinedData = true) {j : Nat}
    (hj : (P.calculateExports m cfg (P.indexes m)).2[j]? = some sym) :
    ∃ va, virtualAddress (P.memory m cfg.toLayoutConfig) (P.symbol sym).kind = some va ∧
      obj.global ((P.globalSpace (P.indexes m).imports (P.indexes m).globals).length + j)
        = some ⟨⟨typeI32, false⟩, .i32Const va⟩ := by
  have hlive : P.input.isLive m sym = true := by
    simp only [isExported, Bool.and_eq_true] at hexp
    exact hexp.2
  have hasData : P.HasData sym := by
    have hdefined := h.printable.defined sym hsym
    unfold HasData
    cases hkind : (P.symbol sym).kind <;> rw [hkind] at hdata hdefined <;> trivial
  obtain ⟨v, hv, -⟩ := memory_resolves hP h.relocatable hasData hlive 0
  rw [hlive, hdata, Bool.and_true, if_pos rfl, Option.map_eq_some_iff] at hv
  obtain ⟨va, hva, -⟩ := hv
  have hlen : obj.importedGlobals.length = (P.importedGlobals (P.indexes m).imports).length := by
    rw [hlink.importedGlobals, List.length_map]
  have hspace : (P.globalSpace (P.indexes m).imports (P.indexes m).globals).length
      = (P.importedGlobals (P.indexes m).imports).length + (P.indexes m).globals.inputs.length := by
    rw [globalSpace, List.length_append, List.length_map, List.length_map]
  have hindex : (P.importedGlobals (P.indexes m).imports).length + (P.indexes m).globals.inputs.length + j
      - (P.importedGlobals (P.indexes m).imports).length = (P.indexes m).globals.inputs.length + j := by omega
  refine ⟨va, hva, ?_⟩
  rw [Object.global, hlen, hspace, if_neg (by omega), hindex, hlink.globals, globalList,
    List.getElem?_append_right (by rw [List.length_map]; omega), List.length_map, Nat.add_sub_cancel_left,
    List.getElem?_map, hj, Option.map_some, hva, Option.getD_some]

/-! ## The whole module -/

/-- The module has at its indices, in its table and at its addresses what the link has put there. -/
structure Loaded (m : Marks Sym (Func ⊕ Seg) Global) (cfg : OutputConfig)
    (past : WasmExport → WasmExport → Nat → Char) (P : LinkState Sym Func Seg Global)
    (parts : ∀ f, FunctionParts (P.function f)) (obj : Object) : Prop where
  functionImport : ∀ (i : Nat) (sym : Sym), (P.functionSpace (P.indexes m).imports (P.indexes m).functions)[i]? = some (.inl sym) →
    obj.importedFunctions[i]?.map (·.1) = some (charBytes (P.symbol sym).name)
  globalImport : ∀ (i : Nat) (sym : Sym), (P.globalSpace (P.indexes m).imports (P.indexes m).globals)[i]? = some (.inl sym) →
    obj.importedGlobals[i]? = some (charBytes (P.symbol sym).name, (P.symbol sym).globalType.getD ⟨0, false⟩)
  functionType : ∀ (i : Nat) (x : Sym ⊕ Func) (sig : Signature), (P.functionSpace (P.indexes m).imports (P.indexes m).functions)[i]? = some x →
    P.typeOfFunction x = some sig → obj.functionType i = some sig
  function : ∀ (i : Nat) (f : Func), (P.functionSpace (P.indexes m).imports (P.indexes m).functions)[i]? = some (.inr f) →
    ∃ F, obj.function i = some F ∧ F.locals = (parts f).locals ∧
      Relinked (P.Resolves (P.indexes m) (P.memory m cfg.toLayoutConfig)) (parts f).start (P.function f).relocations
        (parts f).code F.body
  global : ∀ (i : Nat) (g : Global), (P.globalSpace (P.indexes m).imports (P.indexes m).globals)[i]? = some (.inr g) →
    obj.global i = some (P.global g)
  table : ∀ slot, obj.tableEntry slot = P.tableSlot (P.indexes m) slot
  data : ∀ p ∈ places (P.memory m cfg.toLayoutConfig).segments, ∃ bytes,
    Relinked (P.Resolves (P.indexes m) (P.memory m cfg.toLayoutConfig)) (P.segment p.1).inputSectionOffset
      (P.segment p.1).relocations (P.segment p.1).data bytes ∧
    ∀ k b, bytes[k]? = some b → obj.image (p.2 + k) = b
  zeros : ∀ a, (∀ p ∈ places (P.memory m cfg.toLayoutConfig).segments,
    a < p.2 ∨ p.2 + (P.segment p.1).data.length ≤ a) → obj.image a = 0
  exportedFunction : ∀ ex ∈ obj.exports, ex.kind = 0 → ∃ sym ∈ P.input.symbols, P.isExported m cfg sym = true ∧
    ex.name = charBytes (P.symbol sym).name ∧
    (P.functionSpace (P.indexes m).imports (P.indexes m).functions)[ex.index]? = some (P.denotes sym)
  exportedGlobal : ∀ ex ∈ obj.exports, ex.kind = 3 → ∃ sym ∈ P.input.symbols, P.isExported m cfg sym = true ∧
    ex.name = charBytes (P.symbol sym).name ∧
    ((P.globalSpace (P.indexes m).imports (P.indexes m).globals)[ex.index]? = some (P.denotesGlobal sym) ∨
      ∃ va, virtualAddress (P.memory m cfg.toLayoutConfig) (P.symbol sym).kind = some va ∧
        obj.global ex.index = some ⟨⟨typeI32, false⟩, .i32Const va⟩)
  exported : ∀ sym ∈ P.input.symbols, P.isExported m cfg sym = true → ∀ f, (P.symbol sym).kind = .definedFunction f →
    ∃ i, (P.functionSpace (P.indexes m).imports (P.indexes m).functions)[i]? = some (.inr f) ∧
      (shouldExport past cfg.exports ⟨(P.symbol sym).name, WASM_EXTERNAL_FUNCTION, BitVec.ofNat 32 i⟩ = true →
        ⟨charBytes (P.symbol sym).name, 0, i⟩ ∈ obj.exports)

theorem Linked.loaded {fuel : Nat} (hlink : P.Linked m cfg past parts obj) (hP : P.Complete cfg)
    (hm : P.input.markLive fuel = some m) (h : P.Writable m cfg past customs) : P.Loaded m cfg past parts obj where
  functionImport i sym hi := by
    rw [hlink.importedFunctions, List.getElem?_map, getElem?_imported hi]
    rfl
  globalImport i sym hi := by
    rw [hlink.importedGlobals, List.getElem?_map, getElem?_imported hi]
    rfl
  functionType i x sig hi hsig := hlink.functionType hi hsig
  function i f hi := by
    obtain ⟨hf, F, hF, hlocals, hbody⟩ := hlink.function hi
    exact ⟨F, hF, hlocals, hbody ▸ linkedCode_relinked hP hm h hf (parts f)⟩
  global i g hi := hlink.global hi
  table slot := hlink.tableEntry slot
  data p hp := by
    have hmem : p.1 ∈ P.liveSegments m := (P.memory_members m cfg.toLayoutConfig).mem_iff.1
      (places_fst _ ▸ List.mem_map_of_mem hp)
    obtain ⟨hfile, hlive⟩ := List.mem_filter.1 hmem
    obtain ⟨F, hF, hseg⟩ := List.mem_flatMap.1 hfile
    have hc : .inr p.1 ∈ P.chunks :=
      List.mem_flatMap.2 ⟨F, hF, List.mem_append_right _ (List.mem_map_of_mem hseg)⟩
    have hplaced := (h.chunks p.1 hmem).placed
    refine ⟨_, ?_, fun k b hb => image_place h hlink hp hb⟩
    rw [InputChunk.patched_eq_rendered _ hplaced]
    have hdata := InputChunk.slice_all (C := (P.segment p.1).toInputChunk)
    rw [← hdata]
    exact InputChunk.relinked (Nat.le_refl _) hplaced fun rel hrel =>
      ⟨_, values_resolves hP.ok hm h hc hlive hrel, read_encode rel.kind _⟩
  zeros a ha := image_gap h hlink ha
  exportedFunction ex hex hkind := by
    rw [hlink.exports] at hex
    obtain ⟨ex', hex', rfl⟩ := List.mem_map.1 hex
    obtain ⟨sym, hsym, hexp, hname, hplace⟩ := (calculateExports_means h ex' (mem_writtenExports.1 hex').1).function
      (congrArg UInt8.toBitVec hkind)
    exact ⟨sym, hsym, hexp, by rw [readBack, hname], hplace⟩
  exportedGlobal ex hex hkind := by
    rw [hlink.exports] at hex
    obtain ⟨ex', hex', rfl⟩ := List.mem_map.1 hex
    obtain ⟨sym, hsym, hexp, hname, hplace⟩ := (calculateExports_means h ex' (mem_writtenExports.1 hex').1).global
      (congrArg UInt8.toBitVec hkind)
    refine ⟨sym, hsym, hexp, by rw [readBack, hname], hplace.imp_right ?_⟩
    rintro ⟨hdata, j, hj, hindex⟩
    obtain ⟨va, hva, hglobal⟩ := hlink.fakeGlobal hP.ok h hsym hexp hdata hj
    exact ⟨va, hva, by rw [readBack, hindex]; exact hglobal⟩
  exported sym hsym hexp f hkind := by
    have hlive : P.input.isLive m sym = true := by
      simp only [isExported, Bool.and_eq_true] at hexp
      exact hexp.2
    have hcall : P.Callable sym := by
      have hdefined := h.printable.defined sym hsym
      unfold Callable
      simpa [hkind] using hdefined
    obtain ⟨i, hi⟩ := Option.isSome_iff_exists.1 (functionIndex_isSome hcall hlive)
    have hplace : (P.functionSpace (P.indexes m).imports (P.indexes m).functions)[i]? = some (P.denotes sym) :=
      functionIndex_denotes (P.calculateImports_ok m) hi
    have hlt := Nat.lt_trans (List.getElem?_eq_some_iff.1 hplace).1 h.fits.functions
    refine ⟨i, by rw [hplace, denotes, hkind], fun hshould => ?_⟩
    have hcandidate := mem_calculateExports hsym hexp hkind
    rw [hi, Option.getD_some] at hcandidate
    have hwritten := List.mem_map_of_mem (f := readBack) (mem_writtenExports.2 ⟨hcandidate, hshould⟩)
    rw [← hlink.exports, readBack, BitVec.toNat_ofNat, Nat.mod_eq_of_lt hlt] at hwritten
    exact hwritten

theorem sample_complete : sample.Complete sampleOutput where
  ok := sample_ok
  synthetic f hf := by
    rw [List.mem_singleton.1 hf]
    rfl
  leb _ f := by cases f <;> decide

end LinkState

end Lld
