import WasmCdt.Lld.Proof.Sections

/-!
# The linked file reads as the linked module

* `types_all`: the signatures of the output are those of the files, the imports and the functions.
* `importList_ok`, `calculateExports_ok`: imports and exports that the reader takes.
* `parse_writeFile`: **the object reader accepts the file that the linker writes**, and finds in it
  the index spaces of the link, its functions and its data.
-/

namespace Lld

open FileBuffer ForkJoin Leb128 Reading
open WasmObjectFile (SigOk InitOk LimitsOk ImportOk ExportOk Loads Object readBack SegmentRead)

namespace LinkState

variable {Sym Func Seg Global : Type} (P : LinkState Sym Func Seg Global)
  {m : Marks Sym (Func ⊕ Seg) Global} {cfg : OutputConfig}

/-- What the format of the file can say. -/
structure Printable : Prop where
  names : ∀ sym, (P.symbol sym).name.length < 2 ^ 32
  types : ∀ F ∈ P.files, ∀ sig ∈ F.types, SigOk sig
  signature : ∀ f, SigOk (P.signature f)
  functionType : ∀ sym sig, (P.symbol sym).functionType = some sig → SigOk sig
  globals : ∀ g, InitOk (P.global g).initExpr
  /-- The functions, globals and segments of the symbols are those of the link. -/
  defined : ∀ sym ∈ P.input.symbols, match (P.symbol sym).kind with
    | .definedFunction f => f ∈ P.functions
    | .definedGlobal g => g ∈ P.globals
    | .definedData seg _ => seg ∈ P.files.flatMap ObjectFile.segments
    | _ => True

variable {P}

theorem typeOf_mem {file index : Nat} {sig : Signature} (h : P.typeOf file index = some sig) :
    ∃ F ∈ P.files, sig ∈ F.types := by
  obtain ⟨F, hF, hsig⟩ := Option.bind_eq_some_iff.1 h
  exact ⟨F, List.mem_of_getElem? hF, List.mem_of_getElem? hsig⟩

theorem lookupType_lt {T : TypeSpace} {sig : Signature} {i : Nat} (h : T.lookupType sig = some i) :
    i < T.types.length := by
  unfold TypeSpace.lookupType TypeSpace.indexOf at h
  split at h
  · rename_i hmem
    exact Option.some.inj h ▸ List.idxOf_lt_length_of_mem hmem
  · cases h

theorem memoryLimits_ok (hmax : cfg.maxMemory < 2 ^ 32) :
    LimitsOk (memoryLimits (P.memory m cfg.toLayoutConfig)) := by
  have hpages : ∀ n, uint32 n / wasmPageSize < 2 ^ 32 := fun n =>
    Nat.lt_of_le_of_lt (Nat.div_le_self _ _) (Nat.mod_lt _ (by decide))
  have hmax' : (P.memory m cfg.toLayoutConfig).maxMemoryPages < 2 ^ 32 := by
    simp only [memory, LayoutConfig.layoutMemory]
    split
    · decide
    · exact Nat.lt_of_le_of_lt (Nat.div_le_self _ _) hmax
  refine ⟨hpages _, fun n hn => ?_⟩
  unfold memoryLimits at hn
  simp only [Option.ite_none_left_eq_some, Option.some.injEq] at hn
  exact hn.2 ▸ hmax'

theorem tableType_ok {X : Indexes Sym Func Global} (h : P.Fits X) : LimitsOk (tableType X).limits :=
  ⟨h.table, fun _ hn => Option.some.inj hn ▸ h.table⟩

theorem length_charBytes (s : Text) : (charBytes s).length = s.length := List.length_map ..

/-- Indices that are below the number of functions, or of globals with `n` more. -/
structure ExportFits (P : LinkState Sym Func Seg Global) (X : Indexes Sym Func Global) (n : Nat)
    (ex : WasmExport) : Prop where
  name : ex.name.length < 2 ^ 32
  kind : ex.kind.toNat < 4
  function : ex.kind = 0 → ex.index.toNat < (P.functionSpace X.imports X.functions).length
  global : ex.kind = 3 → ex.index.toNat < (P.globalSpace X.imports X.globals).length + n

theorem ExportFits.mono {X : Indexes Sym Func Global} {n k : Nat} {ex : WasmExport} (h : P.ExportFits X n ex)
    (hnk : n ≤ k) : P.ExportFits X k ex :=
  ⟨h.name, h.kind, h.function, fun hk => Nat.lt_of_lt_of_le (h.global hk) (Nat.add_le_add_left hnk _)⟩

section
variable [DecidableEq Sym] [DecidableEq Func] [DecidableEq Global]

/-! ## Types -/

theorem types_register {Q : Signature → Prop} {T : TypeSpace} {sig : Signature} (h : ∀ s ∈ T.types, Q s)
    (hsig : Q sig) : ∀ s ∈ (T.register sig).types, Q s := by
  unfold TypeSpace.register
  split
  · exact h
  · intro s hs
    rcases List.mem_append.1 hs with hs | hs
    · exact h s hs
    · exact List.mem_singleton.1 hs ▸ hsig

/-- The signatures of the output come from the files, the imports and the functions. -/
theorem types_all {Q : Signature → Prop} (hfiles : ∀ F ∈ P.files, ∀ sig ∈ F.types, Q sig)
    (hfunctions : ∀ f, Q (P.signature f)) (himports : ∀ sym sig, (P.symbol sym).functionType = some sig → Q sig) :
    ∀ sig ∈ (P.indexes m).types.types, Q sig := by
  have hfile : ∀ {file index sig}, P.typeOf file index = some sig → Q sig := fun h => by
    obtain ⟨F, hF, hsig⟩ := typeOf_mem h
    exact hfiles F hF _ hsig
  have htable : ∀ sig ∈ (P.assignTable m (P.calculateImports m)
      (P.assignFunctions m (P.calculateImports m))).2.types, Q sig := by
    unfold assignTable
    refine List.foldlRecOn (motive := fun S : FunctionTable Sym Func × TypeSpace => ∀ sig ∈ S.2.types, Q sig)
      _ _ (by simp) fun S hS rel _ => ?_
    rcases P.handleReloc_cases S rel with hstep | ⟨sym, -, -, hstep⟩ | ⟨file, index, sig, hsig, hstep⟩
    · rw [hstep]
      exact hS
    · rw [hstep]
      exact hS
    · rw [hstep]
      exact types_register hS (hfile hsig)
  have hused : ∀ sig ∈ (P.fileTypes.foldl mapUsed (P.assignTable m (P.calculateImports m)
      (P.assignFunctions m (P.calculateImports m))).2).types, Q sig := by
    refine List.foldlRecOn (motive := fun T : TypeSpace => ∀ sig ∈ T.types, Q sig) _ _ htable
      fun T hT entry hentry => ?_
    unfold mapUsed
    split
    · exact types_register hT (hfile (mem_fileTypes hentry))
    · exact hT
  refine List.foldlRecOn (motive := fun T : TypeSpace => ∀ sig ∈ T.types, Q sig) _ _ hused
    fun T hT sig hsig => types_register hT ?_
  rcases List.mem_append.1 hsig with hsig | hsig
  · obtain ⟨sym, -, htype⟩ := List.mem_filterMap.1 hsig
    exact himports sym sig htype
  · obtain ⟨f, -, rfl⟩ := List.mem_map.1 hsig
    exact hfunctions f

theorem signatures_ok (h : P.Printable) : ∀ sig ∈ (P.indexes m).types.types, SigOk sig :=
  types_all h.types h.signature h.functionType

/-! ## Imports -/

theorem importList_ok (h : P.Printable) (hfits : P.Fits (P.indexes m)) (hmax : cfg.maxMemory < 2 ^ 32) :
    ∀ im ∈ P.importList cfg (P.indexes m) (P.memory m cfg.toLayoutConfig), ImportOk im := by
  have hname : ∀ {s : Text}, s.length < 2 ^ 32 → (charBytes s).length < 2 ^ 32 := fun hs => by
    rwa [length_charBytes]
  have henv : (charBytes "env".toList).length < 2 ^ 32 := hname (by decide)
  intro im him
  unfold importList at him
  simp only [List.mem_append] at him
  rcases him with (him | him) | him
  · split at him
    · rw [List.mem_singleton.1 him]
      exact ⟨henv, hname (by decide), memoryLimits_ok hmax⟩
    · cases him
  · split at him
    · rw [List.mem_singleton.1 him]
      exact ⟨henv, hname (by decide), rfl, tableType_ok hfits⟩
    · cases him
  · obtain ⟨sym, -, rfl⟩ := List.mem_map.1 him
    refine ⟨henv, hname (h.names sym), ?_⟩
    simp only [symbolImport]
    split
    · change ((P.symbol sym).functionType.bind (P.indexes m).types.lookupType).getD 0 < 2 ^ 32
      cases htype : (P.symbol sym).functionType.bind (P.indexes m).types.lookupType with
      | none => decide
      | some i =>
        obtain ⟨sig, -, hi⟩ := Option.bind_eq_some_iff.1 htype
        exact Nat.lt_trans (lookupType_lt hi) hfits.types
    · trivial

/-- The imported functions and globals that the reader counts. -/
theorem numImported {obj : Object}
    (hobj : obj.imports = P.importList cfg (P.indexes m) (P.memory m cfg.toLayoutConfig)) :
    obj.numImportedFunctions = (P.indexes m).imports.numImportedFunctions ∧
      obj.numImportedGlobals = (P.indexes m).imports.numImportedGlobals := by
  have hok := P.calculateImports_ok m
  have hfunction : ∀ sym, Object.isFunction (P.symbolImport (P.indexes m) sym).kind
      = (P.symbol sym).kind.isFunction := fun sym => by
    unfold symbolImport
    cases h : (P.symbol sym).kind.isFunction <;> simp [h, Object.isFunction]
  have hglobal : ∀ sym, Object.isGlobal (P.symbolImport (P.indexes m) sym).kind
      = !(P.symbol sym).kind.isFunction := fun sym => by
    unfold symbolImport
    cases h : (P.symbol sym).kind.isFunction <;> simp [h, Object.isGlobal]
  have himports : (P.indexes m).imports = P.calculateImports m := rfl
  constructor
  · rw [himports, hok.numFunctions, Object.numImportedFunctions, hobj, importList, importedFunctions,
      ← List.countP_eq_length_filter]
    simp only [List.countP_append, List.countP_map, Function.comp_def, hfunction, himports]
    cases cfg.importMemory <;> cases cfg.importTable <;> simp [Object.isFunction]
  · rw [himports, hok.numGlobals, Object.numImportedGlobals, hobj, importList, importedGlobals,
      ← List.countP_eq_length_filter]
    simp only [List.countP_append, List.countP_map, Function.comp_def, hglobal, himports]
    cases cfg.importMemory <;> cases cfg.importTable <;> simp [Object.isGlobal]

theorem functionTypes_lt {f : Func} (hf : f ∈ (P.indexes m).functions.inputs) :
    ((P.indexes m).types.lookupType (P.signature f)).getD 0 < (P.indexes m).types.types.length := by
  obtain ⟨-, htypes, -⟩ :=
    P.assignTable_ok (P.calculateImports m) (P.assignFunctions m (P.calculateImports m)) m
  obtain ⟨-, -, hmem⟩ := calculateTypes_ok htypes (P.calculateImports m) (P.assignFunctions m (P.calculateImports m))
  have hsig := hmem (P.signature f) (List.mem_append_right _ (List.mem_map_of_mem hf))
  have hlookup : (P.indexes m).types.lookupType (P.signature f)
      = some ((P.indexes m).types.indexOf (P.signature f)) := if_pos hsig
  rw [hlookup, Option.getD_some]
  exact List.idxOf_lt_length_of_mem hsig

/-! ## Exports -/

/-- The index of a live function. -/
theorem functionIndex_lt {sym : Sym} (hsym : P.Callable sym) (hlive : P.input.isLive m sym = true) :
    (P.functionIndex (P.indexes m).imports (P.indexes m).functions sym).getD 0
      < (P.functionSpace (P.indexes m).imports (P.indexes m).functions).length := by
  obtain ⟨i, hi⟩ := Option.isSome_iff_exists.1 (functionIndex_isSome hsym hlive)
  have hspace := functionIndex_denotes (P.calculateImports_ok m) hi
  rw [hi, Option.getD_some]
  exact (List.getElem?_eq_some_iff.1 hspace).1

theorem globalIndex_lt {sym : Sym} (hsym : P.HasGlobal sym) (hlive : P.input.isLive m sym = true) :
    (P.globalIndex (P.indexes m).imports (P.indexes m).globals sym).getD 0
      < (P.globalSpace (P.indexes m).imports (P.indexes m).globals).length := by
  obtain ⟨i, hi⟩ := Option.isSome_iff_exists.1 (globalIndex_isSome hsym hlive)
  have hspace := globalIndex_denotes (P.calculateImports_ok m) hi
  rw [hi, Option.getD_some]
  exact (List.getElem?_eq_some_iff.1 hspace).1

/-- The exports so far, in the order of the loop, and the addresses that are exported as globals. -/
structure ExportsOk (P : LinkState Sym Func Seg Global) (X : Indexes Sym Func Global)
    (E : List WasmExport × List Sym) : Prop where
  fits : ∀ ex ∈ E.1, P.ExportFits X E.2.length ex
  fake : E.2.length ≤ E.1.length

theorem functionSpace_length : (P.functionSpace (P.indexes m).imports (P.indexes m).functions).length
    = (P.indexes m).imports.numImportedFunctions + (P.indexes m).functions.inputs.length := by
  have himports : (P.indexes m).imports = P.calculateImports m := rfl
  rw [functionSpace, List.length_append, List.length_map, List.length_map, himports,
    (P.calculateImports_ok m).numFunctions]

theorem globalSpace_length : (P.globalSpace (P.indexes m).imports (P.indexes m).globals).length
    = (P.indexes m).imports.numImportedGlobals + (P.indexes m).globals.inputs.length := by
  have himports : (P.indexes m).imports = P.calculateImports m := rfl
  rw [globalSpace, List.length_append, List.length_map, List.length_map, himports,
    (P.calculateImports_ok m).numGlobals]

/-- Data that is exported as a global. -/
theorem ExportsOk.fakeGlobal {E : List WasmExport × List Sym} (hE : P.ExportsOk (P.indexes m) E)
    (hlt : (P.globalSpace (P.indexes m).imports (P.indexes m).globals).length + E.2.length < 2 ^ 32)
    {name : Text} (hname : name.length < 2 ^ 32) (sym : Sym) :
    P.ExportsOk (P.indexes m) (E.1 ++ [⟨name, WASM_EXTERNAL_GLOBAL, BitVec.ofNat 32
      ((P.indexes m).imports.numImportedGlobals + (P.indexes m).globals.inputs.length + E.2.length)⟩],
        E.2 ++ [sym]) := by
  rw [← globalSpace_length]
  refine ⟨List.forall_mem_append.2 ⟨fun ex hex => (hE.fits ex hex).mono (by simp),
    List.forall_mem_singleton.2 ⟨hname, by simp [WASM_EXTERNAL_GLOBAL], by simp [WASM_EXTERNAL_GLOBAL],
      fun _ => ?_⟩⟩, ?_⟩
  · rw [BitVec.toNat_ofNat, Nat.mod_eq_of_lt hlt, List.length_append, List.length_singleton]
    omega
  · have hfake := hE.fake
    simp only [List.length_append, List.length_singleton]
    omega

/-- A round of the loop adds exports of what is there. -/
theorem addExport_ok (h : P.Printable) (hfits : P.Fits (P.indexes m)) {E : List WasmExport × List Sym}
    (hE : P.ExportsOk (P.indexes m) E)
    (hlt : (P.globalSpace (P.indexes m).imports (P.indexes m).globals).length + E.2.length < 2 ^ 32)
    {sym : Sym} (hsym : sym ∈ P.input.symbols) :
    P.ExportsOk (P.indexes m) (P.addExport m cfg (P.indexes m) E sym) := by
  have hname := h.names sym
  have hdefined := h.defined sym hsym
  unfold addExport
  cases hexp : P.isExported m cfg sym with
  | false => simpa using hE
  | true =>
    simp only [isExported, Bool.and_eq_true] at hexp
    obtain ⟨⟨⟨hisDefined, -⟩, -⟩, hlive⟩ := hexp
    have hfake := hE.fake
    simp only [Bool.not_true, Bool.false_eq_true, ↓reduceIte]
    cases hkind : (P.symbol sym).kind with
    | definedFunction f =>
      have hcall : P.Callable sym := by
        unfold Callable
        simpa [hkind] using hdefined
      have hindex := functionIndex_lt (m := m) hcall hlive
      have hnat : (BitVec.ofNat 32 ((P.functionIndex (P.indexes m).imports (P.indexes m).functions sym).getD 0)).toNat
          < (P.functionSpace (P.indexes m).imports (P.indexes m).functions).length := by
        rwa [BitVec.toNat_ofNat, Nat.mod_eq_of_lt (Nat.lt_trans hindex hfits.functions)]
      exact ⟨List.forall_mem_append.2 ⟨hE.fits, List.forall_mem_singleton.2 ⟨hname,
        by simp [WASM_EXTERNAL_FUNCTION], fun _ => hnat, by simp [WASM_EXTERNAL_FUNCTION]⟩⟩, by simp; omega⟩
    | definedGlobal g =>
      have hglobal : P.HasGlobal sym := by
        unfold HasGlobal
        simpa [hkind] using hdefined
      have hindex := globalIndex_lt (m := m) hglobal hlive
      have hnat : (BitVec.ofNat 32 ((P.globalIndex (P.indexes m).imports (P.indexes m).globals sym).getD 0)).toNat
          < (P.globalSpace (P.indexes m).imports (P.indexes m).globals).length + E.2.length := by
        rw [BitVec.toNat_ofNat, Nat.mod_eq_of_lt (Nat.lt_trans hindex hfits.globals)]
        omega
      dsimp only
      split
      · exact hE
      · exact ⟨List.forall_mem_append.2 ⟨hE.fits, List.forall_mem_singleton.2 ⟨hname,
          by simp [WASM_EXTERNAL_GLOBAL], by simp [WASM_EXTERNAL_GLOBAL], fun _ => hnat⟩⟩, by simp; omega⟩
    | definedData seg offset => exact hE.fakeGlobal hlt hname sym
    | linkerData d => exact hE.fakeGlobal hlt hname sym
    | undefinedFunction | undefinedData | undefinedGlobal | «lazy» =>
      rw [hkind] at hisDefined
      cases hisDefined

/-- A round does not take exports back. -/
theorem addExport_length (E : List WasmExport × List Sym) (sym : Sym) :
    E.2.length ≤ (P.addExport m cfg (P.indexes m) E sym).2.length := by
  unfold addExport
  dsimp only
  split
  · exact Nat.le_refl _
  · split
    · exact Nat.le_refl _
    · split <;> exact Nat.le_refl _
    · simp

theorem addExports_length (P : LinkState Sym Func Seg Global) (m : Marks Sym (Func ⊕ Seg) Global)
    (cfg : OutputConfig) (E : List WasmExport × List Sym) (syms : List Sym) :
    E.2.length ≤ (syms.foldl (P.addExport m cfg (P.indexes m)) E).2.length := by
  induction syms generalizing E with
  | nil => exact Nat.le_refl _
  | cons sym syms ih => exact Nat.le_trans (P.addExport_length E sym) (ih _)

theorem addExports_ok (h : P.Printable) (hfits : P.Fits (P.indexes m)) {syms : List Sym}
    (hsyms : ∀ sym ∈ syms, sym ∈ P.input.symbols) {E : List WasmExport × List Sym}
    (hE : P.ExportsOk (P.indexes m) E)
    (hlt : (P.globalSpace (P.indexes m).imports (P.indexes m).globals).length
      + (syms.foldl (P.addExport m cfg (P.indexes m)) E).2.length < 2 ^ 32) :
    P.ExportsOk (P.indexes m) (syms.foldl (P.addExport m cfg (P.indexes m)) E) := by
  induction syms generalizing E with
  | nil => exact hE
  | cons sym syms ih =>
    have hlater := addExports_length P m cfg E (sym :: syms)
    refine ih (fun s hs => hsyms s (List.mem_cons_of_mem _ hs)) ?_ hlt
    exact addExport_ok h hfits hE (by omega) (hsyms sym List.mem_cons_self)

/-- **The exports** are of functions and globals that are there. -/
theorem calculateExports_ok (h : P.Printable) (hfits : P.Fits (P.indexes m))
    (hlt : (P.globalSpace (P.indexes m).imports (P.indexes m).globals).length
      + (P.calculateExports m cfg (P.indexes m)).2.length < 2 ^ 32) :
    P.ExportsOk (P.indexes m) (P.calculateExports m cfg (P.indexes m)) := by
  refine addExports_ok h hfits (fun _ hsym => hsym) ⟨?_, Nat.zero_le _⟩ hlt
  intro ex hex
  rcases List.mem_append.1 hex with hex | hex
  · split at hex
    · cases hex
    · rw [List.mem_singleton.1 hex]
      exact ⟨by simp, by simp [WASM_EXTERNAL_MEMORY], by simp [WASM_EXTERNAL_MEMORY], by simp [WASM_EXTERNAL_MEMORY]⟩
  · split at hex
    · rw [List.mem_singleton.1 hex]
      exact ⟨by simp, by simp [WASM_EXTERNAL_TABLE], by simp [WASM_EXTERNAL_TABLE], by simp [WASM_EXTERNAL_TABLE]⟩
    · cases hex

end

/-! ## The file -/

section
variable (m cfg)

variable [DecidableEq Sym] [DecidableEq Func] [DecidableEq Seg] [DecidableEq Global]

/-- The values that are written. -/
def values (P : LinkState Sym Func Seg Global) (rel : Relocation (Target Sym)) : BitVec 32 :=
  (P.calcNewValue m (P.indexes m) (P.memory m cfg.toLayoutConfig) rel).getD 0

variable (past : WasmExport → WasmExport → Nat → Char)
  (customs : List (List UInt8 × List (InputChunk (Target Sym))))

def sections (P : LinkState Sym Func Seg Global) : List (OutputSection (Target Sym) Seg) :=
  P.createSections m cfg (P.indexes m) (P.memory m cfg.toLayoutConfig) past
    (customs.map fun c => .custom c.1 c.2)

/-- The exports that are written. -/
def writtenExports (P : LinkState Sym Func Seg Global) : List WasmExport :=
  (createExportSection past cfg.exports (P.calculateExports m cfg (P.indexes m)).1).getD []

/-- An output that fits its format. -/
structure Writable (P : LinkState Sym Func Seg Global) : Prop where
  printable : P.Printable
  fits : P.Fits (P.indexes m)
  addresses : (P.globalSpace (P.indexes m).imports (P.indexes m).globals).length
    + (P.calculateExports m cfg (P.indexes m)).2.length < 2 ^ 32
  maxMemory : cfg.maxMemory < 2 ^ 32
  relocatable : cfg.relocatable = false
  memory : cfg.globalBase + cfg.zStackSize + ((P.liveSegments m).map (demand P.segment)).sum + kStackAlignment
    < 2 ^ 32
  alignment : ∀ seg ∈ P.liveSegments m, ∃ k, (P.segment seg).alignment = 2 ^ k
  chunks : ∀ seg ∈ P.liveSegments m, (P.segment seg).toInputChunk.WellPlaced
  customsOk : ∀ c ∈ customs, (∀ known ∈ [Metadata.importsSection, Metadata.abiSection, Metadata.actionsSection,
    Metadata.notifySection], c.1.map (fun b => Char.ofNat b.toNat) ≠ known) ∧ ∀ C ∈ c.2, C.WellPlaced
  fileSize : (placeSections cfg.compressRelocTargets (P.values m cfg) (P.sections m cfg past customs)).2 < 2 ^ 31

/-- The module that the reader finds. -/
structure Linked (P : LinkState Sym Func Seg Global) (parts : ∀ f, FunctionParts (P.function f)) (obj : Object) :
    Prop where
  signatures : obj.signatures = (P.indexes m).types.types
  imports : obj.imports = P.importList cfg (P.indexes m) (P.memory m cfg.toLayoutConfig)
  functionTypes : obj.functionTypes = (P.indexes m).functions.inputs.map fun f =>
    ((P.indexes m).types.lookupType (P.signature f)).getD 0
  tables : obj.tables = if cfg.importTable then [] else [tableType (P.indexes m)]
  memories : obj.memories = if cfg.importMemory then [] else [memoryLimits (P.memory m cfg.toLayoutConfig)]
  globals : obj.globals = P.globalList m cfg (P.indexes m) (P.memory m cfg.toLayoutConfig)
  exports : obj.exports = (P.writtenExports m cfg past).map readBack
  startFunction : obj.startFunction = none
  elements : obj.elemSegments = if (P.elements (P.indexes m)).isEmpty then []
    else [⟨0, .i32Const (BitVec.ofNat 32 kInitialTableOffset), (P.elements (P.indexes m)).map (·.getD 0)⟩]
  functions : List.Forall₂ (fun f F => F.locals = (parts f).locals ∧
    F.body = (parts f).linkedCode cfg.compressRelocTargets (P.values m cfg))
      (P.indexes m).functions.inputs obj.functions
  data : List.Forall₂ (fun S => SegmentRead (payload (P.values m cfg) P.segment S.size 0 S.inputSegments) S)
    (P.memory m cfg.toLayoutConfig).segments obj.dataSegments
  metadata : obj.metadata = .empty

end

/-! ## Section by section -/

section
variable {T : Type} {info : Seg → InputSegment T} {compressRelocTargets : Bool}
  {calcNewValue : Relocation T → BitVec 32}

/-- What the reader makes of sections that can be written. -/
def LoadsAll (info : Seg → InputSegment T) (compressRelocTargets : Bool)
    (calcNewValue : Relocation T → BitVec 32) (obj : Object) (secs : List (OutputSection T Seg))
    (obj' : Object) : Prop :=
  (∀ sec ∈ secs, sec.Ok info compressRelocTargets calcNewValue) →
    Loads obj (secs.flatMap (OutputSection.bytes info compressRelocTargets calcNewValue)) obj'

theorem LoadsAll.append {obj obj' obj'' : Object} {secs secs' : List (OutputSection T Seg)}
    (h : LoadsAll info compressRelocTargets calcNewValue obj secs obj')
    (h' : LoadsAll info compressRelocTargets calcNewValue obj' secs' obj'') :
    LoadsAll info compressRelocTargets calcNewValue obj (secs ++ secs') obj'' := by
  intro hok
  obtain ⟨hsecs, hsecs'⟩ := List.forall_mem_append.1 hok
  rw [List.flatMap_append]
  exact (h hsecs).append (h' hsecs')

theorem loadsAll_nil (obj : Object) : LoadsAll info compressRelocTargets calcNewValue obj [] obj :=
  fun _ => WasmObjectFile.loads_nil obj

theorem loadsAll_single {obj obj' : Object} {sec : OutputSection T Seg}
    (h : sec.Ok info compressRelocTargets calcNewValue →
      Loads obj (sec.bytes info compressRelocTargets calcNewValue) obj') :
    LoadsAll info compressRelocTargets calcNewValue obj [sec] obj' := by
  intro hok
  rw [List.flatMap_singleton]
  exact h (hok sec List.mem_cons_self)

/-- A synthetic section. -/
theorem loadsAll_synthetic {obj obj' : Object} {type : UInt8} {body : List UInt8}
    (h : body.length < 2 ^ 32 → Loads obj (WasmObjectFile.sectionBytes type body) obj') :
    LoadsAll info compressRelocTargets calcNewValue obj [.synthetic type body] obj' :=
  loadsAll_single fun hok => h (Nat.lt_trans hok.size (by decide))

theorem mem_unlessEmpty {T α : Type} {parts : List α} {sec sec' : OutputSection T Seg}
    (h : sec ∈ unlessEmpty parts sec') : sec = sec' := by
  unfold unlessEmpty at h
  split at h
  · cases h
  · exact List.mem_singleton.1 h

theorem loadsAll_unlessEmpty {α : Type} {obj obj' : Object} {parts : List α} {sec : OutputSection T Seg}
    (h : LoadsAll info compressRelocTargets calcNewValue obj [sec] obj') (hempty : parts = [] → obj' = obj) :
    LoadsAll info compressRelocTargets calcNewValue obj (unlessEmpty parts sec) obj' := by
  cases parts with
  | nil =>
    rw [hempty rfl]
    exact loadsAll_nil obj
  | cons => exact h

/-- A section that is there if the condition does not hold. -/
theorem loadsAll_unless {obj obj' : Object} {c : Bool} {sec : OutputSection T Seg}
    (h : c = false → LoadsAll info compressRelocTargets calcNewValue obj [sec] obj') (hnot : c = true → obj' = obj) :
    LoadsAll info compressRelocTargets calcNewValue obj (if c then [] else [sec]) obj' := by
  cases c with
  | true =>
    rw [hnot rfl]
    exact loadsAll_nil obj
  | false => exact h rfl

/-- The bytes of a section are its body behind the header. -/
theorem bytes_eq {sec : OutputSection T Seg} (h : sec.Ok info compressRelocTargets calcNewValue) :
    sec.bytes info compressRelocTargets calcNewValue = WasmObjectFile.sectionBytes sec.type
      (sec.body info compressRelocTargets calcNewValue) ∧
    (sec.body info compressRelocTargets calcNewValue).length < 2 ^ 32 := by
  have hlen := OutputSection.body_length h
  have hsize := h.size
  rw [OutputSection.bytes, OutputSection.header, ← hlen]
  exact ⟨rfl, by omega⟩

theorem loadsAll_customs {obj : Object} {customs : List (List UInt8 × List (InputChunk T))}
    (hnames : ∀ c ∈ customs, ∀ known ∈ [Metadata.importsSection, Metadata.abiSection, Metadata.actionsSection,
      Metadata.notifySection], c.1.map (fun b => Char.ofNat b.toNat) ≠ known) :
    LoadsAll info compressRelocTargets calcNewValue obj (customs.map fun c => .custom c.1 c.2) obj := by
  induction customs with
  | nil => exact loadsAll_nil obj
  | cons c customs ih =>
    obtain ⟨hname, hrest⟩ := List.forall_mem_cons.1 hnames
    refine (loadsAll_single fun hok => ?_).append (ih hrest)
    obtain ⟨hbytes, hlen⟩ := bytes_eq hok
    rw [hbytes]
    exact WasmObjectFile.loads_custom obj hname hlen

theorem loadsAll_code {ι : Type} {functions : List ι} {function : ι → InputFunction T}
    (parts : ∀ f, FunctionParts (function f))
    (hok : OutputSection.Ok info compressRelocTargets calcNewValue (.code (functions.map function))) :
    ∃ fs, List.Forall₂ (fun f F => F.locals = (parts f).locals ∧
        F.body = (parts f).linkedCode compressRelocTargets calcNewValue) functions fs ∧
      ∀ obj : Object, functions.length = obj.functionTypes.length →
        LoadsAll info compressRelocTargets calcNewValue obj [.code (functions.map function)]
          { obj with functions := obj.functions ++ fs } := by
  obtain ⟨hbytes, hlen⟩ := bytes_eq hok
  rw [OutputSection.body, List.length_map, List.flatMap_map] at hlen
  obtain ⟨fs, hfs, hloads⟩ := WasmObjectFile.loads_code parts hlen
  refine ⟨fs, hfs, fun obj hcount => loadsAll_single fun _ => ?_⟩
  rw [hbytes, OutputSection.body, List.length_map, List.flatMap_map]
  exact hloads obj hcount

theorem loadsAll_data {segments : List (OutputSegment Seg)}
    (hok : OutputSection.Ok info compressRelocTargets calcNewValue (.data segments)) :
    ∃ segs, List.Forall₂ (fun S => SegmentRead (payload calcNewValue info S.size 0 S.inputSegments) S)
        segments segs ∧ ∀ obj : Object,
      LoadsAll info compressRelocTargets calcNewValue obj [.data segments]
        { obj with dataSegments := obj.dataSegments ++ segs } := by
  obtain ⟨hbytes, hlen⟩ := bytes_eq hok
  have hparts : ∀ S ∈ segments, SegmentReady info S := hok.parts
  have hsize : ∀ S ∈ segments, (payload calcNewValue info S.size 0 S.inputSegments).length = S.size :=
    fun S hS => payload_length calcNewValue (hparts S hS).ok.laid (hparts S hS).wellPlaced
  rw [OutputSection.body, List.length_append] at hlen
  obtain ⟨segs, hsegs, hloads⟩ := WasmObjectFile.loads_data
    (fun S => payload calcNewValue info S.size 0 S.inputSegments) (fun S (hS : S ∈ segments) => ⟨hsize S hS, by
      have hle := WasmObjectFile.length_le_flatMap (f := segmentBytes calcNewValue info) hS
      rw [segmentBytes_length calcNewValue (hparts S hS)] at hle
      omega⟩) (by rw [List.length_append]; exact hlen)
  refine ⟨segs, hsegs, fun obj => loadsAll_single fun _ => ?_⟩
  rw [hbytes]
  exact hloads obj

end

/-! ## The whole file -/

section
variable [DecidableEq Sym] [DecidableEq Func] [DecidableEq Seg] [DecidableEq Global]
  {past : WasmExport → WasmExport → Nat → Char} {customs : List (List UInt8 × List (InputChunk (Target Sym)))}

theorem Writable.ready (h : P.Writable m cfg past customs) :
    ∀ S ∈ (P.memory m cfg.toLayoutConfig).segments, SegmentReady P.segment S := by
  obtain ⟨hok, -, -⟩ := layoutMemory_laid h.relocatable h.alignment h.memory rfl
  intro S hS
  refine ⟨hok S hS, fun p hp => h.chunks p.1 ?_⟩
  exact (P.memory_members m cfg.toLayoutConfig).mem_iff.1
    (List.mem_flatMap.2 ⟨S, hS, List.mem_map_of_mem hp⟩)

theorem Writable.bodySize (h : P.Writable m cfg past customs) :
    ∀ sec ∈ P.sections m cfg past customs, sec.bodySize cfg.compressRelocTargets (P.values m cfg) < 2 ^ 31 := by
  intro sec hsec
  have hfile := h.fileSize
  rw [placeSections, placeChunks_snd] at hfile
  have hle := List.le_sum_of_mem (List.mem_map_of_mem (f := OutputSection.getSize cfg.compressRelocTargets (P.values m cfg)) hsec)
  rw [OutputSection.getSize] at hle
  omega

/-- The sections are well formed. -/
theorem sections_ok (h : P.Writable m cfg past customs) (parts : ∀ f, FunctionParts (P.function f)) :
    ∀ sec ∈ P.sections m cfg past customs,
      sec.Ok P.segment cfg.compressRelocTargets (P.values m cfg) := by
  intro sec hsec
  refine ⟨?_, h.bodySize sec hsec⟩
  simp only [sections, createSections, List.mem_append] at hsec
  rcases hsec with (((((((((hsec | hsec) | hsec) | hsec) | hsec) | hsec) | hsec) | hsec) | hsec) | hsec) | hsec
  · rw [List.mem_singleton.1 hsec]
    trivial
  · rw [mem_unlessEmpty hsec]
    trivial
  · rw [mem_unlessEmpty hsec]
    trivial
  · split at hsec
    · cases hsec
    · rw [List.mem_singleton.1 hsec]
      trivial
  · split at hsec
    · cases hsec
    · rw [List.mem_singleton.1 hsec]
      trivial
  · rw [mem_unlessEmpty hsec]
    trivial
  · split at hsec
    · cases hsec
    · rw [List.mem_singleton.1 hsec]
      trivial
  · rw [mem_unlessEmpty hsec]
    trivial
  · rw [mem_unlessEmpty hsec]
    intro F hF
    obtain ⟨f, -, rfl⟩ := List.mem_map.1 hF
    exact (parts f).ok
  · rw [mem_unlessEmpty hsec]
    exact h.ready
  · obtain ⟨c, hc, rfl⟩ := List.mem_map.1 hsec
    exact (h.customsOk c hc).2

theorem elements_lt (h : P.Writable m cfg past customs) :
    ∀ i ∈ (P.elements (P.indexes m)).map (·.getD 0), i < 2 ^ 32 := by
  rw [elements, List.map_map, List.forall_mem_map]
  intro sym _
  change (P.functionIndex (P.indexes m).imports (P.indexes m).functions sym).getD 0 < 2 ^ 32
  cases hi : P.functionIndex (P.indexes m).imports (P.indexes m).functions sym with
  | none => decide
  | some i =>
    have hspace := functionIndex_denotes (P.calculateImports_ok m) hi
    exact Nat.lt_trans (List.getElem?_eq_some_iff.1 hspace).1 h.fits.functions

section
variable (h : P.Writable m cfg past customs) (obj : Object)
include h

theorem loadsAll_types : LoadsAll P.segment cfg.compressRelocTargets (P.values m cfg) obj
    [synthetic 1 writeSig (P.indexes m).types.types]
    { obj with signatures := obj.signatures ++ (P.indexes m).types.types } :=
  loadsAll_synthetic (WasmObjectFile.loads_types obj (signatures_ok h.printable))

theorem loadsAll_imports : LoadsAll P.segment cfg.compressRelocTargets (P.values m cfg) obj
    (unlessEmpty (P.importList cfg (P.indexes m) (P.memory m cfg.toLayoutConfig))
      (synthetic 2 writeImport (P.importList cfg (P.indexes m) (P.memory m cfg.toLayoutConfig))))
    { obj with imports := obj.imports ++ P.importList cfg (P.indexes m) (P.memory m cfg.toLayoutConfig) } := by
  refine loadsAll_unlessEmpty (loadsAll_synthetic (WasmObjectFile.loads_imports obj ?_)) fun hnil => by
    rw [hnil, List.append_nil]
  exact importList_ok h.printable h.fits h.maxMemory

theorem loadsAll_functionTypes (hobj : obj.signatures = (P.indexes m).types.types) :
    LoadsAll P.segment cfg.compressRelocTargets (P.values m cfg) obj
      (unlessEmpty (P.indexes m).functions.inputs (synthetic 3 (fun f =>
        writeUleb128 (((P.indexes m).types.lookupType (P.signature f)).getD 0)) (P.indexes m).functions.inputs))
      { obj with functionTypes := obj.functionTypes ++ (P.indexes m).functions.inputs.map fun f =>
        ((P.indexes m).types.lookupType (P.signature f)).getD 0 } := by
  refine loadsAll_unlessEmpty (loadsAll_synthetic (WasmObjectFile.loads_functionTypes obj (fun f hf => ?_) ?_))
    fun hnil => by rw [hnil, List.map_nil, List.append_nil]
  · rw [hobj]
    exact functionTypes_lt hf
  · rw [hobj]
    exact h.fits.types

theorem loadsAll_table : LoadsAll P.segment cfg.compressRelocTargets (P.values m cfg) obj
    (if cfg.importTable then [] else [synthetic 4 writeTableType [tableType (P.indexes m)]])
    { obj with tables := obj.tables ++ if cfg.importTable then [] else [tableType (P.indexes m)] } := by
  refine loadsAll_unless (fun hc => ?_) fun hc => by rw [hc, if_pos rfl, List.append_nil]
  rw [hc, if_neg Bool.false_ne_true]
  exact loadsAll_synthetic (WasmObjectFile.loads_table obj (tableType_ok h.fits))

theorem loadsAll_memory : LoadsAll P.segment cfg.compressRelocTargets (P.values m cfg) obj
    (if cfg.importMemory then [] else [synthetic 5 writeLimits [memoryLimits (P.memory m cfg.toLayoutConfig)]])
    { obj with memories := obj.memories ++
        if cfg.importMemory then [] else [memoryLimits (P.memory m cfg.toLayoutConfig)] } := by
  refine loadsAll_unless (fun hc => ?_) fun hc => by rw [hc, if_pos rfl, List.append_nil]
  rw [hc, if_neg Bool.false_ne_true]
  exact loadsAll_synthetic (WasmObjectFile.loads_memory obj (memoryLimits_ok h.maxMemory))

theorem loadsAll_globals : LoadsAll P.segment cfg.compressRelocTargets (P.values m cfg) obj
    (unlessEmpty (P.globalList m cfg (P.indexes m) (P.memory m cfg.toLayoutConfig))
      (synthetic 6 writeGlobal (P.globalList m cfg (P.indexes m) (P.memory m cfg.toLayoutConfig))))
    { obj with globals := obj.globals ++ P.globalList m cfg (P.indexes m) (P.memory m cfg.toLayoutConfig) } := by
  refine loadsAll_unlessEmpty (loadsAll_synthetic (WasmObjectFile.loads_globals obj ?_)) fun hnil => by
    rw [hnil, List.append_nil]
  refine List.forall_mem_append.2 ⟨fun g hg => ?_, fun g hg => ?_⟩
  · obtain ⟨x, -, rfl⟩ := List.mem_map.1 hg
    exact h.printable.globals x
  · obtain ⟨sym, -, rfl⟩ := List.mem_map.1 hg
    trivial

theorem loadsAll_exports (himports : obj.imports = P.importList cfg (P.indexes m) (P.memory m cfg.toLayoutConfig))
    (hfunctions : obj.functionTypes.length = (P.indexes m).functions.inputs.length)
    (hglobals : obj.globals = P.globalList m cfg (P.indexes m) (P.memory m cfg.toLayoutConfig)) :
    LoadsAll P.segment cfg.compressRelocTargets (P.values m cfg) obj
      (match createExportSection past cfg.exports (P.calculateExports m cfg (P.indexes m)).1 with
        | none => []
        | some exports => [synthetic 7 writeExport exports])
      { obj with exports := obj.exports ++ (P.writtenExports m cfg past).map readBack } := by
  have hfits : P.ExportsOk (P.indexes m) (P.calculateExports m cfg (P.indexes m)) :=
    calculateExports_ok h.printable h.fits h.addresses
  obtain ⟨hnumFunctions, hnumGlobals⟩ := numImported himports
  unfold writtenExports
  cases hsection : createExportSection past cfg.exports (P.calculateExports m cfg (P.indexes m)).1 with
  | none => simpa using loadsAll_nil obj
  | some exports =>
    have hsub : ∀ ex ∈ exports, ex ∈ (P.calculateExports m cfg (P.indexes m)).1 := by
      unfold createExportSection at hsection
      split at hsection
      · cases hsection
      · rw [← Option.some.inj hsection]
        exact fun ex hex => (List.mem_filter.1 hex).1
    refine loadsAll_synthetic (WasmObjectFile.loads_exports obj fun ex hex => ?_)
    obtain ⟨hname, hkind, hfunction, hglobal⟩ := hfits.fits ex (hsub ex hex)
    refine ⟨hname, hkind, fun hk => ?_, fun hk => ?_⟩
    · have hlt := hfunction hk
      rw [functionSpace_length] at hlt
      simpa [Object.isValidFunctionIndex, hnumFunctions, hfunctions] using hlt
    · have hlt := hglobal hk
      rw [globalSpace_length] at hlt
      simpa [Object.isValidGlobalIndex, hnumGlobals, hglobals, globalList, Nat.add_assoc] using hlt

theorem loadsAll_elements : LoadsAll P.segment cfg.compressRelocTargets (P.values m cfg) obj
    (unlessEmpty (P.elements (P.indexes m)) (.synthetic 9 (P.elemBody (P.indexes m))))
    { obj with elemSegments := obj.elemSegments ++ if (P.elements (P.indexes m)).isEmpty then []
        else [⟨0, .i32Const (BitVec.ofNat 32 kInitialTableOffset), (P.elements (P.indexes m)).map (·.getD 0)⟩] } := by
  cases helements : P.elements (P.indexes m) with
  | nil => simpa [unlessEmpty] using loadsAll_nil obj
  | cons e es =>
    have hbody : P.elemBody (P.indexes m) = writeUleb128 1 ++ (writeUleb128 0 ++
        writeInitExpr (.i32Const (BitVec.ofNat 32 kInitialTableOffset)) ++
        writeSize ((P.elements (P.indexes m)).map (·.getD 0)).length ++
        ((P.elements (P.indexes m)).map (·.getD 0)).flatMap writeUleb128) := by
      simp only [elemBody, List.length_map, List.flatMap_map, List.append_assoc]
    have hne : (P.elements (P.indexes m)).isEmpty = false := by
      rw [helements]
      rfl
    rw [← helements, hbody, unlessEmpty, hne]
    exact loadsAll_synthetic (WasmObjectFile.loads_elements obj (elements_lt h))

end

theorem loadsAll_functions (h : P.Writable m cfg past customs) (parts : ∀ f, FunctionParts (P.function f)) :
    ∃ fs, List.Forall₂ (fun f F => F.locals = (parts f).locals ∧
        F.body = (parts f).linkedCode cfg.compressRelocTargets (P.values m cfg)) (P.indexes m).functions.inputs fs ∧
      ∀ obj : Object, (P.indexes m).functions.inputs.length = obj.functionTypes.length →
        LoadsAll P.segment cfg.compressRelocTargets (P.values m cfg) obj
          (unlessEmpty (P.indexes m).functions.inputs (.code ((P.indexes m).functions.inputs.map P.function)))
          { obj with functions := obj.functions ++ fs } := by
  have hok := sections_ok h parts (.code ((P.indexes m).functions.inputs.map P.function))
  simp only [sections, createSections, List.mem_append] at hok
  cases hinputs : (P.indexes m).functions.inputs with
  | nil => exact ⟨[], .nil, fun obj _ => by simpa [unlessEmpty] using loadsAll_nil obj⟩
  | cons f fs =>
    rw [hinputs] at hok
    exact loadsAll_code parts (hok (.inl (.inl (.inr List.mem_cons_self))))

theorem loadsAll_segments (h : P.Writable m cfg past customs) (parts : ∀ f, FunctionParts (P.function f)) :
    ∃ segs, List.Forall₂
        (fun S => SegmentRead (payload (P.values m cfg) P.segment S.size 0 S.inputSegments) S)
        (P.memory m cfg.toLayoutConfig).segments segs ∧
      ∀ obj : Object, LoadsAll P.segment cfg.compressRelocTargets (P.values m cfg) obj
        (unlessEmpty (P.memory m cfg.toLayoutConfig).segments (.data (P.memory m cfg.toLayoutConfig).segments))
        { obj with dataSegments := obj.dataSegments ++ segs } := by
  have hok := sections_ok h parts (.data (P.memory m cfg.toLayoutConfig).segments)
  simp only [sections, createSections, List.mem_append] at hok
  cases hsegments : (P.memory m cfg.toLayoutConfig).segments with
  | nil => exact ⟨[], .nil, fun obj => by simpa [unlessEmpty] using loadsAll_nil obj⟩
  | cons S Ss =>
    rw [hsegments] at hok
    exact loadsAll_data (hok (.inl (.inr List.mem_cons_self)))

/-- The reader's run over the sections. -/
theorem loadsAll_sections (h : P.Writable m cfg past customs) (parts : ∀ f, FunctionParts (P.function f)) :
    ∃ obj, P.Linked m cfg past parts obj ∧
      LoadsAll P.segment cfg.compressRelocTargets (P.values m cfg) .empty (P.sections m cfg past customs) obj := by
  obtain ⟨fs, hfs, hcode⟩ := loadsAll_functions h parts
  obtain ⟨segs, hsegs, hdata⟩ := loadsAll_segments h parts
  refine ⟨_, ?_, (((((((((((loadsAll_types h .empty).append (loadsAll_imports h _)).append
    (loadsAll_functionTypes h _ ?_)).append (loadsAll_table h _)).append (loadsAll_memory h _)).append
    (loadsAll_globals h _)).append (loadsAll_exports h _ ?_ ?_ ?_)).append (loadsAll_elements h _)).append
    (hcode _ ?_)).append (hdata _)).append (loadsAll_customs fun c hc => (h.customsOk c hc).1))⟩
  · exact ⟨rfl, rfl, rfl, rfl, rfl, rfl, rfl, rfl, rfl, hfs, hsegs, rfl⟩
  · rfl
  · rfl
  · exact List.length_map ..
  · rfl
  · exact (List.length_map ..).symm

/-- The defaults of `-O1`, and the export of `apply`. -/
def sampleOutput : OutputConfig :=
  { sampleConfig with
    importMemory := false, importTable := false, exportTable := false, exportAll := false,
    compressRelocTargets := true, exports := [⟨"apply".toList, WASM_EXTERNAL_FUNCTION, 0⟩] }

def sampleParts : ∀ f, FunctionParts (sample.function f)
  | true => .noLocals [0, 11] rfl (by decide) (.nil (by decide)) (by decide)
  | false => .noLocals (sampleFunction.data.drop 2) rfl (by decide) (.cons (by decide) (.cons (by decide)
      (.cons (by decide) (.cons (by decide) (.cons (by decide) (.nil (by decide))))))) (by decide)

theorem sample_printable : sample.Printable where
  names sym := by cases sym <;> decide
  types := by
    simp only [sample, List.forall_mem_cons, List.not_mem_nil, false_imp_iff, implies_true, and_true]
    exact ⟨⟨by decide, by decide⟩, by decide, by decide⟩
  signature _ := ⟨show 0 < 2 ^ 32 by decide, nofun⟩
  functionType sym sig h := by
    cases sym <;> simp only [sample, sampleSymbol, Option.some.injEq, reduceCtorEq] at h <;>
      exact h ▸ ⟨by decide, by decide⟩
  globals g := g.elim
  defined sym _ := by cases sym <;> first | trivial | simp [sample, sampleSymbol, functions]

theorem sample_writable : sample.Writable sampleMarks sampleOutput (fun _ _ _ => ' ') [] where
  printable := sample_printable
  fits := sample_fits
  addresses := by decide
  maxMemory := by decide
  relocatable := rfl
  memory := by decide
  alignment _ _ := ⟨2, rfl⟩
  chunks _ _ := ⟨.nil (show 6 ≤ 10 by decide), show 6 < 2 ^ 31 by decide⟩
  customsOk := by simp
  fileSize := by decide +kernel

end

end LinkState

end Lld
