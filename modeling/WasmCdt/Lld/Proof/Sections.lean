import WasmCdt.Lld.Proof.OutputSections
import WasmCdt.Lld.Proof.Reading
import WasmCdt.Lld.Proof.Relocations

/-!
# Sections as they are read

* `FunctionParts.bytes_eq`: a function is written with its locals, and its code with the values.
* `takes_section`, `takes_customSection`: a section is found behind its header.
* `Loads`: what the reader makes of some sections, whatever it has read before; `loads_types`,
  `loads_imports` and so on for the sections of each type.
-/

namespace Lld

open Cursor Leb128 Reading

/-! ## Functions -/

/-- A function, taken apart as the object reader does: its size, the declarations of its locals, and
its code, where all the sites are. -/
structure FunctionParts {T : Type} (F : InputFunction T) where
  size : List UInt8
  decls : List UInt8
  code : List UInt8
  locals : List (Nat × UInt8)
  data_eq : F.data = size ++ (decls ++ code)
  group : IsGroup size
  size_length : size.length ≤ 5
  value_eq : value size = decls.length + code.length
  locals_eq : ∀ p, WasmObjectFile.Takes WasmObjectFile.readLocals p decls locals
  sites : Placed (F.inputSectionOffset + size.length + decls.length) F.relocations F.codeEnd
  bound : F.inputSectionOffset < 2 ^ 31

namespace FunctionParts

variable {T : Type} {F : InputFunction T} (parts : FunctionParts F) (compressRelocTargets : Bool)
  (calcNewValue : Relocation T → BitVec 32)

/-- Where the code starts in its section. -/
def start : Nat := F.inputSectionOffset + parts.size.length + parts.decls.length

/-- The code with the values. -/
def linkedCode : List UInt8 :=
  F.rendered (if F.synthetic || !compressRelocTargets then InputChunk.padded calcNewValue
    else InputChunk.compressed calcNewValue) parts.start F.relocations

/-- The size in front. -/
def linkedSize : List UInt8 :=
  if F.synthetic || !compressRelocTargets then parts.size
  else encodeUPad 0 0 (F.compressedFuncSize calcNewValue)

theorem codeEnd_eq : F.codeEnd = parts.start + parts.code.length := by
  rw [InputChunk.codeEnd, parts.data_eq, start, List.length_append, List.length_append]
  omega

theorem codeStart_eq : F.codeStart = F.inputSectionOffset + parts.size.length := by
  rw [InputChunk.codeStart, parts.data_eq, lebLength_group _ parts.group]

theorem slice_size : F.slice F.inputSectionOffset F.codeStart = parts.size := by
  rw [parts.codeStart_eq]
  simp [InputChunk.slice, parts.data_eq]

theorem slice_decls : F.slice F.codeStart parts.start = parts.decls := by
  have hlen : F.inputSectionOffset + parts.size.length + parts.decls.length - F.inputSectionOffset
      = parts.size.length + parts.decls.length := by omega
  rw [parts.codeStart_eq, InputChunk.slice, start, hlen, parts.data_eq, Nat.add_sub_cancel_left,
    ← List.append_assoc, List.take_left' (by simp), List.drop_left]

theorem slice_code : F.slice parts.start F.codeEnd = parts.code := by
  have hlen : F.inputSectionOffset + parts.size.length + parts.decls.length - F.inputSectionOffset
      = (parts.size ++ parts.decls).length := by
    rw [List.length_append]
    omega
  rw [InputChunk.slice, start, hlen, InputChunk.codeEnd, Nat.add_sub_cancel_left, List.take_length, parts.data_eq,
    ← List.append_assoc, List.drop_left]

theorem start_le : F.codeStart ≤ parts.start := by
  rw [parts.codeStart_eq, start]
  omega

theorem offset_le (F : InputFunction T) : F.inputSectionOffset ≤ F.codeStart := Nat.le_add_right _ _

theorem ok (parts : FunctionParts F) : F.Ok where
  wellPlaced := ⟨parts.sites.from_le (by omega), parts.bound⟩
  inCode _ := by
    have hstart := parts.start_le
    exact parts.sites.from_le hstart

/-- What is in front of the code, and the code. -/
theorem rendered_eq (enc : Relocation T → List UInt8) :
    F.rendered enc F.codeStart F.relocations = parts.decls ++ F.rendered enc parts.start F.relocations := by
  rw [InputChunk.rendered_split (offset_le F) parts.start_le parts.sites, parts.slice_decls]

/-- **What is written for a function**: its locals as they were, and its code with the values. -/
theorem bytes_eq : F.bytes compressRelocTargets calcNewValue =
    parts.linkedSize compressRelocTargets calcNewValue ++
      (parts.decls ++ parts.linkedCode compressRelocTargets calcNewValue) := by
  have hplaced := parts.ok.wellPlaced.placed
  have hsites : Placed F.codeStart F.relocations F.codeEnd := parts.sites.from_le parts.start_le
  unfold InputFunction.bytes linkedSize linkedCode
  split
  · rw [InputChunk.patched_eq_rendered calcNewValue hplaced,
      InputChunk.rendered_split (Nat.le_refl _) (offset_le F) hsites, parts.slice_size,
      parts.rendered_eq]
  · rw [InputChunk.compressLoop_eq]
    exact congrArg _ (parts.rendered_eq _)

theorem linkedSize_group : IsGroup (parts.linkedSize compressRelocTargets calcNewValue) ∧
    value (parts.linkedSize compressRelocTargets calcNewValue)
      = parts.decls.length + (parts.linkedCode compressRelocTargets calcNewValue).length := by
  have hstart : F.inputSectionOffset ≤ parts.start := by
    unfold start
    omega
  unfold linkedSize linkedCode
  split
  · refine ⟨parts.group, ?_⟩
    rw [InputChunk.rendered_padded_length calcNewValue hstart parts.sites, parts.codeEnd_eq,
      Nat.add_sub_cancel_left, parts.value_eq]
  · obtain ⟨hg, hval⟩ := encodeUPad_group 0 0 (F.compressedFuncSize calcNewValue)
    have hsites : Placed F.codeStart F.relocations F.codeEnd := parts.sites.from_le parts.start_le
    refine ⟨hg, ?_⟩
    rw [hval, InputChunk.compressedFuncSize,
      InputChunk.sizeLoop_eq calcNewValue (offset_le F) hsites, InputChunk.compressLoop_eq]
    exact (congrArg List.length (parts.rendered_eq _)).trans (List.length_append ..)

theorem bytes_pos (parts : FunctionParts F) : 0 < (F.bytes compressRelocTargets calcNewValue).length := by
  have hpos := (parts.linkedSize_group compressRelocTargets calcNewValue).1.length_pos
  rw [parts.bytes_eq, List.length_append]
  omega

/-- **A function reads back** with its locals, and its code with the values. -/
theorem takes {n : Nat} (hlen : (F.bytes compressRelocTargets calcNewValue).length = n) (hn : n < 2 ^ 32) (p : Nat) :
    ∃ function : WasmObjectFile.WasmFunction, (function.locals = parts.locals ∧
        function.body = parts.linkedCode compressRelocTargets calcNewValue) ∧
      WasmObjectFile.Takes WasmObjectFile.readFunction p (F.bytes compressRelocTargets calcNewValue) function := by
  obtain ⟨hg, hval⟩ := parts.linkedSize_group compressRelocTargets calcNewValue
  rw [parts.bytes_eq, List.length_append, List.length_append] at hlen
  have hsize : (parts.linkedSize compressRelocTargets calcNewValue).length ≤ 10 := by
    cases hpad : F.synthetic || !compressRelocTargets with
    | true =>
      simp only [linkedSize, hpad, ↓reduceIte]
      exact Nat.le_trans parts.size_length (by decide)
    | false =>
      simp only [linkedSize, hpad, Bool.false_eq_true, ↓reduceIte, (encodeUPad_group 0 0 _).2] at hval ⊢
      rw [encodeUPad_zero]
      exact Nat.le_trans (encodeU_length (n := 5) (by omega) (by decide)) (by decide)
  rw [parts.bytes_eq]
  exact ⟨_, ⟨rfl, rfl⟩, WasmObjectFile.takes_function hg hsize hval (by omega) parts.locals_eq p⟩

/-- **A function is never longer** than it was, compressed or not. -/
theorem getSize_le (parts : FunctionParts F) : F.getSize compressRelocTargets calcNewValue ≤ F.data.length := by
  unfold InputFunction.getSize
  split
  · have hle := InputChunk.compressedFuncSize_le calcNewValue
      (show F.PlacedInCode from parts.sites.from_le parts.start_le)
    have hcode : F.codeEnd - F.codeStart = value parts.size := by
      rw [parts.codeEnd_eq, start, parts.codeStart_eq, parts.value_eq]
      omega
    have hlt := value_lt parts.size
    have hsize := encodeU_length (n := parts.size.length) (show F.compressedFuncSize calcNewValue < _ by omega)
      parts.group.length_pos
    have hdata := congrArg List.length parts.data_eq
    rw [List.length_append, List.length_append, ← parts.value_eq] at hdata
    rw [InputChunk.compressedSize, encodeUPad_zero]
    omega
  · exact Nat.le_refl _

/-- A function without locals. -/
def noLocals {F : InputFunction T} (code : List UInt8)
    (hdata : F.data = writeUleb128 (code.length + 1) ++ (writeUleb128 0 ++ code)) (hlen : code.length + 1 < 2 ^ 32)
    (hsites : Placed (F.inputSectionOffset + (writeUleb128 (code.length + 1)).length + 1) F.relocations F.codeEnd)
    (hbound : F.inputSectionOffset < 2 ^ 31) : FunctionParts F where
  size := writeUleb128 (code.length + 1)
  decls := writeUleb128 0
  code := code
  locals := []
  data_eq := hdata
  group := (encodeU_group _).1
  size_length := encodeU_length (n := 5) (by omega) (by decide)
  value_eq := (encodeU_group _).2.trans (Nat.add_comm _ _)
  locals_eq p := (WasmObjectFile.takes_writeUleb128 (n := 0) (by decide) p).map rfl
  sites := hsites
  bound := hbound

end FunctionParts

/-! ## The sections of a file -/

namespace WasmObjectFile

open Metadata (WasmSection Error byteAt ctxEnd)

theorem createHeader_length (type : UInt8) (n p : Nat) :
    p + (OutputSection.createHeader type n).length = p + [type].length + (writeSize n).length := by
  rw [OutputSection.createHeader, List.length_cons, List.length_singleton]
  omega

/-- What is left of the section behind its name. -/
theorem content_size {size nameStart start n : Nat} (hsize : size < 2 ^ 32) (h : size = start - nameStart + n) :
    (BitVec.ofNat 32 size - BitVec.ofNat 32 (start - nameStart)).toNat = n := by
  rw [BitVec.toNat_sub, BitVec.toNat_ofNat, BitVec.toNat_ofNat]
  omega

/-- A section that is not custom keeps the name of the one before. -/
theorem takes_section {type : UInt8} {body : List UInt8} (htype : type ≠ 0) (hpos : body ≠ [])
    (hlen : body.length < 2 ^ 32) (lastName : List UInt8) (p : Nat) :
    Takes (readSection lastName) p (OutputSection.createHeader type body.length ++ body)
      ⟨type, lastName, body, p + (OutputSection.createHeader type body.length).length⟩ := by
  have hsize : body.length ≠ 0 := fun h => hpos (List.length_eq_zero_iff.1 h)
  have hname : Takes (readSectionName lastName type) (p + [type].length + (writeSize body.length).length) []
      lastName := by
    rw [readSectionName, if_neg htype]
    exact accepts_pure _ _
  rw [createHeader_length]
  refine (takes_uint8 type p).bind ?_
  refine (takes_writeSize hlen _).bind ?_
  refine Accepts.peek (accepts_failIf hsize _) ?_
  refine Accepts.peek (takes_getPtr _) (takes_getEnd fun e he => ?_)
  refine Accepts.peek (accepts_failIf (by omega) _) ?_
  refine Accepts.peek hname (Accepts.peek (takes_getPtr _) ?_)
  rw [content_size (n := body.length) hlen (by omega)]
  exact (takes_bytes body _).map rfl

theorem takes_customSection {name payload : List UInt8}
    (hlen : (OutputSection.nameData name ++ payload).length < 2 ^ 32) (lastName : List UInt8) (p : Nat) :
    Takes (readSection lastName) p
      (OutputSection.createHeader 0 (OutputSection.nameData name ++ payload).length ++
        (OutputSection.nameData name ++ payload))
      ⟨0, name, payload, p + (OutputSection.createHeader 0 (OutputSection.nameData name ++ payload).length).length
        + (OutputSection.nameData name).length⟩ := by
  have htotal : (OutputSection.nameData name ++ payload).length
      = (writeStr name).length + payload.length := List.length_append
  have hname : name.length < 2 ^ 32 := by
    have hle : name.length ≤ (writeStr name).length := by rw [writeStr, List.length_append]; omega
    omega
  have hsize : (OutputSection.nameData name ++ payload).length ≠ 0 := by
    have hpos := (encodeU_group name.length).1.length_pos
    rw [OutputSection.nameData, List.length_append, List.length_append]
    omega
  rw [createHeader_length]
  refine (takes_uint8 0 p).bind ?_
  refine (takes_writeSize hlen _).bind ?_
  refine Accepts.peek (accepts_failIf hsize _) ?_
  refine Accepts.peek (takes_getPtr _) (takes_getEnd fun e he => ?_)
  refine Accepts.peek (accepts_failIf (by omega) _) ?_
  refine (takes_string hname _).bind (Accepts.peek (takes_getPtr _) ?_)
  rw [content_size (n := payload.length) hlen (by omega)]
  exact (takes_bytes payload _).map rfl

/-! ## Loading -/

/-- The object with other sections. -/
def Object.withSections (obj : Object) (ss : List Section) : Object := { obj with sections := ss }

/-- What the reader makes of some bytes of sections, whatever it has read before. -/
def Loads (obj : Object) (bytes : List UInt8) (obj' : Object) : Prop :=
  ∀ file lastName p t ss, Reads file.content p (bytes ++ t) →
    ∃ lastName' ss', readSections file lastName (obj.withSections ss) p
      = readSections file lastName' (obj'.withSections ss') (p + bytes.length)

theorem loads_nil (obj : Object) : Loads obj [] obj := fun _ lastName _ _ ss _ => ⟨lastName, ss, rfl⟩

theorem Loads.append {obj obj' obj'' : Object} {xs ys : List UInt8} (h : Loads obj xs obj')
    (h' : Loads obj' ys obj'') : Loads obj (xs ++ ys) obj'' := by
  intro file lastName p t ss hreads
  rw [List.append_assoc] at hreads
  obtain ⟨lastName', ss', hxs⟩ := h file lastName p (ys ++ t) ss hreads
  obtain ⟨lastName'', ss'', hys⟩ := h' file lastName' (p + xs.length) t ss' hreads.advance
  exact ⟨lastName'', ss'', by rw [hxs, hys, List.length_append, Nat.add_assoc]⟩

/-- A section that is read and parsed. -/
theorem loads_section {obj obj' : Object} {bytes content : List UInt8} {type : UInt8}
    (hread : ∀ lastName p, ∃ name start, Takes (readSection lastName) p bytes ⟨type, name, content, start⟩ ∧
      ∀ ss behind, ∃ q, parseSection (obj.withSections ss) type name ⟨[], content, behind⟩ 0
        = .ok ((obj'.withSections ss), q)) :
    Loads obj bytes obj' := by
  intro file lastName p t ss hreads
  obtain ⟨name, start, htakes, hparse⟩ := hread lastName p
  obtain ⟨q, hq⟩ := hparse ss fun i => byteAt file (start + i)
  have hsec := htakes file t hreads
  have hlt : p < ctxEnd file := by
    have hmove := readSection_lt hsec
    have hlen := hreads.length
    rw [List.length_append] at hlen
    unfold ctxEnd
    omega
  refine ⟨name, ss ++ [⟨type, name, content, start⟩], ?_⟩
  rw [readSections, if_pos hlt]
  split
  · rename_i e he
    rw [hsec] at he
    cases he
  · rename_i sec k hk
    rw [hsec] at hk
    obtain ⟨rfl, rfl⟩ := Prod.mk.inj (Except.ok.inj hk)
    simp only [hq]
    rfl

/-- The bytes of a section. -/
def sectionBytes (type : UInt8) (body : List UInt8) : List UInt8 :=
  OutputSection.createHeader type body.length ++ body

/-- A section whose end has to be reached. -/
theorem loads_body {obj obj' : Object} {type : UInt8} {what : String} {body : List UInt8}
    {r : List Section → ReadM Object} (htype : type ≠ 0) (hpos : body ≠ []) (hlen : body.length < 2 ^ 32)
    (hparse : ∀ name ss, parseSection (obj.withSections ss) type name = ending what (r ss))
    (htakes : ∀ ss, Takes (r ss) 0 body (obj'.withSections ss)) : Loads obj (sectionBytes type body) obj' := by
  refine loads_section fun lastName p => ⟨lastName, _, takes_section htype hpos hlen lastName p, fun ss behind => ?_⟩
  exact ⟨_, by rw [hparse]; exact (htakes ss).whole⟩

theorem writeSize_append_ne_nil (n : Nat) (xs : List UInt8) : writeSize n ++ xs ≠ [] := by
  have hpos := (encodeU_group (uint32 n)).1.length_pos
  intro hnil
  have hsize : encodeU (uint32 n) = [] := (List.append_eq_nil_iff.1 hnil).1
  rw [hsize] at hpos
  exact Nat.lt_irrefl 0 hpos

theorem length_le_flatMap {ι : Type} {f : ι → List UInt8} {x : ι} {xs : List ι} (hx : x ∈ xs) :
    (f x).length ≤ (xs.flatMap f).length := by
  rw [List.length_flatMap]
  exact List.le_sum_of_mem (List.mem_map_of_mem hx)

/-- Parts that take bytes are not more than the bytes. -/
theorem count_le {ι : Type} (write : ι → List UInt8) {parts : List ι} (hpos : ∀ x ∈ parts, 0 < (write x).length) :
    parts.length ≤ (parts.flatMap write).length := by
  induction parts with
  | nil => exact Nat.zero_le _
  | cons x parts ih =>
    have hx := hpos x List.mem_cons_self
    have hrest := ih fun y hy => hpos y (List.mem_cons_of_mem _ hy)
    rw [List.flatMap_cons, List.length_append, List.length_cons]
    omega

theorem writeUleb128_pos (n : Nat) : 0 < (writeUleb128 n).length := (encodeU_group n).1.length_pos

theorem writeStr_pos (s : List UInt8) : 0 < (writeStr s).length := by
  have hpos := (encodeU_group s.length).1.length_pos
  rw [writeStr, List.length_append]
  omega

/-- A section of parts behind their number. -/
theorem loads_parts {ι α : Type} {obj obj' : Object} {type : UInt8} {what : String} {write : ι → List UInt8}
    (r : ReadM α) (parts : List ι) (val : ι → α) (push : Object → List α → Object)
    (htype : type ≠ 0) (hlen : (writeSize parts.length ++ parts.flatMap write).length < 2 ^ 32)
    (hpos : ∀ x, 0 < (write x).length) (hparts : ∀ x ∈ parts, ∀ p, Takes r p (write x) (val x))
    (hparse : ∀ name ss, parseSection (obj.withSections ss) type name = ending what do
      let as ← times r (← readVaruint32)
      pure (push (obj.withSections ss) as))
    (hpush : ∀ ss, push (obj.withSections ss) (parts.map val) = (obj'.withSections ss)) :
    Loads obj (sectionBytes type (writeSize parts.length ++ parts.flatMap write)) obj' := by
  have hcount : parts.length < 2 ^ 32 := by
    have hle := count_le write fun x (_ : x ∈ parts) => hpos x
    rw [List.length_append] at hlen
    omega
  refine loads_body htype (writeSize_append_ne_nil _ _) hlen hparse fun ss => ?_
  rw [← hpush]
  exact (takes_writeSize hcount 0).bind ((takes_times val hparts _).map rfl)

section
variable (obj : Object)

theorem loads_types {sigs : List Signature} (hsigs : ∀ sig ∈ sigs, SigOk sig)
    (hlen : (writeSize sigs.length ++ sigs.flatMap writeSig).length < 2 ^ 32) :
    Loads obj (sectionBytes 1 (writeSize sigs.length ++ sigs.flatMap writeSig))
      { obj with signatures := obj.signatures ++ sigs } :=
  loads_parts readSignature sigs id (fun obj as => { obj with signatures := obj.signatures ++ as })
    (by decide) hlen (fun sig => by simp [writeSig, writeU8]) (fun sig hsig p => takes_signature (hsigs sig hsig) p) (fun _ _ => rfl)
    (fun _ => by rw [List.map_id]; rfl)

theorem loads_imports {imports : List WasmImport} (himports : ∀ im ∈ imports, ImportOk im)
    (hlen : (writeSize imports.length ++ imports.flatMap writeImport).length < 2 ^ 32) :
    Loads obj (sectionBytes 2 (writeSize imports.length ++ imports.flatMap writeImport))
      { obj with imports := obj.imports ++ imports } :=
  loads_parts readImport imports id (fun obj as => { obj with imports := obj.imports ++ as })
    (by decide) hlen (fun im => by simp [writeImport, writeStr_pos]) (fun im him p => takes_import (himports im him) p) (fun _ _ => rfl)
    (fun _ => by rw [List.map_id]; rfl)

theorem loads_functionTypes {ι : Type} {parts : List ι} {type : ι → Nat}
    (htypes : ∀ x ∈ parts, type x < obj.signatures.length) (hsigs : obj.signatures.length < 2 ^ 32)
    (hlen : (writeSize parts.length ++ parts.flatMap fun x => writeUleb128 (type x)).length < 2 ^ 32) :
    Loads obj (sectionBytes 3 (writeSize parts.length ++ parts.flatMap fun x => writeUleb128 (type x)))
      { obj with functionTypes := obj.functionTypes ++ parts.map type } := by
  refine loads_parts (readFunctionType obj) parts type
    (fun obj as => { obj with functionTypes := obj.functionTypes ++ as }) (by decide) hlen
    (fun x => writeUleb128_pos _)
    (fun x hx p => ?_) (fun _ _ => rfl) (fun _ => rfl)
  refine (takes_writeUleb128 (Nat.lt_trans (htypes x hx) hsigs) p).map ?_
  rw [failIf, if_neg (Nat.not_le.2 (htypes x hx))]
  rfl

theorem loads_table {limits : WasmLimits} (h : LimitsOk limits)
    (hlen : (writeSize 1 ++ [(⟨anyfunc, limits⟩ : WasmTable)].flatMap writeTableType).length < 2 ^ 32) :
    Loads obj (sectionBytes 4 (writeSize 1 ++ [(⟨anyfunc, limits⟩ : WasmTable)].flatMap writeTableType))
      { obj with tables := obj.tables ++ [⟨anyfunc, limits⟩] } := by
  refine loads_parts readTableEntry [(⟨anyfunc, limits⟩ : WasmTable)] id
    (fun obj as => { obj with tables := obj.tables ++ as }) (by decide) hlen (fun _ => by simp [writeTableType, writeU8])
    (fun x hx p => ?_) (fun _ _ => rfl) (fun _ => rfl)
  rw [List.mem_singleton.1 hx]
  refine (takes_table h p).map ?_
  rfl

theorem loads_memory {limits : WasmLimits} (h : LimitsOk limits)
    (hlen : (writeSize 1 ++ [limits].flatMap writeLimits).length < 2 ^ 32) :
    Loads obj (sectionBytes 5 (writeSize 1 ++ [limits].flatMap writeLimits))
      { obj with memories := obj.memories ++ [limits] } := by
  refine loads_parts readLimits [limits] id
    (fun obj as => { obj with memories := obj.memories ++ as }) (by decide) hlen (fun _ => by simp [writeLimits, writeU8])
    (fun x hx p => ?_) (fun _ _ => rfl) (fun _ => rfl)
  rw [List.mem_singleton.1 hx]
  exact takes_limits h p

theorem loads_globals {globals : List WasmGlobal} (hglobals : ∀ g ∈ globals, InitOk g.initExpr)
    (hlen : (writeSize globals.length ++ globals.flatMap writeGlobal).length < 2 ^ 32) :
    Loads obj (sectionBytes 6 (writeSize globals.length ++ globals.flatMap writeGlobal))
      { obj with globals := obj.globals ++ globals } :=
  loads_parts readGlobal globals id (fun obj as => { obj with globals := obj.globals ++ as })
    (by decide) hlen (fun g => by simp [writeGlobal, writeGlobalType, writeU8]) (fun g hg p => takes_global (hglobals g hg) p) (fun _ _ => rfl)
    (fun _ => by rw [List.map_id]; rfl)

theorem loads_exports {exports : List Lld.WasmExport} (hexports : ∀ ex ∈ exports, ExportOk obj ex)
    (hlen : (writeSize exports.length ++ exports.flatMap writeExport).length < 2 ^ 32) :
    Loads obj (sectionBytes 7 (writeSize exports.length ++ exports.flatMap writeExport))
      { obj with exports := obj.exports ++ exports.map readBack } :=
  loads_parts (readExport obj) exports readBack
    (fun obj as => { obj with exports := obj.exports ++ as })
    (by decide) hlen (fun ex => by simp [writeExport, writeStr_pos]) (fun ex hex p => takes_export (hexports ex hex) p) (fun _ _ => rfl) (fun _ => rfl)

theorem loads_elements {indices : List Nat} {offset : BitVec 32}
    (hindices : ∀ i ∈ indices, i < 2 ^ 32)
    (hlen : (writeUleb128 1 ++ (writeUleb128 0 ++ writeInitExpr (.i32Const offset) ++
      writeSize indices.length ++ indices.flatMap writeUleb128)).length < 2 ^ 32) :
    Loads obj (sectionBytes 9 (writeUleb128 1 ++ (writeUleb128 0 ++ writeInitExpr (.i32Const offset) ++
        writeSize indices.length ++ indices.flatMap writeUleb128)))
      { obj with elemSegments := obj.elemSegments ++ [⟨0, .i32Const offset, indices⟩] } := by
  have hcount : indices.length < 2 ^ 32 := by
    have hle := count_le writeUleb128 fun i (_ : i ∈ indices) => writeUleb128_pos i
    simp only [List.length_append] at hlen
    omega
  have hbody : writeUleb128 1 ++ (writeUleb128 0 ++ writeInitExpr (.i32Const offset) ++
      writeSize indices.length ++ indices.flatMap writeUleb128) = writeSize [()].length ++
        [()].flatMap fun _ => writeUleb128 0 ++ writeInitExpr (.i32Const offset) ++
          writeSize indices.length ++ indices.flatMap writeUleb128 := by
    rw [List.flatMap_singleton]
    rfl
  rw [hbody] at hlen ⊢
  exact loads_parts readElemSegment [()] (fun _ => ⟨0, .i32Const offset, indices⟩)
    (fun obj as => { obj with elemSegments := obj.elemSegments ++ as }) (by decide) hlen (fun _ => by simp [writeUleb128_pos])
    (fun _ _ p => takes_elemSegment hcount hindices offset p) (fun _ _ => rfl) (fun _ => rfl)

end

theorem loads_code {T ι : Type} {compressRelocTargets : Bool} {calcNewValue : Relocation T → BitVec 32}
    {functions : List ι} {function : ι → InputFunction T} (parts : ∀ f, FunctionParts (function f))
    (hlen : (writeSize functions.length ++
      functions.flatMap fun f => (function f).bytes compressRelocTargets calcNewValue).length < 2 ^ 32) :
    ∃ fs, List.Forall₂ (fun f F => F.locals = (parts f).locals ∧
        F.body = (parts f).linkedCode compressRelocTargets calcNewValue) functions fs ∧
      ∀ obj : Object, functions.length = obj.functionTypes.length →
        Loads obj (sectionBytes 10 (writeSize functions.length ++
            functions.flatMap fun f => (function f).bytes compressRelocTargets calcNewValue))
          { obj with functions := obj.functions ++ fs } := by
  have hsum := hlen
  rw [List.length_append] at hsum
  obtain ⟨fs, hfs, htimes⟩ := takes_times_rel (r := readFunction)
    (fun f => (function f).bytes compressRelocTargets calcNewValue)
    (fun f F => F.locals = (parts f).locals ∧
        F.body = (parts f).linkedCode compressRelocTargets calcNewValue)
    (fun f (hf : f ∈ functions) p => by
      have hle := length_le_flatMap (f := fun f => (function f).bytes compressRelocTargets calcNewValue) hf
      exact (parts f).takes compressRelocTargets calcNewValue rfl (by omega) p)
    (0 + (writeSize functions.length).length)
  refine ⟨fs, hfs, fun obj hcount => ?_⟩
  refine loads_body (r := fun ss => do
    let count ← readVaruint32
    failIf (count ≠ (obj.withSections ss).functionTypes.length) (.parseFailed "Invalid function count")
    let functions ← times readFunction count
    pure { obj.withSections ss with functions := (obj.withSections ss).functions ++ functions })
    (by decide) (writeSize_append_ne_nil _ _) hlen (fun _ _ => rfl) fun ss => ?_
  have hlt : functions.length < 2 ^ 32 := by
    have hle := count_le (fun f => (function f).bytes compressRelocTargets calcNewValue)
      fun f (_ : f ∈ functions) => FunctionParts.bytes_pos compressRelocTargets calcNewValue (parts f)
    omega
  refine (takes_writeSize hlt 0).bind (Accepts.peek (accepts_failIf (not_not.2 hcount) _) (htimes.map ?_))
  rfl

/-- A segment as it is read. -/
structure SegmentRead {Seg : Type} (content : List UInt8) (S : OutputSegment Seg) (seg : WasmSegment) : Prop where
  memoryIndex : seg.memoryIndex = 0
  offset : seg.offset = .i32Const (BitVec.ofNat 32 S.startVA)
  content : seg.content = content

theorem loads_data {Seg : Type} {segments : List (OutputSegment Seg)} (content : OutputSegment Seg → List UInt8)
    (hcontent : ∀ S ∈ segments, (content S).length = S.size ∧ S.size < 2 ^ 32)
    (hlen : (writeSize segments.length ++ segments.flatMap fun S => S.header ++ content S).length < 2 ^ 32) :
    ∃ segs, List.Forall₂ (fun S => SegmentRead (content S) S) segments segs ∧ ∀ obj : Object,
      Loads obj (sectionBytes 11 (writeSize segments.length ++ segments.flatMap fun S => S.header ++ content S))
        { obj with dataSegments := obj.dataSegments ++ segs } := by
  obtain ⟨segs, hsegs, htimes⟩ := takes_times_rel (r := readSegment) (fun S => S.header ++ content S)
    (fun S => SegmentRead (content S) S) (fun S (hS : S ∈ segments) p => ⟨_, ⟨rfl, rfl, rfl⟩, takes_segment (hcontent S hS).1 (hcontent S hS).2 p⟩)
    (0 + (writeSize segments.length).length)
  refine ⟨segs, hsegs, fun obj => ?_⟩
  refine loads_body (r := fun ss => do
    let segments ← times readSegment (← readVaruint32)
    pure { obj.withSections ss with dataSegments := (obj.withSections ss).dataSegments ++ segments })
    (by decide) (writeSize_append_ne_nil _ _) hlen (fun _ _ => rfl) fun ss => ?_
  have hcount : segments.length < 2 ^ 32 := by
    have hle := count_le (fun S => S.header ++ content S) fun S (_ : S ∈ segments) => by
      simp [OutputSegment.header, writeUleb128_pos]
    rw [List.length_append] at hlen
    omega
  refine (takes_writeSize hcount 0).bind (htimes.map ?_)
  rfl

/-- Custom sections that are none of the metadata. -/
theorem loads_custom (obj : Object) {name payload : List UInt8} (hname : ∀ known ∈ [Metadata.importsSection, Metadata.abiSection,
      Metadata.actionsSection, Metadata.notifySection], name.map (fun b => Char.ofNat b.toNat) ≠ known)
    (hlen : (OutputSection.nameData name ++ payload).length < 2 ^ 32) :
    Loads obj (sectionBytes 0 (OutputSection.nameData name ++ payload)) obj := by
  refine loads_section fun lastName p => ⟨name, _, takes_customSection hlen lastName p, fun ss behind => ⟨0, ?_⟩⟩
  simp only [List.forall_mem_cons, List.not_mem_nil, false_imp_iff, implies_true, and_true] at hname
  obtain ⟨himports, habi, hactions, hnotify⟩ := hname
  change parseCustomSection (obj.withSections ss) name ⟨[], payload, behind⟩ 0 = _
  rw [parseCustomSection, Metadata.parseCustomSection, if_neg himports, if_neg habi, if_neg hactions, if_neg hnotify]

end WasmObjectFile

end Lld
