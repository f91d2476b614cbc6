import WasmCdt.Lld.OutputSections
import WasmCdt.Lld.Proof.InputChunks
import WasmCdt.Lld.Proof.MemoryLayout

/-!
# The file that is written

* `placeChunks_adjacent`: chunks at the offsets that the loops give them fill the region.
* `writeTo_code`, `writeTo_data`, `writeTo_custom`: the sections.
* `writeFile_eq`: **the file**, whatever the order in which the threads' stores arrive.
-/

namespace Lld

open FileBuffer ForkJoin Leb128 Placement

/-! ## Offsets -/

section
variable {α : Type} {size : α → Nat}

theorem placeChunks_snd (start : Nat) (cs : List α) :
    (placeChunks size start cs).2 = start + (cs.map size).sum := by
  induction cs generalizing start with
  | nil => rfl
  | cons c cs ih => rw [placeChunks, ih, List.map_cons, List.sum_cons, Nat.add_assoc]

/-- **Chunks placed one behind the other**, each of which fills its place. -/
theorem placeChunks_adjacent (task : α → Nat → Task Nat UInt8) {bytes : α → List UInt8}
    (buf start : Nat) {limit : Nat} {cs : List α} (hsize : ∀ c ∈ cs, (bytes c).length = size c)
    (hfills : ∀ c ∈ cs, ∀ o, o + size c ≤ limit → Fills (task c o) (buf + o) (bytes c))
    (hlimit : (placeChunks size start cs).2 ≤ limit) :
    Adjacent (buf + start) ((placeChunks size start cs).1.map fun p => task p.1 p.2)
      (cs.flatMap bytes) := by
  induction cs generalizing start with
  | nil => exact .nil _
  | cons c cs ih =>
    have hrest := hlimit
    rw [placeChunks_snd, List.map_cons, List.sum_cons] at hlimit
    refine .cons (hfills c List.mem_cons_self start (by omega)) ?_
    rw [hsize c List.mem_cons_self, Nat.add_assoc]
    exact ih _ (fun c' hc' => hsize c' (List.mem_cons_of_mem _ hc'))
      (fun c' hc' => hfills c' (List.mem_cons_of_mem _ hc')) hrest

end

/-! ## Functions -/

namespace InputFunction

variable {T : Type} (compressRelocTargets : Bool) (calcNewValue : Relocation T → BitVec 32)

/-- What is written for a function. -/
def bytes (F : InputFunction T) : List UInt8 :=
  if F.synthetic || !compressRelocTargets then F.toInputChunk.patched calcNewValue
  else encodeUPad 0 0 (F.compressedFuncSize calcNewValue) ++
    F.compressLoop calcNewValue F.codeStart F.relocations

/-- The sites of the function lie side by side, behind its size if it is from a file. -/
structure Ok (F : InputFunction T) : Prop where
  wellPlaced : F.toInputChunk.WellPlaced
  inCode : F.synthetic = false → F.toInputChunk.PlacedInCode

variable {compressRelocTargets} {F : InputFunction T}

theorem bytes_length (h : F.Ok) :
    (F.bytes compressRelocTargets calcNewValue).length = F.getSize compressRelocTargets calcNewValue := by
  unfold bytes getSize
  cases hsyn : F.synthetic with
  | true => simpa using InputChunk.patched_length calcNewValue h.wellPlaced.placed
  | false =>
    cases compressRelocTargets with
    | true => simpa using (InputChunk.compressedSize_eq calcNewValue (h.inCode hsyn)).symm
    | false => simpa using InputChunk.patched_length calcNewValue h.wellPlaced.placed

theorem writeTo_fills (h : F.Ok) {buf outputOffset : Nat} (hout : outputOffset < 2 ^ 31) :
    Fills (F.writeTo compressRelocTargets calcNewValue buf outputOffset) (buf + outputOffset)
      (F.bytes compressRelocTargets calcNewValue) := by
  unfold writeTo bytes
  split
  · exact InputChunk.writeTo_fills calcNewValue h.wellPlaced hout
  · exact fills_memcpy _ _

end InputFunction

/-! ## Segments -/

section
variable {T Seg : Type} {info : Seg → InputSegment T} (calcNewValue : Relocation T → BitVec 32)

/-- The chunks of a segment, with zeros between them, up to its size. -/
def payload (info : Seg → InputSegment T) (stop : Nat) : (last : Nat) → List (Seg × Nat) → List UInt8
  | last, [] => List.replicate (stop - last) 0
  | last, (seg, o) :: ps =>
    List.replicate (o - last) 0 ++ ((info seg).patched calcNewValue ++
      payload info stop (o + segSize info seg) ps)

theorem payload_length {stop last : Nat} {ps : List (Seg × Nat)}
    (h : Laid (segSize info) (segAlign info) last ps stop)
    (hok : ∀ p ∈ ps, (info p.1).toInputChunk.WellPlaced) :
    (payload calcNewValue info stop last ps).length = stop - last := by
  induction ps generalizing last with
  | nil => simp [payload]
  | cons p ps ih =>
    cases h with
    | @cons _ _ o x _ hle hdvd hps =>
      have hlen := InputChunk.patched_length calcNewValue (hok (x, o) List.mem_cons_self).placed
      have hstop := hps.le
      simp only [payload, List.length_append, List.length_replicate, hlen,
        ih hps fun p hp => hok p (List.mem_cons_of_mem _ hp)]
      unfold segSize at hstop ⊢
      omega

theorem writeChunks_fills (buf base : Nat) {stop last : Nat} {ps : List (Seg × Nat)}
    (h : Laid (segSize info) (segAlign info) last ps stop)
    (hok : ∀ p ∈ ps, (info p.1).toInputChunk.WellPlaced) (hbase : base + stop < 2 ^ 31) :
    Fills (Task.seqAll (ps.map fun p => (info p.1).writeTo calcNewValue buf (base + p.2)))
      (buf + base + last) (payload calcNewValue info stop last ps) := by
  induction ps generalizing last with
  | nil => exact fills_skip _ _
  | cons p ps ih =>
    cases h with
    | @cons _ _ o x _ hle hdvd hps =>
      have hx : (info x).toInputChunk.WellPlaced := hok (x, o) List.mem_cons_self
      have hlen := InputChunk.patched_length calcNewValue hx.placed
      have hstop := hps.le
      have hchunk : Fills ((info x).writeTo calcNewValue buf (base + o)) (buf + (base + o))
          ((info x).patched calcNewValue) :=
        InputChunk.writeTo_fills calcNewValue hx (by omega)
      have htail := ih hps fun p hp => hok p (List.mem_cons_of_mem _ hp)
      have hplace : buf + base + last + (o - last) = buf + (base + o) := by omega
      have hnext : buf + base + (o + segSize info x)
          = buf + (base + o) + ((info x).patched calcNewValue).length := by
        rw [hlen, segSize]
        omega
      rw [hnext] at htail
      refine Fills.after_gap ?_
      rw [hplace]
      exact hchunk.seq htail

/-- A segment that `addInputSegment` has built, of well-placed chunks. -/
structure SegmentReady (info : Seg → InputSegment T) (S : OutputSegment Seg) : Prop where
  ok : SegmentOk info S
  wellPlaced : ∀ p ∈ S.inputSegments, (info p.1).toInputChunk.WellPlaced

/-- What is written for a segment. -/
def segmentBytes (info : Seg → InputSegment T) (S : OutputSegment Seg) : List UInt8 :=
  S.header ++ payload calcNewValue info S.size 0 S.inputSegments

theorem segmentBytes_length {S : OutputSegment Seg} (h : SegmentReady info S) :
    (segmentBytes calcNewValue info S).length = S.header.length + S.size := by
  rw [segmentBytes, List.length_append, payload_length calcNewValue h.ok.laid h.wellPlaced, Nat.sub_zero]

theorem writeSegment_fills {S : OutputSegment Seg} (h : SegmentReady info S) {buf o : Nat}
    (hbound : o + (S.header.length + S.size) < 2 ^ 31) :
    Fills (OutputSection.writeSegment info calcNewValue buf S o) (buf + o)
      (segmentBytes calcNewValue info S) := by
  have hchunks := writeChunks_fills calcNewValue buf (o + S.header.length) h.ok.laid h.wellPlaced
    (by omega)
  refine (fills_memcpy (buf + o) S.header).seq ?_
  have hplace : buf + o + S.header.length = buf + (o + S.header.length) + 0 := by omega
  rw [hplace]
  exact hchunks

end

/-! ## Sections -/

namespace OutputSection

variable {T Seg : Type} (info : Seg → InputSegment T) (compressRelocTargets : Bool)
  (calcNewValue : Relocation T → BitVec 32)

/-- What is written behind the header of a section. -/
def body : OutputSection T Seg → List UInt8
  | synthetic _ body => body
  | code functions =>
    writeSize functions.length ++ functions.flatMap (InputFunction.bytes compressRelocTargets calcNewValue)
  | data segments => writeSize segments.length ++ segments.flatMap (segmentBytes calcNewValue info)
  | custom name chunks => nameData name ++ chunks.flatMap (InputChunk.patched calcNewValue)

/-- The parts of a section are well formed. -/
def PartsOk : OutputSection T Seg → Prop
  | synthetic _ _ => True
  | code functions => ∀ F ∈ functions, F.Ok
  | data segments => ∀ S ∈ segments, SegmentReady info S
  | custom _ chunks => ∀ C ∈ chunks, C.WellPlaced

structure Ok (sec : OutputSection T Seg) : Prop where
  parts : sec.PartsOk info
  size : sec.bodySize compressRelocTargets calcNewValue < 2 ^ 31

variable {info compressRelocTargets calcNewValue} {sec : OutputSection T Seg}

theorem body_length (h : sec.Ok info compressRelocTargets calcNewValue) :
    (sec.body info compressRelocTargets calcNewValue).length
      = sec.bodySize compressRelocTargets calcNewValue := by
  obtain ⟨hparts, -⟩ := h
  cases sec with
  | synthetic type bytes => rfl
  | code functions =>
    rw [body, bodySize, placeFunctions, placeChunks_snd, List.length_append, List.length_flatMap]
    exact congrArg (_ + List.sum ·) (List.map_congr_left fun F hF =>
      InputFunction.bytes_length calcNewValue (hparts F hF))
  | data segments =>
    rw [body, bodySize, placeDataSegments, placeChunks_snd, List.length_append, List.length_flatMap]
    exact congrArg (_ + List.sum ·) (List.map_congr_left fun S hS =>
      segmentBytes_length calcNewValue (hparts S hS))
  | custom name chunks =>
    rw [body, bodySize, placePayload, placeChunks_snd, List.length_append, List.length_flatMap,
      Nat.zero_add, Nat.add_comm]
    exact congrArg (List.sum · + _) (List.map_congr_left fun C hC =>
      InputChunk.patched_length calcNewValue (hparts C hC).placed)

/-- **What a section writes**, its parts at the same time. -/
theorem writeBody_fills (h : sec.Ok info compressRelocTargets calcNewValue) (buf : Nat) :
    Fills (sec.writeBody info compressRelocTargets calcNewValue buf) buf
      (sec.body info compressRelocTargets calcNewValue) := by
  obtain ⟨hparts, hsize⟩ := h
  cases sec with
  | synthetic type bytes => exact fills_memcpy buf bytes
  | code functions =>
    refine (fills_memcpy buf _).seq (Adjacent.parallelForEach ?_)
    refine placeChunks_adjacent
      (fun F o => F.writeTo compressRelocTargets calcNewValue buf o) buf _ (fun F hF =>
        InputFunction.bytes_length calcNewValue (hparts F hF)) (fun F hF o ho => ?_)
      (Nat.le_sub_one_of_lt hsize)
    exact InputFunction.writeTo_fills calcNewValue (hparts F hF) (by omega)
  | data segments =>
    refine (fills_memcpy buf _).seq (Adjacent.parallelForEach ?_)
    refine placeChunks_adjacent (fun S o => writeSegment info calcNewValue buf S o) buf _
      (fun S hS => segmentBytes_length calcNewValue (hparts S hS)) (fun S hS o ho => ?_)
      (Nat.le_sub_one_of_lt hsize)
    exact writeSegment_fills calcNewValue (hparts S hS) (by omega)
  | custom name chunks =>
    have hpayload : (placePayload chunks).2 ≤ 2 ^ 31 - 1 :=
      Nat.le_pred_of_lt (Nat.lt_of_le_of_lt (Nat.le_add_right _ _) hsize)
    refine (fills_memcpy buf _).seq (Adjacent.parallelForEach ?_)
    refine placeChunks_adjacent
      (fun C o => C.writeTo calcNewValue (buf + (nameData name).length) o) _ 0 (fun C hC =>
        InputChunk.patched_length calcNewValue (hparts C hC).placed) (fun C hC o ho => ?_) hpayload
    exact InputChunk.writeTo_fills calcNewValue (hparts C hC) (by omega)

variable (info compressRelocTargets calcNewValue)

/-- What is written for a section. -/
def bytes (sec : OutputSection T Seg) : List UInt8 :=
  sec.header compressRelocTargets calcNewValue ++ sec.body info compressRelocTargets calcNewValue

variable {info compressRelocTargets calcNewValue}

theorem bytes_length (h : sec.Ok info compressRelocTargets calcNewValue) :
    (sec.bytes info compressRelocTargets calcNewValue).length
      = sec.getSize compressRelocTargets calcNewValue := by
  rw [bytes, List.length_append, body_length h, getSize]

theorem writeTo_fills (h : sec.Ok info compressRelocTargets calcNewValue) (offset : Nat) :
    Fills (sec.writeTo info compressRelocTargets calcNewValue offset) offset
      (sec.bytes info compressRelocTargets calcNewValue) :=
  (fills_memcpy offset _).seq (writeBody_fills h _)

end OutputSection

/-! ## The file -/

section
variable {T Seg : Type} {info : Seg → InputSegment T} {compressRelocTargets : Bool}
  {calcNewValue : Relocation T → BitVec 32} {sections : List (OutputSection T Seg)}

theorem writeFile_fills (h : ∀ sec ∈ sections, sec.Ok info compressRelocTargets calcNewValue) :
    Fills (writeFile info compressRelocTargets calcNewValue sections) 0
      (wasmHeader ++ sections.flatMap (OutputSection.bytes info compressRelocTargets calcNewValue)) := by
  refine (fills_memcpy 0 wasmHeader).seq (Adjacent.parallelForEach ?_)
  refine placeChunks_adjacent (fun sec o => sec.writeTo info compressRelocTargets calcNewValue o) 0 _
    (fun sec hsec => OutputSection.bytes_length (h sec hsec)) (fun sec hsec o _ => ?_) (Nat.le_refl _)
  rw [Nat.zero_add]
  exact OutputSection.writeTo_fills (h sec hsec) o

theorem fileSize_eq (h : ∀ sec ∈ sections, sec.Ok info compressRelocTargets calcNewValue) :
    (placeSections compressRelocTargets calcNewValue sections).2 = (wasmHeader ++
      sections.flatMap (OutputSection.bytes info compressRelocTargets calcNewValue)).length := by
  rw [placeSections, placeChunks_snd, List.length_append, List.length_flatMap]
  exact congrArg (_ + List.sum ·) (List.map_congr_left fun sec hsec =>
    (OutputSection.bytes_length (h sec hsec)).symm)

/-- **The file that the linker writes**, in whatever order the stores of its threads arrive: the
header and the sections, each with its values in place. -/
theorem writeFile_eq (h : ∀ sec ∈ sections, sec.Ok info compressRelocTargets calcNewValue)
    {stores : List (Nat × UInt8)}
    (hstores : Trace (writeFile info compressRelocTargets calcNewValue sections) stores) :
    FileBuffer.read (run blank stores) 0 (placeSections compressRelocTargets calcNewValue sections).2
      = wasmHeader ++ sections.flatMap (OutputSection.bytes info compressRelocTargets calcNewValue) := by
  rw [fileSize_eq h]
  exact (writeFile_fills h).file hstores

/-- A function that calls another one, of five bytes for the index. -/
def callFunction : InputFunction Unit where
  data := [8, 0, 0x10, 0x80, 0x80, 0x80, 0x80, 0, 0x0b]
  inputSectionOffset := 0
  relocations := [⟨.functionIndexLeb, (), 3, 0⟩]
  synthetic := false

def callSections : List (OutputSection Unit Bool) :=
  [.code [callFunction], .data [⟨".data".toList, 4, 1024, [(false, 0), (true, 4)], 8⟩]]

theorem callFunction_ok : callFunction.Ok :=
  ⟨⟨.cons (by decide) (.nil (by decide)), by decide⟩, fun _ => .cons (by decide) (.nil (by decide))⟩

theorem callFunction_bytes : callFunction.bytes true (fun _ => 300) = [5, 0, 0x10, 0xac, 0x02, 0x0b] := by
  simp only [InputFunction.bytes, InputChunk.compressedFuncSize, InputChunk.compressLoop, encodeUPad_zero,
    callFunction, InputChunk.sizeLoop, RelocKind.encodeCompressed, RelocKind.coding]
  rfl

theorem callFunction_size : callFunction.getSize true (fun _ => 300) = 6 := by
  rw [← InputFunction.bytes_length _ callFunction_ok, callFunction_bytes]
  rfl

theorem callSections_ok : ∀ sec ∈ callSections, sec.Ok twoSegments true (fun _ => 300) := by
  have hdata : SegmentReady twoSegments ⟨".data".toList, 4, 1024, [(false, 0), (true, 4)], 8⟩ := by
    refine ⟨⟨.cons (by decide) (by decide) (.cons (by decide) (by decide) (.nil (by decide))), by decide,
      2, rfl⟩, ?_⟩
    simp only [List.forall_mem_cons, List.not_mem_nil, false_imp_iff, implies_true, and_true]
    exact ⟨⟨.nil (by decide), by decide⟩, ⟨.nil (by decide), by decide⟩⟩
  simp only [callSections, List.forall_mem_cons, List.not_mem_nil, false_imp_iff, implies_true, and_true]
  refine ⟨⟨?_, ?_⟩, ?_, by decide⟩
  · simpa [OutputSection.PartsOk] using callFunction_ok
  · rw [OutputSection.bodySize, OutputSection.placeFunctions, placeChunks_snd, List.map_singleton,
      callFunction_size]
    decide
  · simpa [OutputSection.PartsOk] using hdata

/-- The call has two bytes for the index in the file. -/
theorem writeFile_eq_call :
    FileBuffer.read (run blank (writeFile twoSegments true (fun _ => 300) callSections).stores) 0
        (placeSections true (fun _ => 300) callSections).2
      = [0x00, 0x61, 0x73, 0x6d, 0x01, 0x00, 0x00, 0x00, 0x0a, 0x07, 0x01, 0x05, 0x00, 0x10, 0xac, 0x02, 0x0b,
        0x0b, 0x0f, 0x01, 0x00, 0x41, 0x80, 0x08, 0x0b, 0x08, 0x01, 0x02, 0x03, 0x00, 0x04, 0x05, 0x06, 0x07] := by
  rw [writeFile_eq callSections_ok (trace_stores _)]
  simp only [callSections, List.flatMap_cons, List.flatMap_nil, OutputSection.bytes, OutputSection.header,
    OutputSection.bodySize, OutputSection.placeFunctions, placeChunks_snd, List.map_singleton,
    callFunction_size, OutputSection.body, callFunction_bytes]
  rfl

end

end Lld
