import WasmCdt.Lld.MemoryLayout
import WasmCdt.Lib.Placement
import Mathlib.Algebra.BigOperators.Group.List.Basic
import Mathlib.Data.List.Nodup
import Mathlib.Data.List.Perm.Basic

/-!
# Where the data of a contract lies

While the sizes and the paddings fit 32 bits, nothing wraps.

* `createOutputSegments_members`, `createOutputSegments_ok`: every input segment is in one output
  segment, at an aligned offset.
* `placeSegments_laid`: the output segments, one behind the other.
* `layoutMemory_sound`: **segments apart and aligned, the stack beside them, the heap behind both
  and within the initial memory.**
-/

namespace Lld

open Placement

theorem uint32_of_lt {n : Nat} (h : n < 2 ^ 32) : uint32 n = n := Nat.mod_eq_of_lt h

section
variable {T Seg : Type} (info : Seg → InputSegment T)

def segSize (seg : Seg) : Nat := (info seg).data.length

def segAlign (seg : Seg) : Nat := (info seg).alignment

/-- What a segment can take at most: its size and the paddings. -/
def demand (seg : Seg) : Nat := segSize info seg + 2 * segAlign info seg

/-! ## Output segments -/

structure SegmentOk (S : OutputSegment Seg) : Prop where
  laid : Laid (segSize info) (segAlign info) 0 S.inputSegments S.size
  dvd : ∀ p ∈ S.inputSegments, segAlign info p.1 ∣ S.alignment
  power : ∃ k, S.alignment = 2 ^ k

/-- What the segments take at most. -/
def extent (Ss : List (OutputSegment Seg)) : Nat := (Ss.map fun S => S.size + S.alignment).sum

/-- The input segments in the output segments. -/
def members (Ss : List (OutputSegment Seg)) : List Seg := Ss.flatMap fun S => S.inputSegments.map (·.1)

variable {info}

theorem addInputSegment_new (name : Text) {seg : Seg} (hpow : ∃ k, segAlign info seg = 2 ^ k)
    (hfit : demand info seg < 2 ^ 32) :
    SegmentOk info ((OutputSegment.new name).addInputSegment info seg) ∧
      ((OutputSegment.new name).addInputSegment info seg).size
        + ((OutputSegment.new name).addInputSegment info seg).alignment ≤ demand info seg := by
  obtain ⟨k, hk⟩ := hpow
  have hpos : 0 < segAlign info seg := hk ▸ Nat.two_pow_pos k
  have hzero : alignTo 0 (info seg).alignment = 0 := roundUp_of_dvd hpos (Nat.dvd_zero _)
  have hsize : uint32 (0 + (info seg).data.length) = segSize info seg := by
    rw [Nat.zero_add]
    exact uint32_of_lt (by unfold demand segSize at hfit; omega)
  have hadd : (OutputSegment.new name).addInputSegment info seg
      = ⟨name, segAlign info seg, 0, [(seg, 0)], segSize info seg⟩ := by
    simp only [OutputSegment.addInputSegment, OutputSegment.new, hzero, Nat.zero_max, List.nil_append,
      segAlign]
    rw [uint32_of_lt (by decide), hsize]
  rw [hadd]
  refine ⟨⟨?_, ?_, k, hk⟩, ?_⟩
  · have hempty : Laid (segSize info) (segAlign info) 0 [] 0 := .nil (Nat.le_refl 0)
    have hlaid := hempty.concat (Nat.le_refl 0) (Nat.dvd_zero (segAlign info seg))
    rwa [Nat.zero_add] at hlaid
  · simp
  · simp only [demand]
    omega

theorem addInputSegment_ok {S : OutputSegment Seg} {seg : Seg} (hS : SegmentOk info S)
    (hpow : ∃ k, segAlign info seg = 2 ^ k) (hfit : S.size + S.alignment + demand info seg < 2 ^ 32) :
    SegmentOk info (S.addInputSegment info seg) ∧
      (S.addInputSegment info seg).size + (S.addInputSegment info seg).alignment
        ≤ S.size + S.alignment + demand info seg := by
  have hpos : 0 < segAlign info seg := by
    obtain ⟨k, hk⟩ := hpow
    exact hk ▸ Nat.two_pow_pos k
  obtain ⟨hle, hlt, hdvd⟩ := roundUp_spec (x := S.size) hpos
  have hoffset : uint32 (alignTo S.size (info seg).alignment) = roundUp S.size (segAlign info seg) :=
    uint32_of_lt (by unfold demand at hfit; exact Nat.lt_trans hlt (by omega))
  have hsize : uint32 (roundUp S.size (segAlign info seg) + (info seg).data.length)
      = roundUp S.size (segAlign info seg) + segSize info seg :=
    uint32_of_lt (by unfold demand segSize at hfit; omega)
  have hadd : S.addInputSegment info seg
      = { S with alignment := max S.alignment (segAlign info seg)
                 inputSegments := S.inputSegments ++ [(seg, roundUp S.size (segAlign info seg))]
                 size := roundUp S.size (segAlign info seg) + segSize info seg } := by
    unfold OutputSegment.addInputSegment
    rw [hoffset]
    dsimp only
    rw [hsize]
    rfl
  obtain ⟨hold, hnew⟩ := dvd_max hS.power hpow
  rw [hadd]
  refine ⟨⟨hS.laid.concat hle hdvd, ?_, ?_⟩, ?_⟩
  · intro p hp
    rcases List.mem_append.1 hp with hp | hp
    · exact Nat.dvd_trans (hS.dvd p hp) hold
    · rw [List.mem_singleton.1 hp]
      exact hnew
  · change ∃ k, max S.alignment (segAlign info seg) = 2 ^ k
    rcases max_choice S.alignment (segAlign info seg) with h | h
    · rw [h]
      exact hS.power
    · rw [h]
      exact hpow
  · simp only [demand] at hfit ⊢
    omega

theorem members_addInputSegment (S : OutputSegment Seg) (seg : Seg) :
    (S.addInputSegment info seg).inputSegments.map (·.1) = S.inputSegments.map (·.1) ++ [seg] := by
  simp [OutputSegment.addInputSegment]

theorem addToSegment_members (name : Text) (seg : Seg) (Ss : List (OutputSegment Seg)) :
    (members (addToSegment info name seg Ss)).Perm (members Ss ++ [seg]) := by
  induction Ss with
  | nil => simp [addToSegment, members, members_addInputSegment, OutputSegment.new]
  | cons S Ss ih =>
    rw [addToSegment]
    split
    · simp only [members, List.flatMap_cons, members_addInputSegment, List.append_assoc]
      exact List.Perm.append_left _ List.perm_append_comm
    · simp only [members, List.flatMap_cons, List.append_assoc]
      exact List.Perm.append_left _ ih

/-- **Every input segment** is in one output segment. -/
theorem createOutputSegments_members (merge : Bool) (segs : List Seg) :
    (members (createOutputSegments info merge segs)).Perm segs := by
  induction segs using List.reverseRecOn with
  | nil => simp [createOutputSegments, members]
  | append_singleton segs seg ih =>
    rw [createOutputSegments, List.foldl_append]
    exact (addToSegment_members _ seg _).trans (ih.append_right [seg])

theorem addToSegment_ok (name : Text) {seg : Seg} {Ss : List (OutputSegment Seg)}
    (h : ∀ S ∈ Ss, SegmentOk info S) (hpow : ∃ k, segAlign info seg = 2 ^ k)
    (hfit : extent Ss + demand info seg < 2 ^ 32) :
    (∀ S ∈ addToSegment info name seg Ss, SegmentOk info S) ∧
      extent (addToSegment info name seg Ss) ≤ extent Ss + demand info seg := by
  induction Ss with
  | nil =>
    obtain ⟨hok, hle⟩ := addInputSegment_new name hpow (by simpa [extent] using hfit)
    exact ⟨by simpa [addToSegment] using hok, by simpa [addToSegment, extent] using hle⟩
  | cons S Ss ih =>
    have hrest : ∀ S' ∈ Ss, SegmentOk info S' := fun S' hS' => h S' (List.mem_cons_of_mem _ hS')
    simp only [extent, List.map_cons, List.sum_cons] at hfit ih ⊢
    rw [addToSegment]
    split
    · obtain ⟨hok, hle⟩ := addInputSegment_ok (h S List.mem_cons_self) hpow (by omega)
      refine ⟨fun S' hS' => ?_, by simp only [List.map_cons, List.sum_cons]; omega⟩
      rcases List.mem_cons.1 hS' with rfl | hS'
      · exact hok
      · exact hrest S' hS'
    · obtain ⟨hok, hle⟩ := ih hrest (by omega)
      refine ⟨fun S' hS' => ?_, by simp only [List.map_cons, List.sum_cons]; omega⟩
      rcases List.mem_cons.1 hS' with rfl | hS'
      · exact h _ List.mem_cons_self
      · exact hok S' hS'

/-- The input segments are at aligned offsets. -/
theorem createOutputSegments_ok (merge : Bool) {segs : List Seg}
    (hpow : ∀ seg ∈ segs, ∃ k, segAlign info seg = 2 ^ k)
    (hfit : (segs.map (demand info)).sum < 2 ^ 32) :
    (∀ S ∈ createOutputSegments info merge segs, SegmentOk info S) ∧
      extent (createOutputSegments info merge segs) ≤ (segs.map (demand info)).sum := by
  induction segs using List.reverseRecOn with
  | nil => simp [createOutputSegments, extent]
  | append_singleton segs seg ih =>
    rw [List.map_append, List.sum_append] at hfit
    simp only [List.map_cons, List.map_nil, List.sum_cons, List.sum_nil, Nat.add_zero] at hfit
    obtain ⟨hok, hle⟩ := ih (fun s hs => hpow s (List.mem_append_left _ hs)) (by omega)
    have hlast := hpow seg (List.mem_append_right _ (List.mem_singleton.2 rfl))
    rw [createOutputSegments, List.foldl_append]
    change (∀ S ∈ addToSegment info _ seg (createOutputSegments info merge segs), SegmentOk info S) ∧
      extent (addToSegment info _ seg (createOutputSegments info merge segs)) ≤ _
    obtain ⟨hok', hle'⟩ := addToSegment_ok (getOutputDataSegmentName merge (info seg).name) hok hlast
      (by omega)
    refine ⟨hok', ?_⟩
    rw [List.map_append, List.sum_append]
    simp only [List.map_cons, List.map_nil, List.sum_cons, List.sum_nil, Nat.add_zero]
    omega

end

/-! ## Addresses -/

section
variable {Seg : Type}

/-- The segments with their addresses. -/
def starts (Ss : List (OutputSegment Seg)) : List (OutputSegment Seg × Nat) :=
  Ss.map fun S => (S, S.startVA)

theorem mem_starts {Ss : List (OutputSegment Seg)} {S : OutputSegment Seg} (hS : S ∈ Ss) :
    (S, S.startVA) ∈ starts Ss :=
  List.mem_map_of_mem (f := fun S => (S, S.startVA)) hS

theorem placeSegments_laid : ∀ (Ss : List (OutputSegment Seg)) (start : Nat),
    (∀ S ∈ Ss, 0 < S.alignment) → start + extent Ss < 2 ^ 32 →
    Laid OutputSegment.size OutputSegment.alignment start (starts (LayoutConfig.placeSegments start Ss).1)
        (LayoutConfig.placeSegments start Ss).2 ∧
      (LayoutConfig.placeSegments start Ss).2 ≤ start + extent Ss ∧
      (LayoutConfig.placeSegments start Ss).1.map (fun S => { S with startVA := 0 })
        = Ss.map fun S => { S with startVA := 0 }
  | [], start, _, _ => ⟨.nil (Nat.le_refl start), by simp [LayoutConfig.placeSegments], rfl⟩
  | S :: Ss, start, hpos, hfit => by
    simp only [extent, List.map_cons, List.sum_cons] at hfit ⊢
    obtain ⟨hle, hlt, hdvd⟩ := roundUp_spec (x := start) (hpos S List.mem_cons_self)
    have hstart : uint32 (alignTo start S.alignment) = roundUp start S.alignment :=
      uint32_of_lt (Nat.lt_trans hlt (by omega))
    have hnext : uint32 (roundUp start S.alignment + S.size) = roundUp start S.alignment + S.size :=
      uint32_of_lt (by omega)
    obtain ⟨hlaid, hend, hsame⟩ := placeSegments_laid Ss (roundUp start S.alignment + S.size)
      (fun S' hS' => hpos S' (List.mem_cons_of_mem _ hS')) (by unfold extent; omega)
    simp only [LayoutConfig.placeSegments, hstart, hnext, starts, List.map_cons]
    unfold extent at hend
    exact ⟨.cons hle hdvd hlaid, by omega, by rw [hsame]⟩

/-- The input segments with their addresses. -/
def places (Ss : List (OutputSegment Seg)) : List (Seg × Nat) :=
  Ss.flatMap fun S => S.inputSegments.map fun p => (p.1, S.startVA + p.2)

theorem places_fst (Ss : List (OutputSegment Seg)) : (places Ss).map (·.1) = members Ss := by
  simp only [places, members, List.map_flatMap, List.map_map]
  rfl

theorem members_placeSegments (Ss : List (OutputSegment Seg)) :
    ∀ start : Nat, members (LayoutConfig.placeSegments start Ss).1 = members Ss := by
  induction Ss with
  | nil => exact fun _ => rfl
  | cons S Ss ih =>
    intro start
    simp only [LayoutConfig.placeSegments, members, List.flatMap_cons]
    rw [← members, ih]
    rfl

theorem layoutMemory_members (cfg : LayoutConfig) (Ss : List (OutputSegment Seg)) :
    members (cfg.layoutMemory Ss).segments = members Ss :=
  members_placeSegments Ss _

variable {T : Type} {info : Seg → InputSegment T}

/-- The input segments of output segments that lie one behind the other. -/
theorem places_laid {Ss : List (OutputSegment Seg)} {a b : Nat}
    (h : Laid OutputSegment.size OutputSegment.alignment a (starts Ss) b)
    (hok : ∀ S ∈ Ss, SegmentOk info S) : Laid (segSize info) (segAlign info) a (places Ss) b := by
  induction Ss generalizing a with
  | nil => exact .nil h.le
  | cons S Ss ih =>
    cases h with
    | cons hle hdvd hrest =>
      have hS := hok S List.mem_cons_self
      have hhead := hS.laid.shift fun p hp => Nat.dvd_trans (hS.dvd p hp) hdvd
      rw [Nat.add_zero] at hhead
      rw [places, List.flatMap_cons]
      exact (hhead.from_le hle).append (ih hrest fun S' hS' => hok S' (List.mem_cons_of_mem _ hS'))

variable [DecidableEq Seg]

theorem address_eq_find (M : Memory Seg) (seg : Seg) :
    M.address seg = ((places M.segments).find? fun p => p.1 = seg).map fun p => uint32 p.2 := by
  unfold Memory.address places
  induction M.segments with
  | nil => rfl
  | cons S Ss ih =>
    rw [List.findSome?_cons, List.flatMap_cons, List.find?_append, ih, List.find?_map]
    cases hfind : S.inputSegments.find? fun p => p.1 = seg with
    | none => simp [Function.comp_def, hfind]
    | some p => simp [Function.comp_def, hfind]

theorem address_of_mem {M : Memory Seg} (hnodup : (members M.segments).Nodup) {p : Seg × Nat}
    (hp : p ∈ places M.segments) : M.address p.1 = some (uint32 p.2) := by
  rw [← places_fst] at hnodup
  have hinj := List.inj_on_of_nodup_map hnodup
  obtain ⟨q, hq⟩ : ∃ q, (places M.segments).find? (fun q => q.1 = p.1) = some q :=
    Option.isSome_iff_exists.1 (List.find?_isSome.2 ⟨p, hp, by simp⟩)
  have hqp : q = p := hinj (List.mem_of_find?_eq_some hq) hp (by simpa using List.find?_some hq)
  rw [address_eq_find, hq, hqp, Option.map_some]

end

/-! ## The whole memory -/

/-- What programs rely on. -/
structure Memory.Sound {T Seg : Type} [DecidableEq Seg] (info : Seg → InputSegment T)
    (cfg : LayoutConfig) (segs : List Seg) (M : Memory Seg) : Prop where
  placed : ∀ seg ∈ segs, ∃ va, M.address seg = some va ∧ (info seg).alignment ∣ va ∧
    M.dataStart ≤ va ∧ va + (info seg).data.length ≤ M.dataEnd
  apart : ∀ seg ∈ segs, ∀ seg' ∈ segs, seg ≠ seg' → ∀ va va', M.address seg = some va →
    M.address seg' = some va' →
    va + (info seg).data.length ≤ va' ∨ va' + (info seg').data.length ≤ va
  stack : ∃ sp, M.stackPointer = some sp ∧ kStackAlignment ∣ sp ∧ cfg.zStackSize ≤ sp ∧
    (sp ≤ M.dataStart ∨ M.dataEnd + cfg.zStackSize ≤ sp)
  heap : ∃ hb, M.heapBase = some hb ∧ M.dataEnd ≤ hb ∧ (∀ sp, M.stackPointer = some sp → sp ≤ hb) ∧
    hb ≤ wasmPageSize * M.numMemoryPages
  pages : cfg.initialMemory ≤ wasmPageSize * M.numMemoryPages ∧
    (cfg.maxMemory ≠ 0 → M.numMemoryPages ≤ M.maxMemoryPages)

section
variable {cfg : LayoutConfig}

theorem placeStack_eq (hrel : cfg.relocatable = false) (ptr : Nat)
    (hfit : ptr + kStackAlignment + cfg.zStackSize < 2 ^ 32) :
    cfg.placeStack ptr = roundUp ptr kStackAlignment + cfg.zStackSize := by
  obtain ⟨-, hlt, -⟩ := roundUp_spec (x := ptr) (show 0 < kStackAlignment by decide)
  have halign : uint32 (alignTo ptr kStackAlignment) = roundUp ptr kStackAlignment :=
    uint32_of_lt (Nat.lt_trans hlt (by omega))
  rw [LayoutConfig.placeStack, hrel, halign]
  exact uint32_of_lt (by omega)

theorem stack_aligned (hrel : cfg.relocatable = false) (h : cfg.stackErrors = []) :
    kStackAlignment ∣ cfg.zStackSize := by
  have hsize : cfg.zStackSize = alignTo cfg.zStackSize kStackAlignment := by
    by_contra hne
    simp [LayoutConfig.stackErrors, hrel, hne] at h
  rw [hsize]
  exact Nat.dvd_mul_left _ _

theorem initial_of_errors {hb : Nat} (h : cfg.initialErrors hb = []) :
    cfg.initialMemory = 0 ∨ (wasmPageSize ∣ cfg.initialMemory ∧ hb ≤ cfg.initialMemory) := by
  rcases Nat.eq_zero_or_pos cfg.initialMemory with hzero | hpos
  · exact .inl hzero
  · rw [LayoutConfig.initialErrors, if_neg (by omega), List.append_eq_nil_iff] at h
    obtain ⟨halign, hsmall⟩ := h
    refine .inr ⟨?_, ?_⟩
    · have hsize : cfg.initialMemory = alignTo cfg.initialMemory wasmPageSize := by
        by_contra hne
        simp [hne] at halign
      rw [hsize]
      exact Nat.dvd_mul_left _ _
    · by_contra hlt
      simp [Nat.not_le.1 hlt] at hsmall

theorem max_of_errors {ptr : Nat} (h : cfg.maxErrors ptr = []) :
    cfg.maxMemory = 0 ∨ (wasmPageSize ∣ cfg.maxMemory ∧ ptr ≤ cfg.maxMemory) := by
  rcases Nat.eq_zero_or_pos cfg.maxMemory with hzero | hpos
  · exact .inl hzero
  · rw [LayoutConfig.maxErrors, if_neg (by omega), List.append_eq_nil_iff] at h
    obtain ⟨halign, hsmall⟩ := h
    refine .inr ⟨?_, ?_⟩
    · have hsize : cfg.maxMemory = alignTo cfg.maxMemory wasmPageSize := by
        by_contra hne
        simp [hne] at halign
      rw [hsize]
      exact Nat.dvd_mul_left _ _
    · by_contra hlt
      simp [Nat.not_le.1 hlt] at hsmall

/-- The pages cover the memory, and what was asked for; they are not more than allowed. -/
theorem pages_sound {hb : Nat} (hfit : hb + wasmPageSize < 2 ^ 32) (hinit : cfg.initialMemory < 2 ^ 32)
    (herr : cfg.initialErrors hb = []) (herr' : cfg.maxErrors (cfg.initialPtr hb) = []) :
    let pages := uint32 (alignTo (cfg.initialPtr hb) wasmPageSize) / wasmPageSize
    hb ≤ wasmPageSize * pages ∧ cfg.initialMemory ≤ wasmPageSize * pages ∧
      (cfg.maxMemory ≠ 0 → pages ≤ if cfg.maxMemory = 0 then 0 else cfg.maxMemory / wasmPageSize) := by
  have hpos : 0 < wasmPageSize := by decide
  obtain ⟨hle, hlt, hdvd⟩ := roundUp_spec (x := cfg.initialPtr hb) hpos
  have hptr : hb ≤ cfg.initialPtr hb ∧ cfg.initialMemory ≤ cfg.initialPtr hb ∧
      roundUp (cfg.initialPtr hb) wasmPageSize < 2 ^ 32 := by
    rcases initial_of_errors herr with hzero | ⟨haligned, hge⟩
    · rw [LayoutConfig.initialPtr, if_pos (.inl hzero)] at hlt ⊢
      exact ⟨Nat.le_refl _, by omega, by omega⟩
    · by_cases hzero : cfg.initialMemory = 0
      · rw [LayoutConfig.initialPtr, if_pos (.inl hzero)] at hlt ⊢
        exact ⟨Nat.le_refl _, by omega, by omega⟩
      · rw [LayoutConfig.initialPtr, if_neg (by omega)]
        exact ⟨hge, Nat.le_refl _, by rwa [roundUp_of_dvd hpos haligned]⟩
  have hpages : wasmPageSize * (uint32 (alignTo (cfg.initialPtr hb) wasmPageSize) / wasmPageSize)
      = roundUp (cfg.initialPtr hb) wasmPageSize := by
    rw [show alignTo (cfg.initialPtr hb) wasmPageSize = roundUp (cfg.initialPtr hb) wasmPageSize from rfl,
      uint32_of_lt hptr.2.2]
    exact Nat.mul_div_cancel' hdvd
  refine ⟨by omega, by omega, fun hmax => ?_⟩
  obtain ⟨haligned, hge⟩ := (max_of_errors herr').resolve_left hmax
  rw [if_neg hmax, Nat.le_div_iff_mul_le hpos, Nat.mul_comm, hpages]
  exact roundUp_le hpos hge haligned

variable {T Seg : Type} {info : Seg → InputSegment T} {segs : List Seg}

/-- Placing changes no segment but for its address. -/
theorem placed_ok {Ss Ss' : List (OutputSegment Seg)}
    (hsame : Ss'.map (fun S => { S with startVA := 0 }) = Ss.map fun S => { S with startVA := 0 })
    (hok : ∀ S ∈ Ss, SegmentOk info S) : ∀ S ∈ Ss', SegmentOk info S := by
  intro S hS
  have hmem := List.mem_map_of_mem (f := fun S : OutputSegment Seg => { S with startVA := 0 }) hS
  rw [hsame] at hmem
  obtain ⟨S₀, hS₀, heq⟩ := List.mem_map.1 hmem
  obtain ⟨-, halign, -, hinputs, hsize⟩ := OutputSegment.mk.inj heq
  have h := hok S₀ hS₀
  exact ⟨by rw [← hinputs, ← hsize]; exact h.laid, by rw [← hinputs, ← halign]; exact h.dvd,
    by rw [← halign]; exact h.power⟩

theorem dataStart_eq (hrel : cfg.relocatable = false) (hfit : kStackAlignment + cfg.zStackSize < 2 ^ 32)
    (Ss : List (OutputSegment Seg)) :
    (cfg.layoutMemory Ss).dataStart = if cfg.stackFirst then cfg.zStackSize else cfg.globalBase := by
  have hbase := placeStack_eq hrel 0 (by omega)
  rw [roundUp_of_dvd (by decide) (Nat.dvd_zero _), Nat.zero_add] at hbase
  simp only [LayoutConfig.layoutMemory, hbase]

/-- Where the output segments lie. -/
theorem layoutMemory_laid (hrel : cfg.relocatable = false) (hpow : ∀ seg ∈ segs, ∃ k, (info seg).alignment = 2 ^ k)
    (hfit : cfg.globalBase + cfg.zStackSize + (segs.map (demand info)).sum + kStackAlignment < 2 ^ 32)
    {M : Memory Seg} (hM : M = cfg.layoutMemory (createOutputSegments info cfg.mergeDataSegments segs)) :
    (∀ S ∈ M.segments, SegmentOk info S) ∧
      Laid OutputSegment.size OutputSegment.alignment M.dataStart (starts M.segments) M.dataEnd ∧
      M.dataEnd ≤ M.dataStart + (segs.map (demand info)).sum := by
  obtain ⟨hok, hext⟩ := createOutputSegments_ok cfg.mergeDataSegments hpow (by omega)
  have hpos : ∀ S ∈ createOutputSegments info cfg.mergeDataSegments segs, 0 < S.alignment := fun S hS => by
    obtain ⟨k, hk⟩ := (hok S hS).power
    exact hk ▸ Nat.two_pow_pos k
  have hstart : M.dataStart ≤ cfg.globalBase + cfg.zStackSize := by
    rw [hM, dataStart_eq hrel (by omega)]
    split <;> omega
  obtain ⟨hlaid, hend, hsame⟩ := placeSegments_laid (createOutputSegments info cfg.mergeDataSegments segs)
    M.dataStart hpos (by omega)
  rw [hM] at hlaid hend hsame ⊢
  exact ⟨placed_ok hsame hok, hlaid, Nat.le_trans hend (Nat.add_le_add_left hext _)⟩

variable [DecidableEq Seg]

/-- Places between two addresses are the addresses of the segments. -/
theorem address_of_laid {M : Memory Seg} (hnodup : segs.Nodup) (hperm : (members M.segments).Perm segs)
    (hlaid : Laid (segSize info) (segAlign info) M.dataStart (places M.segments) M.dataEnd)
    (hfit : M.dataEnd < 2 ^ 32) {seg : Seg} (hseg : seg ∈ segs) :
    ∃ va, (seg, va) ∈ places M.segments ∧ M.address seg = some va := by
  have hmem := hperm.mem_iff.2 hseg
  rw [← places_fst] at hmem
  obtain ⟨p, hp, rfl⟩ := List.mem_map.1 hmem
  have hbounds := hlaid.bounds p hp
  refine ⟨p.2, hp, ?_⟩
  rw [address_of_mem (hperm.nodup_iff.2 hnodup) hp, uint32_of_lt (by omega)]

/-- What a sound memory is assembled from. -/
theorem Memory.Sound.of_parts {M : Memory Seg} {sp hb : Nat} (hnodup : segs.Nodup)
    (hperm : (members M.segments).Perm segs)
    (hlaid : Laid (segSize info) (segAlign info) M.dataStart (places M.segments) M.dataEnd)
    (hsp : M.stackPointer = some sp) (hdvd : kStackAlignment ∣ sp) (hsize : cfg.zStackSize ≤ sp)
    (hbeside : sp ≤ M.dataStart ∨ M.dataEnd + cfg.zStackSize ≤ sp) (hhb : M.heapBase = some hb)
    (hdata : M.dataEnd ≤ hb) (hsphb : sp ≤ hb) (hfit : hb < 2 ^ 32)
    (hpages : hb ≤ wasmPageSize * M.numMemoryPages ∧ cfg.initialMemory ≤ wasmPageSize * M.numMemoryPages ∧
      (cfg.maxMemory ≠ 0 → M.numMemoryPages ≤ M.maxMemoryPages)) : M.Sound info cfg segs where
  placed seg hseg := by
    obtain ⟨va, hva, haddress⟩ := address_of_laid hnodup hperm hlaid (by omega) hseg
    obtain ⟨hlo, hhi, haligned⟩ := hlaid.bounds (seg, va) hva
    exact ⟨va, haddress, haligned, hlo, hhi⟩
  apart seg hseg seg' hseg' hne va va' hva hva' := by
    obtain ⟨v, hv, haddress⟩ := address_of_laid hnodup hperm hlaid (by omega) hseg
    obtain ⟨v', hv', haddress'⟩ := address_of_laid hnodup hperm hlaid (by omega) hseg'
    obtain rfl : v = va := Option.some.inj (haddress.symm.trans hva)
    obtain rfl : v' = va' := Option.some.inj (haddress'.symm.trans hva')
    exact hlaid.apart _ hv _ hv' fun heq => hne (congrArg Prod.fst heq)
  stack := ⟨sp, hsp, hdvd, hsize, hbeside⟩
  heap := by
    refine ⟨hb, hhb, hdata, fun s hs => ?_, hpages.1⟩
    rw [hsp] at hs
    exact Option.some.inj hs ▸ hsphb
  pages := hpages.2

/-- **The linear memory is laid out soundly**, if it fits 32 bits and no error is reported. -/
theorem layoutMemory_sound (hrel : cfg.relocatable = false) (hnodup : segs.Nodup)
    (hpow : ∀ seg ∈ segs, ∃ k, (info seg).alignment = 2 ^ k)
    (hfit : cfg.globalBase + cfg.zStackSize + (segs.map (demand info)).sum + 2 * wasmPageSize ≤ 2 ^ 32)
    (hinit : cfg.initialMemory < 2 ^ 32)
    (herrors : (cfg.layoutMemory (createOutputSegments info cfg.mergeDataSegments segs)).errors = []) :
    (cfg.layoutMemory (createOutputSegments info cfg.mergeDataSegments segs)).Sound info cfg segs := by
  have hpage : wasmPageSize = 65536 := rfl
  have hstack : kStackAlignment = 16 := rfl
  obtain ⟨hok, hlaid, hend⟩ := layoutMemory_laid hrel hpow (by omega) rfl
  have hplaces := places_laid hlaid hok
  have hperm : (members (createOutputSegments info cfg.mergeDataSegments segs)).Perm segs :=
    createOutputSegments_members _ _
  rw [dataStart_eq hrel (by omega)] at hend
  generalize createOutputSegments info cfg.mergeDataSegments segs = Ss at *
  have hnil := herrors
  simp only [LayoutConfig.layoutMemory, List.append_eq_nil_iff] at hnil
  obtain ⟨⟨hserr, hierr⟩, hmerr⟩ := hnil
  have hZ := stack_aligned hrel hserr
  cases hfirst : cfg.stackFirst with
  | true =>
    have hbase := placeStack_eq hrel 0 (by omega)
    rw [roundUp_of_dvd (by decide) (Nat.dvd_zero _), Nat.zero_add] at hbase
    simp only [LayoutConfig.layoutMemory, hfirst, hrel, hbase, Bool.false_eq_true, ↓reduceIte] at hend hplaces hierr hmerr ⊢
    have hpages := pages_sound (by omega) hinit hierr hmerr
    exact .of_parts hnodup (members_placeSegments Ss _ ▸ hperm) hplaces rfl hZ (Nat.le_refl _)
      (.inl (Nat.le_refl _)) rfl (Nat.le_refl _) hplaces.le (by omega) hpages
  | false =>
    simp only [LayoutConfig.layoutMemory, hfirst, hrel, Bool.false_eq_true, ↓reduceIte] at hend hplaces hierr hmerr ⊢
    have hbase := placeStack_eq hrel (LayoutConfig.placeSegments cfg.globalBase Ss).2 (by omega)
    obtain ⟨hle, hlt, hdvd⟩ := roundUp_spec (x := (LayoutConfig.placeSegments cfg.globalBase Ss).2)
      (show 0 < kStackAlignment by decide)
    simp only [hbase] at hierr hmerr ⊢
    have hpages := pages_sound (by omega) hinit hierr hmerr
    exact .of_parts hnodup (members_placeSegments Ss _ ▸ hperm) hplaces rfl (Nat.dvd_add hdvd hZ)
      (Nat.le_add_left _ _) (.inr (Nat.add_le_add_right hle _)) rfl
      (Nat.le_trans hle (Nat.le_add_right _ _)) (Nat.le_refl _) (by omega) hpages

/-- A link with two segments and the options' defaults. -/
def twoSegments : Bool → InputSegment Unit
  | false => ⟨⟨[1, 2, 3], 0, []⟩, ".data.a".toList, 1⟩
  | true => ⟨⟨[4, 5, 6, 7], 3, []⟩, ".data.b".toList, 4⟩

theorem layoutMemory_sound_default :
    (LayoutConfig.layoutMemory ⟨false, true, false, 1024, 65536, 0, 0⟩
      (createOutputSegments twoSegments true [false, true])).Sound twoSegments
        ⟨false, true, false, 1024, 65536, 0, 0⟩ [false, true] :=
  layoutMemory_sound rfl (by simp) (by simpa [twoSegments] using ⟨⟨0, rfl⟩, ⟨2, rfl⟩⟩)
    (by simp [demand, segSize, segAlign, twoSegments, wasmPageSize]) (by decide) (by rfl)

end

end Lld
