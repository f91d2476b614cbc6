import WasmCdt.Lld.Export

/-!
# What is exported

The filter of the export section against the arguments of `--only-export`: an argument wants the
exports of its kind that have its name, or all of its kind if the name is `*`.

* `memcmpEq_iff`: the comparison is by a prefix (`Covers`), of the name in the arguments and of the
  memory behind it.
* `mem_configExports`: the entries of the configuration are the arguments with a name.
* `Wants.shouldExport`: what an argument with a name wants is exported.
* `exportsExactly_iff`: **when the exports are exactly those wanted**.
-/

namespace Lld

open Cdt

/-! ## Arguments -/

namespace OnlyExport

/-- What stands before the first colon. -/
def name (arg : OnlyExport) : Text := getFirst arg.value

/-- The kind that stands behind it. -/
def kind (arg : OnlyExport) : BitVec 8 := getKind (getSecond arg.value)

/-- The argument asks for `ex`. -/
def Wants (arg : OnlyExport) (ex : WasmExport) : Prop :=
  arg.kind = ex.kind ∧ (arg.name = "*".toList ∨ arg.name = ex.name)

instance (arg : OnlyExport) (ex : WasmExport) : Decidable (arg.Wants ex) :=
  inferInstanceAs (Decidable (_ ∧ _))

/-- The entry that the driver makes of an argument. -/
def entry (arg : OnlyExport) : WasmExport := ⟨arg.name ++ arg.behind, arg.kind, 0⟩

end OnlyExport

theorem addExport_of_nil {exports : List WasmExport} {arg : OnlyExport} (h : arg.name = []) :
    addExport exports arg = exports := if_neg (not_not_intro h)

theorem addExport_of_ne {exports : List WasmExport} {arg : OnlyExport} (h : arg.name ≠ []) :
    addExport exports arg = exports ++ [arg.entry] := if_pos h

theorem mem_addExport {exports : List WasmExport} {arg : OnlyExport} {x : WasmExport} :
    x ∈ addExport exports arg ↔ x ∈ exports ∨ arg.name ≠ [] ∧ x = arg.entry := by
  by_cases h : arg.name = []
  · rw [addExport_of_nil h]
    exact (or_iff_left fun hx => hx.1 h).symm
  · rw [addExport_of_ne h, List.mem_append, List.mem_singleton, and_iff_right h]

theorem mem_foldl_addExport {args : List OnlyExport} {x : WasmExport} :
    ∀ {exports : List WasmExport}, x ∈ args.foldl addExport exports ↔
      x ∈ exports ∨ ∃ arg ∈ args, arg.name ≠ [] ∧ x = arg.entry := by
  induction args with
  | nil => simp
  | cons arg args ih =>
    intro exports
    rw [List.foldl_cons, ih, mem_addExport, List.exists_mem_cons_iff, or_assoc]

/-- An argument without a name has no entry. -/
theorem mem_configExports {args : List OnlyExport} {x : WasmExport} :
    x ∈ configExports args ↔ ∃ arg ∈ args, arg.name ≠ [] ∧ x = arg.entry := by
  rw [configExports, mem_foldl_addExport, or_iff_right List.not_mem_nil]

/-! ## The comparison -/

/-- `s` with what the memory holds behind its `c_str()`, `n` characters of it. -/
def memory (past : Nat → Char) (s : Text) (n : Nat) : Text :=
  s ++ '\x00' :: (List.range n).map fun i => past (s.length + 1 + i)

/-- The memory from `s` on begins with `name`. -/
def Covers (past : Nat → Char) (s name : Text) : Prop := name <+: memory past s name.length

instance (past : Nat → Char) (s name : Text) : Decidable (Covers past s name) :=
  inferInstanceAs (Decidable (name <+: _))

theorem memory_getElem? (past : Nat → Char) (s : Text) {n i : Nat} (h : i < n) :
    (memory past s n)[i]? = some (cStr past s i) := by
  unfold memory cStr
  rw [List.getD_eq_getElem?_getD]
  rcases Nat.lt_trichotomy i s.length with hlt | heq | hgt
  · rw [List.getElem?_append_left hlt, List.getElem?_append_left hlt, List.getElem?_eq_getElem hlt]
    rfl
  · subst heq
    simp
  · obtain ⟨k, rfl⟩ := Nat.exists_eq_add_of_lt hgt
    have hk : s.length + k + 1 - s.length = k + 1 := by omega
    have hkn : k < n := by omega
    have hadd : s.length + 1 + k = s.length + k + 1 := by omega
    rw [List.getElem?_append_right (by omega), List.getElem?_append_right (by omega), hk]
    simp [hkn, hadd]

theorem cStr_of_lt (past : Nat → Char) {s : Text} {i : Nat} (h : i < s.length) :
    cStr past s i = s[i] := by
  unfold cStr
  rw [List.getD_eq_getElem?_getD, List.getElem?_append_left h, List.getElem?_eq_getElem h]
  rfl

/-- `memcmp` with the size of `name` tests for a prefix. -/
theorem memcmpEq_iff (past past' : Nat → Char) (s name : Text) :
    memcmpEq (cStr past s) (cStr past' name) name.length = true ↔ Covers past s name := by
  unfold memcmpEq Covers
  rw [List.all_eq_true, List.prefix_iff_getElem?]
  constructor
  · intro h i hi
    have hsame := h i (List.mem_range.2 hi)
    rw [beq_iff_eq, cStr_of_lt past' hi] at hsame
    rw [memory_getElem? past s hi, hsame]
  · intro h i hi
    have hi := List.mem_range.1 hi
    have hsame := h i hi
    rw [memory_getElem? past s hi] at hsame
    rw [beq_iff_eq, cStr_of_lt past' hi]
    exact Option.some.inj hsame

theorem covers_append (past : Nat → Char) (name behind : Text) : Covers past (name ++ behind) name := by
  unfold Covers memory
  rw [List.append_assoc]
  exact List.prefix_append _ _

theorem covers_nil (past : Nat → Char) (s : Text) : Covers past s [] := List.nil_prefix

/-! ## The filter -/

section
variable (past : WasmExport → WasmExport → Nat → Char)

/-- The entry of the argument lets `ex` through. -/
def Passes (arg : OnlyExport) (ex : WasmExport) : Prop :=
  arg.name ≠ [] ∧ arg.kind = ex.kind ∧
    (Covers (past arg.entry ex) (arg.name ++ arg.behind) ex.name ∨ arg.name.head? = some '*')

theorem cStr_zero (past : Nat → Char) {name : Text} (behind : Text) (h : name ≠ []) :
    (cStr past (name ++ behind) 0 == '*') = true ↔ name.head? = some '*' := by
  cases name with
  | nil => exact absurd rfl h
  | cons c name => simp [cStr]

theorem shouldExport_iff {args : List OnlyExport} {ex : WasmExport} :
    shouldExport past (configExports args) ex = true ↔ ∃ arg ∈ args, Passes past arg ex := by
  unfold shouldExport
  rw [List.any_eq_true]
  constructor
  · intro h
    obtain ⟨x, hx, htest⟩ := h
    obtain ⟨arg, harg, hne, rfl⟩ := mem_configExports.1 hx
    rw [Bool.and_eq_true, Bool.or_eq_true, memcmpEq_iff, beq_iff_eq (b := ex.kind)] at htest
    exact ⟨arg, harg, hne, htest.2, htest.1.imp_right (cStr_zero _ _ hne).1⟩
  · intro h
    obtain ⟨arg, harg, hne, hkind, hname⟩ := h
    refine ⟨arg.entry, mem_configExports.2 ⟨arg, harg, hne, rfl⟩, ?_⟩
    rw [Bool.and_eq_true, Bool.or_eq_true, memcmpEq_iff, beq_iff_eq (b := ex.kind)]
    exact ⟨hname.imp_right (cStr_zero _ _ hne).2, hkind⟩

/-- What an argument with a name wants passes its entry. -/
theorem passes_of_wants {arg : OnlyExport} {ex : WasmExport} (hne : arg.name ≠ [])
    (h : arg.Wants ex) : Passes past arg ex := by
  obtain ⟨hkind, hname⟩ := h
  refine ⟨hne, hkind, ?_⟩
  rcases hname with hstar | hname
  · rw [hstar]
    exact .inr rfl
  · rw [← hname]
    exact .inl (covers_append _ _ _)

/-- The export section holds the candidates that an argument wants, in their order. -/
def ExportsExactly (args : List OnlyExport) (candidates : List WasmExport) : Prop :=
  (createExportSection past (configExports args) candidates).getD []
    = candidates.filter fun ex => args.any fun arg => arg.Wants ex

/-- A candidate that some entry covers, or that an entry with a star in front lets through, is
wanted. -/
def NoneStray (args : List OnlyExport) (candidates : List WasmExport) : Prop :=
  ∀ ex ∈ candidates, ∀ arg ∈ args, Passes past arg ex → ∃ arg' ∈ args, arg'.Wants ex

/-- A candidate without a name that is wanted has the kind of an argument with a name. -/
def NamelessKept (args : List OnlyExport) (candidates : List WasmExport) : Prop :=
  ∀ ex ∈ candidates, ex.name = [] → ∀ arg ∈ args, arg.Wants ex →
    ∃ arg' ∈ args, arg'.name ≠ [] ∧ arg'.kind = ex.kind

theorem createExportSection_getD (config candidates : List WasmExport) :
    (createExportSection past config candidates).getD []
      = candidates.filter (shouldExport past config) := by
  unfold createExportSection
  split
  · rename_i h
    rw [List.eq_nil_of_length_eq_zero h]
    rfl
  · rfl

theorem filter_eq_iff {α : Type} {p q : α → Bool} {l : List α} :
    l.filter p = l.filter q ↔ ∀ x ∈ l, (p x = true ↔ q x = true) := by
  constructor
  · intro h x hx
    have hmem : x ∈ l.filter p ↔ x ∈ l.filter q := by rw [h]
    rwa [List.mem_filter, List.mem_filter, and_iff_right hx, and_iff_right hx] at hmem
  · intro h
    exact List.filter_congr fun x hx => Bool.eq_iff_iff.2 (h x hx)

theorem exportsExactly_iff_forall {args : List OnlyExport} {candidates : List WasmExport} :
    ExportsExactly past args candidates ↔ ∀ ex ∈ candidates,
      ((∃ arg ∈ args, Passes past arg ex) ↔ ∃ arg ∈ args, arg.Wants ex) := by
  unfold ExportsExactly
  rw [createExportSection_getD, filter_eq_iff]
  refine forall₂_congr fun ex _ => ?_
  rw [shouldExport_iff, List.any_eq_true]
  simp only [decide_eq_true_eq]

/-- The exports are exactly those wanted where no candidate strays in and no nameless one is lost. -/
theorem exportsExactly_iff (args : List OnlyExport) (candidates : List WasmExport) :
    ExportsExactly past args candidates ↔
      NoneStray past args candidates ∧ NamelessKept args candidates := by
  rw [exportsExactly_iff_forall]
  constructor
  · intro h
    refine ⟨fun ex hex arg harg hpass => (h ex hex).1 ⟨arg, harg, hpass⟩,
      fun ex hex _ arg harg hwants => ?_⟩
    obtain ⟨arg', harg', hne, hkind, -⟩ := (h ex hex).2 ⟨arg, harg, hwants⟩
    exact ⟨arg', harg', hne, hkind⟩
  · intro h ex hex
    obtain ⟨hstray, hnameless⟩ := h
    constructor
    · intro hpass
      obtain ⟨arg, harg, hpass⟩ := hpass
      exact hstray ex hex arg harg hpass
    · intro hwants
      obtain ⟨arg, harg, hwants⟩ := hwants
      by_cases hne : arg.name = []
      · -- only a nameless candidate is wanted by an argument without a name
        have hname : ex.name = [] := by
          rcases hwants.2 with hstar | hname
          · rw [hne] at hstar
            cases hstar
          · rw [← hname, hne]
        obtain ⟨arg', harg', hne', hkind⟩ := hnameless ex hex hname arg harg hwants
        refine ⟨arg', harg', hne', hkind, .inl ?_⟩
        rw [hname]
        exact covers_nil _ _
      · exact ⟨arg, harg, passes_of_wants past hne hwants⟩

end

/-- The argument `apply_all:function` exports a function `apply` too, `*x:function` any function;
the function without a name that `:function` asks for is not exported. -/
theorem not_exportsExactly_apply :
    ¬ ExportsExactly (fun _ _ _ => '\x00') [⟨"apply_all:function".toList, []⟩]
        [⟨"apply".toList, WASM_EXTERNAL_FUNCTION, 7⟩] ∧
      ¬ ExportsExactly (fun _ _ _ => '\x00') [⟨"*x:function".toList, []⟩]
        [⟨"apply".toList, WASM_EXTERNAL_FUNCTION, 7⟩] ∧
      ¬ ExportsExactly (fun _ _ _ => '\x00') [⟨":function".toList, []⟩]
        [⟨[], WASM_EXTERNAL_FUNCTION, 7⟩] := by
  unfold ExportsExactly
  decide

end Lld
