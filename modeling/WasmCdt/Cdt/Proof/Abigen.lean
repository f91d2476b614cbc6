import WasmCdt.Cdt.Abigen

/-!
# When a written ABI is closed

* `validateStruct_iff`, `validateTypes_iff`: the places where the two tests look.
* `resolves_toJson_iff`: what still resolves in the written document.
* `closed_toJson_iff`: **of a closed ABI a closed document is written exactly when no alternative,
  base, action or table refers to a type that is seen nowhere.**
-/

namespace Cdt

namespace Abi

theorem mem_structRefs {s : AbiStruct} {r : Text} :
    r ∈ structRefs s ↔ s.base ≠ [] ∧ s.base = r ∨ ∃ f ∈ s.fields, f.type = r := by
  rw [structRefs, List.mem_append, List.mem_map]
  refine or_congr_left ?_
  split_ifs with h
  · simp [h]
  · simp [h, eq_comm]

/-- The places of a document that refer to a type. -/
theorem mem_refs {a : Abi} {r : Text} : r ∈ a.refs ↔
    (∃ s ∈ a.structs, s.base ≠ [] ∧ s.base = r) ∨ (∃ s ∈ a.structs, ∃ f ∈ s.fields, f.type = r) ∨
      (∃ td ∈ a.types, td.type = r) ∨ (∃ v ∈ a.variants, r ∈ v.types) ∨
      (∃ x ∈ a.actions, x.type = r) ∨ ∃ t ∈ a.tables, t.type = r := by
  have hstructs : r ∈ a.structs.flatMap structRefs ↔
      (∃ s ∈ a.structs, s.base ≠ [] ∧ s.base = r) ∨ ∃ s ∈ a.structs, ∃ f ∈ s.fields, f.type = r := by
    simp only [List.mem_flatMap, mem_structRefs, and_or_left, exists_or]
  simp only [refs, List.mem_append, hstructs, List.mem_map, List.mem_flatMap, or_assoc]

theorem mem_names {a : Abi} {n : Text} : n ∈ a.names ↔ (∃ s ∈ a.structs, s.name = n) ∨
    (∃ td ∈ a.types, td.newTypeName = n) ∨ ∃ v ∈ a.variants, v.name = n := by
  simp only [names, List.mem_append, List.mem_map, or_assoc]

end Abi

namespace Abigen

/-! ## The two tests -/

/-- **Where `validate_struct` looks.** -/
theorem validateStruct_iff {g : Abigen} {s : AbiStruct} (hs : s ∈ g.structs) :
    g.validateStruct s = true ↔ isBuiltinType s.name = false ∧ g.StructSeen s.name := by
  cases hbuiltin : isBuiltinType s.name with
  | true => simp [validateStruct, isBuiltinType_translateText, hbuiltin]
  | false =>
    have htranslate : ∀ t, (s.name == translateText t) = true ↔ t = s.name := fun t => by
      rw [beq_iff_eq, eq_comm, translateText_eq_iff hbuiltin]
    simp only [validateStruct, isBuiltinType_translateText, hbuiltin, Bool.false_eq_true, if_false,
      Bool.or_eq_true, List.any_eq_true, htranslate, beq_iff_eq, true_and]
    constructor
    · rintro ((((⟨s', hs', (⟨f, hf, h⟩ | ⟨v, hv, vt, hvt, h⟩) | h⟩ | ⟨a, ha, h⟩) | ⟨t, ht, h⟩) |
        ⟨td, htd, h⟩))
      · exact .field hs' hf h
      · exact .alternative hv hvt h
      · exact .base hs' h
      · exact .action ha h
      · exact .table ht h
      · exact .target htd h
    · intro h
      cases h with
      | field hs' hf h => exact .inl (.inl (.inl ⟨_, hs', .inl (.inl ⟨_, hf, h⟩)⟩))
      | base hs' h => exact .inl (.inl (.inl ⟨_, hs', .inr h⟩))
      | alternative hv hvt h => exact .inl (.inl (.inl ⟨s, hs, .inl (.inr ⟨_, hv, _, hvt, h⟩)⟩))
      | action ha h => exact .inl (.inl (.inr ⟨_, ha, h⟩))
      | table ht h => exact .inl (.inr ⟨_, ht, h⟩)
      | target htd h => exact .inr ⟨_, htd, h⟩

/-- **Where `validate_types` looks.** -/
theorem validateTypes_iff {g : Abigen} {td : AbiTypedef} :
    g.validateTypes td = true ↔ g.AliasSeen td.newTypeName := by
  simp only [validateTypes, Bool.or_eq_true, List.any_eq_true, Bool.and_eq_true, beq_iff_eq]
  constructor
  · rintro (((⟨s, hs, hvalid, f, hf, h⟩ | ⟨t, ht, h⟩) | ⟨a, ha, h⟩) | ⟨td', htd, h⟩)
    · obtain ⟨hname, hseen⟩ := (validateStruct_iff hs).1 hvalid
      exact .field hs hname hseen hf h
    · exact .table ht h
    · exact .action ha h
    · exact .target htd h
  · intro h
    cases h with
    | field hs hname hseen hf h =>
      exact .inl (.inl (.inl ⟨_, hs, (validateStruct_iff hs).2 ⟨hname, hseen⟩, _, hf, h⟩))
    | action ha h => exact .inl (.inr ⟨_, ha, h⟩)
    | table ht h => exact .inl (.inl (.inr ⟨_, ht, h⟩))
    | target htd h => exact .inr ⟨_, htd, h⟩

/-! ## The written document -/

theorem mem_structs_toJson {g : Abigen} {s : AbiStruct} : s ∈ g.toJson.structs ↔
    s ∈ g.structs ∧ isBuiltinType s.name = false ∧ g.StructSeen s.name := by
  refine List.mem_filter.trans (and_congr_right fun hs => validateStruct_iff hs)

theorem mem_types_toJson {g : Abigen} {td : AbiTypedef} : td ∈ g.toJson.types ↔
    td ∈ g.typedefs ∧ g.AliasSeen td.newTypeName :=
  List.mem_filter.trans (and_congr_right fun _ => validateTypes_iff)

/-- **What still resolves.** -/
theorem resolves_toJson_iff {g : Abigen} {r : Text} :
    g.toJson.Resolves r ↔ g.Kept (removeSuffix r) := by
  rw [Abi.Resolves, Abi.mem_names, Kept]
  cases hbuiltin : isBuiltinType (removeSuffix r) with
  | true => simp
  | false =>
    have hstruct : (∃ s ∈ g.toJson.structs, s.name = removeSuffix r) ↔
        (∃ s ∈ g.structs, s.name = removeSuffix r) ∧ g.StructSeen (removeSuffix r) := by
      constructor
      · rintro ⟨s, hs, hname⟩
        obtain ⟨hs, -, hseen⟩ := mem_structs_toJson.1 hs
        exact ⟨⟨s, hs, hname⟩, hname ▸ hseen⟩
      · rintro ⟨⟨s, hs, hname⟩, hseen⟩
        exact ⟨s, mem_structs_toJson.2 ⟨hs, hname ▸ hbuiltin, hname ▸ hseen⟩, hname⟩
    have halias : (∃ td ∈ g.toJson.types, td.newTypeName = removeSuffix r) ↔
        (∃ td ∈ g.typedefs, td.newTypeName = removeSuffix r) ∧ g.AliasSeen (removeSuffix r) := by
      constructor
      · rintro ⟨td, htd, hname⟩
        obtain ⟨htd, hseen⟩ := mem_types_toJson.1 htd
        exact ⟨⟨td, htd, hname⟩, hname ▸ hseen⟩
      · rintro ⟨⟨td, htd, hname⟩, hseen⟩
        exact ⟨td, mem_types_toJson.2 ⟨htd, hname ▸ hseen⟩, hname⟩
    have hvariant : (∃ v ∈ g.toJson.variants, v.name = removeSuffix r) ↔
        ∃ v ∈ g.variants, v.name = removeSuffix r := Iff.rfl
    rw [hstruct, halias, hvariant]
    exact or_congr_right or_rotate.symm

/-- What resolves in memory and is seen both as a struct and as an alias is not left out. -/
theorem kept_of_resolves {g : Abigen} {r : Text} (h : g.abi.Resolves r)
    (hstruct : g.StructSeen (removeSuffix r)) (halias : g.AliasSeen (removeSuffix r)) :
    g.Kept (removeSuffix r) := by
  rcases h with h | h
  · exact .inl h
  · rcases Abi.mem_names.1 h with h | h | h
    · exact .inr (.inr (.inl ⟨h, hstruct⟩))
    · exact .inr (.inr (.inr ⟨h, halias⟩))
    · exact .inr (.inl h)

theorem kept_field {g : Abigen} (h : g.abi.Closed) {s : AbiStruct} {f : AbiField}
    (hs : s ∈ g.toJson.structs) (hf : f ∈ s.fields) : g.Kept (removeSuffix f.type) := by
  obtain ⟨hs, hname, hseen⟩ := mem_structs_toJson.1 hs
  have href : f.type ∈ g.abi.refs := Abi.mem_refs.2 (.inr (.inl ⟨s, hs, f, hf, rfl⟩))
  exact kept_of_resolves (h _ href) (.field hs hf rfl) (.field hs hname hseen hf rfl)

theorem kept_target {g : Abigen} (h : g.abi.Closed) {td : AbiTypedef}
    (htd : td ∈ g.toJson.types) : g.Kept (removeSuffix td.type) := by
  obtain ⟨htd, -⟩ := mem_types_toJson.1 htd
  have href : td.type ∈ g.abi.refs := Abi.mem_refs.2 (.inr (.inr (.inl ⟨td, htd, rfl⟩)))
  exact kept_of_resolves (h _ href) (.target htd rfl) (.target htd rfl)

/-- **What is written of a closed ABI is closed exactly when no alternative, base, action or table
refers to a type that is seen nowhere.** Fields and targets of aliases are always looked at. -/
theorem closed_toJson_iff {g : Abigen} (h : g.abi.Closed) :
    g.toJson.Closed ↔ g.NoneOverlooked := by
  constructor
  · intro hclosed
    have hkept : ∀ r ∈ g.toJson.refs, g.Kept (removeSuffix r) :=
      fun r hr => resolves_toJson_iff.1 (hclosed r hr)
    constructor
    · intro v hv vt hvt
      exact hkept vt (Abi.mem_refs.2 (.inr (.inr (.inr (.inl ⟨v, hv, hvt⟩)))))
    · intro s hs hname hseen hbase
      have hmem : s ∈ g.toJson.structs := mem_structs_toJson.2 ⟨hs, hname, hseen⟩
      exact hkept s.base (Abi.mem_refs.2 (.inl ⟨s, hmem, hbase, rfl⟩))
    · intro a ha
      exact hkept a.type (Abi.mem_refs.2 (.inr (.inr (.inr (.inr (.inl ⟨a, ha, rfl⟩))))))
    · intro t ht
      have hmem : tableToJson t ∈ g.toJson.tables := List.mem_map_of_mem ht
      exact hkept t.type (Abi.mem_refs.2 (.inr (.inr (.inr (.inr (.inr ⟨_, hmem, rfl⟩))))))
  · rintro ⟨halternative, hbase, haction, htable⟩ r hr
    rw [resolves_toJson_iff]
    rcases Abi.mem_refs.1 hr with ⟨s, hs, hne, rfl⟩ | ⟨s, hs, f, hf, rfl⟩ | ⟨td, htd, rfl⟩ |
      ⟨v, hv, hvt⟩ | ⟨a, ha, rfl⟩ | ⟨t, ht, rfl⟩
    · obtain ⟨hs, hname, hseen⟩ := mem_structs_toJson.1 hs
      exact hbase s hs hname hseen hne
    · exact kept_field h hs hf
    · exact kept_target h htd
    · exact halternative v hv r hvt
    · exact haction a ha
    · obtain ⟨u, hu, rfl⟩ := List.mem_map.1 ht
      exact htable u hu

/-- What is in memory of `typedef uint64_t my_int` and an action `act(std::variant<my_int, int32_t> v)`
with the given further parameters. -/
def aliasInVariant (params : List AbiField) : Abigen where
  version := "wasm::abi/1.1".toList
  structs := KeyedSet.empty.insert ⟨"act".toList, [],
    ⟨"v".toList, "variant_my_int_int32".toList⟩ :: params⟩
  typedefs := KeyedSet.empty.insert ⟨"my_int".toList, "uint64".toList⟩
  actions := KeyedSet.empty.insert ⟨"act".toList, "act".toList, []⟩
  tables := KeyedSet.empty
  variants := KeyedSet.empty.insert ⟨"variant_my_int_int32".toList,
    ["my_int".toList, "int32".toList]⟩
  ricardianClauses := []
  ctables := KeyedSet.empty

/-- With a parameter `my_int w` the alias is seen. -/
theorem closed_toJson_sample :
    (aliasInVariant [⟨"w".toList, "my_int".toList⟩]).toJson.Closed ↔
      (aliasInVariant [⟨"w".toList, "my_int".toList⟩]).NoneOverlooked :=
  closed_toJson_iff (by decide +kernel)

/-- An alias that only a variant refers to is left out. -/
theorem not_closed_toJson : ¬ ∀ g : Abigen, g.abi.Closed → g.toJson.Closed :=
  fun h => absurd (h (aliasInVariant []) (by decide +kernel)) (by decide +kernel)

end Abigen

end Cdt
