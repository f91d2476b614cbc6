import WasmCdt.Base.Text

/-!
# Names of types in an ABI

The functions of `tools/include/wasm/gen.hpp` on the text of a type: the last part of a qualified
name, the translation to the ABI's own names, and the test for the ABI's builtin types.
-/

namespace Cdt

/-- The table of `_translate_type`. -/
def translationTable : List (Text × Text) :=
  [("unsigned __int128", "uint128"), ("__int128", "int128"), ("uint128_t", "uint128"),
   ("int128_t", "int128"), ("unsigned long long", "uint64"), ("long long", "int64"),
   ("uint64_t", "uint64"), ("int64_t", "int64"), ("unsigned long", "uint32"), ("long", "int32"),
   ("unsigned int", "uint32"), ("int", "int32"), ("uint32_t", "uint32"), ("int32_t", "int32"),
   ("unsigned short", "uint16"), ("short", "int16"), ("uint16_t", "uint16"), ("int16_t", "int16"),
   ("unsigned char", "uint8"), ("signed char", "int8"), ("char", "int8"), ("uint8_t", "uint8"),
   ("int8_t", "int8"), ("_Bool", "bool"), ("float", "float32"), ("double", "float64"),
   ("long double", "float128"), ("unsigned_int", "varuint32"), ("signed_int", "varint32"),
   ("block_timestamp", "block_timestamp_type"), ("capi_name", "name"),
   ("capi_public_key", "public_key"), ("capi_signature", "signature"),
   ("capi_checksum160", "checksum160"), ("capi_checksum256", "checksum256"),
   ("capi_checksum512", "checksum512"), ("fixed_bytes_20", "checksum160"),
   ("fixed_bytes_32", "checksum256"), ("fixed_bytes_64", "checksum512")].map
    fun entry => (entry.1.toList, entry.2.toList)

/-- `_translate_type` of a text. -/
def translateText (t : Text) : Text := (translationTable.lookup t).getD t

def builtins : List Text :=
  ["bool", "int8", "uint8", "int16", "uint16", "int32", "uint32", "int64", "uint64", "int128",
   "uint128", "varint32", "varuint32", "float32", "float64", "float128", "time_point",
   "time_point_sec", "name", "bytes", "string", "block_timestamp_type", "checksum160",
   "checksum256", "checksum512", "public_key", "signature", "symbol", "symbol_code", "asset",
   "extended_asset", "hash256"].map String.toList

/-- `is_builtin_type` of a text. -/
def isBuiltinType (t : Text) : Bool := builtins.contains (translateText t)

/-- The characters of `[]`, `?` and `$`. -/
def isDecoration (c : Char) : Bool := c == '[' || c == ']' || c == '?' || c == '$'

/-- The lambda `remove_suffix` of `to_json`. -/
def removeSuffix (name : Text) : Text := (name.reverse.dropWhile isDecoration).reverse

/-! ## Translated names -/

theorem builtin_of_mem_table : ∀ entry ∈ translationTable,
    builtins.contains entry.2 = true ∧ translationTable.lookup entry.2 = none := by
  decide +kernel

theorem isBuiltinType_of_lookup {t n : Text} (h : translationTable.lookup t = some n) :
    isBuiltinType t = true ∧ isBuiltinType n = true := by
  obtain ⟨l₁, l₂, htable, -⟩ := List.lookup_eq_some_iff.1 h
  have hentry : (t, n) ∈ translationTable := by
    rw [htable]
    exact List.mem_append_right _ List.mem_cons_self
  obtain ⟨hmem, hlookup⟩ := builtin_of_mem_table _ hentry
  simp only [isBuiltinType, translateText, h, hlookup, Option.getD_some, Option.getD_none]
  exact ⟨hmem, hmem⟩

/-- A name that is not a builtin type's is its own translation, and no other's. -/
theorem translateText_eq_iff {t n : Text} (h : isBuiltinType n = false) :
    translateText t = n ↔ t = n := by
  rw [translateText]
  cases hlookup : translationTable.lookup t with
  | none => rw [Option.getD_none]
  | some m =>
    obtain ⟨ht, hm⟩ := isBuiltinType_of_lookup hlookup
    rw [Option.getD_some]
    constructor
    · rintro rfl
      simp [hm] at h
    · rintro rfl
      simp [ht] at h

/-- A translation translates to itself. -/
theorem isBuiltinType_translateText (t : Text) :
    isBuiltinType (translateText t) = isBuiltinType t := by
  rw [translateText]
  cases hlookup : translationTable.lookup t with
  | none => rw [Option.getD_none]
  | some m =>
    obtain ⟨ht, hm⟩ := isBuiltinType_of_lookup hlookup
    rw [Option.getD_some, ht, hm]

/-- A name that is not translated into a builtin's is not translated. -/
theorem translateText_eq {t : Text} (h : isBuiltinType (translateText t) = false) :
    translateText t = t := by
  rw [isBuiltinType_translateText] at h
  exact (translateText_eq_iff h).2 rfl

/-! ## Names of builtin types -/

theorem mem_of_isBuiltinType {t : Text} (h : isBuiltinType t = true) :
    t ∈ builtins ++ translationTable.map Prod.fst := by
  rw [isBuiltinType, translateText] at h
  cases hlookup : translationTable.lookup t with
  | none =>
    rw [hlookup, Option.getD_none, List.contains_iff_mem] at h
    exact List.mem_append_left _ h
  | some n =>
    obtain ⟨l₁, l₂, htable, -⟩ := List.lookup_eq_some_iff.1 hlookup
    refine List.mem_append_right _ (List.mem_map.2 ⟨(t, n), ?_, rfl⟩)
    rw [htable]
    exact List.mem_append_right _ List.mem_cons_self

/-- They are not empty, have no decoration, and do not begin like a pair's. -/
theorem builtin_names : ∀ b ∈ builtins ++ translationTable.map Prod.fst,
    b ≠ [] ∧ removeSuffix b = b ∧ "pair_".toList.isPrefixOf b = false := by
  decide +kernel

theorem removeSuffix_of_builtin {t : Text} (h : isBuiltinType t = true) : removeSuffix t = t := by
  obtain ⟨-, hsuffix, -⟩ := builtin_names t (mem_of_isBuiltinType h)
  exact hsuffix

theorem not_builtin_pair (t : Text) : isBuiltinType ("pair_".toList ++ t) = false := by
  refine Bool.eq_false_iff.2 fun h => ?_
  obtain ⟨-, -, hpair⟩ := builtin_names _ (mem_of_isBuiltinType h)
  rw [List.isPrefixOf_iff_prefix.2 (List.prefix_append _ _)] at hpair
  cases hpair

theorem translateText_ne_nil {t : Text} (h : t ≠ []) : translateText t ≠ [] := by
  rw [translateText]
  cases hlookup : translationTable.lookup t with
  | none => exact h
  | some n =>
    obtain ⟨-, hn⟩ := isBuiltinType_of_lookup hlookup
    obtain ⟨hne, -, -⟩ := builtin_names n (mem_of_isBuiltinType hn)
    exact hne

end Cdt
