import WasmCdt.Contracts.Keys
import WasmCdt.Contracts.Proof.Db

/-!
# Which tables keep their keys apart

A row's key is the table's name and the encoded primary key; an entry's is the prefix, the name of
the index and the encoded secondary key. The name of an index has the number of the index in place
of the thirteenth character of the table's name.

* `DbKey.bytes_eq`: the bytes of a key from what it stands for.
* `separated_iff`: **the keys of two tables are apart unless one table is named like the prefix, or
  the names differ in the thirteenth character only.**
* `row_meets_entry`, `entry_meets_entry`: the two ways to collide.
-/

namespace Wasmlib.Db

/-! ## From labels to bytes -/

/-- The bytes of a key, from what it stands for. -/
def Label.bytes : Label → List UInt8
  | ⟨table, none, value⟩ => littleEndian 8 table.toNat ++ value
  | ⟨table, some number, value⟩ =>
    littleEndian 8 SECONDARY_KEY_PREFIX.toNat ++
      (littleEndian 8 (namePart table ||| (BitVec.ofNat 64 number &&& 0xF)).toNat ++ value)

theorem encoding_int (n : Nat) (x : BitVec (8 * n)) :
    (Serial.int n).encoding x = littleEndian n x.toNat := rfl

theorem encoding_nil : Serial.nil.encoding () = [] := rfl

theorem namePart_indexName (name number : BitVec (8 * 8)) :
    namePart (namePart name ||| (number &&& 0xF)) = namePart name := by
  have hmask : (0xF : BitVec (8 * 8)) &&& 0xFFFFFFFFFFFFFFF0 = 0#(8 * 8) := by decide
  rw [namePart, BitVec.and_or_distrib_right, BitVec.and_assoc number, hmask, BitVec.and_zero,
    BitVec.or_zero, namePart, BitVec.and_assoc, BitVec.and_self]

theorem littleEndian_name_inj {x y : BitVec (8 * 8)} {u v : List UInt8}
    (h : littleEndian 8 x.toNat ++ u = littleEndian 8 y.toNat ++ v) : x = y ∧ u = v := by
  have hlen : (littleEndian 8 x.toNat).length = (littleEndian 8 y.toNat).length := by
    rw [littleEndian_length, littleEndian_length]
  obtain ⟨hname, hrest⟩ := List.append_inj h hlen
  exact ⟨BitVec.eq_of_toNat_eq (Table.littleEndian_inj x.isLt y.isLt hname), hrest⟩

namespace DbKey

/-- The encoding of the tuple that is packed. -/
def encoding : DbKey → List UInt8
  | .row table primary => table.rowKeyTy.serial.encoding (table.tableName, primary, ())
  | .entry table idx secondary => (Table.secondaryTy idx).serial.encoding
    (SECONDARY_KEY_PREFIX, table.indexTableName idx.number, secondary, ())

theorem encoding_eq : ∀ k : DbKey, k.encoding = k.label.bytes
  | .row table primary => by
    have hkey := table.primary.chunked
    change (Serial.cons (.int 8) (.cons table.primary.serial .nil)).encoding _ = _
    rw [(Chunked.int 8).encoding_cons (hkey.cons .nil), hkey.encoding_cons .nil, encoding_int,
      encoding_nil, List.append_nil]
    rfl
  | .entry table idx secondary => by
    have hkey := idx.key.chunked
    change (Serial.cons (.int 8) (.cons (.int 8) (.cons idx.key.serial .nil))).encoding _ = _
    rw [(Chunked.int 8).encoding_cons ((Chunked.int 8).cons (hkey.cons .nil)),
      (Chunked.int 8).encoding_cons (hkey.cons .nil), hkey.encoding_cons .nil, encoding_int,
      encoding_int, encoding_nil, List.append_nil]
    rfl

theorem bytes_eq {k : DbKey} {bytes : List UInt8} (h : k.bytes = .ok bytes) :
    bytes = k.label.bytes := by
  rw [← encoding_eq]
  cases k with
  | row table primary => exact (Ty.chunked _).pack_sound h
  | entry table idx secondary => exact (Ty.chunked _).pack_sound h

theorem bytes_of_short {k : DbKey} (h : k.label.bytes.length < 2 ^ 31) :
    k.bytes = .ok k.label.bytes := by
  rw [← encoding_eq] at h ⊢
  cases k with
  | row table primary => exact ((Ty.chunked _).passes_agree h).2.2
  | entry table idx secondary => exact ((Ty.chunked _).passes_agree h).2.2

end DbKey

/-! ## From bytes to labels -/

namespace Label

variable {t t' : BitVec (8 * 8)} {i i' : Nat} {v v' : List UInt8}

theorem row_inj (h : (⟨t, none, v⟩ : Label).bytes = (⟨t', none, v'⟩ : Label).bytes) :
    t = t' ∧ v = v' := littleEndian_name_inj h

theorem prefix_of_row_eq_entry
    (h : (⟨t, none, v⟩ : Label).bytes = (⟨t', some i, v'⟩ : Label).bytes) :
    t = SECONDARY_KEY_PREFIX := (littleEndian_name_inj h).1

theorem entry_inj (hi : i < 16) (hi' : i' < 16)
    (h : (⟨t, some i, v⟩ : Label).bytes = (⟨t', some i', v'⟩ : Label).bytes) :
    namePart t = namePart t' ∧ i = i' ∧ v = v' := by
  obtain ⟨hname, hvalue⟩ := littleEndian_name_inj (littleEndian_name_inj h).2
  refine ⟨?_, ?_, hvalue⟩
  · have hhigh := congrArg namePart hname
    rwa [namePart_indexName, namePart_indexName] at hhigh
  · have hlow := Table.indexName_low t hi
    change ((namePart t ||| _) &&& _).toNat = i at hlow
    rw [hname] at hlow
    exact hlow.symm.trans (Table.indexName_low t' hi')

end Label

/-! ## Keys that collide -/

/-- A table with this name and primary key type; its objects do not matter. -/
def bareTable {Pk : Type} (name : BitVec (8 * 8)) (primary : Ty Pk) (primaryKey : Pk) :
    Table Unit Pk where
  tableName := name
  object := .tuple .nil
  primary := primary
  primaryKey _ := primaryKey
  indices := []

/-- An entry of the index `number`, with a number as its secondary key. -/
def numberEntry (name : BitVec (8 * 8)) (number : Nat) (secondary : BitVec (8 * 8)) : DbKey :=
  .entry (bareTable name (.int 8) 0)
    ⟨⟨1, BitVec (8 * 8), inferInstance, .int 8, fun _ => secondary⟩, number⟩ secondary

/-- A row with two numbers as its primary key. -/
def pairRow (name : BitVec (8 * 8)) (first second : BitVec (8 * 8)) : DbKey :=
  .row (bareTable name (.tuple (.cons (.int 8) (.cons (.int 8) .nil))) (first, second, ()))
    (first, second, ())

theorem label_numberEntry (name : BitVec (8 * 8)) (number : Nat) (secondary : BitVec (8 * 8)) :
    (numberEntry name number secondary).label =
      ⟨name, some number, littleEndian 8 secondary.toNat⟩ := rfl

theorem label_pairRow (name first second : BitVec (8 * 8)) :
    (pairRow name first second).label =
      ⟨name, none, littleEndian 8 first.toNat ++ (littleEndian 8 second.toNat ++ [])⟩ := by
  change Label.mk name none ((Serial.cons (.int 8) (.cons (.int 8) .nil)).encoding _) = _
  rw [(Chunked.int 8).encoding_cons ((Chunked.int 8).cons .nil), (Chunked.int 8).encoding_cons .nil]
  rfl

theorem bytes_numberEntry (name : BitVec (8 * 8)) (number : Nat) (secondary : BitVec (8 * 8)) :
    (numberEntry name number secondary).bytes =
      .ok (numberEntry name number secondary).label.bytes := by
  refine DbKey.bytes_of_short ?_
  simp [label_numberEntry, Label.bytes, littleEndian_length]

theorem bytes_pairRow (name first second : BitVec (8 * 8)) :
    (pairRow name first second).bytes = .ok (pairRow name first second).label.bytes := by
  refine DbKey.bytes_of_short ?_
  simp [label_pairRow, Label.bytes, littleEndian_length]

/-- A table named like the prefix has a row with the key of an entry of any table. -/
theorem row_meets_entry (name : BitVec (8 * 8)) (number : Nat) :
    ∃ bytes, (numberEntry name number 0).bytes = .ok bytes ∧ (pairRow SECONDARY_KEY_PREFIX
      (namePart name ||| (BitVec.ofNat 64 number &&& 0xF)) 0).bytes = .ok bytes := by
  refine ⟨_, bytes_numberEntry name number 0, ?_⟩
  rw [bytes_pairRow, label_pairRow, label_numberEntry]
  simp only [Label.bytes, List.append_nil]

/-- Tables whose names differ in the thirteenth character only have entries with one key. -/
theorem entry_meets_entry {name name' : BitVec (8 * 8)} (h : namePart name = namePart name')
    (number : Nat) : ∃ bytes, (numberEntry name number 0).bytes = .ok bytes ∧
      (numberEntry name' number 0).bytes = .ok bytes := by
  refine ⟨_, bytes_numberEntry name number 0, ?_⟩
  rw [bytes_numberEntry, label_numberEntry, label_numberEntry]
  simp only [Label.bytes, h]

/-! ## Keys that are apart -/

section

variable {t₁ t₂ : BitVec (8 * 8)} {i₁ i₂ : Nat}

theorem Apart.ne_of_mem (h : Apart t₁ t₂ i₁ i₂) {k : DbKey} (hk : k.Of t₁ i₁ ∨ k.Of t₂ i₂) :
    k.label.table ≠ SECONDARY_KEY_PREFIX := by
  rcases hk with hk | hk
  · rw [hk.1]
    exact h.left
  · rw [hk.1]
    exact h.right

/-- The entries of the two indices have one table if the part of its name in the key is one. -/
theorem Apart.entry_table (h : Apart t₁ t₂ i₁ i₂) {k k' : DbKey} {i : Nat}
    (hk : k.Of t₁ i₁ ∨ k.Of t₂ i₂) (hk' : k'.Of t₁ i₁ ∨ k'.Of t₂ i₂)
    (hi : k.label.index = some i) (hi' : k'.label.index = some i)
    (hname : namePart k.label.table = namePart k'.label.table) :
    k.label.table = k'.label.table := by
  have index_eq {k : DbKey} {t : BitVec (8 * 8)} {j : Nat} (hk : k.Of t j)
      (hi : k.label.index = some i) : i = j := by
    rcases hk.2 with hnone | hsome
    · rw [hi] at hnone
      cases hnone
    · exact Option.some.inj (hi.symm.trans hsome)
  rcases hk with hk | hk <;> rcases hk' with hk' | hk' <;> rw [hk.1, hk'.1] at hname ⊢
  · exact h.indices hname ((index_eq hk hi).symm.trans (index_eq hk' hi'))
  · exact (h.indices hname.symm ((index_eq hk' hi').symm.trans (index_eq hk hi))).symm

theorem index_lt (h₁ : i₁ < 16) (h₂ : i₂ < 16) {k : DbKey} {i : Nat}
    (hk : k.Of t₁ i₁ ∨ k.Of t₂ i₂) (hi : k.label.index = some i) : i < 16 := by
  rcases hk with ⟨-, hk⟩ | ⟨-, hk⟩ <;> rw [hi] at hk <;> rcases hk with hk | hk <;> cases hk
  · exact h₁
  · exact h₂

/-- Apart tables: the bytes of a key determine what it stands for. -/
theorem Apart.separated (h : Apart t₁ t₂ i₁ i₂) (h₁ : i₁ < 16) (h₂ : i₂ < 16) :
    Separated t₁ t₂ i₁ i₂ := by
  intro k k' hk hk' bytes hbytes hbytes'
  have heq : k.label.bytes = k'.label.bytes :=
    (DbKey.bytes_eq hbytes).symm.trans (DbKey.bytes_eq hbytes')
  have hne := h.ne_of_mem hk
  have hne' := h.ne_of_mem hk'
  have htable {i : Nat} := h.entry_table (i := i) hk hk'
  have hlt {i : Nat} := index_lt (i := i) h₁ h₂ hk
  have hlt' {i : Nat} := index_lt (i := i) h₁ h₂ hk'
  generalize k.label = l at heq hne htable hlt
  generalize k'.label = l' at heq hne' htable hlt'
  obtain ⟨t, i, v⟩ := l
  obtain ⟨t', i', v'⟩ := l'
  cases i with
  | none =>
    cases i' with
    | none =>
      obtain ⟨rfl, rfl⟩ := Label.row_inj heq
      rfl
    | some i' => exact absurd (Label.prefix_of_row_eq_entry heq) hne
  | some i =>
    cases i' with
    | none => exact absurd (Label.prefix_of_row_eq_entry heq.symm) hne'
    | some i' =>
      obtain ⟨hname, rfl, rfl⟩ := Label.entry_inj (hlt rfl) (hlt' rfl) heq
      obtain rfl : t = t' := htable rfl rfl hname
      rfl

theorem Separated.left (h : Separated t₁ t₂ i₁ i₂) : t₁ ≠ SECONDARY_KEY_PREFIX := by
  rintro rfl
  obtain ⟨bytes, hentry, hrow⟩ := row_meets_entry SECONDARY_KEY_PREFIX i₁
  have hlabel := h _ _ (.inl ⟨rfl, .inr rfl⟩) (.inl ⟨rfl, .inl rfl⟩) bytes hentry hrow
  exact absurd (congrArg Label.index hlabel) nofun

theorem Separated.right (h : Separated t₁ t₂ i₁ i₂) : t₂ ≠ SECONDARY_KEY_PREFIX := by
  rintro rfl
  obtain ⟨bytes, hentry, hrow⟩ := row_meets_entry t₁ i₁
  have hlabel := h _ _ (.inl ⟨rfl, .inr rfl⟩) (.inr ⟨rfl, .inl rfl⟩) bytes hentry hrow
  exact absurd (congrArg Label.index hlabel) nofun

theorem Separated.indices (h : Separated t₁ t₂ i₁ i₂) (hname : namePart t₁ = namePart t₂)
    (hi : i₁ = i₂) : t₁ = t₂ := by
  subst hi
  obtain ⟨bytes, hentry, hentry'⟩ := entry_meets_entry hname i₁
  have hlabel := h _ _ (.inl ⟨rfl, .inr rfl⟩) (.inr ⟨rfl, .inr rfl⟩) bytes hentry hentry'
  exact congrArg Label.table hlabel

/-- **Keys are separated exactly when the tables are apart.** -/
theorem separated_iff (h₁ : i₁ < 16) (h₂ : i₂ < 16) :
    Separated t₁ t₂ i₁ i₂ ↔ Apart t₁ t₂ i₁ i₂ :=
  ⟨fun h => ⟨h.left, h.right, h.indices⟩, fun h => h.separated h₁ h₂⟩

end

theorem separated_iff_sample :
    Separated 0x10 0x20 0 15 ↔ Apart 0x10 0x20 0 15 := separated_iff (by decide) (by decide)

/-- `"aaaaaaaaaaaa1"_n` and `"aaaaaaaaaaaa2"_n`, each with its first index; `"____________j"_n`. -/
theorem not_separated :
    ¬Separated 0x318C6318C6318C61 0x318C6318C6318C62 0 0 ∧ ¬Separated 0xF 0x10 0 0 := by
  constructor
  · intro h
    exact absurd (h.indices (by decide) rfl) (by decide)
  · intro h
    exact h.left rfl

end Wasmlib.Db
