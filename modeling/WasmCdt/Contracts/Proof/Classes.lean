import WasmCdt.Contracts.Classes
import WasmCdt.Contracts.Proof.Keys
import WasmCdt.Contracts.Proof.Table

/-!
# Tables of classes of a fixed size

A type of a fixed size packs every value, and a table of such objects is a map: `get` finds what
`emplace` and `modify` have written, at a key that gives away table, scope and primary key.
-/

namespace Wasmlib

variable {α β ρ σ : Type}

/-- Every value is packed to `n` bytes, and comes back from them over any object. -/
structure Ty.Fixed (t : Ty α) (n : Nat) : Prop where
  bounded : ∀ v, t.format.Bounded v
  fits : ∀ t' v, t.format.Fits t' v
  length : ∀ v, (t.format.bytes v).length = n

/-- The members, one after the other. -/
structure Types.Fixed (ts : Types ρ σ) (n : Nat) : Prop where
  bounded : ∀ v, ts.productFormat.Bounded v
  fits : ∀ t' v, ts.productFormat.Fits t' v
  length : ∀ v, (ts.productFormat.bytes v).length = n

namespace Ty.Fixed

theorem int (n : Nat) : (Ty.int n).Fixed n :=
  ⟨fun _ => trivial, fun _ _ => trivial, fun _ => littleEndian_length n _⟩

theorem struct {ts : Types ρ σ} {n : Nat} (h : ts.Fixed n) (init : ρ) : (Ty.struct ts init).Fixed n :=
  ⟨h.bounded, h.fits, h.length⟩

theorem tuple {ts : Types ρ σ} {n : Nat} (h : ts.Fixed n) : (Ty.tuple ts).Fixed n :=
  ⟨h.bounded, h.fits, h.length⟩

theorem packs {t : Ty α} {n : Nat} (h : t.Fixed n) (hn : n < 2 ^ 31) (v : α) : t.Packs v :=
  ⟨h.bounded v, h.fits _ v, by rwa [h.length]⟩

theorem ne_nil {t : Ty α} {n : Nat} (h : t.Fixed n) (hn : 0 < n) (v : α) : t.format.bytes v ≠ [] := by
  rw [← List.length_pos_iff, h.length]
  exact hn

end Ty.Fixed

namespace Types.Fixed

theorem nil : Types.nil.Fixed 0 := ⟨fun _ => trivial, fun _ _ => trivial, fun _ => rfl⟩

theorem cons {t : Ty α} {ts : Types ρ σ} {n m : Nat} (h : t.Fixed n) (hs : ts.Fixed m) :
    (Types.cons t ts).Fixed (n + m) where
  bounded v := ⟨h.bounded v.1, hs.bounded v.2⟩
  fits t' v := ⟨h.fits t'.1 v.1, hs.fits t'.2 v.2⟩
  length v := (List.length_append ..).trans (congrArg₂ (· + ·) (h.length v.1) (hs.length v.2))

end Types.Fixed

theorem Class.regid_fixed : Class.regid.ty.Fixed 8 := .struct (.cons (.int 8) .nil) _

theorem Class.asset_fixed : Class.asset.ty.Fixed 16 := .struct (.cons (.int 8) (.cons (.int 8) .nil)) _

namespace Scoped

namespace ClassTable

variable {T T' Pk : Type} (table : ClassTable T Pk)

/-- The key of a row, told at once. -/
def rowKey (primary : Pk) : List UInt8 :=
  littleEndian 8 table.tableName.value.toNat ++
    (littleEndian 8 table.scope.toNat ++ table.primary.format.bytes primary)

/-- What a row holds. -/
def row (obj : T) : List UInt8 := table.cls.ty.format.bytes (table.cls.members obj)

/-- The objects and the primary keys are of fixed sizes, that of the objects not 0. -/
structure Fixed : Prop where
  object : ∃ n, table.cls.ty.Fixed n ∧ 0 < n ∧ n < 2 ^ 31
  primary : ∃ n, table.primary.Fixed n ∧ n + 16 < 2 ^ 31

namespace Fixed

variable {table} {s : Db.Store} {obj obj' : T} {primary primary' : Pk}
  {f : T → Exec T} {absent : OnAbsent}

theorem packRowKey_eq (h : table.Fixed) (primary : Pk) :
    table.rows.packRowKey primary = .ok (table.rowKey primary) := by
  obtain ⟨n, hprimary, hn⟩ := h.primary
  have hkey : table.rows.rowKeyTy.Fixed (8 + (8 + (n + 0))) :=
    .tuple (.cons (.int 8) (.cons (.int 8) (.cons hprimary .nil)))
  have hpack := (hkey.packs (by omega) (table.tableName.value, table.scope, primary, ())).pack_eq
  refine hpack.trans (congrArg Except.ok ?_)
  change _ ++ (_ ++ (_ ++ [])) = _
  rw [List.append_nil]
  rfl

theorem packRow_eq (h : table.Fixed) (obj : T) :
    table.cls.ty.pack (table.cls.members obj) = .ok (table.row obj) := by
  obtain ⟨n, hobject, -, hn⟩ := h.object
  exact (hobject.packs hn _).pack_eq

theorem unpackRow_eq (h : table.Fixed) (obj : T) :
    table.cls.ty.unpack (table.row obj) = .ok (table.cls.members obj) := by
  obtain ⟨n, hobject, -, hn⟩ := h.object
  exact (hobject.packs hn _).unpack_eq

/-- **The key of a row tells its table, its scope and its primary key.** -/
theorem rowKey_inj (h : table.Fixed) (table' : ClassTable T' Pk) (hty : table.primary = table'.primary)
    (heq : table.rowKey primary = table'.rowKey primary') :
    table.tableName = table'.tableName ∧ table.scope = table'.scope ∧ primary = primary' := by
  obtain ⟨n, hprimary, hn⟩ := h.primary
  obtain ⟨hname, hrest⟩ := Db.littleEndian_name_inj heq
  obtain ⟨hscope, hkey⟩ := Db.littleEndian_name_inj hrest
  rw [← hty] at hkey
  refine ⟨?_, hscope, (hprimary.packs (by omega) primary).bytes_inj (hprimary.packs (by omega) primary') hkey⟩
  cases hn : table.tableName
  cases hn' : table'.tableName
  rw [hn, hn'] at hname
  exact congrArg Name.mk hname

/-! ### Operations -/

theorem get_of_row (h : table.Fixed) (hrow : s (table.rowKey primary) = some (table.row obj)) :
    table.get primary s = .ok (some obj) := by
  obtain ⟨n, hobject, hpos, -⟩ := h.object
  have hlen : (table.row obj).length ≠ 0 := by
    rw [row, hobject.length]
    omega
  have hunpack : table.rows.object.unpack (table.row obj) = .ok (table.cls.members obj) :=
    h.unpackRow_eq obj
  simp only [ClassTable.get, Table.get, h.packRowKey_eq, ok_bind, Db.dbGet, hrow, Option.getD_some,
    if_neg hlen, hunpack, pure_eq_ok, Option.map_some, Class.ofMembers_members]

theorem get_of_none (h : table.Fixed) (hrow : s (table.rowKey primary) = none) :
    table.get primary s = .ok none := by
  simp only [ClassTable.get, Table.get, h.packRowKey_eq, ok_bind, Db.dbGet, hrow, Option.getD_none,
    List.length_nil, ↓reduceIte, pure_eq_ok, Option.map_none]

theorem emplace_eq (h : table.Fixed) (obj : T)
    (hf : f (table.cls.ofMembers table.cls.ty.serial.make) = .ok obj) :
    table.emplace f s =
      .ok (Function.update s (table.rowKey (table.primaryKey obj)) (some (table.row obj))) := by
  have hmembers : table.onMembers f table.rows.object.serial.make = .ok (table.cls.members obj) := by
    change table.onMembers f table.cls.ty.serial.make = _
    rw [onMembers, hf]
    rfl
  have hpack : table.rows.object.pack (table.cls.members obj) = .ok (table.row obj) := h.packRow_eq obj
  have hkey : table.rows.primaryKey (table.cls.members obj) = table.primaryKey obj :=
    congrArg table.primaryKey (table.cls.ofMembers_members obj)
  simp only [emplace, Table.emplace, hmembers, ok_bind, hkey, h.packRowKey_eq, hpack, pure_eq_ok,
    Db.dbStore]

theorem emplace_error (f : T → Exec T) {e : Stop}
    (hf : f (table.cls.ofMembers table.cls.ty.serial.make) = .error e) :
    table.emplace f s = .error e := by
  have hmembers : table.onMembers f table.rows.object.serial.make = .error e := by
    change table.onMembers f table.cls.ty.serial.make = _
    rw [onMembers, hf]
    rfl
  simp only [emplace, Table.emplace, hmembers, error_bind]

/-- A row that is there is written over by what `updater` has made of the object. -/
theorem modify_eq (h : table.Fixed) (obj' : T)
    (hrow : s (table.rowKey (table.primaryKey obj')) ≠ none) (hf : f obj = .ok obj') : table.modify absent obj f s =
      .ok (Function.update s (table.rowKey (table.primaryKey obj')) (some (table.row obj'))) := by
  have hmembers : table.onMembers f (table.cls.members obj) = .ok (table.cls.members obj') := by
    rw [onMembers, Class.ofMembers_members, hf]
    rfl
  have hkey : table.rows.packRowKey (table.rows.primaryKey (table.cls.members obj')) =
      .ok (table.rowKey (table.primaryKey obj')) := by
    change table.rows.packRowKey (table.primaryKey (table.cls.ofMembers _)) = _
    rw [Class.ofMembers_members, h.packRowKey_eq]
  rw [modify, Table.modify_eq hmembers hkey (h.packRow_eq obj')]
  obtain ⟨value, hvalue⟩ := Option.ne_none_iff_exists'.1 hrow
  simp only [dbUpdate, hvalue, pure_eq_ok]

theorem modify_error (f : T → Exec T) {e : Stop} (hf : f obj = .error e) :
    table.modify absent obj f s = .error e := by
  have hmembers : table.onMembers f (table.cls.members obj) = .error e := by
    rw [onMembers, Class.ofMembers_members, hf]
    rfl
  simp only [modify, Table.modify, hmembers, error_bind]

theorem erase_eq (h : table.Fixed) :
    table.erase obj s = .ok (Function.update s (table.rowKey (table.primaryKey obj)) none) := by
  simp only [erase, Table.erase, h.packRowKey_eq, ok_bind, pure_eq_ok, Db.dbRemove]

/-! ### Frames -/

variable {s' : Db.Store} {k : List UInt8}

theorem emplace_frame (h : table.Fixed) (hrun : table.emplace f s = .ok s')
    (hk : ∀ primary, k ≠ table.rowKey primary) : s' k = s k := by
  obtain ⟨obj, -, hrun⟩ := bind_eq_ok hrun
  obtain ⟨key, hkey, hrun⟩ := bind_eq_ok hrun
  obtain ⟨value, -, hrun⟩ := bind_eq_ok hrun
  rw [h.packRowKey_eq, Except.ok.injEq] at hkey
  rw [pure_eq_ok, Except.ok.injEq] at hrun
  rw [← hrun, ← hkey, Db.dbStore, Function.update_of_ne (hk _)]

theorem modify_frame (h : table.Fixed) (hrun : table.modify absent obj f s = .ok s')
    (hk : ∀ primary, k ≠ table.rowKey primary) : s' k = s k := by
  obtain ⟨obj', -, hrun⟩ := bind_eq_ok hrun
  obtain ⟨key, hkey, hrun⟩ := bind_eq_ok hrun
  obtain ⟨value, -, hrun⟩ := bind_eq_ok hrun
  rw [h.packRowKey_eq, Except.ok.injEq] at hkey
  have hne : k ≠ key := by
    rw [← hkey]
    exact hk _
  unfold dbUpdate at hrun
  split at hrun
  · rw [pure_eq_ok, Except.ok.injEq] at hrun
    rw [← hrun, Function.update_of_ne hne]
  · cases absent with
    | insert =>
      cases hrun
      exact Function.update_of_ne hne _ _
    | ignore =>
      cases hrun
      rfl
    | abort e => cases hrun

theorem erase_frame (h : table.Fixed) (hrun : table.erase obj s = .ok s')
    (hk : ∀ primary, k ≠ table.rowKey primary) : s' k = s k := by
  obtain ⟨key, hkey, hrun⟩ := bind_eq_ok hrun
  rw [h.packRowKey_eq, Except.ok.injEq] at hkey
  rw [pure_eq_ok, Except.ok.injEq] at hrun
  rw [← hrun, ← hkey, Db.dbRemove, Function.update_of_ne (hk _)]

end Fixed

end ClassTable

end Scoped

end Wasmlib
