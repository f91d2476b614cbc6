import WasmCdt.Contracts.Table

/-!
# Rows keep their identity

`modify` packs the primary key of the object as the contract has changed it, so that the row that it
writes may be another one.

* `replaces_iff`: what it is to replace a row.
* `modify_iff`: **exactly when a call replaces the row of its object.**
-/

namespace Wasmlib.Scoped

namespace Table

variable {Obj Pk : Type} {table : Table Obj Pk} {absent : OnAbsent} {obj obj' : Obj} {s s' : Db.Store}
  {key value value' : List UInt8} {updater : Obj → Exec Obj}

/-- To replace a stored row is to write to its key. -/
theorem replaces_iff (hkey : table.packRowKey (table.primaryKey obj) = .ok key)
    (hrow : s key = some value) (hvalue : table.object.pack obj' = .ok value') :
    table.Replaces obj obj' s s' ↔ s' = Function.update s key (some value') := by
  constructor
  · rintro ⟨⟨k, v, hk, hv, hself, hothers⟩, -⟩
    rw [hkey, Except.ok.injEq] at hk
    rw [hvalue, Except.ok.injEq] at hv
    subst hk hv
    exact Function.eq_update_iff.2 ⟨hself, hothers⟩
  · rintro rfl
    refine ⟨⟨key, value', hkey, hvalue, Function.update_self _ _ _, fun k hk =>
      Function.update_of_ne hk _ _⟩, fun k => ?_⟩
    rcases eq_or_ne k key with rfl | hne
    · rw [Function.update_self, hrow]
      exact iff_of_false (Option.some_ne_none _) (Option.some_ne_none _)
    · rw [Function.update_of_ne hne]

/-- What `db_update` may do. -/
theorem dbUpdate_eq (absent : OnAbsent) (key value : List UInt8) (s : Db.Store) :
    dbUpdate absent key value s = .ok (Function.update s key (some value)) ∧
        (s key = none → absent = .insert) ∨
      s key = none ∧ (absent = .ignore ∧ dbUpdate absent key value s = .ok s ∨
        ∃ e, absent = .abort e ∧ dbUpdate absent key value s = .error e) := by
  unfold dbUpdate
  cases hkey : s key with
  | some w => exact .inl ⟨rfl, fun h => by cases h⟩
  | none =>
    cases absent with
    | insert => exact .inl ⟨rfl, fun _ => rfl⟩
    | ignore => exact .inr ⟨rfl, .inl ⟨rfl, rfl⟩⟩
    | abort e => exact .inr ⟨rfl, .inr ⟨e, rfl, rfl⟩⟩

theorem modify_eq {key' : List UInt8} (hupdater : updater obj = .ok obj')
    (hkey : table.packRowKey (table.primaryKey obj') = .ok key')
    (hvalue : table.object.pack obj' = .ok value') :
    table.modify absent obj updater s = dbUpdate absent key' value' s := by
  simp only [modify, hupdater, hkey, hvalue, ok_bind]

/-- When `db_update` of one key does what an update of another, stored, one does. -/
theorem dbUpdate_iff {key' : List UInt8} (hrow : s key = some value) :
    (∀ s', dbUpdate absent key' value' s = .ok s' → s' = Function.update s key (some value')) ↔
      key' = key ∨ s key' = some value' ∧ s key = some value' ∨
        s key' = none ∧ ((∃ e, absent = .abort e) ∨ absent = .ignore ∧ s key = some value') := by
  rcases dbUpdate_eq absent key' value' s with ⟨hok, hinsert⟩ | ⟨hnone, ⟨hignore, hok⟩ | ⟨e, habort, hok⟩⟩
  · have hwrites : (∀ s', dbUpdate absent key' value' s = .ok s' →
        s' = Function.update s key (some value')) ↔
        Function.update s key' (some value') = Function.update s key (some value') := by
      simp only [hok, Except.ok.injEq, forall_eq']
    have hinserts : ¬(s key' = none ∧
        ((∃ e, absent = .abort e) ∨ absent = .ignore ∧ s key = some value')) := by
      rintro ⟨hnone, ⟨e, habort⟩ | ⟨hignore, -⟩⟩
      · rw [hinsert hnone] at habort
        cases habort
      · rw [hinsert hnone] at hignore
        cases hignore
    rw [hwrites, KvStore.update_eq_update_iff, or_iff_left hinserts]
  · constructor
    · intro hwrites
      refine .inr (.inr ⟨hnone, .inr ⟨hignore, ?_⟩⟩)
      exact (congrFun (hwrites s hok) key).trans (Function.update_self _ _ _)
    · intro hcases s' hs'
      rw [hok, Except.ok.injEq] at hs'
      subst hs'
      refine Function.eq_update_iff.2 ⟨?_, fun _ _ => rfl⟩
      rcases hcases with rfl | ⟨hheld, -⟩ | ⟨-, ⟨e, habort⟩ | ⟨-, hheld⟩⟩
      · rw [hrow] at hnone
        cases hnone
      · rw [hheld] at hnone
        cases hnone
      · rw [hignore] at habort
        cases habort
      · exact hheld
  · refine iff_of_true (fun s' hs' => ?_) (.inr (.inr ⟨hnone, .inl ⟨e, habort⟩⟩))
    rw [hok] at hs'
    cases hs'

/-- **`modify` replaces the row of its object exactly if the object keeps its row**: its primary key, but
for what the host does with a key that is not in the store, and for writes that change nothing. -/
theorem modify_iff (hstored : table.Stored obj s) : table.KeepsRows absent obj updater s ↔
    ∀ obj', updater obj = .ok obj' → table.SameRow absent obj obj' s := by
  obtain ⟨key, value, hkey, -, hrow⟩ := hstored
  constructor
  · intro hkeeps obj' hupdater key₁ key' value' hkey₁ hkey' hvalue
    rw [hkey, Except.ok.injEq] at hkey₁
    subst hkey₁
    have hmodify : table.modify absent obj updater s = dbUpdate absent key' value' s :=
      modify_eq hupdater hkey' hvalue
    refine (dbUpdate_iff hrow).1 fun s' hs' => ?_
    obtain ⟨obj₁, hobj₁, hreplaces⟩ := hkeeps s' (hmodify.trans hs')
    rw [hupdater, Except.ok.injEq] at hobj₁
    subst hobj₁
    exact (replaces_iff hkey hrow hvalue).1 hreplaces
  · intro hsame s' hmodify
    obtain ⟨obj', hupdater, hrest⟩ := bind_eq_ok hmodify
    obtain ⟨key', hkey', hrest⟩ := bind_eq_ok hrest
    obtain ⟨value', hvalue, hupdate⟩ := bind_eq_ok hrest
    have hcases := hsame obj' hupdater key key' value' hkey hkey' hvalue
    exact ⟨obj', hupdater, (replaces_iff hkey hrow hvalue).2 ((dbUpdate_iff hrow).2 hcases s' hupdate)⟩

end Table

/-! ## Two rows -/

section Sample

/-- A row of a primary key and a value. -/
abbrev SampleRow : Type := BitVec (8 * 8) × BitVec (8 * 8) × Unit

def sampleTable : Table SampleRow (BitVec (8 * 8)) where
  tableName := 1
  scope := 2
  object := .struct (.cons (.int 8) (.cons (.int 8) .nil)) (0, 0, ())
  primary := .int 8
  primaryKey o := o.1

def sampleKey (primary : UInt8) : List UInt8 :=
  [1, 0, 0, 0, 0, 0, 0, 0, 2, 0, 0, 0, 0, 0, 0, 0, primary, 0, 0, 0, 0, 0, 0, 0]

def sampleValue (primary v : UInt8) : List UInt8 :=
  [primary, 0, 0, 0, 0, 0, 0, 0, v, 0, 0, 0, 0, 0, 0, 0]

/-- Rows 1 and 2. -/
def sampleStore : Db.Store :=
  Function.update (Function.update (fun _ => none) (sampleKey 1) (some (sampleValue 1 7)))
    (sampleKey 2) (some (sampleValue 2 8))

theorem stored_sample : sampleTable.Stored (1, 7, ()) sampleStore :=
  ⟨sampleKey 1, sampleValue 1 7, by decide, by decide, by decide⟩

/-- The value of row 1 is changed. -/
theorem modify_sample :
    sampleTable.KeepsRows .insert (1, 7, ()) (fun o => .ok (o.1, 9, ())) sampleStore := by
  refine (Table.modify_iff stored_sample).2 fun obj' hupdater key key' value hkey hkey' _ => ?_
  rw [Except.ok.injEq] at hupdater
  subst hupdater
  exact .inl (Except.ok.inj (hkey'.symm.trans hkey))

/-- The primary key of row 1 is changed: row 2 is overwritten, whatever the host does with an absent key,
or a row 3 appears; and row 1 is as it was. -/
theorem modify_changes_others :
    sampleTable.Stored (1, 7, ()) sampleStore ∧
    ¬sampleTable.KeepsRows (.abort .fault) (1, 7, ()) (fun o => .ok (2, o.2)) sampleStore ∧
    ¬sampleTable.KeepsRows .insert (1, 7, ()) (fun o => .ok (3, o.2)) sampleStore := by
  refine ⟨stored_sample, fun hkeeps => ?_, fun hkeeps => ?_⟩
  · obtain ⟨_, -, ⟨key, value, hkey, -, -, hothers⟩, -⟩ := hkeeps _ rfl
    obtain rfl : sampleKey 1 = key := Except.ok.inj ((by decide : _ = _).symm.trans hkey)
    exact absurd (hothers (sampleKey 2) (by decide)) (by decide)
  · obtain ⟨_, -, -, hkeys⟩ := hkeeps _ rfl
    exact absurd ((hkeys (sampleKey 3)).2 (by decide)) (by decide)

end Sample

end Wasmlib.Scoped
