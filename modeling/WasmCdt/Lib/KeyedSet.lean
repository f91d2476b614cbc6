import Mathlib.Order.Defs.LinearOrder
import Mathlib.Order.Basic
import Mathlib.Order.Lattice
import Mathlib.Data.List.Induction

/-!
# Sets ordered by a key

A set that is ordered by a part of its elements only, as a `std::set` with such an `operator<`. An
element whose key is there already is not inserted.

* `KeyedSet.mem_insert`: what is in the set after an insertion.
* `KeyedSet.mem_of_mem_ofList`, `KeyedSet.exists_key_ofList`: the set of a list.
-/

variable {α κ : Type} [LinearOrder κ]

/-- The elements in the order of their keys. -/
def KeyedSet (key : α → κ) : Type := {l : List α // l.Pairwise fun a b => key a < key b}

namespace KeyedSet

variable {key : α → κ}

instance : Membership α (KeyedSet key) := ⟨fun s x => x ∈ s.1⟩

instance [DecidableEq α] : DecidableEq (KeyedSet key) := inferInstanceAs (DecidableEq (Subtype _))

def empty : KeyedSet key := ⟨[], .nil⟩

/-- The element goes before the first with a greater key, unless its key is there. -/
def insertList (key : α → κ) (x : α) : List α → List α
  | [] => [x]
  | y :: ys =>
    if key x < key y then x :: y :: ys
    else if key y < key x then y :: insertList key x ys
    else y :: ys

theorem mem_insertList {x z : α} : ∀ {l : List α}, l.Pairwise (fun a b => key a < key b) →
    (z ∈ insertList key x l ↔ z ∈ l ∨ z = x ∧ ∀ y ∈ l, key y ≠ key x)
  | [], _ => by simp [insertList]
  | y :: ys, h => by
    obtain ⟨hy, hys⟩ := List.pairwise_cons.1 h
    rw [insertList]
    split_ifs with hxy hyx
    · have hfresh : ∀ w ∈ y :: ys, key w ≠ key x := by
        intro w hw
        rcases List.mem_cons.1 hw with rfl | hw
        · exact hxy.ne'
        · exact (hxy.trans (hy w hw)).ne'
      rw [List.mem_cons, or_comm]
      exact or_congr_right (and_iff_left hfresh).symm
    · have hhead : (∀ w ∈ y :: ys, key w ≠ key x) ↔ ∀ w ∈ ys, key w ≠ key x := by
        rw [List.forall_mem_cons]
        exact and_iff_right hyx.ne
      rw [List.mem_cons, mem_insertList hys, hhead, List.mem_cons, or_assoc]
    · have heq : key y = key x := le_antisymm (not_lt.1 hxy) (not_lt.1 hyx)
      refine (or_iff_left ?_).symm
      rintro ⟨-, hfresh⟩
      exact hfresh y List.mem_cons_self heq

theorem insertList_pairwise (x : α) : ∀ {l : List α}, l.Pairwise (fun a b => key a < key b) →
    (insertList key x l).Pairwise fun a b => key a < key b
  | [], _ => by simp [insertList]
  | y :: ys, h => by
    obtain ⟨hy, hys⟩ := List.pairwise_cons.1 h
    rw [insertList]
    split_ifs with hxy hyx
    · refine List.pairwise_cons.2 ⟨fun z hz => ?_, h⟩
      rcases List.mem_cons.1 hz with rfl | hz
      · exact hxy
      · exact hxy.trans (hy z hz)
    · refine List.pairwise_cons.2 ⟨fun z hz => ?_, insertList_pairwise x hys⟩
      rcases (mem_insertList hys).1 hz with hz | ⟨rfl, -⟩
      · exact hy z hz
      · exact hyx
    · exact h

/-- `std::set::insert`. -/
def insert (x : α) (s : KeyedSet key) : KeyedSet key :=
  ⟨insertList key x s.1, insertList_pairwise x s.2⟩

/-- The elements are inserted one after the other. -/
def ofList (l : List α) : KeyedSet key := l.foldl (fun s x => s.insert x) empty

@[simp] theorem not_mem_empty (x : α) : x ∉ (empty : KeyedSet key) := List.not_mem_nil

theorem mem_insert {x z : α} {s : KeyedSet key} :
    z ∈ s.insert x ↔ z ∈ s ∨ z = x ∧ ∀ y ∈ s, key y ≠ key x := mem_insertList s.2

theorem mem_insert_of_mem {x z : α} {s : KeyedSet key} (h : z ∈ s) : z ∈ s.insert x :=
  mem_insert.2 (.inl h)

/-- After an insertion the key is there. -/
theorem exists_key_insert (x : α) (s : KeyedSet key) : ∃ z ∈ s.insert x, key z = key x := by
  by_cases hkey : ∃ y ∈ s, key y = key x
  · obtain ⟨y, hy, heq⟩ := hkey
    exact ⟨y, mem_insert_of_mem hy, heq⟩
  · refine ⟨x, mem_insert.2 (.inr ⟨rfl, fun y hy heq => hkey ⟨y, hy, heq⟩⟩), rfl⟩

/-- Only elements of the list are in the set. -/
theorem mem_of_mem_ofList {l : List α} {x : α} (h : x ∈ (ofList l : KeyedSet key)) : x ∈ l := by
  induction l using List.reverseRecOn with
  | nil => exact absurd h (not_mem_empty x)
  | append_singleton l y ih =>
    rw [ofList, List.foldl_append] at h
    rcases mem_insert.1 h with h | ⟨rfl, -⟩
    · exact List.mem_append_left _ (ih h)
    · exact List.mem_append_right _ (List.mem_singleton.2 rfl)

/-- Every key of the list is in the set. -/
theorem exists_key_ofList {l : List α} {x : α} (h : x ∈ l) :
    ∃ y ∈ (ofList l : KeyedSet key), key y = key x := by
  induction l using List.reverseRecOn with
  | nil => exact absurd h List.not_mem_nil
  | append_singleton l y ih =>
    rw [ofList, List.foldl_append]
    rcases List.mem_append.1 h with h | h
    · obtain ⟨z, hz, hkey⟩ := ih h
      exact ⟨z, mem_insert_of_mem hz, hkey⟩
    · rw [List.mem_singleton.1 h]
      exact exists_key_insert y _

end KeyedSet
