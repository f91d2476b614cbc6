import WasmCdt.Core.Proof.Rope

/-!
# Rope traversal

* `Leaves`: the texts under a node, in the order in which they were appended. The traversal goes
  through them from the last one, and so does `at`, which counts down from the size.
* `Leaves.looks`: `at` stops in the leaf that has the index. A string under the right would be
  looked at although the search is over; there is none (`atNode_stopped`).
* `Traversal.step_counts`: a round that copies moves the offset by what it copies, and cannot wrap,
  as it would then write outside of the buffer.
* `Rope.Holds.faithful_iff`: a rope of these leaves is traversed faithfully iff its text and a
  terminator have a size.
* `RopeWorld.run_faithful_iff`: every rope of a run has the leaves of the calls that made it.
-/

namespace Wasmlib

open Rope

/-- The leaves under a node. Children are older than their parent, and a string is never on the
right. -/
inductive Leaves (nodes : List RopeNode) : Option Nat → List (List UInt8) → Prop
  | null : Leaves nodes none []
  | str {i : Nat} {s : List UInt8} {n : BitVec 32} : nodes[i]? = some (.str s n) →
      n.toNat ≤ s.length → Leaves nodes (some i) [s.take n.toNat]
  | concat {i : Nat} {left right : Option Nat} {ts us : List (List UInt8)} :
      nodes[i]? = some (.concat left right) → (∀ c ∈ left, c < i) →
      (∀ c ∈ right, c < i ∧ ∃ l r, nodes[c]? = some (.concat l r)) →
      Leaves nodes left ts → Leaves nodes right us → Leaves nodes (some i) (us ++ ts)

namespace Leaves

variable {nodes : List RopeNode} {p : Option Nat} {ls : List (List UInt8)}

theorem spells (h : Leaves nodes p ls) : Spells nodes p ls.flatten := by
  induction h with
  | null => exact .null
  | str hn hs =>
    rw [List.flatten_singleton]
    exact .str hn hs
  | concat hn hl hr _ _ ihl ihr =>
    rw [List.flatten_append]
    exact .concat hn hl (fun c hc => (hr c hc).1) ihl ihr

theorem mono (h : Leaves nodes p ls) (ms : List RopeNode) : Leaves (nodes ++ ms) p ls := by
  have hget : ∀ {i : Nat} {n : RopeNode}, nodes[i]? = some n → (nodes ++ ms)[i]? = some n :=
    fun h => by rw [List.getElem?_append_left (List.getElem?_eq_some_iff.1 h).1, h]
  induction h with
  | null => exact .null
  | str hn hs => exact .str (hget hn) hs
  | concat hn hl hr _ _ ihl ihr =>
    refine .concat (hget hn) hl (fun c hc => ?_) ihl ihr
    obtain ⟨hlt, l, r, hc⟩ := hr c hc
    exact ⟨hlt, l, r, hget hc⟩

end Leaves

/-! ## Looking up -/

/-- What the search for an index leaves, over a text with `k` characters in front. -/
inductive Rope.Lookup.Ends (index k : Nat) (t : List UInt8) : Lookup → Prop
  | before {s : Lookup} : index < k → s.stop = false → s.indexSoFar.toNat = k → Ends index k t s
  | found {s : Lookup} : k ≤ index → s.stop = true → t[index - k]? = some s.ret → Ends index k t s

/-- The search below a node, from behind its text `t`. -/
def Looks (nodes : List RopeNode) (index : BitVec 32) (p : Option Nat) (t : List UInt8) : Prop :=
  ∀ (k : Nat) (s : Lookup), s.stop = false → s.indexSoFar.toNat = k + t.length →
    index.toNat < k + t.length →
    ∃ s', Lookup.Ends index.toNat k t s' ∧ ∃ n, ∀ fuel ≥ n,
      atNode nodes index fuel p s = .ok (some s')

section
variable {nodes : List RopeNode} {index : BitVec 32} {i : Nat} {left right : Option Nat}

theorem looks_null : Looks nodes index none [] := by
  intro k s hstop hso hlt
  refine ⟨s, .before hlt hstop hso, 1, fun fuel hf => ?_⟩
  obtain ⟨fuel, rfl⟩ := Nat.exists_eq_succ_of_ne_zero (by omega : fuel ≠ 0)
  rfl

theorem looks_str {str : List UInt8} {n : BitVec 32} (hn : nodes[i]? = some (.str str n))
    (hs : n.toNat ≤ str.length) : Looks nodes index (some i) (str.take n.toNat) := by
  intro k s hstop hso hlt
  have hlen : (str.take n.toNat).length = n.toNat := by simp [hs]
  rw [hlen] at hso hlt
  have hsub : (s.indexSoFar - n).toNat = k := by
    rw [BitVec.toNat_sub]
    have := s.indexSoFar.isLt
    omega
  by_cases hle : s.indexSoFar - n ≤ index
  · have hk : k ≤ index.toNat := hsub ▸ BitVec.le_def.1 hle
    have hindex : (index - (s.indexSoFar - n)).toNat = index.toNat - k := by
      rw [BitVec.toNat_sub_of_le hle, hsub]
    have hread : index.toNat - k < str.length := by omega
    refine ⟨⟨str[index.toNat - k], s.indexSoFar - n, true⟩, .found hk rfl ?_, 1, fun fuel hf => ?_⟩
    · rw [List.getElem?_take_of_lt (by omega)]
      exact List.getElem?_eq_getElem hread
    · obtain ⟨fuel, rfl⟩ := Nat.exists_eq_succ_of_ne_zero (by omega : fuel ≠ 0)
      unfold atNode
      simp only [hn, if_pos hle, hindex, List.getElem?_eq_getElem hread, defined_some, ok_bind,
        pure_eq_ok]
  · have hk : index.toNat < k := by
      rw [BitVec.le_def, hsub] at hle
      omega
    refine ⟨{ s with indexSoFar := s.indexSoFar - n }, .before hk hstop hsub, 1, fun fuel hf => ?_⟩
    obtain ⟨fuel, rfl⟩ := Nat.exists_eq_succ_of_ne_zero (by omega : fuel ≠ 0)
    unfold atNode
    simp only [hn, if_neg hle, pure_eq_ok]

/-- A search that is over passes concatenations by. -/
theorem atNode_stopped (hr : ∀ c ∈ right, ∃ l r, nodes[c]? = some (.concat l r)) {s : Lookup}
    (hstop : s.stop = true) {fuel : Nat} (hf : 0 < fuel) :
    atNode nodes index fuel right s = .ok (some s) := by
  obtain ⟨fuel, rfl⟩ := Nat.exists_eq_succ_of_ne_zero hf.ne'
  cases right with
  | none => rfl
  | some c =>
    obtain ⟨l, r, hc⟩ := hr c rfl
    unfold atNode
    simp only [hc, hstop, if_true, pure_eq_ok]

theorem looks_concat (hn : nodes[i]? = some (.concat left right))
    (hr : ∀ c ∈ right, ∃ l r, nodes[c]? = some (.concat l r)) {t u : List UInt8}
    (hleft : Looks nodes index left t) (hright : Looks nodes index right u) :
    Looks nodes index (some i) (u ++ t) := by
  intro k s hstop hso hlt
  rw [List.length_append, ← Nat.add_assoc] at hso hlt
  obtain ⟨s1, hends1, n1, hn1⟩ := hleft (k + u.length) s hstop hso hlt
  -- what is left of the search, in the right child
  obtain ⟨s2, hends2, n2, hn2⟩ : ∃ s', Lookup.Ends index.toNat k (u ++ t) s' ∧ ∃ n, ∀ fuel ≥ n,
      atNode nodes index fuel right s1 = .ok (some s') := by
    cases hends1 with
    | before hlt1 hstop1 hso1 =>
      obtain ⟨s2, hends2, hrun⟩ := hright k s1 hstop1 hso1 hlt1
      refine ⟨s2, ?_, hrun⟩
      cases hends2 with
      | before hlt2 hstop2 hso2 => exact .before hlt2 hstop2 hso2
      | found hk hstop2 hret =>
        refine .found hk hstop2 ?_
        rw [List.getElem?_append_left (by omega)]
        exact hret
    | found hk hstop1 hret =>
      refine ⟨s1, .found (by omega) hstop1 ?_, 1, fun fuel hf => atNode_stopped hr hstop1 hf⟩
      rw [List.getElem?_append_right (by omega), Nat.sub_sub]
      exact hret
  refine ⟨s2, hends2, max n1 n2 + 1, fun fuel hf => ?_⟩
  obtain ⟨fuel, rfl⟩ := Nat.exists_eq_succ_of_ne_zero (by omega : fuel ≠ 0)
  unfold atNode
  simp only [hn, hstop, Bool.false_eq_true, if_false, hn1 fuel (by omega), ok_bind]
  exact hn2 fuel (by omega)

/-- **The search stops in the leaf that has the index.** -/
theorem Leaves.looks {p : Option Nat} {ls : List (List UInt8)} (h : Leaves nodes p ls)
    (index : BitVec 32) : Looks nodes index p ls.flatten := by
  induction h with
  | null => exact looks_null
  | str hn hs =>
    rw [List.flatten_singleton]
    exact looks_str hn hs
  | concat hn _ hr _ _ ihl ihr =>
    rw [List.flatten_append]
    exact looks_concat hn (fun c hc => (hr c hc).2) ihl ihr

end

/-! ## Counting -/

theorem memcpy_ok {buffer src b : List UInt8} {off n : Nat} (h : memcpy buffer off src n = .ok b) :
    off + n ≤ buffer.length ∧ b.length = buffer.length := by
  unfold memcpy at h
  split at h
  · rename_i hle
    cases h
    refine ⟨hle.2, ?_⟩
    simp only [List.length_append, List.length_take, List.length_drop]
    omega
  · cases h

namespace Rope.Traversal

/-- The characters that a round copies. -/
def copies (nodes : List RopeNode) (s : Traversal) : Nat :=
  match s.r with
  | none => 0
  | some r =>
    if s.goingDown then
      match nodes[r]? with
      | some (.str _ size) => size.toNat
      | _ => 0
    else 0

/-- The offset is less by what a round in `s` copies, and the buffer as long as it was. -/
def Counts (nodes : List RopeNode) (s t : Traversal) : Prop :=
  t.off.toNat + s.copies nodes = s.off.toNat ∧ t.buffer.length = s.buffer.length

section
variable {nodes : List RopeNode} {s t : Traversal} {r : Nat}

/-- At a concatenation the offset and the buffer stay. -/
theorem step_concat {left right : Option Nat} (hr : s.r = some r)
    (hn : nodes[r]? = some (.concat left right)) (h : s.step nodes = .ok t) :
    t.off = s.off ∧ t.buffer = s.buffer := by
  unfold Traversal.step at h
  simp only [hr, hn] at h
  cases hdown : s.goingDown with
  | true =>
    simp only [hdown, if_true] at h
    cases left with
    | some c =>
      cases h
      exact ⟨rfl, rfl⟩
    | none =>
      cases right <;>
      · cases h
        exact ⟨rfl, rfl⟩
  | false =>
    simp only [hdown, Bool.false_eq_true, if_false] at h
    cases right with
    | none =>
      cases h
      exact ⟨rfl, rfl⟩
    | some c =>
      dsimp only at h
      split at h <;>
      · cases h
        exact ⟨rfl, rfl⟩

theorem counts_concat {left right : Option Nat} (hr : s.r = some r)
    (hn : nodes[r]? = some (.concat left right)) (h : s.step nodes = .ok t) : Counts nodes s t := by
  obtain ⟨hoff, hbuf⟩ := step_concat hr hn h
  have hcopies : s.copies nodes = 0 := by
    unfold copies
    simp only [hr, hn, ite_self]
  exact ⟨by rw [hcopies, hoff]; rfl, by rw [hbuf]⟩

/-- An offset that has wrapped is outside of the buffer. -/
theorem counts_str {str : List UInt8} {n : BitVec 32} (hr : s.r = some r)
    (hn : nodes[r]? = some (.str str n)) (hroom : s.buffer.length < 2 ^ 32)
    (h : s.step nodes = .ok t) : Counts nodes s t := by
  unfold Traversal.step at h
  simp only [hr, hn] at h
  split at h
  · rename_i hdown
    obtain ⟨buffer, hcopy, hleave⟩ := bind_eq_ok h
    cases hleave
    obtain ⟨hin, hlen⟩ := memcpy_ok hcopy
    refine ⟨?_, hlen⟩
    have hcopies : s.copies nodes = n.toNat := by
      unfold copies
      simp only [hr, hn, hdown, if_true]
    change (s.off - n).toNat + s.copies nodes = s.off.toNat
    rw [BitVec.toNat_sub] at hin ⊢
    have := s.off.isLt
    omega
  · cases h

/-- **A round takes from the offset what it copies.** -/
theorem step_counts (hroom : s.buffer.length < 2 ^ 32) (h : s.step nodes = .ok t) :
    Counts nodes s t := by
  cases hr : s.r with
  | none =>
    unfold Traversal.step at h
    simp only [hr] at h
    cases h
    have hcopies : s.copies nodes = 0 := by
      unfold copies
      simp only [hr]
    exact ⟨by rw [hcopies]; rfl, rfl⟩
  | some r =>
    cases hn : nodes[r]? with
    | none =>
      unfold Traversal.step at h
      simp only [hr, hn, ite_self] at h
      cases h
    | some n =>
      cases n with
      | str str n => exact counts_str hr hn hroom h
      | concat left right => exact counts_concat hr hn h

end

end Rope.Traversal

/-- The traversal of `c_str()`, and how many characters it has copied. -/
def Rope.traverse (fuel : Nat) (garbage : Nat → UInt8) (h : RopeHeap) (self : Rope) :
    Exec (Option (Traversal × Nat)) :=
  Loop.run (fun p => p.1.r.isSome)
    (Loop.ghost (fun s k => k + s.copies h.nodes) (Traversal.step h.nodes)) fuel
    (Traversal.start garbage h.marks self, 0)

/-- It is the traversal of `c_str()`. -/
theorem Rope.cStr_traverse (fuel : Nat) (garbage : Nat → UInt8) (h : RopeHeap) (self : Rope) :
    self.cStr fuel garbage h = (do
      match ← self.traverse fuel garbage h with
      | none => pure none
      | some (s, _) =>
        let ret ← memcpy s.buffer self.size.toNat [0] 1
        pure (some (ret, { h with marks := s.marks }))) := by
  have hrun := Loop.run_ghost (fun s => s.r.isSome) (Traversal.step h.nodes)
    (fun s k => k + s.copies h.nodes) fuel (Traversal.start garbage h.marks self) 0
  unfold cStr
  change (Loop.run _ _ _ (Traversal.start garbage h.marks self) >>= _) = _
  rw [← hrun]
  change (self.traverse fuel garbage h).map _ >>= _ = _
  cases self.traverse fuel garbage h with
  | error e => rfl
  | ok p => cases p <;> rfl

/-- At the end of a traversal that ends, what it has copied and the offset are the size. -/
theorem traverse_counts {fuel : Nat} {garbage : Nat → UInt8} {h : RopeHeap} {self : Rope}
    {s : Traversal} {k : Nat} (hrun : self.traverse fuel garbage h = .ok (some (s, k))) :
    s.off.toNat + k = self.size.toNat ∧ s.buffer.length = (self.size + 1).toNat := by
  refine Loop.run_keeps (I := fun p => p.1.off.toNat + p.2 = self.size.toNat ∧
    p.1.buffer.length = (self.size + 1).toNat) ?_ ⟨rfl, ?_⟩ hrun
  · intro p q hp _ hstep
    obtain ⟨hoff, hlen⟩ := hp
    unfold Loop.ghost at hstep
    cases hs : p.1.step h.nodes with
    | error e =>
      rw [hs] at hstep
      cases hstep
    | ok t =>
      rw [hs] at hstep
      cases hstep
      obtain ⟨hoff', hlen'⟩ := Traversal.step_counts (by rw [hlen]; exact BitVec.isLt _) hs
      exact ⟨by dsimp only; omega, hlen'.trans hlen⟩
  · unfold Traversal.start
    simp

/-! ## A rope and its leaves -/

/-- The rope has these leaves under a concatenation; its size is that of the text, as far as a
`size_t` goes. -/
structure Rope.Holds (nodes : List RopeNode) (r : Rope) (ls : List (List UInt8)) : Prop where
  root : ∃ i left right, r.root = some i ∧ nodes[i]? = some (.concat left right)
  leaves : Leaves nodes r.root ls
  size : r.size = BitVec.ofNat 32 ls.flatten.length

/-- The traversal ends with its offset at `0` and `length()` characters copied, which are the text
of the leaves, in a buffer of one byte more; and `at` gives the characters of that text. This is so
for any marks in the nodes. -/
structure Rope.Faithful (nodes : List RopeNode) (r : Rope) (ls : List (List UInt8)) : Prop where
  traverse : ∀ (garbage : Nat → UInt8) (m : Marks), ∃ n, ∀ fuel ≥ n, ∃ s,
    r.traverse fuel garbage ⟨nodes, m⟩ = .ok (some (s, r.length.toNat)) ∧ s.off = 0 ∧
      s.buffer = ls.flatten ++ [garbage r.length.toNat]
  lookup : ∀ (i : BitVec 32) (m : Marks), i < r.length → ∃ c, ls.flatten[i.toNat]? = some c ∧
    ∃ n, ∀ fuel ≥ n, r.at fuel i ⟨nodes, m⟩ = .ok (some c)

namespace Rope.Holds

variable {nodes : List RopeNode} {self : Rope} {ls : List (List UInt8)}

theorem mono (h : self.Holds nodes ls) (ms : List RopeNode) : self.Holds (nodes ++ ms) ls := by
  obtain ⟨i, left, right, hi, hn⟩ := h.root
  refine ⟨⟨i, left, right, hi, ?_⟩, h.leaves.mono ms, h.size⟩
  rw [List.getElem?_append_left (List.getElem?_eq_some_iff.1 hn).1, hn]

theorem size_toNat (h : self.Holds nodes ls) (hlen : ls.flatten.length + 1 < 2 ^ 32) :
    self.size.toNat = ls.flatten.length := by
  rw [h.size, BitVec.toNat_ofNat]
  omega

theorem traverses (h : self.Holds nodes ls) (hlen : ls.flatten.length + 1 < 2 ^ 32)
    (garbage : Nat → UInt8) (m : Marks) : ∃ n, ∀ fuel ≥ n, ∃ s,
      self.traverse fuel garbage ⟨nodes, m⟩ = .ok (some (s, self.length.toNat)) ∧ s.off = 0 ∧
        s.buffer = ls.flatten ++ [garbage self.length.toNat] := by
  have hsize := h.size_toNat hlen
  obtain ⟨m', down, hreach⟩ := traverses_root h.leaves.spells hsize hlen garbage m
  obtain ⟨n, hn⟩ := hreach.run rfl
  refine ⟨n, fun fuel hf => ?_⟩
  obtain ⟨k, hrun⟩ : ∃ k, self.traverse fuel garbage ⟨nodes, m⟩ =
      .ok (some (⟨m', ls.flatten ++ [garbage ls.flatten.length], 0, down, none⟩, k)) :=
    Loop.ghost_of_run (hn fuel hf) 0
  -- what the counter has counted is off the offset
  obtain ⟨hoff, -⟩ := traverse_counts hrun
  have hk : k = self.length.toNat := by
    change 0 + k = self.size.toNat at hoff
    change k = self.size.toNat
    omega
  refine ⟨_, hk ▸ hrun, rfl, ?_⟩
  change _ = _ ++ [garbage self.size.toNat]
  rw [hsize]

theorem at_eq (h : self.Holds nodes ls) (hlen : ls.flatten.length + 1 < 2 ^ 32) {i : BitVec 32}
    (m : Marks) (hi : i < self.length) : ∃ c, ls.flatten[i.toNat]? = some c ∧
      ∃ n, ∀ fuel ≥ n, self.at fuel i ⟨nodes, m⟩ = .ok (some c) := by
  have hsize := h.size_toNat hlen
  have hlt : i.toNat < self.size.toNat := BitVec.lt_def.1 hi
  obtain ⟨s, hends, n, hn⟩ := h.leaves.looks i 0 ⟨0, self.size, false⟩ rfl
    (by rw [Nat.zero_add]; exact hsize) (by omega)
  cases hends with
  | before hlt _ _ => exact absurd hlt (Nat.not_lt_zero _)
  | found _ _ hret =>
    refine ⟨s.ret, hret, n, fun fuel hf => ?_⟩
    unfold Rope.at
    rw [hn fuel hf]
    rfl

/-- **A rope is traversed faithfully iff its text and a terminator have a size.** -/
theorem faithful_iff (h : self.Holds nodes ls) :
    self.Faithful nodes ls ↔ ls.flatten.length + 1 < 2 ^ 32 := by
  constructor
  · intro hf
    obtain ⟨n, hn⟩ := hf.traverse (fun _ => 0) ⟨fun _ => none, fun _ => false⟩
    obtain ⟨s, hrun, -, hbuf⟩ := hn n (Nat.le_refl n)
    -- a copy that succeeds leaves the buffer its length
    obtain ⟨-, hlen⟩ := traverse_counts hrun
    rw [hbuf, List.length_append, List.length_singleton] at hlen
    rw [hlen]
    exact BitVec.isLt _
  · intro hlen
    exact ⟨h.traverses hlen, fun i m hi => h.at_eq hlen m hi⟩

end Rope.Holds

/-! ## Mutations -/

/-- A rope of these leaves, over the old nodes and new ones. -/
def RopeGives (h : RopeHeap) (ls : List (List UInt8)) (x : Rope × RopeHeap) : Prop :=
  ∃ ms, x.2.nodes = h.nodes ++ ms ∧ x.1.Holds x.2.nodes ls

section
variable {h : RopeHeap} {self : Rope} {ls : List (List UInt8)} {x : Rope × RopeHeap}

/-- A new string under a concatenation with the rest, which is none or a concatenation. -/
theorem holds_str {nodes : List RopeNode} {right : Option Nat} {s : List UInt8} {len : BitVec 32}
    (hs : len.toNat ≤ s.length) (hright : Leaves nodes right ls)
    (hcat : ∀ c ∈ right, ∃ l r, nodes[c]? = some (.concat l r)) :
    Rope.Holds (nodes ++ [.str s len, .concat (some nodes.length) right])
      ⟨some (nodes.length + 1), BitVec.ofNat 32 ls.flatten.length + len⟩
      (ls ++ [s.take len.toNat]) := by
  have hroot := getElem?_concat nodes (.str s len) (.concat (some nodes.length) right)
  have hstr : (nodes ++ [.str s len, .concat (some nodes.length) right])[nodes.length]? =
      some (.str s len) := by simp
  refine ⟨⟨_, _, _, rfl, hroot⟩, .concat hroot ?_ ?_ (.str hstr hs) (hright.mono _), ?_⟩
  · intro c hc
    exact Option.some.inj hc ▸ Nat.lt_succ_self _
  · intro c hc
    obtain ⟨l, r, hn⟩ := hcat c hc
    have hlt := (List.getElem?_eq_some_iff.1 hn).1
    exact ⟨by omega, l, r, by rw [List.getElem?_append_left hlt, hn]⟩
  · rw [List.flatten_append, List.flatten_singleton, List.length_append, List.length_take,
      Nat.min_eq_left hs, BitVec.ofNat_add, BitVec.ofNat_toNat, BitVec.setWidth_eq]

theorem ofView_gives (h : RopeHeap) {s : List UInt8} {size : BitVec 32}
    (hs : size.toNat ≤ s.length) : RopeGives h [s.take size.toNat] (ofView s size h) := by
  rw [ofView_eq]
  refine ⟨_, rfl, ?_⟩
  have hright : Leaves h.nodes none [] := .null
  have hholds := holds_str hs hright (fun c hc => by cases hc)
  rw [List.flatten_nil, List.length_nil, BitVec.zero_add] at hholds
  exact hholds

theorem Rope.Holds.root_concat {nodes : List RopeNode} (h : self.Holds nodes ls) :
    ∀ c ∈ self.root, ∃ l r, nodes[c]? = some (.concat l r) := by
  intro c hc
  obtain ⟨i, left, right, hi, hn⟩ := h.root
  obtain rfl : i = c := Option.some.inj (hi.symm.trans hc)
  exact ⟨left, right, hn⟩

theorem append_gives (hself : self.Holds h.nodes ls) {s : List UInt8} {len : BitVec 32}
    (hs : len.toNat ≤ s.length) (hx : self.append s len h = .ok x) :
    RopeGives h (ls ++ [s.take len.toNat]) x := by
  rw [append_eq] at hx
  cases hx
  refine ⟨_, rfl, ?_⟩
  rw [hself.size]
  exact holds_str hs hself.leaves hself.root_concat

theorem appendRope_gives (hself : self.Holds h.nodes ls) {r : Rope} {us : List (List UInt8)}
    (hr : r.Holds h.nodes us) (hx : self.appendRope r h = .ok x) : RopeGives h (ls ++ us) x := by
  obtain ⟨i, left, right, hi, hn⟩ := hr.root
  rw [appendRope_eq hi hn] at hx
  cases hx
  have hcat : (h.nodes ++ [.concat (some i) self.root])[h.nodes.length]? =
      some (.concat (some i) self.root) := by simp
  have hleft := hr.leaves.mono [.concat (some i) self.root]
  have hchild := hr.leaves.spells.lt
  rw [hi] at hleft hchild
  refine ⟨_, rfl, ⟨_, _, _, rfl, hcat⟩, .concat hcat hchild ?_ hleft (hself.leaves.mono _), ?_⟩
  · intro c hc
    obtain ⟨l, r, hn⟩ := hself.root_concat c hc
    have hlt := (List.getElem?_eq_some_iff.1 hn).1
    exact ⟨hlt, l, r, by rw [List.getElem?_append_left hlt, hn]⟩
  · rw [List.flatten_append, List.length_append, BitVec.ofNat_add, ← hself.size, ← hr.size]

theorem ofCStr_gives {s : List UInt8} (hx : Rope.ofCStr s h = .ok x) :
    RopeGives h [cText s] x := by
  obtain ⟨n, hn, hx⟩ := bind_eq_ok hx
  obtain ⟨-, hlen⟩ := strlen_ok hn
  have hread : (n - 1).toNat ≤ s.length := hlen ▸ cText_take.2
  have hgives := ofView_gives h hread
  rw [hlen, cText_take.1] at hgives
  cases hx
  exact hgives

theorem addCStr_gives (hself : self.Holds h.nodes ls) {s : List UInt8}
    (hx : self.addCStr s h = .ok x) : RopeGives h (ls ++ [cText s]) x := by
  obtain ⟨n, hn, hx⟩ := bind_eq_ok hx
  obtain ⟨-, hlen⟩ := strlen_ok hn
  have hread : (n - 1).toNat ≤ s.length := hlen ▸ cText_take.2
  have hgives := append_gives hself hread hx
  rw [hlen, cText_take.1] at hgives
  exact hgives

/-- An array goes in as a whole. -/
theorem appendArray_gives (hself : self.Holds h.nodes ls) {s : List UInt8}
    (hs : s.length < 2 ^ 32) (hx : self.appendArray s h = .ok x) : RopeGives h (ls ++ [s]) x := by
  have hlen : (BitVec.ofNat 32 s.length).toNat = s.length := by
    rw [BitVec.toNat_ofNat, Nat.mod_eq_of_lt hs]
  have hgives := append_gives hself hlen.le hx
  rw [hlen, List.take_length] at hgives
  exact hgives

end

/-! ## Runs -/

/-- The caller's side of a call that succeeds: the bytes given by pointer and length can be read,
and a literal has a size. -/
def RopeCall.Readable : RopeCall → Prop
  | .ofView s size => size.toNat ≤ s.length
  | .append _ s len => len.toNat ≤ s.length
  | .appendLiteral _ chars => chars.length + 1 < 2 ^ 32
  | _ => True

/-- What the call does to the leaves of the ropes. -/
def RopeCall.leaves (lss : List (List (List UInt8))) : RopeCall → List (List (List UInt8))
  | .ofCStr s => lss ++ [[cText s]]
  | .ofView s size => lss ++ [[s.take size.toNat]]
  | .copy i => lss ++ [lss.getD i []]
  -- an array of characters and a terminator
  | .appendLiteral i chars => lss.set i (lss.getD i [] ++ [chars ++ [0]])
  | .append i s len => lss.set i (lss.getD i [] ++ [s.take len.toNat])
  | .appendRope i j => lss.set i (lss.getD i [] ++ lss.getD j [])
  | .addCStr i s => lss.set i (lss.getD i [] ++ [cText s])
  | .addRope i j => lss.set i (lss.getD i [] ++ lss.getD j [])

def RopeCall.leavesAll (lss : List (List (List UInt8))) (cs : List RopeCall) :
    List (List (List UInt8)) :=
  cs.foldl RopeCall.leaves lss

theorem forall₂_getD {α β : Type} {R : α → β → Prop} {as : List α} {bs : List β}
    (h : List.Forall₂ R as bs) {i : Nat} {a : α} (hi : as[i]? = some a) (b : β) :
    R a (bs.getD i b) := by
  induction h generalizing i with
  | nil => cases hi
  | cons hr _ ih =>
    cases i with
    | zero => exact Option.some.inj hi ▸ hr
    | succ i => exact ih hi

namespace RopeWorld

/-- The ropes have these leaves. -/
def Built (w : RopeWorld) (lss : List (List (List UInt8))) : Prop :=
  List.Forall₂ (fun r ls => r.Holds w.heap.nodes ls) w.ropes lss

section
variable {w w' : RopeWorld} {lss : List (List (List UInt8))} {ls : List (List UInt8)}
  {x : Rope × RopeHeap}

/-- The ropes that stay keep their leaves. -/
theorem Built.grow (h : w.Built lss) (hx : RopeGives w.heap ls x) :
    List.Forall₂ (fun r ls => r.Holds x.2.nodes ls) w.ropes lss := by
  obtain ⟨ms, hnodes, -⟩ := hx
  rw [hnodes]
  exact h.imp fun r ls hr => hr.mono ms

theorem Built.push (h : w.Built lss) (hx : RopeGives w.heap ls x) :
    (w.push x).Built (lss ++ [ls]) := by
  have hold := h.grow hx
  obtain ⟨_, _, hr⟩ := hx
  exact List.rel_append hold (.cons hr .nil)

theorem Built.put (h : w.Built lss) (hx : RopeGives w.heap ls x) (i : Nat) :
    (w.put i x).Built (lss.set i ls) := by
  have hold := h.grow hx
  obtain ⟨_, _, hr⟩ := hx
  exact forall₂_set hold i hr

theorem Built.rope (h : w.Built lss) {i : Nat} {r : Rope} (hi : w.rope i = .ok r) :
    r.Holds w.heap.nodes (lss.getD i []) :=
  forall₂_getD h (defined_eq_ok hi) []

/-- **A call gives a rope the leaves it appends.** -/
theorem Built.step (h : w.Built lss) {c : RopeCall} (hread : c.Readable)
    (hstep : w.step c = .ok w') : w'.Built (c.leaves lss) := by
  cases c with
  | ofCStr s =>
    obtain ⟨r, hr, hw⟩ := bind_eq_ok hstep
    cases hw
    exact h.push (ofCStr_gives hr)
  | ofView s size =>
    cases hstep
    exact h.push (ofView_gives w.heap hread)
  | copy i =>
    obtain ⟨self, hself, hw⟩ := bind_eq_ok hstep
    cases hw
    exact h.push ⟨[], (List.append_nil _).symm, h.rope hself⟩
  | appendLiteral i chars =>
    obtain ⟨self, hself, hstep⟩ := bind_eq_ok hstep
    obtain ⟨r, hr, hw⟩ := bind_eq_ok hstep
    cases hw
    have hlen : (chars ++ [0]).length < 2 ^ 32 := by
      rw [List.length_append]
      exact hread
    exact h.put (appendArray_gives (h.rope hself) hlen hr) i
  | append i s len =>
    obtain ⟨self, hself, hstep⟩ := bind_eq_ok hstep
    obtain ⟨r, hr, hw⟩ := bind_eq_ok hstep
    cases hw
    exact h.put (append_gives (h.rope hself) hread hr) i
  | appendRope i j =>
    obtain ⟨self, hself, hstep⟩ := bind_eq_ok hstep
    obtain ⟨other, hother, hstep⟩ := bind_eq_ok hstep
    obtain ⟨r, hr, hw⟩ := bind_eq_ok hstep
    cases hw
    exact h.put (appendRope_gives (h.rope hself) (h.rope hother) hr) i
  | addCStr i s =>
    obtain ⟨self, hself, hstep⟩ := bind_eq_ok hstep
    obtain ⟨r, hr, hw⟩ := bind_eq_ok hstep
    cases hw
    exact h.put (addCStr_gives (h.rope hself) hr) i
  | addRope i j =>
    obtain ⟨self, hself, hstep⟩ := bind_eq_ok hstep
    obtain ⟨other, hother, hstep⟩ := bind_eq_ok hstep
    obtain ⟨r, hr, hw⟩ := bind_eq_ok hstep
    cases hw
    exact h.put (appendRope_gives (h.rope hself) (h.rope hother) hr) i

theorem Built.run {cs : List RopeCall} (h : w.Built lss) (hread : ∀ c ∈ cs, c.Readable)
    (hrun : w.run cs = .ok w') : w'.Built (RopeCall.leavesAll lss cs) := by
  induction cs generalizing w lss with
  | nil =>
    cases hrun
    exact h
  | cons c cs ih =>
    obtain ⟨w1, hstep, hrun⟩ := bind_eq_ok hrun
    exact ih (h.step (hread c List.mem_cons_self) hstep)
      (fun c hc => hread c (List.mem_cons_of_mem _ hc)) hrun

end

/-- **Ropes are traversed faithfully as long as their texts have a size.** After any run, each rope
has the leaves that its calls appended, and its traversal and `at` give their text iff the text and
a terminator are shorter than a `size_t` can say. -/
theorem run_faithful_iff {cs : List RopeCall} {w : RopeWorld} (hread : ∀ c ∈ cs, c.Readable)
    (hrun : start.run cs = .ok w) :
    List.Forall₂ (fun r ls => r.Faithful w.heap.nodes ls ↔ ls.flatten.length + 1 < 2 ^ 32)
      w.ropes (RopeCall.leavesAll [] cs) := by
  have hstart : start.Built [] := .nil
  exact (hstart.run hread hrun).imp fun r ls hr => hr.faithful_iff

/-- Leaves of one character and of none, under a rope that is appended to itself. -/
def sharedSample : List RopeCall :=
  [.ofView [97] 1, .append 0 [] 0, .appendRope 0 0, .ofCStr [98, 0], .appendRope 1 0]

theorem run_faithful_iff_shared : ∃ w, start.run sharedSample = .ok w ∧
    List.Forall₂ (fun r ls => r.Faithful w.heap.nodes ls) w.ropes
      [[[97], [], [97], []], [[98], [97], [], [97], []]] := by
  have hread : ∀ c ∈ sharedSample, c.Readable := by
    intro c hc
    simp only [sharedSample, List.mem_cons, List.not_mem_nil, or_false] at hc
    rcases hc with rfl | rfl | rfl | rfl | rfl
    · exact Nat.le_refl 1
    · exact Nat.le_refl 0
    · exact trivial
    · exact trivial
    · exact trivial
  obtain ⟨w, hw⟩ : ∃ w, start.run sharedSample = .ok w := ⟨_, rfl⟩
  have hleaves : RopeCall.leavesAll [] sharedSample =
      [[[97], [], [97], []], [[98], [97], [], [97], []]] := by decide
  have hiff := run_faithful_iff hread hw
  rw [hleaves] at hiff
  refine ⟨w, hw, ?_⟩
  generalize w.ropes = rs at hiff ⊢
  cases hiff with
  | cons h0 hiff =>
    cases hiff with
    | cons h1 hiff =>
      cases hiff
      exact .cons (h0.2 (by decide)) (.cons (h1.2 (by decide)) .nil)

/-- One character, appended to itself until the size wraps. -/
def wrapSample : List RopeCall := .ofView [97] 1 :: List.replicate 32 (.appendRope 0 0)

def wrapNodes : List RopeNode :=
  [.str [97] 1, .concat (some 0) none] ++
    (List.range 32).map fun k => .concat (some (k + 1)) (some (k + 1))

theorem run_wrapSample : (start.run wrapSample).map (fun w => (w.heap.nodes, w.ropes)) =
    .ok (wrapNodes, [⟨some 33, 0⟩]) := rfl

/-- The first copy would be in front of the buffer, which is of one byte. -/
theorem traverse_wrap (fuel : Nat) (garbage : Nat → UInt8) (m : Marks) :
    Rope.traverse (fuel + 34) garbage ⟨wrapNodes, m⟩ ⟨some 33, 0⟩ = .error .fault := rfl

/-- A text of `2 ^ 32` characters has the size `0`, and no traversal. -/
theorem run_wrap_unfaithful : (∀ c ∈ wrapSample, c.Readable) ∧
    ∃ w r, start.run wrapSample = .ok w ∧ w.ropes = [r] ∧ r.length = 0 ∧
      ∀ ls, ¬ r.Faithful w.heap.nodes ls := by
  constructor
  · intro c hc
    rcases List.mem_cons.1 hc with rfl | hc
    · exact Nat.le_refl 1
    · obtain rfl := List.eq_of_mem_replicate hc
      exact trivial
  have hrun := run_wrapSample
  cases hw : start.run wrapSample with
  | error e =>
    rw [hw] at hrun
    cases hrun
  | ok w =>
    rw [hw] at hrun
    obtain ⟨hnodes, hropes⟩ := Prod.mk.inj (Except.ok.inj hrun)
    refine ⟨w, _, rfl, hropes, rfl, fun ls hf => ?_⟩
    rw [hnodes] at hf
    obtain ⟨n, hn⟩ := hf.traverse (fun _ => 0) ⟨fun _ => none, fun _ => false⟩
    obtain ⟨s, hs, -⟩ := hn (n + 34) (Nat.le_add_right _ _)
    rw [traverse_wrap] at hs
    cases hs

end RopeWorld

end Wasmlib
