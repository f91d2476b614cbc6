import Mathlib.Data.List.Forall2
import WasmCdt.Core.Rope

/-!
# What a rope spells

* `Spells`: the text under a node, the left child's after the right child's.
* `Spells.writes`: the traversal writes that text in front of what it has written, comes back to
  where the node was entered from, and leaves the marks above the node alone.
* `Rope.cStr_eq`: so `c_str()` is the text and a terminator, whatever the marks were.
* `RopeWorld.run_concat`: in a run without literals, and with lengths within their types, every
  rope is the string in its place.
-/

namespace Wasmlib

open Rope

/-- The text under a node. Children are older than their parent. -/
inductive Spells (nodes : List RopeNode) : Option Nat → List UInt8 → Prop
  | null : Spells nodes none []
  | str {i : Nat} {s : List UInt8} {n : BitVec 32} : nodes[i]? = some (.str s n) →
      n.toNat ≤ s.length → Spells nodes (some i) (s.take n.toNat)
  | concat {i : Nat} {left right : Option Nat} {t u : List UInt8} :
      nodes[i]? = some (.concat left right) → (∀ c ∈ left, c < i) → (∀ c ∈ right, c < i) →
      Spells nodes left t → Spells nodes right u → Spells nodes (some i) (u ++ t)

/-- Nodes stay what they are when others are added. -/
theorem Spells.mono {nodes : List RopeNode} {p : Option Nat} {t : List UInt8}
    (h : Spells nodes p t) (ms : List RopeNode) : Spells (nodes ++ ms) p t := by
  have hget : ∀ {i : Nat} {n : RopeNode}, nodes[i]? = some n → (nodes ++ ms)[i]? = some n :=
    fun h => by rw [List.getElem?_append_left (List.getElem?_eq_some_iff.1 h).1, h]
  induction h with
  | null => exact .null
  | str hn hle => exact .str (hget hn) hle
  | concat hn hl hr _ _ ihl ihr => exact .concat (hget hn) hl hr ihl ihr

theorem Spells.lt {nodes : List RopeNode} {p : Option Nat} {t : List UInt8}
    (h : Spells nodes p t) : ∀ i ∈ p, i < nodes.length := by
  intro i hi
  cases h with
  | null => cases hi
  | str hn _ => exact Option.some.inj hi ▸ (List.getElem?_eq_some_iff.1 hn).1
  | concat hn _ _ _ _ => exact Option.some.inj hi ▸ (List.getElem?_eq_some_iff.1 hn).1

/-! ## The traversal -/

/-- The marks agree above `i`, and on the way back from `i`. -/
structure Marks.Keeps (i : Nat) (m m' : Marks) : Prop where
  temp : ∀ j, i ≤ j → m'.temp j = m.temp j
  tempLeft : ∀ j, i < j → m'.tempLeft j = m.tempLeft j

/-- In front of `b`, with the room `a`. -/
def Rope.Traversal.at (m : Marks) (a b : List UInt8) (goingDown : Bool) (r : Option Nat) :
    Traversal :=
  ⟨m, a ++ b, BitVec.ofNat 32 a.length, goingDown, r⟩

section
variable {nodes : List RopeNode} {i : Nat} {left right : Option Nat}

abbrev Traverses (nodes : List RopeNode) : Traversal → Traversal → Prop :=
  Loop.Reaches (fun s => s.r.isSome) (Traversal.step nodes)

theorem traverses_step {s t : Traversal} (hr : s.r = some i) (h : s.step nodes = .ok t) :
    Traverses nodes s t :=
  .step (by rw [hr]; rfl) h

theorem memcpy_append {a b src : List UInt8} {n : Nat} (hsrc : n ≤ src.length)
    (ha : n ≤ a.length) : memcpy (a ++ b) (a.length - n) src n =
      .ok (a.take (a.length - n) ++ (src.take n ++ b)) := by
  have hroom : a.length - n + n ≤ (a ++ b).length := by
    rw [List.length_append]
    omega
  rw [memcpy, if_pos ⟨hsrc, hroom⟩, Nat.sub_add_cancel ha, List.drop_left,
    List.take_append_of_le_length (Nat.sub_le _ _)]
  rfl

/-- A string is copied in front of what is written. -/
theorem step_str {s : List UInt8} {n : BitVec 32} (hn : nodes[i]? = some (.str s n))
    (hs : n.toNat ≤ s.length) (m : Marks) {a : List UInt8} (b : List UInt8)
    (hlen : n.toNat ≤ a.length) (ha : a.length < 2 ^ 32) :
    Traversal.step nodes (.at m a b true (some i)) =
      .ok (.at m (a.take (a.length - n.toNat)) (s.take n.toNat ++ b) false (m.temp i)) := by
  have hoff : BitVec.ofNat 32 a.length - n = BitVec.ofNat 32 (a.length - n.toNat) := by
    apply BitVec.eq_of_toNat_eq
    rw [BitVec.toNat_sub, BitVec.toNat_ofNat, BitVec.toNat_ofNat]
    omega
  have hoffNat : (BitVec.ofNat 32 (a.length - n.toNat)).toNat = a.length - n.toNat := by
    rw [BitVec.toNat_ofNat]
    omega
  have htake : (a.take (a.length - n.toNat)).length = a.length - n.toNat := by simp
  simp only [Traversal.step, Traversal.at, hn, hoff, hoffNat, memcpy_append hs hlen, htake, ok_bind,
    if_true]
  rfl

/-- On the way up from the right child, or without one. -/
theorem step_up (hn : nodes[i]? = some (.concat left right)) {m : Marks}
    (h : right = none ∨ m.tempLeft i = false) (a b : List UInt8) :
    Traversal.step nodes (.at m a b false (some i)) = .ok (.at m a b false (m.temp i)) := by
  unfold Traversal.step Traversal.at
  simp only [hn, Bool.false_eq_true, if_false]
  cases right with
  | none => rfl
  | some c => simp only [h.resolve_left (by simp), Bool.false_eq_true, if_false]; rfl

/-- Into a child, with the side noted. -/
theorem enter_at (m : Marks) (a b : List UInt8) (down : Bool) (c : Nat) (side : Bool) :
    Traversal.enter i c side (.at m a b down (some i)) =
      .at ((m.setTempLeft i side).setTemp c (some i)) a b true (some c) := rfl

theorem keeps_enter {m m' : Marks} {c : Nat} {side : Bool} (hc : c < i)
    (h : Marks.Keeps c ((m.setTempLeft i side).setTemp c (some i)) m') :
    Marks.Keeps i m m' ∧ m'.tempLeft i = side := by
  refine ⟨⟨fun j hj => ?_, fun j hj => ?_⟩, ?_⟩
  · rw [h.temp j (by omega)]
    exact if_neg (by omega)
  · rw [h.tempLeft j (by omega)]
    exact if_neg (by omega)
  · rw [h.tempLeft i hc]
    exact if_pos rfl

theorem Marks.Keeps.trans {m m' m'' : Marks} (h : m.Keeps i m') (h' : m'.Keeps i m'') :
    m.Keeps i m'' :=
  ⟨fun j hj => (h'.temp j hj).trans (h.temp j hj),
    fun j hj => (h'.tempLeft j hj).trans (h.tempLeft j hj)⟩

/-- From above a node to below its parent, with its text `t` written. -/
def Writes (nodes : List RopeNode) (i : Nat) (t : List UInt8) : Prop :=
  ∀ (m : Marks) (a b : List UInt8), t.length ≤ a.length → a.length < 2 ^ 32 →
    ∃ m', m.Keeps i m' ∧ Traverses nodes (.at m a b true (some i))
      (.at m' (a.take (a.length - t.length)) (t ++ b) false (m.temp i))

/-- Into a child and back up. -/
theorem writes_child {c : Nat} {side : Bool} {t : List UInt8} (hw : Writes nodes c t) (hc : c < i)
    (m : Marks) (a b : List UInt8) (down : Bool) (ht : t.length ≤ a.length)
    (ha : a.length < 2 ^ 32) (hstep : Traversal.step nodes (.at m a b down (some i)) =
      .ok (Traversal.enter i c side (.at m a b down (some i)))) :
    ∃ m', m.Keeps i m' ∧ m'.tempLeft i = side ∧ Traverses nodes (.at m a b down (some i))
      (.at m' (a.take (a.length - t.length)) (t ++ b) false (some i)) := by
  obtain ⟨m', hkeeps, hreach⟩ := hw ((m.setTempLeft i side).setTemp c (some i)) a b ht ha
  obtain ⟨hkeeps', hside⟩ := keeps_enter hc hkeeps
  have htemp : ((m.setTempLeft i side).setTemp c (some i)).temp c = some i := if_pos rfl
  rw [htemp] at hreach
  refine ⟨m', hkeeps', hside, .trans (traverses_step rfl hstep) ?_⟩
  rw [enter_at]
  exact hreach

/-- The right child and the way up, once the left child is done. -/
theorem writes_right {u : List UInt8} (hn : nodes[i]? = some (.concat left right))
    (hr : ∀ c ∈ right, c < i) (hw : ∀ c, right = some c → Writes nodes c u)
    (hnone : right = none → u = []) {m : Marks} {a : List UInt8} (b : List UInt8) {down : Bool}
    (hready : down = true ∧ left = none ∨ down = false ∧ m.tempLeft i = true)
    (hu : u.length ≤ a.length) (ha : a.length < 2 ^ 32) :
    ∃ m', m.Keeps i m' ∧ Traverses nodes (.at m a b down (some i))
      (.at m' (a.take (a.length - u.length)) (u ++ b) false (m.temp i)) := by
  cases right with
  | none =>
    have hstep : Traversal.step nodes (.at m a b down (some i)) =
        .ok (.at m a b false (m.temp i)) := by
      rcases hready with ⟨rfl, rfl⟩ | ⟨rfl, -⟩
      · unfold Traversal.step Traversal.at
        simp only [hn, if_true]
        rfl
      · exact step_up hn (.inl rfl) a b
    rw [hnone rfl, List.length_nil, Nat.sub_zero, List.take_length, List.nil_append]
    exact ⟨m, ⟨fun _ _ => rfl, fun _ _ => rfl⟩, traverses_step rfl hstep⟩
  | some c =>
    have hstep : Traversal.step nodes (.at m a b down (some i)) =
        .ok (Traversal.enter i c false (.at m a b down (some i))) := by
      rcases hready with ⟨rfl, rfl⟩ | ⟨rfl, hleft⟩
      · unfold Traversal.step Traversal.at
        simp only [hn, if_true]
        rfl
      · unfold Traversal.step Traversal.at
        simp only [hn, hleft, Bool.false_eq_true, if_false, if_true]
        rfl
    obtain ⟨m', hkeeps, hside, hreach⟩ :=
      writes_child (hw c rfl) (hr c rfl) m a b down hu ha hstep
    refine ⟨m', hkeeps, hreach.trans ?_⟩
    rw [← hkeeps.temp i (Nat.le_refl i)]
    exact traverses_step rfl (step_up hn (.inr hside) _ _)

/-- **The traversal writes what a node spells.** -/
theorem Spells.writes {p : Option Nat} {t : List UInt8} (h : Spells nodes p t) :
    ∀ i, p = some i → Writes nodes i t := by
  induction h with
  | null =>
    intro i hi
    cases hi
  | @str i s n hn hs =>
    intro j hj m a b ht ha
    cases hj
    have hsize : (s.take n.toNat).length = n.toNat := by simp [hs]
    rw [hsize] at ht ⊢
    exact ⟨m, ⟨fun _ _ => rfl, fun _ _ => rfl⟩, traverses_step rfl (step_str hn hs m b ht ha)⟩
  | @concat i left right t u hn hl hr hspl hspr ihl ihr =>
    intro j hj m a b ht ha
    cases hj
    have hnone : right = none → u = [] := fun h => by
      subst h
      cases hspr
      rfl
    rw [List.length_append] at ht
    cases left with
    | none =>
      cases hspl
      rw [List.append_nil]
      exact writes_right hn hr ihr hnone b (.inl ⟨rfl, rfl⟩) (by omega) ha
    | some c =>
      have hstep : Traversal.step nodes (.at m a b true (some i)) =
          .ok (Traversal.enter i c true (.at m a b true (some i))) := by
        unfold Traversal.step Traversal.at
        simp only [hn, if_true]
        rfl
      obtain ⟨m1, hkeeps1, hside, hleft⟩ :=
        writes_child (ihl c rfl) (hl c rfl) m a b true (by omega) ha hstep
      have hroom : (a.take (a.length - t.length)).length = a.length - t.length := by simp
      obtain ⟨m2, hkeeps2, hright⟩ := writes_right hn hr ihr hnone (t ++ b) (.inr ⟨rfl, hside⟩)
        (a := a.take (a.length - t.length)) (by omega) (by omega)
      refine ⟨m2, hkeeps1.trans hkeeps2, hleft.trans ?_⟩
      rw [hroom, List.take_take, hkeeps1.temp i (Nat.le_refl i)] at hright
      rw [List.length_append, List.append_assoc]
      convert hright using 3
      omega

end

/-! ## The text of a rope -/

theorem memcpy_last {t b : List UInt8} (c : UInt8) (hb : b.length = 1) :
    memcpy (t ++ b) t.length [c] 1 = .ok (t ++ [c]) := by
  rw [memcpy, if_pos ⟨Nat.le_refl 1, by rw [List.length_append, hb]⟩, List.take_left,
    List.drop_of_length_le (by rw [List.length_append, hb])]
  rfl

/-- Where `c_str()` starts its traversal. -/
def Rope.Traversal.start (garbage : Nat → UInt8) (m : Marks) (self : Rope) : Traversal :=
  ⟨m.setRoot self.root, (List.range (self.size + 1).toNat).map garbage, self.size, true, self.root⟩

/-- The traversal fills the room for the text, and leaves the byte behind it. -/
theorem traverses_root {nodes : List RopeNode} {self : Rope} {t : List UInt8}
    (h : Spells nodes self.root t) (hsize : self.size.toNat = t.length)
    (hlen : t.length + 1 < 2 ^ 32) (garbage : Nat → UInt8) (m : Marks) :
    ∃ m' down, Traverses nodes (Traversal.start garbage m self)
      ⟨m', t ++ [garbage t.length], 0, down, none⟩ := by
  have hroom : (self.size + 1).toNat = t.length + 1 := by
    rw [BitVec.toNat_add, hsize]
    exact Nat.mod_eq_of_lt hlen
  obtain ⟨a, ha, hbuf⟩ : ∃ a : List UInt8, a.length = t.length ∧
      (List.range (self.size + 1).toNat).map garbage = a ++ [garbage t.length] := by
    refine ⟨(List.range t.length).map garbage, by simp, ?_⟩
    rw [hroom, List.range_succ, List.map_append]
    rfl
  have hoff : self.size = BitVec.ofNat 32 a.length := by
    apply BitVec.eq_of_toNat_eq
    rw [hsize, BitVec.toNat_ofNat, ha, Nat.mod_eq_of_lt (by omega)]
  have hstart : Traversal.start garbage m self =
      .at (m.setRoot self.root) a [garbage t.length] true self.root := by
    unfold Traversal.start
    rw [hbuf, hoff]
    rfl
  rw [hstart]
  cases hroot : self.root with
  | none =>
    rw [hroot] at h
    cases h
    obtain rfl : a = [] := List.eq_nil_of_length_eq_zero ha
    exact ⟨m, true, .here _⟩
  | some i =>
    rw [hroot] at h
    obtain ⟨m', -, hreach⟩ :=
      h.writes i rfl (m.setTemp i none) a [garbage t.length] ha.ge (by omega)
    have htemp : (m.setTemp i none).temp i = none := if_pos rfl
    rw [ha, Nat.sub_self, List.take_zero, htemp] at hreach
    exact ⟨m', false, hreach⟩

/-- **`c_str()` is the text and a terminator**, with any marks. -/
theorem Rope.cStr_eq {nodes : List RopeNode} {self : Rope} {t : List UInt8}
    (h : Spells nodes self.root t) (hsize : self.size.toNat = t.length)
    (hlen : t.length + 1 < 2 ^ 32) (garbage : Nat → UInt8) (m : Marks) :
    ∃ n, ∀ fuel ≥ n, ∃ m', self.cStr fuel garbage ⟨nodes, m⟩ =
      .ok (some (t ++ [0], ⟨nodes, m'⟩)) := by
  obtain ⟨m', down, hreach⟩ := traverses_root h hsize hlen garbage m
  obtain ⟨n, hn⟩ := hreach.run rfl
  refine ⟨n, fun fuel hf => ⟨m', ?_⟩⟩
  have hlast : memcpy (t ++ [garbage t.length]) self.size.toNat [0] 1 = .ok (t ++ [0]) := by
    rw [hsize]
    exact memcpy_last 0 rfl
  have hrun := hn fuel hf
  unfold Traversal.start at hrun
  unfold cStr
  simp only [hrun, ok_bind, hlast, pure_eq_ok]

/-! ## Mutations -/

/-- The rope spells `t` from a concatenation on, and has its length. -/
structure Rope.Represents (nodes : List RopeNode) (r : Rope) (t : List UInt8) : Prop where
  root : ∃ i left right, r.root = some i ∧ nodes[i]? = some (.concat left right)
  spells : Spells nodes r.root t
  size : r.size.toNat = t.length
  room : t.length + 1 < 2 ^ 32

theorem Rope.Represents.mono {nodes : List RopeNode} {r : Rope} {t : List UInt8}
    (h : r.Represents nodes t) (ms : List RopeNode) : r.Represents (nodes ++ ms) t := by
  obtain ⟨i, left, right, hi, hn⟩ := h.root
  refine ⟨⟨i, left, right, hi, ?_⟩, h.spells.mono ms, h.size, h.room⟩
  rw [List.getElem?_append_left (List.getElem?_eq_some_iff.1 hn).1, hn]

/-- A rope of text `t`, over the old nodes and new ones. -/
def RopeYields (h : RopeHeap) (t : List UInt8) (x : Exec (Rope × RopeHeap)) : Prop :=
  ∃ r ms m, x = .ok (r, ⟨h.nodes ++ ms, m⟩) ∧ r.Represents (h.nodes ++ ms) t

section
variable {h : RopeHeap} {self : Rope} {t : List UInt8}

theorem newStr_eq (s : List UInt8) (size : BitVec 32) (h : RopeHeap) : newStr s size h =
    (h.nodes.length + 1,
      ⟨h.nodes ++ [.str s size, .concat (some h.nodes.length) none],
        (h.marks.init h.nodes.length).init (h.nodes.length + 1)⟩) := by
  unfold newStr RopeHeap.new
  simp only [List.length_append, List.length_singleton, List.append_assoc, List.singleton_append]

theorem getElem?_concat (nodes : List RopeNode) (n n' : RopeNode) :
    (nodes ++ [n, n'])[nodes.length + 1]? = some n' := by
  rw [List.getElem?_append_right (Nat.le_succ _)]
  simp

/-- A string under a concatenation with the rest. -/
theorem spells_str {nodes : List RopeNode} {s : List UInt8} {size : BitVec 32} {right : Option Nat}
    (hs : size.toNat ≤ s.length) (ht : Spells nodes right t) :
    Spells (nodes ++ [.str s size, .concat (some nodes.length) right]) (some (nodes.length + 1))
      (t ++ s.take size.toNat) := by
  have hstr : (nodes ++ [.str s size, .concat (some nodes.length) right])[nodes.length]? =
      some (.str s size) := by simp
  refine .concat (getElem?_concat nodes _ _) ?_ ?_ (.str hstr hs) (ht.mono _)
  · intro c hc
    exact Option.some.inj hc ▸ Nat.lt_succ_self _
  · intro c hc
    exact (ht.lt c hc).trans (Nat.lt_succ_self _)

theorem toNat_add_of_lt {a b : BitVec 32} {m n : Nat} (ha : a.toNat = m) (hb : b.toNat = n)
    (hlt : m + n < 2 ^ 32) : (a + b).toNat = m + n := by
  rw [BitVec.toNat_add, ha, hb, Nat.mod_eq_of_lt hlt]

theorem ofView_eq (s : List UInt8) (size : BitVec 32) (h : RopeHeap) :
    ofView s size h = (⟨some (h.nodes.length + 1), size⟩,
      ⟨h.nodes ++ [.str s size, .concat (some h.nodes.length) none],
        (h.marks.init h.nodes.length).init (h.nodes.length + 1)⟩) := by
  unfold ofView
  rw [newStr_eq]

theorem append_eq (s : List UInt8) (len : BitVec 32) (self : Rope) (h : RopeHeap) :
    self.append s len h = .ok (⟨some (h.nodes.length + 1), self.size + len⟩,
      ⟨h.nodes ++ [.str s len, .concat (some h.nodes.length) self.root],
        (h.marks.init h.nodes.length).init (h.nodes.length + 1)⟩) := by
  have hnew := getElem?_concat h.nodes (.str s len) (.concat (some h.nodes.length) none)
  unfold Rope.append appendNode
  simp only [newStr_eq, hnew, Bool.false_eq_true, if_false, pure_eq_ok, ok_bind]
  rw [List.set_append_right _ _ (Nat.le_succ _)]
  simp

theorem appendRope_eq {r : Rope} {i : Nat} {left right : Option Nat} (hi : r.root = some i)
    (hn : h.nodes[i]? = some (.concat left right)) (self : Rope) :
    self.appendRope r h = .ok (⟨some h.nodes.length, self.size + r.size⟩,
      ⟨h.nodes ++ [.concat (some i) self.root], h.marks.init h.nodes.length⟩) := by
  unfold Rope.appendRope appendNode RopeHeap.new
  simp only [hi, hn, if_true, pure_eq_ok, ok_bind]

theorem ofView_yields (h : RopeHeap) {s : List UInt8} {size : BitVec 32}
    (hs : size.toNat ≤ s.length) (hroom : size.toNat + 1 < 2 ^ 32) :
    RopeYields h (s.take size.toNat) (.ok (ofView s size h)) := by
  have hlen : (s.take size.toNat).length = size.toNat := by simp [hs]
  have hroot := getElem?_concat h.nodes (.str s size) (.concat (some h.nodes.length) none)
  rw [ofView_eq]
  exact ⟨_, _, _, rfl, ⟨⟨_, _, _, rfl, hroot⟩, spells_str hs .null, hlen.symm,
    by rw [hlen]; exact hroom⟩⟩

theorem append_yields (hself : self.Represents h.nodes t) {s : List UInt8} {len : BitVec 32}
    (hs : len.toNat ≤ s.length) (hroom : t.length + len.toNat + 1 < 2 ^ 32) :
    RopeYields h (t ++ s.take len.toNat) (self.append s len h) := by
  have hlen : (s.take len.toNat).length = len.toNat := by simp [hs]
  have hroot := getElem?_concat h.nodes (.str s len) (.concat (some h.nodes.length) self.root)
  refine ⟨_, _, _, append_eq s len self h, ⟨⟨_, _, _, rfl, hroot⟩,
    spells_str hs hself.spells, ?_, ?_⟩⟩
  · rw [List.length_append, hlen]
    exact toNat_add_of_lt hself.size rfl (by omega)
  · rw [List.length_append, hlen]
    exact hroom

theorem appendRope_yields (hself : self.Represents h.nodes t) {r : Rope} {u : List UInt8}
    (hr : r.Represents h.nodes u) (hroom : t.length + u.length + 1 < 2 ^ 32) :
    RopeYields h (t ++ u) (self.appendRope r h) := by
  obtain ⟨i, left, right, hi, hn⟩ := hr.root
  have hcat : (h.nodes ++ [.concat (some i) self.root])[h.nodes.length]? =
      some (.concat (some i) self.root) := by simp
  have hchild := hr.spells.lt
  have hspells := hr.spells.mono [.concat (some i) self.root]
  rw [hi] at hchild hspells
  refine ⟨_, _, _, appendRope_eq hi hn self, ⟨⟨_, _, _, rfl, hcat⟩,
    .concat hcat hchild hself.spells.lt hspells (hself.spells.mono _), ?_, ?_⟩⟩
  · rw [List.length_append]
    exact toNat_add_of_lt hself.size hr.size (by omega)
  · rw [List.length_append]
    exact hroom

/-! ## C strings -/

theorem strlenLoop_eq : ∀ {s : List UInt8} {i : SInt 32}, 0 ∈ s → 0 ≤ i.val →
    i.val + (cText s).length + 1 < 2 ^ 31 →
    ∃ j, strlenLoop s i = .ok j ∧ j.val = i.val + (cText s).length + 1
  | [], _, h, _, _ => absurd h List.not_mem_nil
  | c :: s, i, h, hi, hlt => by
    have hin : SInt.InRange 32 (i.val + intOne.val) := ⟨by
      change _ ≤ i.val + 1
      omega, by
      change i.val + 1 < _
      omega⟩
    rw [strlenLoop, SInt.add, SInt.ofInt?_of_inRange hin, defined_some, ok_bind]
    by_cases hc : c = 0
    · refine ⟨⟨_, hin⟩, by rw [if_neg (not_not.2 hc)]; rfl, ?_⟩
      simp [cText, hc, intOne]
    · have htext : cText (c :: s) = c :: cText s := by simp [cText, hc]
      rw [htext, List.length_cons] at hlt ⊢
      obtain ⟨j, hj, hval⟩ := strlenLoop_eq (s := s) (i := ⟨_, hin⟩)
        ((List.mem_cons.1 h).resolve_left (Ne.symm hc)) (by change 0 ≤ i.val + 1; omega)
        (by change i.val + 1 + _ + 1 < _; omega)
      refine ⟨j, by rw [if_pos hc]; exact hj, ?_⟩
      rw [hval]
      change i.val + 1 + _ + 1 = _
      omega

theorem strlen_eq {s : List UInt8} (h0 : 0 ∈ s) (hlt : (cText s).length + 1 < 2 ^ 31) :
    ∃ n, strlen s = .ok n ∧ (n - 1).toNat = (cText s).length := by
  obtain ⟨j, hj, hval⟩ := strlenLoop_eq (i := ⟨0, by decide⟩) h0 (by decide)
    (by change (0 : Int) + _ + 1 < _; omega)
  refine ⟨BitVec.ofInt 32 j.val, by rw [strlen, hj]; rfl, ?_⟩
  rw [BitVec.toNat_sub, BitVec.toNat_ofInt, hval]
  change (2 ^ 32 - 1 + ((0 + ((cText s).length : Int) + 1) % _).toNat) % _ = _
  omega

/-- What `strlen` has counted is terminated, and short enough for an `int`. -/
theorem strlenLoop_ok : ∀ {s : List UInt8} {i j : SInt 32}, strlenLoop s i = .ok j →
    0 ∈ s ∧ i.val + (cText s).length + 1 < 2 ^ 31
  | [], _, _, h => by cases h
  | c :: s, i, j, h => by
    rw [strlenLoop] at h
    obtain ⟨i', hi, h⟩ := bind_eq_ok h
    have hval : i'.val = i.val + 1 := SInt.ofInt?_eq_some (defined_eq_ok hi)
    have hin : i'.val < 2 ^ 31 := i'.inRange.2
    by_cases hc : c = 0
    · refine ⟨by simp [hc], ?_⟩
      simp [cText, hc]
      omega
    · rw [if_pos hc] at h
      obtain ⟨hmem, hlt⟩ := strlenLoop_ok h
      have htext : cText (c :: s) = c :: cText s := by simp [cText, hc]
      rw [htext, List.length_cons]
      exact ⟨List.mem_cons_of_mem _ hmem, by omega⟩

theorem strlen_ok {s : List UInt8} {n : BitVec 32} (h : strlen s = .ok n) :
    0 ∈ s ∧ (n - 1).toNat = (cText s).length := by
  obtain ⟨j, hj, -⟩ := bind_eq_ok h
  obtain ⟨hmem, hlt⟩ := strlenLoop_ok hj
  obtain ⟨n', hn', hlen⟩ := strlen_eq hmem (by change (0 : Int) + _ + 1 < _ at hlt; omega)
  obtain rfl : n = n' := Except.ok.inj (h.symm.trans hn')
  exact ⟨hmem, hlen⟩

/-- The text of a C string is in front of its terminator. -/
theorem cText_take {s : List UInt8} : s.take (cText s).length = cText s ∧
    (cText s).length ≤ s.length := by
  have hpre : cText s <+: s := List.takeWhile_prefix _
  exact ⟨(List.prefix_iff_eq_take.1 hpre).symm, hpre.length_le⟩

end

/-! ## Runs -/

/-- The length of a rope; `0` if there is none. -/
def RopeWorld.length (w : RopeWorld) (i : Nat) : Nat := ((w.ropes[i]?).map (·.size.toNat)).getD 0

/-- The caller's side: the ropes exist, C strings are terminated, and the bytes can be read. -/
def RopeCall.Valid (w : RopeWorld) : RopeCall → Prop
  | .ofCStr s => 0 ∈ s
  | .ofView s size => size.toNat ≤ s.length
  | .copy i => i < w.ropes.length
  | .appendLiteral i chars => i < w.ropes.length ∧ chars.length + 1 < 2 ^ 32
  | .append i s len => i < w.ropes.length ∧ len.toNat ≤ s.length
  | .appendRope i j => i < w.ropes.length ∧ j < w.ropes.length
  | .addCStr i s => i < w.ropes.length ∧ 0 ∈ s
  | .addRope i j => i < w.ropes.length ∧ j < w.ropes.length

/-- No literal is appended, a C string is shorter than an `int` can count with its terminator, and
the result and a terminator than a `size_t` can. -/
def RopeCall.Fits (w : RopeWorld) : RopeCall → Prop
  | .ofCStr s => (cText s).length + 1 < 2 ^ 31
  | .ofView _ size => size.toNat + 1 < 2 ^ 32
  | .copy _ => True
  | .appendLiteral _ _ => False
  | .append i _ len => w.length i + len.toNat + 1 < 2 ^ 32
  | .appendRope i j => w.length i + w.length j + 1 < 2 ^ 32
  | .addCStr i s => (cText s).length + 1 < 2 ^ 31 ∧ w.length i + (cText s).length + 1 < 2 ^ 32
  | .addRope i j => w.length i + w.length j + 1 < 2 ^ 32

/-- All calls of the run are valid and fit. -/
def RopeWorld.Along (w : RopeWorld) : List RopeCall → Prop
  | [] => True
  | c :: cs => c.Valid w ∧ c.Fits w ∧ ∀ w', w.step c = .ok w' → w'.Along cs

theorem forall₂_set {α β : Type} {R : α → β → Prop} {as : List α} {bs : List β}
    (h : List.Forall₂ R as bs) (i : Nat) {a : α} {b : β} (hab : R a b) :
    List.Forall₂ R (as.set i a) (bs.set i b) := by
  induction h generalizing i with
  | nil => exact .nil
  | cons hr hrs ih =>
    cases i with
    | zero => exact .cons hab hrs
    | succ i => exact .cons hr (ih i)

namespace RopeWorld

/-- Every rope is the string in its place. -/
structure Refines (w : RopeWorld) (ts : List (List UInt8)) : Prop where
  length : w.ropes.length = ts.length
  ropes : ∀ (i : Nat) (r : Rope) (t : List UInt8), w.ropes[i]? = some r → ts[i]? = some t →
    r.Represents w.heap.nodes t

section
variable {w : RopeWorld} {ts : List (List UInt8)} {t : List UInt8} {x : Exec (Rope × RopeHeap)}

theorem refines_iff :
    w.Refines ts ↔ List.Forall₂ (fun r t => r.Represents w.heap.nodes t) w.ropes ts := by
  rw [List.forall₂_iff_get]
  constructor
  · intro h
    exact ⟨h.length, fun i h1 h2 =>
      h.ropes i _ _ (List.getElem?_eq_getElem h1) (List.getElem?_eq_getElem h2)⟩
  · intro h
    refine ⟨h.1, fun i r t hr ht => ?_⟩
    obtain ⟨h1, rfl⟩ := List.getElem?_eq_some_iff.1 hr
    obtain ⟨h2, rfl⟩ := List.getElem?_eq_some_iff.1 ht
    exact h.2 i h1 h2

/-- New nodes change nothing for the ropes that stay. -/
theorem Refines.grow (h : w.Refines ts) (ms : List RopeNode) :
    List.Forall₂ (fun r t => r.Represents (w.heap.nodes ++ ms) t) w.ropes ts :=
  (refines_iff.1 h).imp fun _ _ hr => hr.mono ms

theorem Refines.push (h : w.Refines ts) (hx : RopeYields w.heap t x) :
    ∃ r, x = .ok r ∧ (w.push r).Refines (ts ++ [t]) := by
  obtain ⟨r, ms, m, rfl, hr⟩ := hx
  exact ⟨_, rfl, refines_iff.2 (List.rel_append (h.grow ms) (.cons hr .nil))⟩

theorem Refines.put (h : w.Refines ts) (hx : RopeYields w.heap t x) (i : Nat) :
    ∃ r, x = .ok r ∧ (w.put i r).Refines (ts.set i t) := by
  obtain ⟨r, ms, m, rfl, hr⟩ := hx
  exact ⟨_, rfl, refines_iff.2 (forall₂_set (h.grow ms) i hr)⟩

theorem Refines.rope (h : w.Refines ts) {i : Nat} (hi : i < w.ropes.length) :
    ∃ r, w.rope i = .ok r ∧ r.Represents w.heap.nodes (ts.getD i []) ∧
      w.length i = (ts.getD i []).length := by
  have hr : w.ropes[i]? = some w.ropes[i] := List.getElem?_eq_getElem hi
  have ht : ts[i]? = some (ts.getD i []) := by
    rw [List.getD_eq_getElem?_getD, List.getElem?_eq_getElem (h.length ▸ hi)]
    rfl
  have hrep := h.ropes i _ _ hr ht
  refine ⟨w.ropes[i], by rw [RopeWorld.rope, hr]; rfl, hrep, ?_⟩
  rw [RopeWorld.length, hr]
  exact hrep.size

/-- **A call does to a rope what it does to the string.** -/
theorem Refines.step (h : w.Refines ts) {c : RopeCall} (hv : c.Valid w) (hf : c.Fits w) :
    ∃ w', w.step c = .ok w' ∧ w'.Refines (c.concat ts) := by
  cases c with
  | ofCStr s =>
    obtain ⟨n, hn, hlen⟩ := strlen_eq hv hf
    have hread : (n - 1).toNat ≤ s.length := hlen ▸ cText_take.2
    have hy := ofView_yields w.heap hread (by rw [hlen]; exact hf.trans (by decide))
    rw [hlen, cText_take.1] at hy
    obtain ⟨r, hr, hw⟩ := h.push hy
    refine ⟨_, ?_, hw⟩
    cases hr
    rw [RopeWorld.step, Rope.ofCStr, hn]
    rfl
  | ofView s size =>
    obtain ⟨r, hr, hw⟩ := h.push (ofView_yields w.heap hv hf)
    refine ⟨_, ?_, hw⟩
    cases hr
    rfl
  | copy i =>
    obtain ⟨r, hr, hrep, -⟩ := h.rope hv
    have hy : RopeYields w.heap (ts.getD i []) (.ok (r, w.heap)) := by
      refine ⟨r, [], w.heap.marks, ?_, hrep.mono []⟩
      rw [List.append_nil]
    obtain ⟨r', hr', hw⟩ := h.push hy
    refine ⟨_, ?_, hw⟩
    cases hr'
    rw [RopeWorld.step, hr]
    rfl
  | appendLiteral i chars => exact hf.elim
  | append i s len =>
    obtain ⟨self, hself, hrep, hlen⟩ := h.rope hv.1
    obtain ⟨r, hr, hw⟩ := h.put (append_yields hrep hv.2 (hlen ▸ hf)) i
    refine ⟨_, ?_, hw⟩
    rw [RopeWorld.step, hself, ok_bind, hr]
    rfl
  | appendRope i j =>
    obtain ⟨self, hself, hrep, hlen⟩ := h.rope hv.1
    obtain ⟨other, hother, hrep', hlen'⟩ := h.rope hv.2
    obtain ⟨r, hr, hw⟩ := h.put (appendRope_yields hrep hrep' (hlen ▸ hlen' ▸ hf)) i
    refine ⟨_, ?_, hw⟩
    rw [RopeWorld.step, hself, ok_bind, hother, ok_bind, hr]
    rfl
  | addCStr i s =>
    obtain ⟨self, hself, hrep, hlen⟩ := h.rope hv.1
    obtain ⟨n, hn, hn'⟩ := strlen_eq hv.2 hf.1
    have hread : (n - 1).toNat ≤ s.length := hn' ▸ cText_take.2
    have hy := append_yields hrep hread (by rw [hn', ← hlen]; exact hf.2)
    rw [hn', cText_take.1] at hy
    obtain ⟨r, hr, hw⟩ := h.put hy i
    refine ⟨_, ?_, hw⟩
    rw [RopeWorld.step, hself, ok_bind, Rope.addCStr, hn, ok_bind, hr]
    rfl
  | addRope i j =>
    obtain ⟨self, hself, hrep, hlen⟩ := h.rope hv.1
    obtain ⟨other, hother, hrep', hlen'⟩ := h.rope hv.2
    obtain ⟨r, hr, hw⟩ := h.put (appendRope_yields hrep hrep' (hlen ▸ hlen' ▸ hf)) i
    refine ⟨_, ?_, hw⟩
    rw [RopeWorld.step, hself, ok_bind, hother, ok_bind, Rope.addRope, hr]
    rfl

theorem Refines.run {cs : List RopeCall} (h : w.Refines ts) (ha : w.Along cs) :
    ∃ w', w.run cs = .ok w' ∧ w'.Refines (RopeCall.concatAll ts cs) := by
  induction cs generalizing w ts with
  | nil => exact ⟨w, rfl, h⟩
  | cons c cs ih =>
    obtain ⟨hv, hf, hrest⟩ := ha
    obtain ⟨w', hw', hstep⟩ := h.step hv hf
    obtain ⟨w'', hw'', hrun⟩ := ih hstep (hrest w' hw')
    refine ⟨w'', ?_, hrun⟩
    rw [RopeWorld.run, hw', ok_bind]
    exact hw''

end

/-- **Ropes are strings.** In a run of calls that fit, every rope's length and its `c_str()` are
those of the string in its place, whatever earlier traversals have left in the marks. -/
theorem run_concat {cs : List RopeCall} (ha : start.Along cs) :
    ∃ w, start.run cs = .ok w ∧ w.ropes.length = (RopeCall.concatAll [] cs).length ∧
      ∀ (i : Nat) (r : Rope), w.ropes[i]? = some r → ∃ t, (RopeCall.concatAll [] cs)[i]? = some t ∧
        r.length.toNat = t.length ∧ ∀ (garbage : Nat → UInt8) (m : Marks), ∃ n, ∀ fuel ≥ n,
          ∃ m', r.cStr fuel garbage ⟨w.heap.nodes, m⟩ = .ok (some (t ++ [0], ⟨w.heap.nodes, m'⟩)) := by
  have hstart : start.Refines [] := ⟨rfl, fun i r t hi => by cases hi⟩
  obtain ⟨w, hw, href⟩ := hstart.run ha
  refine ⟨w, hw, href.length, fun i r hi => ?_⟩
  have hlt : i < (RopeCall.concatAll [] cs).length :=
    href.length ▸ (List.getElem?_eq_some_iff.1 hi).1
  have ht := List.getElem?_eq_getElem hlt
  have hrep := href.ropes i r _ hi ht
  exact ⟨_, ht, hrep.size, fun garbage m =>
    Rope.cStr_eq hrep.spells hrep.size hrep.room garbage m⟩

theorem Along.cons {w w' : RopeWorld} {c : RopeCall} {cs : List RopeCall} (hv : c.Valid w)
    (hf : c.Fits w) (h : w.step c = .ok w') (hcs : w'.Along cs) : w.Along (c :: cs) :=
  ⟨hv, hf, fun _ h' => Except.ok.inj (h.symm.trans h') ▸ hcs⟩

/-- `ab`, then `c` after it, then all of it again. -/
def sample : List RopeCall := [.ofView [97, 98] 2, .addCStr 0 [99, 0], .appendRope 0 0]

theorem run_concat_sample :
    ∃ w, start.run sample = .ok w ∧ w.ropes.length = (RopeCall.concatAll [] sample).length ∧
      ∀ (i : Nat) (r : Rope), w.ropes[i]? = some r → ∃ t, (RopeCall.concatAll [] sample)[i]? = some t ∧
        r.length.toNat = t.length ∧ ∀ (garbage : Nat → UInt8) (m : Marks), ∃ n, ∀ fuel ≥ n,
          ∃ m', r.cStr fuel garbage ⟨w.heap.nodes, m⟩ = .ok (some (t ++ [0], ⟨w.heap.nodes, m'⟩)) :=
  run_concat (.cons (by show 2 ≤ 2; decide) (by show 3 < 2 ^ 32; decide) rfl
    (.cons ⟨by decide, by decide⟩ ⟨by decide, by decide⟩ rfl
      (.cons ⟨by decide, by decide⟩ (by show 3 + 3 + 1 < 2 ^ 32; decide) rfl trivial)))

/-- A literal of two characters after an empty text. -/
def literalSample : List RopeCall := [.ofView [] 0, .appendLiteral 0 [97, 98]]

/-- The terminator is part of the text, and a third character. -/
theorem run_literal :
    RopeCall.concatAll [] literalSample = [[97, 98]] ∧
    (do
      let w ← start.run literalSample
      let r ← w.rope 0
      let text ← r.cStr 10 (fun _ => 0) w.heap
      pure (r.length, text.map Prod.fst)) = .ok (3, some [97, 98, 0, 0]) :=
  ⟨rfl, rfl⟩

end RopeWorld

end Wasmlib
