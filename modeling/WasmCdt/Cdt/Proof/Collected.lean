import WasmCdt.Cdt.Proof.TypeGraph

/-!
# When the collection of types ends

`mentions` is what the types and classes of a contract are made of.

* `collect_ok`, `collect_recorded`: when the collection ends, and what is recorded then.
* `collected_iff`: **every reachable class is recorded exactly if no class that is followed comes back
  to itself, every template on the way can be taken apart, and all reachable classes are followed.**
* `node_not_collected`: not so for `struct node { std::vector<node> children; }`.
-/

namespace Cdt.TypeGraph

open Relation

/-! ## What is reachable, followed and recorded -/

section
variable {D : Type} (decls : D → ClassDecl D)

/-- What a type or class is made of. A type that the ABI has under its name is not looked into. -/
def mentions : Node D → List (Node D)
  | .type t =>
    if (shape decls t).isBuiltin then []
    else
      match t with
      | .scalar _ _ => []
      | .record _ d => [.cls d]
      | .specialization _ _ d args =>
        let name := (decls d).name
        if name ∈ "array".toList :: templates then (components name args).map .type else [.cls d]
      | .typedef _ desugar => [.type desugar]
  | .cls d => ((decls d).bases.filterMap getAsCXXRecordDecl).map .cls ++
      (fieldTypes decls d).map .type

end

namespace Root

variable {D : Type} (decls : D → ClassDecl D)

/-- What a matcher calls. -/
def calls : Root D → List (Node D)
  | method _ params => params.map (fun p => .type p.type) ++ params.map fun p => .type p.declared
  | record d => .cls d :: (decls d).fields.map fun f => .type f.2

/-- What an action or a table is made of. -/
def nodes : Root D → List (Node D)
  | method _ params => params.map fun p => .type p.type
  | record d => [.cls d]

end Root

section
variable {D : Type} (decls : D → ClassDecl D) (roots : List (Root D))

def Followed (x : Node D) : Prop :=
  ∃ r ∈ roots, ∃ y ∈ r.calls decls, ReflTransGen (Recursion.Calls (follows decls)) y x

def Reachable (d : D) : Prop :=
  ∃ r ∈ roots, ∃ y ∈ r.nodes, ReflTransGen (fun x y => y ∈ mentions decls x) y (.cls d)

/-- What is in `_abi.structs` in the end. -/
def structs (inserted : List (Insertion D)) : KeyedSet AbiStruct.name :=
  KeyedSet.ofList (inserted.filterMap fun i => Recorded.asStruct (.entity i.entity))

/-- The struct of a class is inserted, and one of its name is in the set. -/
def IsRecorded (inserted : List (Insertion D)) (d : D) : Prop :=
  ∃ rname, ⟨some d, structEntity rname (classShape decls d)⟩ ∈ inserted ∧
    ∃ s ∈ structs inserted, s.name = if rname ≠ [] then rname else (decls d).name

/-- The collection ends at some depth, with the same result at all larger ones, and every reachable
class has a definition recorded. -/
def Collected : Prop :=
  ∃ n inserted, (∀ m ≥ n, collect decls m roots = .ok inserted) ∧
    ∀ d, Reachable decls roots d → IsRecorded decls inserted d

structure Collectable : Prop where
  acyclic : ∀ d, Followed decls roots (.cls d) →
    ¬ TransGen (Recursion.Calls (follows decls)) (.cls d) (.cls d)
  formed : ∀ x, Followed decls roots x → follows decls x ≠ none
  followed : ∀ d, Reachable decls roots d → Followed decls roots (.cls d)

end

section
variable {D : Type} {decls : D → ClassDecl D}

/-! ## Types are finite -/

noncomputable def Node.size : Node D → Nat
  | .type t => sizeOf t
  | .cls _ => 0

theorem sizeOf_getIgnoredType {t type : GraphType D} (h : getIgnoredType decls t = some type) :
    sizeOf type ≤ sizeOf t := by
  cases t with
  | scalar | record | typedef =>
    cases h
    exact le_rfl
  | specialization printed elaborated d args =>
    rw [getIgnoredType] at h
    split_ifs at h
    · have := List.sizeOf_lt_of_mem (List.mem_of_head? h)
      simp only [GraphType.specialization.sizeOf_spec]
      omega
    · cases h
      exact le_rfl

theorem components_subset (name : Text) (args : List (GraphType D)) :
    components name args ⊆ args := by
  unfold components
  split_ifs
  · exact List.take_subset ..
  · exact List.take_subset ..
  · exact List.Subset.refl args

theorem size_templateParts {name : Text} {elaborated : Bool} {args : List (GraphType D)}
    {ys : List (Node D)} (h : templateParts name elaborated args = some ys) :
    ∀ y ∈ ys, y.size < sizeOf args := by
  unfold templateParts at h
  split_ifs at h
  cases h
  intro y hy
  obtain ⟨s, hs, rfl⟩ := List.mem_map.1 hy
  exact List.sizeOf_lt_of_mem (components_subset name args hs)

theorem size_canonical (t u : GraphType D) :
    ∀ y ∈ (getAsCXXRecordDecl u).toList.map Node.cls, y.size < sizeOf t := by
  intro y hy
  obtain ⟨d, -, rfl⟩ := List.mem_map.1 hy
  cases t <;> simp [Node.size]

theorem size_followsType {t : GraphType D} {ys : List (Node D)}
    (h : followsType decls t = some ys) : ∀ y ∈ ys, y.size < sizeOf t := by
  unfold followsType at h
  split_ifs at h
  · cases h
    exact List.forall_mem_nil _
  · cases t with
    | scalar | record | specialization =>
      cases h
      exact List.forall_mem_nil _
    | typedef printed desugar =>
      cases h
      split_ifs
      · exact List.forall_mem_nil _
      · simp [Node.size]
  · cases t with
    | scalar | record | typedef =>
      cases h
      exact size_canonical _ _
    | specialization printed elaborated d args =>
      dsimp only at h
      split_ifs at h
      · intro y hy
        have := size_templateParts h y hy
        simp only [GraphType.specialization.sizeOf_spec]
        omega
      · cases h
        simp [Node.size]

theorem size_of_calls (decls : D → ClassDecl D) (x y : Node D)
    (h : Recursion.Calls (follows decls) x y) : (∃ d, x = .cls d) ∨ y.size < x.size := by
  obtain ⟨ys, hys, hy⟩ := h
  cases x with
  | cls d => exact .inl ⟨d, rfl⟩
  | type t =>
    -- a type only goes on to its parts
    obtain ⟨type, htype, hys⟩ := Option.bind_eq_some_iff.1 hys
    exact .inr ((size_followsType hys y hy).trans_le (sizeOf_getIgnoredType htype))

/-! ## Actions and tables -/

def Root.steps (decls : D → ClassDecl D) : Root D → List (Step D)
  | .method name params => params.map (fun p => .type p.type) ++
      .insert [methodEntity decls name params] :: params.map fun p => .type p.declared
  | .record d => .cls [] d :: (decls d).fields.map fun f => .type f.2

theorem addRoot_eq (n : Nat) (r : Root D) :
    addRoot decls n r = Run.all ((r.steps decls).map (Step.runAt decls n)) := by
  cases r with
  | method name params =>
    simp [addRoot, Root.steps, Step.run, insert, Function.comp_def]
  | record d => simp [addRoot, Root.steps, Step.run, Function.comp_def]

theorem node_steps (r : Root D) (y : Node D) :
    y ∈ r.calls decls ↔ ∃ s ∈ r.steps decls, s.node = some y := by
  cases r with
  | method name params =>
    simp [Root.calls, Root.steps, or_and_right, exists_or, Step.node]
  | record d => simp [Root.calls, Root.steps, Step.node, eq_comm]

theorem collect_ok {n : Nat} {roots : List (Root D)} :
    (∃ inserted, collect decls n roots = .ok inserted) ↔
      ∀ r ∈ roots, ∀ y ∈ r.calls decls, Recursion.Returns (follows decls) n y := by
  rw [collect, all_ok, List.forall_mem_map]
  refine forall₂_congr fun r _ => ?_
  rw [addRoot_eq, steps_ok (node_steps r) fun _ _ hs => step_returns hs]

/-- A struct that is inserted leaves one of its name in the set. -/
theorem isRecorded_iff {inserted : List (Insertion D)} {d : D} :
    IsRecorded decls inserted d ↔ Inserts decls inserted d := by
  constructor
  · intro ⟨rname, hmem, _⟩
    exact ⟨rname, hmem⟩
  · intro ⟨rname, hmem⟩
    have hname : ∀ s,
        Recorded.asStruct (.entity (structEntity rname (classShape decls d))) = some s →
        ∃ t ∈ structs inserted, t.name = s.name := fun s hs =>
      KeyedSet.exists_key_ofList (List.mem_filterMap.2 ⟨_, hmem, hs⟩)
    exact ⟨rname, hmem, hname _ rfl⟩

theorem collect_inserts {n : Nat} {roots : List (Root D)} {inserted : List (Insertion D)}
    (h : collect decls n roots = .ok inserted) (d : D) :
    Inserts decls inserted d ↔ Followed decls roots (.cls d) := by
  have hroot : ∀ r part, addRoot decls n r = .ok part → (Inserts decls part d ↔
      ∃ y ∈ r.calls decls, ReflTransGen (Recursion.Calls (follows decls)) y (.cls d)) := by
    intro r part hpart
    rw [addRoot_eq] at hpart
    exact steps_inserts (node_steps r) hpart fun _ _ hs _ hok => step_inserts hs hok d
  constructor
  · intro ⟨rname, hmem⟩
    obtain ⟨run, hrun, part, hpart, hmem⟩ := (mem_all h _).1 hmem
    obtain ⟨r, hr, rfl⟩ := List.mem_map.1 hrun
    exact ⟨r, hr, (hroot r part hpart).1 ⟨rname, hmem⟩⟩
  · intro ⟨r, hr, hreach⟩
    have hrun := List.mem_map_of_mem (f := addRoot decls n) hr
    obtain ⟨part, hpart⟩ := all_ok.1 ⟨inserted, h⟩ _ hrun
    obtain ⟨rname, hmem⟩ := (hroot r part hpart).2 hreach
    exact ⟨rname, (mem_all h _).2 ⟨_, hrun, part, hpart, hmem⟩⟩

theorem collect_recorded {n : Nat} {roots : List (Root D)} {inserted : List (Insertion D)}
    (h : collect decls n roots = .ok inserted) (d : D) :
    IsRecorded decls inserted d ↔ Followed decls roots (.cls d) :=
  isRecorded_iff.trans (collect_inserts h d)

theorem collect_le {n m : Nat} (hnm : n ≤ m) (roots : List (Root D)) :
    (collect decls n roots).Le (collect decls m roots) := by
  induction hnm with
  | refl => exact fun _ h => h
  | @step m _ ih =>
    intro inserted h
    refine le_all ?_ inserted (ih inserted h)
    rw [List.forall₂_map_left_iff, List.forall₂_map_right_iff]
    refine List.forall₂_same.2 fun r _ => ?_
    rw [addRoot_eq, addRoot_eq]
    exact le_all (le_steps _ (step_le decls m))

theorem collect_returns [Finite D] {roots : List (Root D)} :
    (∃ n inserted, collect decls n roots = .ok inserted) ↔
      (∀ d, Followed decls roots (.cls d) →
        ¬ TransGen (Recursion.Calls (follows decls)) (.cls d) (.cls d)) ∧
      ∀ x, Followed decls roots x → follows decls x ≠ none := by
  have hcall (y : Node D) := Recursion.returns_iff_acyclic (x := y) (size_of_calls decls)
  constructor
  · intro ⟨n, hn⟩
    rw [collect_ok] at hn
    constructor
    · intro d ⟨r, hr, y, hy, hreach⟩
      exact ((hcall y).1 ⟨n, hn r hr y hy⟩).1 d hreach
    · intro x ⟨r, hr, y, hy, hreach⟩
      exact ((hcall y).1 ⟨n, hn r hr y hy⟩).2 x hreach
  · intro ⟨hacyclic, hformed⟩
    have hall : ∀ y ∈ roots.flatMap (Root.calls decls),
        ∃ n, Recursion.Returns (follows decls) n y := by
      intro y hy
      obtain ⟨r, hr, hy⟩ := List.mem_flatMap.1 hy
      exact (hcall y).2 ⟨fun d hd => hacyclic d ⟨r, hr, y, hy, hd⟩,
        fun z hz => hformed z ⟨r, hr, y, hy, hz⟩⟩
    obtain ⟨n, hn⟩ := Recursion.exists_returns_all hall
    exact ⟨n, collect_ok.2 fun r hr y hy => hn y (List.mem_flatMap.2 ⟨r, hr, hy⟩)⟩

end

/-! ## A class that is in itself -/

/-- The declarations of `struct node { std::vector<node> children; }` and of its vector. -/
def nodeDecls : Bool → ClassDecl Bool
  | true => ⟨"node".toList, [], [("children".toList,
      .specialization "std::vector<node>".toList true false [.record "struct node".toList true])]⟩
  | false => ⟨"vector".toList, [], []⟩

def nodeType : GraphType Bool := .record "struct node".toList true

def childrenType : GraphType Bool :=
  .specialization "std::vector<node>".toList true false [nodeType]

/-- An action `grow` with a parameter `node tree`. -/
def nodeRoots : List (Root Bool) := [.method "grow".toList [⟨"tree".toList, nodeType, nodeType⟩]]

section
variable (add : GraphType Bool → Run Bool) (addClass : Text → Bool → Run Bool)

theorem typeBody_node : typeBody nodeDecls add addClass nodeType = addClass [] true := by
  rfl

theorem typeBody_children : typeBody nodeDecls add addClass childrenType = add nodeType := by
  rfl

theorem structBody_node (rname : Text) : structBody nodeDecls add addClass rname true =
    Run.all [add childrenType,
      .ok [⟨some true, structEntity rname (classShape nodeDecls true)⟩]] := by
  rfl

end

/-- No depth is enough. -/
theorem node_tooDeep (n : Nat) : addType nodeDecls n nodeType = .error .tooDeep ∧
    addType nodeDecls n childrenType = .error .tooDeep ∧
    ∀ rname, addStruct nodeDecls n rname true = .error .tooDeep := by
  induction n with
  | zero => exact ⟨rfl, rfl, fun _ => rfl⟩
  | succ n ih =>
    obtain ⟨hnode, hchildren, hstruct⟩ := ih
    refine ⟨?_, ?_, fun rname => ?_⟩
    · rw [addType, typeBody_node, hstruct]
    · rw [addType, typeBody_children, hnode]
    · rw [addStruct, structBody_node, hchildren]
      rfl

theorem collect_node (n : Nat) : collect nodeDecls n nodeRoots = .error .tooDeep := by
  rw [collect, nodeRoots, List.map_singleton, all_single, addRoot, List.map_singleton,
    List.cons_append, Run.all, (node_tooDeep n).1]
  rfl

/-- The declarations of `struct item { uint64_t id; }` and of `box<item>`, for
`template<typename T> struct box : item { T value; }`. -/
def boxDecls : Bool → ClassDecl Bool
  | true => ⟨"item".toList, [], [("id".toList, .scalar "uint64_t".toList "uint64".toList)]⟩
  | false => ⟨"box".toList, [.record "struct item".toList true],
      [("value".toList, .record "struct item".toList true)]⟩

def boxType : GraphType Bool :=
  .specialization "box<item>".toList false false [.record "struct item".toList true]

/-- An action `put` with a parameter `box<item> content`, and a table of items. -/
def boxRoots : List (Root Bool) :=
  [.method "put".toList [⟨"content".toList, boxType, boxType⟩], .record true]

theorem collect_box : ∃ inserted, collect boxDecls 5 boxRoots = .ok inserted := by
  have hok : (collect boxDecls 5 boxRoots).isOk = true := by decide +kernel
  cases h : collect boxDecls 5 boxRoots with
  | ok inserted => exact ⟨inserted, rfl⟩
  | error =>
    rw [h] at hok
    cases hok

end Cdt.TypeGraph
