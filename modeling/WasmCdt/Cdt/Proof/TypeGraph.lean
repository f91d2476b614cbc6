import WasmCdt.Cdt.TypeGraph
import WasmCdt.Lib.Recursion

/-!
# What the pass does on a graph of classes

`follows` is what a call goes on to, read off the types and classes.

* `typeBody_steps`, `structBody_eq`: what `add_type` and `add_struct` do, in steps.
* `step_returns`: **a call returns at a depth exactly if the recursion over `follows` does.**
* `step_inserts`: **it inserts the structs of the classes that it reaches.**
* `step_le`: its result is that at all larger depths.
-/

namespace Cdt.TypeGraph

open Relation

/-! ## What the pass follows -/

/-- What the pass is called for. -/
inductive Node (D : Type)
  | type (t : GraphType D)
  | cls (d : D)

/-- The templates that are replaced by what they hold. -/
def templates : List Text := wrappers ++ ["map", "pair", "tuple", "variant"].map String.toList

section
variable {D : Type} (decls : D → ClassDecl D)

/-- What a template holds, of its arguments. -/
def components (name : Text) (args : List (GraphType D)) : List (GraphType D) :=
  if name ∈ wrappers ∨ name = "array".toList then args.take 1
  else if name = "map".toList ∨ name = "pair".toList then args.take 2
  else args

/-- The arguments are there, and a tuple or variant is written with its namespace. -/
def isFormed (name : Text) (elaborated : Bool) (args : List (GraphType D)) : Bool :=
  if name ∈ wrappers then 1 ≤ args.length
  else if name = "map".toList ∨ name = "pair".toList then 2 ≤ args.length
  else elaborated

def templateParts (name : Text) (elaborated : Bool) (args : List (GraphType D)) :
    Option (List (Node D)) :=
  if isFormed name elaborated args then some ((components name args).map .type) else none

/-- The types of the fields; `transaction_extensions` has one of the ABI's own. -/
def fieldTypes (d : D) : List (GraphType D) :=
  ((decls d).fields.filter fun f => f.1 ≠ transactionExtensions).map Prod.snd

def followsBases : List (GraphType D) → List (Node D)
  | [base] => (getAsCXXRecordDecl base).toList.map .cls
  | _ => []

def followsType (t : GraphType D) : Option (List (Node D)) :=
  if (shape decls t).isBuiltin then some []
  else if (shape decls t).isAliasing then
    match t with
    | .typedef _ desugar => some (if (shape decls desugar).isBuiltin then [] else [.type desugar])
    | _ => some []
  else
    match t with
    | .specialization _ elaborated d args =>
      let name := (decls d).name
      if name ∈ templates then templateParts name elaborated args else some [.cls d]
    | .scalar _ _ | .record _ _ | .typedef _ _ =>
      some ((getAsCXXRecordDecl t).toList.map .cls)

/-- What a call goes on to; `none` where it throws. -/
def follows : Node D → Option (List (Node D))
  | .type t => (getIgnoredType decls t).bind (followsType decls)
  | .cls d => some (followsBases (decls d).bases ++ (fieldTypes decls d).map .type)

end

/-! ## Runs -/

section
variable {D : Type}

theorem all_ok {rs : List (Run D)} :
    (∃ inserted, Run.all rs = .ok inserted) ↔ ∀ r ∈ rs, ∃ inserted, r = .ok inserted := by
  induction rs with
  | nil => simp [Run.all]
  | cons r rs ih =>
    rw [List.forall_mem_cons, ← ih, Run.all]
    cases r with
    | error => simp [Except.bind]
    | ok inserted => cases Run.all rs <;> simp [Except.bind, Except.map]

theorem mem_all {rs : List (Run D)} {inserted : List (Insertion D)}
    (h : Run.all rs = .ok inserted) (i : Insertion D) :
    i ∈ inserted ↔ ∃ r ∈ rs, ∃ part, r = .ok part ∧ i ∈ part := by
  induction rs generalizing inserted with
  | nil =>
    cases h
    simp
  | cons r rs ih =>
    rw [Run.all] at h
    cases r with
    | error => cases h
    | ok part =>
      cases hrest : Run.all rs with
      | error =>
        rw [hrest] at h
        cases h
      | ok rest =>
        rw [hrest] at h
        obtain rfl : part ++ rest = inserted := Except.ok.inj h
        simp [List.mem_append, ih hrest]

theorem all_single (r : Run D) : Run.all [r] = r := by
  cases r <;> simp [Run.all, Except.bind, Except.map]

theorem all_append (rs rs' : List (Run D)) : Run.all (rs ++ rs') =
    (Run.all rs).bind fun inserted => (Run.all rs').map fun rest => inserted ++ rest := by
  induction rs with
  | nil =>
    rw [List.nil_append]
    cases Run.all rs' <;> simp [Run.all, Except.bind, Except.map]
  | cons r rs ih =>
    rw [List.cons_append, Run.all, Run.all, ih]
    cases r with
    | error => rfl
    | ok first =>
      cases Run.all rs with
      | error => rfl
      | ok rest => cases Run.all rs' <;> simp [Except.bind, Except.map]

theorem all_snoc {rs : List (Run D)} {own inserted : List (Insertion D)}
    (h : Run.all (rs ++ [.ok own]) = .ok inserted) :
    ∃ part, Run.all rs = .ok part ∧ inserted = part ++ own := by
  rw [all_append, all_single] at h
  cases hpart : Run.all rs with
  | error =>
    rw [hpart] at h
    cases h
  | ok part =>
    rw [hpart] at h
    exact ⟨part, rfl, (Except.ok.inj h).symm⟩

end

/-! ## What a call does -/

/-- What a call does in turn: further calls, and definitions of no class that it inserts. -/
inductive Step (D : Type)
  | type (t : GraphType D)
  | cls (rname : Text) (d : D)
  | insert (es : List Entity)

namespace Step

variable {D : Type}

def run (add : GraphType D → Run D) (addClass : Text → D → Run D) : Step D → Run D
  | type t => add t
  | cls rname d => addClass rname d
  | insert es => .ok (es.map fun e => ⟨none, e⟩)

def node : Step D → Option (Node D)
  | type t => some (.type t)
  | cls _ d => some (.cls d)
  | insert _ => none

end Step

section
variable {D : Type} {decls : D → ClassDecl D}

/-- The function throws, or goes on to `ys` in its steps, whatever the further calls do. -/
def GoesOn (body : (GraphType D → Run D) → (Text → D → Run D) → Run D) :
    Option (List (Node D)) → Prop
  | none => ∀ add addClass, body add addClass = .error .thrown
  | some ys => ∃ steps : List (Step D),
      (∀ add addClass, body add addClass = Run.all (steps.map (Step.run add addClass))) ∧
        ∀ y, y ∈ ys ↔ ∃ s ∈ steps, s.node = some y

theorem goesOn_nil : GoesOn (D := D) (fun _ _ => .ok []) (some []) :=
  ⟨[], fun _ _ => rfl, by simp⟩

theorem goesOn_typedef (printed : Text) (desugar : GraphType D) :
    GoesOn (fun add _ => addTypedef decls add printed desugar)
      (some (if (shape decls desugar).isBuiltin then [] else [.type desugar])) := by
  unfold addTypedef
  split_ifs
  · exact ⟨[.insert [], .insert [_]], fun _ _ => rfl, by simp [Step.node]⟩
  · exact ⟨[.type desugar, .insert [_]], fun _ _ => rfl, by simp [Step.node, eq_comm]⟩

/-- The step for the class that a type is in the end. -/
def canonicalStep (t : GraphType D) : Step D :=
  match getAsCXXRecordDecl t with
  | some d => .cls [] d
  | none => .insert []

theorem run_canonicalStep (add : GraphType D → Run D) (addClass : Text → D → Run D)
    (t : GraphType D) : (canonicalStep t).run add addClass = addCanonical addClass t := by
  unfold canonicalStep addCanonical
  cases getAsCXXRecordDecl t <;> rfl

theorem node_canonicalStep (t : GraphType D) (y : Node D) :
    (canonicalStep t).node = some y ↔ y ∈ (getAsCXXRecordDecl t).toList.map .cls := by
  unfold canonicalStep
  cases getAsCXXRecordDecl t <;> simp [Step.node, eq_comm]

theorem goesOn_canonical (t : GraphType D) :
    GoesOn (fun _ addClass => addCanonical addClass t)
      (some ((getAsCXXRecordDecl t).toList.map .cls)) := by
  refine ⟨[canonicalStep t], fun add addClass => ?_, by simp [node_canonicalStep]⟩
  rw [List.map_singleton, all_single, run_canonicalStep]

/-- Two arguments, each twice, then a definition. -/
theorem goesOn_two (a b : GraphType D) (e : Entity) :
    GoesOn (fun add _ => Run.all [add a, add b, add a, add b, insert e])
      (some [.type a, .type b]) := by
  refine ⟨[.type a, .type b, .type a, .type b, .insert [e]], fun _ _ => rfl, fun y => ?_⟩
  simp [Step.node, eq_comm]
  tauto

theorem goesOn_map (t : GraphType D) (args : List (GraphType D)) :
    GoesOn (fun add _ => addMap decls add t args)
      (if 2 ≤ args.length then some ((args.take 2).map .type) else none) := by
  match args with
  | [] | [_] => exact fun _ _ => rfl
  | key :: value :: _ => exact goesOn_two key value _

theorem goesOn_pair (t : GraphType D) (args : List (GraphType D)) :
    GoesOn (fun add _ => addPair decls add t args)
      (if 2 ≤ args.length then some ((args.take 2).map .type) else none) := by
  match args with
  | [] | [_] => exact fun _ _ => rfl
  | first :: second :: _ => exact goesOn_two first second _

/-- All arguments, then a definition. -/
theorem goesOn_args (args : List (GraphType D)) (e : Entity) :
    GoesOn (fun add _ => Run.all (args.map add ++ [insert e])) (some (args.map .type)) := by
  refine ⟨args.map .type ++ [.insert [e]], fun _ _ => ?_, fun y => ?_⟩
  · simp [Function.comp_def, Step.run, insert]
  · simp [Step.node]

theorem goesOn_tuple (t : GraphType D) (elaborated : Bool) (args : List (GraphType D)) :
    GoesOn (fun add _ => addTuple decls add t elaborated args)
      (if elaborated then some (args.map .type) else none) := by
  cases elaborated with
  | false => exact fun _ _ => rfl
  | true => exact goesOn_args args _

theorem goesOn_variant (t : GraphType D) (elaborated : Bool) (args : List (GraphType D)) :
    GoesOn (fun add _ => addVariant decls add t elaborated args)
      (if elaborated then some (args.map .type) else none) := by
  cases elaborated with
  | false => exact fun _ _ => rfl
  | true => exact goesOn_args args _

theorem mem_templates {name : Text} : name ∈ templates ↔ name ∈ wrappers ∨ name = "map".toList ∨
    name = "pair".toList ∨ name = "tuple".toList ∨ name = "variant".toList := by
  rw [templates, List.mem_append]
  simp

theorem templateParts_wrapper {name : Text} (h : name ∈ wrappers) (elaborated : Bool)
    (args : List (GraphType D)) : templateParts name elaborated args =
      if 1 ≤ args.length then some ((args.take 1).map .type) else none := by
  simp [templateParts, isFormed, components, h]

theorem templateParts_pair {name : Text} (h : name = "map".toList ∨ name = "pair".toList)
    (elaborated : Bool) (args : List (GraphType D)) : templateParts name elaborated args =
      if 2 ≤ args.length then some ((args.take 2).map .type) else none := by
  have hw : ¬ (name ∈ wrappers ∨ name = "array".toList) := by
    rcases h with rfl | rfl <;> decide
  rw [templateParts, isFormed, components, if_neg (not_or.1 hw).1, if_neg hw, if_pos h, if_pos h]
  simp

theorem templateParts_tuple {name : Text} (h : name = "tuple".toList ∨ name = "variant".toList)
    (elaborated : Bool) (args : List (GraphType D)) : templateParts name elaborated args =
      if elaborated then some (args.map .type) else none := by
  have hw : ¬ (name ∈ wrappers ∨ name = "array".toList) := by
    rcases h with rfl | rfl <;> decide
  have hpair : ¬ (name = "map".toList ∨ name = "pair".toList) := by
    rcases h with rfl | rfl <;> decide
  rw [templateParts, isFormed, components, if_neg (not_or.1 hw).1, if_neg hw, if_neg hpair,
    if_neg hpair]

theorem goesOn_specialization (t : GraphType D) (elaborated : Bool) (d : D)
    (args : List (GraphType D)) :
    GoesOn (fun add addClass => addSpecialization decls add addClass t elaborated d args)
      (if (decls d).name ∈ templates then templateParts (decls d).name elaborated args
        else some [.cls d]) := by
  unfold addSpecialization
  dsimp only
  by_cases hw : (decls d).name ∈ wrappers
  · rw [if_pos (mem_templates.2 (.inl hw)), templateParts_wrapper hw]
    simp only [if_pos hw]
    cases args with
    | nil => exact fun _ _ => rfl
    | cons arg args =>
      exact ⟨[.type arg], fun _ _ => (all_single _).symm, by simp [Step.node, eq_comm]⟩
  simp only [if_neg hw]
  by_cases hmap : (decls d).name = "map".toList
  · rw [if_pos (mem_templates.2 (.inr (.inl hmap))), templateParts_pair (.inl hmap)]
    simp only [if_pos hmap]
    exact goesOn_map t args
  simp only [if_neg hmap]
  by_cases hpair : (decls d).name = "pair".toList
  · rw [if_pos (mem_templates.2 (.inr (.inr (.inl hpair)))), templateParts_pair (.inr hpair)]
    simp only [if_pos hpair]
    exact goesOn_pair t args
  simp only [if_neg hpair]
  by_cases htuple : (decls d).name = "tuple".toList
  · rw [if_pos (mem_templates.2 (.inr (.inr (.inr (.inl htuple))))),
      templateParts_tuple (.inl htuple)]
    simp only [if_pos htuple]
    exact goesOn_tuple t elaborated args
  simp only [if_neg htuple]
  by_cases hvariant : (decls d).name = "variant".toList
  · rw [if_pos (mem_templates.2 (.inr (.inr (.inr (.inr hvariant))))),
      templateParts_tuple (.inr hvariant)]
    simp only [if_pos hvariant]
    exact goesOn_variant t elaborated args
  · have hmem : (decls d).name ∉ templates := by
      rw [mem_templates]
      simp only [hw, hmap, hpair, htuple, hvariant, or_self, not_false_eq_true]
    rw [if_neg hmem]
    simp only [if_neg hvariant]
    exact ⟨[.cls _ d], fun _ _ => (all_single _).symm, by simp [Step.node, eq_comm]⟩

theorem goesOn_ignored (decls : D → ClassDecl D) (type : GraphType D) :
    GoesOn (fun add addClass => ignoredBody decls add addClass type) (followsType decls type) := by
  unfold ignoredBody followsType
  split_ifs
  · exact goesOn_nil
  · cases type with
    | typedef printed desugar => exact goesOn_typedef printed desugar
    | scalar | record | specialization => exact goesOn_nil
  · cases type with
    | specialization _ elaborated d args => exact goesOn_specialization _ elaborated d args
    | scalar | record | typedef => exact goesOn_canonical _

theorem goesOn_type (decls : D → ClassDecl D) (t : GraphType D) :
    GoesOn (fun add addClass => typeBody decls add addClass t) (follows decls (.type t)) := by
  change GoesOn _ ((getIgnoredType decls t).bind (followsType decls))
  unfold typeBody
  cases getIgnoredType decls t with
  | none => exact fun _ _ => rfl
  | some type => exact goesOn_ignored decls type

theorem typeBody_throws {t : GraphType D} (h : follows decls (.type t) = none)
    (add : GraphType D → Run D) (addClass : Text → D → Run D) :
    typeBody decls add addClass t = .error .thrown := by
  have hgoes := goesOn_type decls t
  rw [h] at hgoes
  exact hgoes add addClass

/-- **What `add_type` does.** -/
theorem typeBody_steps {t : GraphType D} {ys : List (Node D)}
    (h : follows decls (.type t) = some ys) : ∃ steps : List (Step D),
      (∀ add addClass,
        typeBody decls add addClass t = Run.all (steps.map (Step.run add addClass))) ∧
      ∀ y, y ∈ ys ↔ ∃ s ∈ steps, s.node = some y := by
  have hgoes := goesOn_type decls t
  rw [h] at hgoes
  exact hgoes

/-! ## Classes -/

def baseSteps : List (GraphType D) → List (Step D)
  | [base] => [canonicalStep base]
  | _ => []

def fieldStep (f : Text × GraphType D) : Step D :=
  if f.1 = transactionExtensions then .insert [extensionEntity] else .type f.2

/-- The steps of `add_struct`, but for the struct. -/
def classSteps (decls : D → ClassDecl D) (d : D) : List (Step D) :=
  baseSteps (decls d).bases ++ (decls d).fields.map fieldStep

theorem structBody_eq (add : GraphType D → Run D) (addClass : Text → D → Run D) (rname : Text)
    (d : D) : structBody decls add addClass rname d =
      Run.all ((classSteps decls d).map (Step.run add addClass) ++
        [.ok [⟨some d, structEntity rname (classShape decls d)⟩]]) := by
  have hbases : ∀ bases,
      addBases addClass bases = (baseSteps bases).map (Step.run add addClass) := by
    intro bases
    match bases with
    | [] | _ :: _ :: _ => rfl
    | [base] => exact congrArg (fun r => [r]) (run_canonicalStep add addClass base).symm
  have hfield : ∀ f, addField add f = (fieldStep f).run add addClass := by
    intro f
    unfold addField fieldStep
    split_ifs <;> rfl
  rw [structBody, classSteps, hbases, List.map_append, List.map_map]
  congr 3
  exact List.map_congr_left fun f _ => hfield f

theorem node_classSteps (d : D) (y : Node D) :
    y ∈ followsBases (decls d).bases ++ (fieldTypes decls d).map .type ↔
      ∃ s ∈ classSteps decls d, s.node = some y := by
  have hbases : ∀ bases, y ∈ followsBases bases ↔ ∃ s ∈ baseSteps bases, s.node = some y := by
    intro bases
    match bases with
    | [] | _ :: _ :: _ => simp [followsBases, baseSteps]
    | [base] => simp only [followsBases, baseSteps, ← node_canonicalStep, List.mem_singleton,
        exists_eq_left]
  have hfield : ∀ f : Text × GraphType D, (fieldStep f).node = some y ↔
      f.1 ≠ transactionExtensions ∧ Node.type f.2 = y := by
    intro f
    unfold fieldStep
    split_ifs with hf <;> simp [Step.node, hf]
  rw [classSteps, List.mem_append, hbases]
  simp [or_and_right, exists_or, hfield, fieldTypes, and_assoc]

/-! ## Runs of steps -/

section
variable {add add' : GraphType D → Run D} {addClass addClass' : Text → D → Run D}

theorem steps_ok {steps : List (Step D)} {ys : List (Node D)} {P : Node D → Prop}
    (hys : ∀ y, y ∈ ys ↔ ∃ s ∈ steps, s.node = some y)
    (hP : ∀ (s : Step D) y, s.node = some y →
      ((∃ inserted, s.run add addClass = .ok inserted) ↔ P y)) :
    (∃ inserted, Run.all (steps.map (Step.run add addClass)) = .ok inserted) ↔ ∀ y ∈ ys, P y := by
  rw [all_ok, List.forall_mem_map]
  constructor
  · intro hok y hy
    obtain ⟨s, hs, hnode⟩ := (hys y).1 hy
    exact (hP s y hnode).1 (hok s hs)
  · intro h s hs
    cases s with
    | insert es => exact ⟨_, rfl⟩
    | type t => exact (hP _ _ rfl).2 (h _ ((hys _).2 ⟨_, hs, rfl⟩))
    | cls rname d => exact (hP _ _ rfl).2 (h _ ((hys _).2 ⟨_, hs, rfl⟩))

/-- The struct of a class is among what is inserted. -/
def Inserts (decls : D → ClassDecl D) (inserted : List (Insertion D)) (d : D) : Prop :=
  ∃ rname, ⟨some d, structEntity rname (classShape decls d)⟩ ∈ inserted

/-- The struct of a class is inserted in the steps exactly if it is by a further call. -/
theorem steps_inserts {steps : List (Step D)} {ys : List (Node D)} {P : Node D → Prop} {d : D}
    (hys : ∀ y, y ∈ ys ↔ ∃ s ∈ steps, s.node = some y) {inserted : List (Insertion D)}
    (hrun : Run.all (steps.map (Step.run add addClass)) = .ok inserted)
    (hP : ∀ (s : Step D) y, s.node = some y → ∀ part, s.run add addClass = .ok part →
      (Inserts decls part d ↔ P y)) :
    Inserts decls inserted d ↔ ∃ y ∈ ys, P y := by
  constructor
  · intro ⟨rname, hmem⟩
    obtain ⟨r, hr, part, hpart, hmem⟩ := (mem_all hrun _).1 hmem
    obtain ⟨s, hs, rfl⟩ := List.mem_map.1 hr
    have hcall : ∀ y, s.node = some y → ∃ y ∈ ys, P y := fun y hnode =>
      ⟨y, (hys y).2 ⟨s, hs, hnode⟩, (hP s y hnode part hpart).1 ⟨rname, hmem⟩⟩
    cases s with
    | type t => exact hcall _ rfl
    | cls name e => exact hcall _ rfl
    | insert es =>
      obtain rfl := Except.ok.inj hpart
      simp at hmem
  · intro ⟨y, hy, hy'⟩
    obtain ⟨s, hs, hnode⟩ := (hys y).1 hy
    have hr := List.mem_map_of_mem (f := Step.run add addClass) hs
    obtain ⟨part, hpart⟩ := all_ok.1 ⟨inserted, hrun⟩ _ hr
    obtain ⟨rname, hmem⟩ := (hP s y hnode part hpart).2 hy'
    exact ⟨rname, (mem_all hrun _).2 ⟨_, hr, part, hpart, hmem⟩⟩

/-- The result of the first run is that of the second. -/
def Run.Le (r r' : Run D) : Prop := ∀ inserted, r = .ok inserted → r' = .ok inserted

theorem le_all {rs rs' : List (Run D)} (h : List.Forall₂ Run.Le rs rs') :
    (Run.all rs).Le (Run.all rs') := by
  induction h with
  | nil => exact fun _ h => h
  | @cons r r' rs rs' hr _ ih =>
    intro inserted hall
    rw [Run.all] at hall ⊢
    cases r with
    | error => cases hall
    | ok first =>
      cases hrest : Run.all rs with
      | error =>
        rw [hrest] at hall
        cases hall
      | ok rest =>
        rw [hrest] at hall
        rw [hr first rfl, ih rest hrest]
        exact hall

theorem le_steps (steps : List (Step D))
    (h : ∀ s : Step D, (s.run add addClass).Le (s.run add' addClass')) :
    List.Forall₂ Run.Le (steps.map (Step.run add addClass))
      (steps.map (Step.run add' addClass')) := by
  rw [List.forall₂_map_left_iff, List.forall₂_map_right_iff]
  exact List.forall₂_same.2 fun s _ => h s

end

/-! ## Calls at a depth -/

/-- A step with at most `n` calls inside one another. -/
abbrev Step.runAt (decls : D → ClassDecl D) (n : Nat) : Step D → Run D :=
  Step.run (addType decls n) (addStruct decls n)

theorem addStruct_succ (n : Nat) (rname : Text) (d : D) : addStruct decls (n + 1) rname d =
    Run.all ((classSteps decls d).map (Step.runAt decls n) ++
      [.ok [⟨some d, structEntity rname (classShape decls d)⟩]]) := by
  rw [addStruct, structBody_eq]

/-- **A call returns exactly if the recursion does.** -/
theorem step_returns {n : Nat} {s : Step D} {x : Node D} (h : s.node = some x) :
    (∃ inserted, s.runAt decls n = .ok inserted) ↔ Recursion.Returns (follows decls) n x := by
  induction n generalizing s x with
  | zero =>
    cases s with
    | insert es => cases h
    | type | cls => simp [Step.run, addType, addStruct, Recursion.Returns]
  | succ n ih =>
    cases s with
    | insert es => cases h
    | type t =>
      obtain rfl := Option.some.inj h
      rw [Step.runAt, Step.run, addType, Recursion.Returns]
      cases hfollows : follows decls (.type t) with
      | none =>
        rw [typeBody_throws hfollows]
        simp
      | some ys =>
        obtain ⟨steps, hsteps, hys⟩ := typeBody_steps hfollows
        rw [hsteps, steps_ok hys fun _ _ hs => ih hs]
        simp
    | cls rname d =>
      obtain rfl := Option.some.inj h
      rw [Step.runAt, Step.run, addStruct_succ, all_ok, List.forall_mem_append, ← all_ok,
        steps_ok (node_classSteps d) fun _ _ hs => ih hs, List.forall_mem_singleton]
      simp [Recursion.Returns, follows]

/-- A node is reached in no step or through what its call goes on to. -/
theorem reaches_iff {x : Node D} {ys : List (Node D)} (hys : follows decls x = some ys)
    (z : Node D) : ReflTransGen (Recursion.Calls (follows decls)) x z ↔
      x = z ∨ ∃ y ∈ ys, ReflTransGen (Recursion.Calls (follows decls)) y z := by
  constructor
  · intro h
    rcases ReflTransGen.cases_head h with rfl | ⟨y, ⟨ys', hys', hy⟩, hyz⟩
    · exact .inl rfl
    · obtain rfl : ys = ys' := Option.some.inj (hys.symm.trans hys')
      exact .inr ⟨y, hy, hyz⟩
  · intro h
    rcases h with rfl | ⟨y, hy, hyz⟩
    · exact .refl
    · exact .head ⟨ys, hys, hy⟩ hyz

/-- **A call inserts the structs of the classes that it reaches.** -/
theorem step_inserts {n : Nat} {s : Step D} {x : Node D} (h : s.node = some x)
    {inserted : List (Insertion D)} (hrun : s.runAt decls n = .ok inserted) (d : D) :
    Inserts decls inserted d ↔ ReflTransGen (Recursion.Calls (follows decls)) x (.cls d) := by
  induction n generalizing s x inserted with
  | zero =>
    cases s with
    | insert es => cases h
    | type | cls => simp [Step.run, addType, addStruct] at hrun
  | succ n ih =>
    cases s with
    | insert es => cases h
    | type t =>
      obtain rfl := Option.some.inj h
      obtain ⟨ys, hys, -⟩ := (step_returns rfl).1 ⟨inserted, hrun⟩
      obtain ⟨steps, hsteps, hnodes⟩ := typeBody_steps hys
      rw [Step.runAt, Step.run, addType, hsteps] at hrun
      rw [reaches_iff hys, steps_inserts hnodes hrun fun _ _ hs _ hpart => ih hs hpart]
      simp
    | cls rname e =>
      obtain rfl := Option.some.inj h
      rw [Step.runAt, Step.run, addStruct_succ] at hrun
      obtain ⟨part, hpart, rfl⟩ := all_snoc hrun
      have hcalls := steps_inserts (node_classSteps e) hpart fun _ _ hs _ hok => ih hs hok
      rw [reaches_iff (show follows decls (.cls e) = some _ from rfl), ← hcalls, Node.cls.injEq]
      constructor
      · intro ⟨name, hmem⟩
        rcases List.mem_append.1 hmem with hmem | hmem
        · exact .inr ⟨name, hmem⟩
        · obtain ⟨hcls, -⟩ := Insertion.mk.inj (List.mem_singleton.1 hmem)
          exact .inl (Option.some.inj hcls).symm
      · intro h
        rcases h with rfl | ⟨name, hmem⟩
        · exact ⟨rname, List.mem_append_right _ (List.mem_singleton_self _)⟩
        · exact ⟨name, List.mem_append_left _ hmem⟩

/-- A result is that at all larger depths. -/
theorem step_le (decls : D → ClassDecl D) (n : Nat) (s : Step D) :
    (s.runAt decls n).Le (s.runAt decls (n + 1)) := by
  induction n generalizing s with
  | zero =>
    cases s with
    | insert es => exact fun _ h => h
    | type | cls => exact fun _ h => nomatch h
  | succ n ih =>
    cases s with
    | insert es => exact fun _ h => h
    | type t =>
      change (addType decls (n + 1) t).Le (addType decls (n + 2) t)
      rw [addType, addType]
      cases hfollows : follows decls (.type t) with
      | none =>
        rw [typeBody_throws hfollows, typeBody_throws hfollows]
        exact fun _ h => h
      | some ys =>
        obtain ⟨steps, hsteps, -⟩ := typeBody_steps hfollows
        rw [hsteps, hsteps]
        exact le_all (le_steps steps ih)
    | cls rname d =>
      change (addStruct decls (n + 1) rname d).Le (addStruct decls (n + 2) rname d)
      rw [addStruct_succ, addStruct_succ]
      exact le_all (List.rel_append (le_steps _ ih) (.cons (fun _ h => h) .nil))

end

end Cdt.TypeGraph
