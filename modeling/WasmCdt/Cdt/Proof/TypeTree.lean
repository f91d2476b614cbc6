import WasmCdt.Cdt.Proof.AbiPass
import WasmCdt.Cdt.Proof.TypeGraph

/-!
# The pass on trees and on graphs

A type of `QualType` carries its classes. Over the graph of these classes the pass inserts the same
definitions.

* `translateType_strip`, `isAliasing_strip`: names and tests do not read bases and fields.
* `agrees_pass`: **at a depth above the size of a type, the pass on the graph inserts the structs,
  variants and typedefs of the pass on the tree, in the same order.**
-/

namespace Cdt.TypeGraph

open QualType

/-! ## Trees as graphs -/

mutual

def ofTree : QualType → GraphType CXXRecordDecl
  | .scalar printed wire => .scalar printed wire
  | .record printed decl => .record printed decl
  | .specialization printed elaborated decl args =>
    .specialization printed elaborated decl (ofTrees args)
  | .typedef printed desugar => .typedef printed (ofTree desugar)

def ofTrees : List QualType → List (GraphType CXXRecordDecl)
  | [] => []
  | t :: ts => ofTree t :: ofTrees ts

end

theorem ofTrees_eq_map (ts : List QualType) : ofTrees ts = ts.map ofTree := by
  induction ts with
  | nil => rw [ofTrees, List.map_nil]
  | cons t ts ih => rw [ofTrees, ih, List.map_cons]

/-- Every class declares itself. -/
def treeDecls : CXXRecordDecl → ClassDecl CXXRecordDecl
  | .mk name bases fields =>
    ⟨name, bases.map ofTree, fields.map fun | .mk name type => (name, ofTree type)⟩

/-- A type without the bases and fields of its classes. -/
def strip (t : QualType) : QualType := shape treeDecls (ofTree t)

theorem treeDecls_name (d : CXXRecordDecl) : (treeDecls d).name = d.name := by
  cases d
  rfl

/-! ## Names of types -/

theorem shapes_ofTrees (ts : List QualType) : shapes treeDecls (ofTrees ts) = ts.map strip := by
  induction ts with
  | nil => rw [ofTrees, shapes, List.map_nil]
  | cons t ts ih => rw [ofTrees, shapes, ih, List.map_cons, strip]

theorem strip_record (printed : Text) (d : CXXRecordDecl) :
    strip (.record printed d) = .record printed (.mk d.name [] []) := by
  rw [strip, ofTree, shape, treeDecls_name]

theorem strip_specialization (printed : Text) (elaborated : Bool) (d : CXXRecordDecl)
    (args : List QualType) : strip (.specialization printed elaborated d args) =
      .specialization printed elaborated (.mk d.name [] []) (args.map strip) := by
  rw [strip, ofTree, shape, treeDecls_name, shapes_ofTrees]

theorem strip_typedef (printed : Text) (desugar : QualType) :
    strip (.typedef printed desugar) = .typedef printed (strip desugar) := by
  rw [strip, ofTree, shape, strip]

theorem printed_strip (t : QualType) : (strip t).printed = t.printed := by
  cases t with
  | scalar => rfl
  | record => rw [strip_record]; rfl
  | specialization => rw [strip_specialization]; rfl
  | typedef => rw [strip_typedef]; rfl

theorem ownName_strip (t : QualType) : (strip t).ownName = t.ownName := by
  rw [ownName, ownName, printed_strip]

theorem ownNames_strip (ts : List QualType) : (ts.map strip).map ownName = ts.map ownName := by
  rw [List.map_map]
  exact List.map_congr_left fun t _ => ownName_strip t

mutual

@[simp] theorem translateType_strip : ∀ t : QualType, translateType (strip t) = translateType t
  | .scalar _ _ => rfl
  | .record _ _ => by rw [strip_record, translateType, translateType]
  | .specialization _ _ _ args => by
    rw [strip_specialization, translateType, translateType, translateTypes_strip args,
      ownNames_strip]
    rfl
  | .typedef _ _ => by rw [strip_typedef, translateType, translateType]

theorem translateTypes_strip : ∀ ts : List QualType,
    translateTypes (ts.map strip) = translateTypes ts
  | [] => rfl
  | t :: ts => by
    rw [List.map_cons, translateTypes, translateTypes, translateType_strip t,
      translateTypes_strip ts]

end

theorem getIgnoredType_strip (t : QualType) :
    QualType.getIgnoredType (strip t) = strip (QualType.getIgnoredType t) := by
  cases t with
  | scalar => rfl
  | record printed d =>
    change QualType.getIgnoredType (strip (.record printed d)) = strip (.record printed d)
    rw [strip_record]
    rfl
  | typedef printed desugar =>
    change QualType.getIgnoredType (strip (.typedef printed desugar)) =
      strip (.typedef printed desugar)
    rw [strip_typedef]
    rfl
  | specialization printed elaborated d args =>
    cases args with
    | nil =>
      change QualType.getIgnoredType (strip (.specialization printed elaborated d [])) =
        strip (.specialization printed elaborated d [])
      rw [strip_specialization]
      rfl
    | cons arg args =>
      rw [strip_specialization, List.map_cons, QualType.getIgnoredType, QualType.getIgnoredType]
      change (if d.isWasmIgnore then _ else _) = _
      split_ifs
      · rfl
      · rw [strip_specialization, List.map_cons]

@[simp] theorem getType_strip (t : QualType) : getType (strip t) = getType t := by
  rw [getType, getType, getIgnoredType_strip, translateType_strip]

@[simp] theorem isBuiltin_strip (t : QualType) : (strip t).isBuiltin = t.isBuiltin := by
  rw [isBuiltin, isBuiltin, translateType_strip]

theorem getTypeAliasString_strip (t : QualType) :
    getTypeAliasString (strip t) = getTypeAliasString t := by
  cases t with
  | scalar => rfl
  | record printed d =>
    change getTypeAliasString (strip (.record printed d)) = getType (.record printed d)
    rw [← getType_strip, strip_record]
    rfl
  | specialization printed elaborated d args =>
    change getTypeAliasString (strip (.specialization printed elaborated d args)) =
      getType (.specialization printed elaborated d args)
    rw [← getType_strip, strip_specialization]
    rfl
  | typedef printed desugar =>
    rw [strip_typedef]
    exact getType_strip desugar

@[simp] theorem isAliasing_strip (t : QualType) : (strip t).isAliasing = t.isAliasing := by
  rw [isAliasing, isAliasing, isBuiltin_strip, printed_strip, getTypeAliasString_strip]

/-! ## Definitions -/

/-- What a definition is in the sets. -/
def texts (e : Entity) : Option AbiStruct × Option AbiVariant × Option AbiTypedef :=
  (Recorded.asStruct (.entity e), Recorded.asVariant (.entity e), Recorded.asTypedef (.entity e))

theorem texts_struct_congr {name name' : Text} {base base' : Option QualType}
    {fields fields' : List FieldSource} (hname : name = name')
    (hbase : base.map getType = base'.map getType)
    (hfields : fields.map FieldSource.toField = fields'.map FieldSource.toField) :
    texts (.struct name base fields) = texts (.struct name' base' fields') := by
  simp only [texts, Recorded.asStruct, Recorded.asVariant, Recorded.asTypedef, hname, hbase,
    hfields]

theorem toField_component_strip (name : Text) (t : QualType) :
    (FieldSource.component name (strip t)).toField = (FieldSource.component name t).toField :=
  congrArg (AbiField.mk name) (translateType_strip t)

theorem toField_field_strip (name : Text) (t : QualType) :
    (FieldSource.field name (strip t)).toField = (FieldSource.field name t).toField :=
  congrArg (AbiField.mk name) (getType_strip t)

theorem texts_map (t key value : QualType) :
    texts (mapEntity (strip t) (strip key) (strip value)) = texts (mapEntity t key value) := by
  refine texts_struct_congr ?_ rfl ?_
  · rw [getType_strip]
  · rw [List.map_cons, List.map_singleton, toField_component_strip, toField_component_strip,
      List.map_cons, List.map_singleton]

theorem texts_pair (t first second : QualType) :
    texts (pairEntity (strip t) (strip first) (strip second)) =
      texts (pairEntity t first second) := by
  refine texts_struct_congr (getType_strip t) rfl ?_
  rw [List.map_cons, List.map_singleton, toField_component_strip, toField_component_strip,
    List.map_cons, List.map_singleton]

theorem texts_tuple (t : QualType) (args : List QualType) :
    texts (tupleEntity (strip t) (args.map strip)) = texts (tupleEntity t args) := by
  refine texts_struct_congr (getType_strip t) rfl ?_
  rw [List.mapIdx_eq_zipIdx_map, List.mapIdx_eq_zipIdx_map, List.zipIdx_map, List.map_map,
    List.map_map, List.map_map]
  exact List.map_congr_left fun arg _ => toField_component_strip _ arg.1

theorem texts_variant (t : QualType) (args : List QualType) :
    texts (.variant (getType (strip t)) (args.map strip)) = texts (.variant (getType t) args) := by
  have hargs : (args.map strip).map translateType = args.map translateType := by
    rw [List.map_map]
    exact List.map_congr_left fun t _ => translateType_strip t
  simp only [texts, Recorded.asStruct, Recorded.asVariant, Recorded.asTypedef, getType_strip, hargs]

theorem texts_typedef (name : Text) (target : QualType) :
    texts (.typedef name (strip target)) = texts (.typedef name target) := by
  simp only [texts, Recorded.asStruct, Recorded.asVariant, Recorded.asTypedef, translateType_strip]

theorem texts_struct (rname : Text) (d : CXXRecordDecl) :
    texts (structEntity rname (classShape treeDecls d)) = texts (structEntity rname d) := by
  cases d with
  | mk name bases fields =>
    have hbase : (onlyBase (shapes treeDecls (bases.map ofTree))).map getType =
        (onlyBase bases).map getType := by
      match bases with
      | [] | _ :: _ :: _ => rfl
      | [base] => exact congrArg some (getType_strip base)
    refine texts_struct_congr rfl hbase ?_
    rw [treeDecls, List.map_map, List.map_map, List.map_map, List.map_map]
    refine List.map_congr_left fun f _ => ?_
    cases f with
    | mk field type =>
      change (if field = transactionExtensions then FieldSource.extensions (strip type)
        else .field field (strip type)).toField =
          (if field = transactionExtensions then FieldSource.extensions type
            else .field field type).toField
      split_ifs
      · rfl
      · exact toField_field_strip field type

/-! ## Runs -/

/-- The run inserts what is recorded, or both throw. -/
def Agrees : Run CXXRecordDecl → Recording → Prop
  | .ok inserted, some es => inserted.map (fun i => texts i.entity) = es.map texts
  | .error .thrown, none => True
  | _, _ => False

theorem agrees_append {r : Run CXXRecordDecl} {r' : Recording} (h : Agrees r r')
    {rest : Run CXXRecordDecl} {rest' : Recording} (hrest : Agrees rest rest') :
    Agrees (r.bind fun inserted => rest.map fun more => inserted ++ more)
      (do
        let es ← r'
        let more ← rest'
        pure (es ++ more)) := by
  match r, r', h with
  | .error .thrown, none, _ => exact trivial
  | .ok inserted, some es, h =>
    match rest, rest', hrest with
    | .error .thrown, none, _ => exact trivial
    | .ok more, some es', hrest =>
      change (inserted ++ more).map _ = (es ++ es').map texts
      rw [List.map_append, List.map_append, ← hrest]
      exact congrArg (· ++ _) h

theorem agrees_all {rs : List (Run CXXRecordDecl)} {rs' : List Recording}
    (h : List.Forall₂ Agrees rs rs') : Agrees (Run.all rs) (Recording.all rs') := by
  induction h with
  | nil => exact rfl
  | cons hr _ ih => exact agrees_append hr ih

theorem recording_single (r : Recording) : Recording.all [r] = r := by
  cases r <;> simp [Recording.all]

theorem agrees_nil : Agrees (.ok []) (some []) := rfl

theorem agrees_insert {e e' : Entity} (h : texts e = texts e') : Agrees (insert e) (some [e']) :=
  congrArg (fun t => [t]) h

theorem agrees_snoc {rs : List (Run CXXRecordDecl)} {rs' : List Recording}
    (h : List.Forall₂ Agrees rs rs') {e e' : Entity} (he : texts e = texts e') :
    Agrees (Run.all (rs ++ [insert e])) (Recording.all (rs' ++ [some [e']])) :=
  agrees_all (List.rel_append h (.cons (agrees_insert he) .nil))

section
variable {add : GraphType CXXRecordDecl → Run CXXRecordDecl}
  {addClass : Text → CXXRecordDecl → Run CXXRecordDecl}

theorem agrees_args {args : List QualType}
    (h : ∀ t ∈ args, Agrees (add (ofTree t)) (Cdt.addType t)) :
    List.Forall₂ Agrees ((ofTrees args).map add) (args.map Cdt.addType) := by
  rw [ofTrees_eq_map, List.map_map, List.forall₂_map_left_iff, List.forall₂_map_right_iff]
  exact List.forall₂_same.2 h

theorem agrees_addMap (t : QualType) {args : List QualType}
    (h : ∀ t ∈ args, Agrees (add (ofTree t)) (Cdt.addType t)) :
    Agrees (addMap treeDecls add (ofTree t) (ofTrees args))
      (Cdt.addMap t args (args.map Cdt.addType)) := by
  match args with
  | [] | [_] => exact trivial
  | key :: value :: _ =>
    have hkey := h key (by simp)
    have hvalue := h value (by simp)
    exact agrees_all (.cons hkey (.cons hvalue (.cons hkey (.cons hvalue
      (.cons (agrees_insert (texts_map t key value)) .nil)))))

theorem agrees_addPair (t : QualType) {args : List QualType}
    (h : ∀ t ∈ args, Agrees (add (ofTree t)) (Cdt.addType t)) :
    Agrees (addPair treeDecls add (ofTree t) (ofTrees args))
      (Cdt.addPair t args (args.map Cdt.addType)) := by
  match args with
  | [] | [_] => exact trivial
  | first :: second :: _ =>
    have hfirst := h first (by simp)
    have hsecond := h second (by simp)
    exact agrees_all (.cons hfirst (.cons hsecond (.cons hfirst (.cons hsecond
      (.cons (agrees_insert (texts_pair t first second)) .nil)))))

theorem agrees_addTuple (t : QualType) (elaborated : Bool) {args : List QualType}
    (h : ∀ t ∈ args, Agrees (add (ofTree t)) (Cdt.addType t)) :
    Agrees (addTuple treeDecls add (ofTree t) elaborated (ofTrees args))
      (Cdt.addTuple t elaborated args (args.map Cdt.addType)) := by
  cases elaborated with
  | false => exact trivial
  | true =>
    refine agrees_snoc (agrees_args h) ?_
    rw [shapes_ofTrees]
    exact texts_tuple t args

theorem agrees_addVariant (t : QualType) (elaborated : Bool) {args : List QualType}
    (h : ∀ t ∈ args, Agrees (add (ofTree t)) (Cdt.addType t)) :
    Agrees (addVariant treeDecls add (ofTree t) elaborated (ofTrees args))
      (Cdt.addVariant t elaborated args (args.map Cdt.addType)) := by
  cases elaborated with
  | false => exact trivial
  | true =>
    refine agrees_snoc (agrees_args h) ?_
    rw [shapes_ofTrees]
    exact texts_variant t args

theorem agrees_addSpecialization (t : QualType) (elaborated : Bool) {args : List QualType}
    (d : CXXRecordDecl) (h : ∀ t ∈ args, Agrees (add (ofTree t)) (Cdt.addType t))
    (hclass : ∀ rname, Agrees (addClass rname d) (Cdt.addStruct rname d)) :
    Agrees (addSpecialization treeDecls add addClass (ofTree t) elaborated d (ofTrees args))
      (Cdt.addSpecialization t elaborated d.name args (args.map Cdt.addType)
        (Cdt.addStruct (getTemplateName d args) d)) := by
  unfold addSpecialization Cdt.addSpecialization
  rw [treeDecls_name]
  dsimp only
  split_ifs
  · cases args with
    | nil => exact trivial
    | cons arg args => exact h arg List.mem_cons_self
  · exact agrees_addMap t h
  · exact agrees_addPair t h
  · exact agrees_addTuple t elaborated h
  · exact agrees_addVariant t elaborated h
  · have hname : getTemplateName (.mk d.name [] []) (shapes treeDecls (ofTrees args)) =
        getTemplateName d args := by
      rw [shapes_ofTrees]
      unfold getTemplateName
      rw [ownNames_strip]
      rfl
    rw [hname]
    exact hclass _

theorem agrees_addTypedef (printed : Text) {desugar : QualType}
    (h : Agrees (add (ofTree desugar)) (Cdt.addType desugar)) :
    Agrees (addTypedef treeDecls add printed (ofTree desugar))
      (Recording.all [if desugar.isBuiltin then some [] else Cdt.addType desugar,
        some [.typedef (getBaseTypeName printed) desugar]]) := by
  have hentity := agrees_insert (texts_typedef (getBaseTypeName printed) desugar)
  unfold addTypedef
  rw [show shape treeDecls (ofTree desugar) = strip desugar from rfl, isBuiltin_strip]
  split_ifs
  · exact agrees_all (.cons agrees_nil (.cons hentity .nil))
  · exact agrees_all (.cons h (.cons hentity .nil))

/-- The class that a type is in the end is a part of the type. -/
theorem agrees_addCanonical (t : QualType)
    (h : ∀ rname d, sizeOf d < sizeOf t → Agrees (addClass rname d) (Cdt.addStruct rname d)) :
    Agrees (addCanonical addClass (ofTree t)) (Cdt.addCanonical t) := by
  match t with
  | .scalar _ _ => exact agrees_nil
  | .record _ d =>
    rw [Cdt.addCanonical]
    exact h [] d (by simp)
  | .specialization _ _ d _ =>
    rw [Cdt.addCanonical]
    exact h [] d (by simp; omega)
  | .typedef _ desugar =>
    rw [Cdt.addCanonical]
    exact agrees_addCanonical desugar fun rname d hd => h rname d (by simp; omega)

theorem agrees_guard (t : QualType) {r s : Run CXXRecordDecl} {r' s' : Recording}
    (hr : Agrees r r') (hs : Agrees s s') :
    Agrees (if (strip t).isBuiltin then .ok [] else if (strip t).isAliasing then r else s)
      (guardType t r' s') := by
  rw [guardType, isBuiltin_strip, isAliasing_strip]
  split_ifs
  · exact agrees_nil
  · exact hr
  · exact hs

theorem agrees_ignored (t : QualType)
    (hadd : ∀ s, sizeOf s < sizeOf t → Agrees (add (ofTree s)) (Cdt.addType s))
    (hclass : ∀ rname d, sizeOf d < sizeOf t → Agrees (addClass rname d) (Cdt.addStruct rname d)) :
    Agrees (ignoredBody treeDecls add addClass (ofTree t)) (addIgnored t) := by
  cases t with
  | scalar printed wire =>
    rw [addIgnored]
    exact agrees_guard _ agrees_nil agrees_nil
  | record printed d =>
    rw [addIgnored]
    exact agrees_guard _ agrees_nil (hclass [] d (by simp))
  | specialization printed elaborated d args =>
    rw [addIgnored, addTypes_eq_map]
    refine agrees_guard _ agrees_nil (agrees_addSpecialization _ elaborated d (fun s hs => ?_) ?_)
    · have := List.sizeOf_lt_of_mem hs
      exact hadd s (by simp; omega)
    · exact fun rname => hclass rname d (by simp; omega)
  | typedef printed desugar =>
    rw [addIgnored]
    refine agrees_guard _ (agrees_addTypedef printed (hadd desugar (by simp))) ?_
    exact agrees_addCanonical desugar fun rname d hd => hclass rname d (by simp; omega)

theorem agrees_typeBody (t : QualType)
    (hadd : ∀ s, sizeOf s < sizeOf t → Agrees (add (ofTree s)) (Cdt.addType s))
    (hclass : ∀ rname d, sizeOf d < sizeOf t → Agrees (addClass rname d) (Cdt.addStruct rname d)) :
    Agrees (typeBody treeDecls add addClass (ofTree t)) (Cdt.addType t) := by
  have hsame := agrees_ignored t hadd hclass
  cases t with
  | scalar | record | typedef =>
    rw [addIgnored] at hsame
    rw [Cdt.addType]
    exact hsame
  | specialization printed elaborated d args =>
    rw [Cdt.addType]
    unfold typeBody
    rw [ofTree, getIgnoredType, treeDecls_name]
    by_cases hignore : d.name = "ignore".toList
    · have hdecl : d.isWasmIgnore = true := decide_eq_true hignore
      rw [if_pos hignore, if_pos hdecl]
      cases args with
      | nil =>
        rw [addIgnoredArg]
        exact trivial
      | cons arg args =>
        rw [addIgnoredArg]
        exact agrees_ignored arg (fun s hs => hadd s (by simp; omega))
          fun rname d hd => hclass rname d (by simp; omega)
    · have hdecl : ¬ d.isWasmIgnore = true := fun h => hignore (of_decide_eq_true h)
      rw [if_neg hignore, if_neg hdecl]
      rw [addIgnored] at hsame
      exact hsame

theorem agrees_bases (bases : List QualType) (hclass : ∀ rname d, sizeOf d < sizeOf bases →
      Agrees (addClass rname d) (Cdt.addStruct rname d)) :
    Agrees (Run.all (addBases addClass (bases.map ofTree))) (Cdt.addBases bases) := by
  match bases with
  | [] | _ :: _ :: _ => exact agrees_nil
  | [base] =>
    rw [Cdt.addBases, List.map_singleton, addBases, all_single]
    exact agrees_addCanonical base fun rname d hd => hclass rname d (by simp; omega)

theorem agrees_fields (fields : List FieldDecl)
    (hadd : ∀ s, sizeOf s < sizeOf fields → Agrees (add (ofTree s)) (Cdt.addType s)) :
    Agrees (Run.all ((fields.map fun | .mk name type => (name, ofTree type)).map (addField add)))
      (Cdt.addFields fields) := by
  induction fields with
  | nil =>
    rw [Cdt.addFields]
    exact agrees_nil
  | cons f fields ih =>
    have hrest := ih fun s hs => hadd s (by simp; omega)
    cases f with
    | mk name type =>
      rw [Cdt.addFields]
      refine agrees_append ?_ (recording_single _ ▸ hrest)
      rw [addField]
      dsimp only
      split_ifs
      · exact agrees_insert rfl
      · exact hadd type (by simp; omega)

theorem agrees_structBody (rname : Text) (d : CXXRecordDecl)
    (hadd : ∀ s, sizeOf s < sizeOf d → Agrees (add (ofTree s)) (Cdt.addType s))
    (hclass : ∀ rname e, sizeOf e < sizeOf d → Agrees (addClass rname e) (Cdt.addStruct rname e)) :
    Agrees (structBody treeDecls add addClass rname d) (Cdt.addStruct rname d) := by
  cases d with
  | mk name bases fields =>
    have hbases := agrees_bases bases fun rname e he => hclass rname e (by simp; omega)
    have hfields := agrees_fields fields fun s hs => hadd s (by simp; omega)
    have hown : Agrees (.ok [⟨some (.mk name bases fields),
        structEntity rname (classShape treeDecls (.mk name bases fields))⟩])
        (some [structEntity rname (.mk name bases fields)]) :=
      congrArg (fun t => [t]) (texts_struct rname (.mk name bases fields))
    rw [Cdt.addStruct, structBody, List.append_assoc, all_append]
    refine agrees_append hbases ?_
    rw [all_append]
    exact agrees_append hfields (agrees_all (.cons hown .nil))

end

/-- **The pass on a tree is that on its graph.** -/
theorem agrees_pass (n : Nat) :
    (∀ t, sizeOf t < n → Agrees (addType treeDecls n (ofTree t)) (Cdt.addType t)) ∧
    ∀ rname d, sizeOf d < n → Agrees (addStruct treeDecls n rname d) (Cdt.addStruct rname d) := by
  induction n with
  | zero =>
    exact ⟨fun _ h => absurd h (Nat.not_lt_zero _), fun _ _ h => absurd h (Nat.not_lt_zero _)⟩
  | succ n ih =>
    obtain ⟨htype, hstruct⟩ := ih
    constructor
    · intro t ht
      exact agrees_typeBody t (fun s hs => htype s (by omega))
        fun rname d hd => hstruct rname d (by omega)
    · intro rname d hd
      exact agrees_structBody rname d (fun s hs => htype s (by omega))
        fun rname e he => hstruct rname e (by omega)

end Cdt.TypeGraph
