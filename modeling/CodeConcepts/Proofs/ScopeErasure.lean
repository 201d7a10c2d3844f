import CodeConcepts.Proofs.Erasure
import Mathlib.Data.List.Basic
import Mathlib.Data.List.Find

/-!
# The scope analysis without comments

The analysis of a tree without some of its comments is the analysis of the whole tree without them
(`analyse_erase`): a comment declares nothing, enters nothing into a scope and takes no name. Plans
number the children of a node; a child that stays keeps its task, at a smaller number
(`Plan.ofTask_erase`).
-/

namespace CodeConcepts

open Syntax (Label)
open Syntax.Tree (Reading kind_erase text_erase label_erase field?_erase fieldText?_erase
  head?_namedChildren_erase flatMap_erase map_children_erase kept)

variable {α : Type} {chosen : Label → Bool} {t : Syntax.Tree α} {f : DeclaredFunction}

/-! ## Names that are introduced -/

theorem patternNames_eq (t : Syntax.Tree α) : patternNames t =
    if t.kind = "identifier" ∨ t.kind = "shorthand_property_identifier_pattern" then [t.text]
    else if t.kind = "pair_pattern" then (t.field? "value").elim [] patternNames
    else if t.kind = "assignment_pattern" ∨ t.kind = "object_assignment_pattern" then
      (t.field? "left").elim [] patternNames
    else if t.kind = "object_pattern" ∨ t.kind = "array_pattern" ∨ t.kind = "rest_pattern" then
      t.namedChildren.flatMap patternNames
    else [] := by
  rw [patternNames]
  cases t.field? "value" <;> cases t.field? "left" <;> simp

theorem patternNames_erase {t : Syntax.Tree α} (h : t.Idle chosen) :
    patternNames (t.erase chosen) = patternNames t := by
  have hfield (name : String) : ((t.erase chosen).field? name).elim [] patternNames =
      (t.field? name).elim [] patternNames := by
    rw [field?_erase h]
    cases hc : t.field? name with
    | none => rfl
    | some c =>
      have hlt := Syntax.Tree.size_lt_of_field? hc
      exact patternNames_erase (h.of_field? hc)
  have hlist : (t.erase chosen).namedChildren.flatMap patternNames =
      t.namedChildren.flatMap patternNames := by
    refine flatMap_erase h (fun c hc hidle => ?_) fun c hbare => ?_
    · have hlt := Syntax.Tree.size_lt_of_mem_namedChildren hc
      exact patternNames_erase hidle
    · rw [patternNames_eq, hbare.1]
      rfl
  rw [patternNames_eq, patternNames_eq t, kind_erase, text_erase, hfield,
    hfield, hlist]
termination_by t.size

namespace Scope

theorem ofPattern_erase (h : t.Idle chosen) : ofPattern (t.erase chosen) = ofPattern t := by
  rw [ofPattern, patternNames_erase h, ofPattern]

theorem ofPattern_field_erase (h : t.Idle chosen) (name : String) :
    ((t.erase chosen).field? name).elim [] ofPattern = (t.field? name).elim [] ofPattern := by
  rw [field?_erase h]
  cases hc : t.field? name with
  | none => rfl
  | some c => exact ofPattern_erase (h.of_field? hc)

theorem ofTypeParameters_erase (h : t.Idle chosen) :
    ofTypeParameters (t.erase chosen) = ofTypeParameters t := by
  unfold ofTypeParameters
  rw [field?_erase h]
  cases hlist : t.field? "type_parameters" with
  | none => rfl
  | some list =>
    refine congrArg (List.flatMap (type · .typeParameter)) ?_
    refine Syntax.Tree.filterMap_erase (h.of_field? hlist) (fun c _ hidle => ?_) fun c hbare => ?_
    · exact fieldText?_erase hidle "name"
    · exact Syntax.Tree.fieldText?_of_leaf hbare.2.1 "name"

theorem ofSignature_eq (t : Syntax.Tree α) : ofSignature t =
    ofTypeParameters t ++
      (t.field? "parameters").elim [] (fun list =>
        list.namedChildren.flatMap fun c => (c.field? "pattern").elim [] ofPattern) ++
      (t.field? "parameter").elim [] ofPattern := by
  have hpatterns (cs : List (Syntax.Tree α)) :
      (cs.filterMap (·.field? "pattern")).flatMap ofPattern =
        cs.flatMap fun c => (c.field? "pattern").elim [] ofPattern := by
    rw [List.filterMap_eq_flatMap_toList, List.flatMap_assoc]
    refine List.flatMap_congr fun c _ => ?_
    cases c.field? "pattern" <;> simp
  unfold ofSignature
  simp only [hpatterns]
  cases t.field? "parameters" <;> cases t.field? "parameter" <;> rfl

theorem ofSignature_erase (h : t.Idle chosen) : ofSignature (t.erase chosen) = ofSignature t := by
  rw [ofSignature_eq, ofSignature_eq, ofTypeParameters_erase h, ofPattern_field_erase h,
    field?_erase h]
  cases hlist : t.field? "parameters" with
  | none => rfl
  | some list =>
    refine congrArg (ofTypeParameters t ++ · ++ _) ?_
    refine flatMap_erase (h.of_field? hlist) (fun c _ hidle => ?_) fun c hbare => ?_
    · exact ofPattern_field_erase hidle "pattern"
    · rw [Syntax.Tree.field?_of_leaf hbare.2.1]
      rfl

/-! ## Imports -/

theorem ofImportPart_erase (target : QName) (h : t.Idle chosen) :
    ofImportPart target (t.erase chosen) = ofImportPart target t := by
  unfold ofImportPart
  rw [kind_erase, text_erase]
  split
  case h_1 => rfl
  case h_2 hkind =>
    rw [head?_namedChildren_erase h (by rw [hkind]; rfl)]
    cases t.namedChildren.head? with
    | none => rfl
    | some n => simp only [Option.map_some, text_erase]
  case h_3 =>
    refine flatMap_erase h (fun c _ hidle => ?_) fun c hbare => ?_
    · simp only [fieldText?_erase hidle]
    · rw [Syntax.Tree.fieldText?_of_leaf hbare.2.1]
  case h_4 => rfl

theorem ofRequire_erase (resolve : String → QName) (h : t.Idle chosen)
    (hkind : t.kind = "import_require_clause") :
    ofRequire resolve (t.erase chosen) = ofRequire resolve t := by
  unfold ofRequire
  rw [head?_namedChildren_erase h (by rw [hkind]; rfl), fieldText?_erase h]
  cases t.namedChildren.head? with
  | none => rfl
  | some n => cases t.fieldText? "source" <;> simp only [Option.map_some, text_erase]

theorem ofImport_erase (resolve : String → QName) (h : t.Idle chosen) :
    ofImport resolve (t.erase chosen) = ofImport resolve t := by
  unfold ofImport
  rw [fieldText?_erase h, Syntax.Tree.filter_kind_erase h (by decide),
    Syntax.Tree.filter_kind_erase h (by decide)]
  cases t.fieldText? "source" with
  | some source =>
    simp only [List.flatMap_map]
    refine List.flatMap_congr fun clause hclause => ?_
    have hidle := h.of_mem_namedChildren (List.mem_filter.mp hclause).1
    refine flatMap_erase hidle (fun c _ hc => ofImportPart_erase _ hc)
      fun c hbare => ?_
    rw [ofImportPart, hbare.1]
    rfl
  | none =>
    simp only [List.flatMap_map]
    refine List.flatMap_congr fun clause hclause => ?_
    obtain ⟨hmem, hkind⟩ := List.mem_filter.mp hclause
    exact ofRequire_erase resolve (h.of_mem_namedChildren hmem) (by simpa using hkind)

/-! ## Functions of a container -/

theorem unwrap?_erase (h : t.Idle chosen) :
    unwrap? (t.erase chosen) = (unwrap? t).map (Syntax.Tree.erase chosen) := by
  unfold unwrap?
  rw [kind_erase]
  split
  case h_1 => exact field?_erase h "declaration"
  case h_2 hkind => exact head?_namedChildren_erase h (by rw [hkind]; rfl)
  case h_3 => rfl

theorem idle_of_unwrap? (h : t.Idle chosen) {d : Syntax.Tree α} (hd : unwrap? t = some d) :
    d.Idle chosen := by
  unfold unwrap? at hd
  split at hd
  · exact h.of_field? hd
  · exact h.of_mem_namedChildren (List.mem_of_mem_head? hd)
  · cases hd
    exact h

/-- A function of a container whose statements have moved. -/
def DeclaredFunction.moved (g : Nat → Nat) (f : DeclaredFunction) : DeclaredFunction :=
  { f with position := g f.position }

theorem DeclaredFunction.eq_of_moved {g : Nat → Nat} {f' : DeclaredFunction}
    (hposition : f.position = f'.position) (h : f.moved g = f'.moved g) : f = f' := by
  have hname := congrArg DeclaredFunction.name h
  have hbody := congrArg DeclaredFunction.hasBody h
  cases f
  cases f'
  cases hposition
  cases hname
  cases hbody
  rfl

theorem declaredFunction?_erase (h : t.Idle chosen) (g : Nat → Nat) (i : Nat) :
    declaredFunction? (t.erase chosen) (g i) = (declaredFunction? t i).map (·.moved g) := by
  unfold declaredFunction?
  rw [unwrap?_erase h, label_erase]
  cases hd : unwrap? t with
  | none => rfl
  | some d =>
    have hidle := idle_of_unwrap? h hd
    simp only [Option.map_some, Option.bind_eq_bind, Option.bind_some, kind_erase,
      fieldText?_erase hidle]
    split
    · cases d.fieldText? "name" <;> rfl
    · rfl

theorem declaredFunction?_of_bare (hbare : t.IsBareComment) (i : Nat) :
    declaredFunction? t i = none := by
  have hunwrap : unwrap? t = some t := by
    unfold unwrap?
    rw [hbare.1]
    rfl
  have hrole : ScopeRole.ofKind t.kind = .other := by
    rw [hbare.1]
    rfl
  unfold declaredFunction?
  rw [hunwrap]
  simp [hrole]

theorem position_of_declaredFunction? {i : Nat} (h : declaredFunction? t i = some f) :
    f.position = i := by
  unfold declaredFunction? at h
  obtain ⟨d, -, h⟩ := Option.bind_eq_some_iff.mp h
  split at h
  · obtain ⟨name, -, h⟩ := Option.bind_eq_some_iff.mp h
    cases h
    rfl
  · cases h

theorem declaredFunctions_erase (h : t.Idle chosen) : declaredFunctions (t.erase chosen) =
    (declaredFunctions t).map
      (·.moved (Syntax.rank (Syntax.Tree.stays chosen) t.children)) := by
  unfold declaredFunctions
  rw [Syntax.Tree.zipIdx_children_erase, List.map_filterMap]
  refine Syntax.filterMap_of_filter (fun p hp => ?_) fun p hp hstays => ?_
  · exact declaredFunction?_erase (h.of_mem_children (List.fst_mem_of_mem_zipIdx hp)) _ p.2
  · have hbare := h.isBareComment (List.fst_mem_of_mem_zipIdx hp) hstays
    exact Option.map_eq_none_iff.mpr (declaredFunction?_of_bare hbare p.2)

/-- A function is declared by a statement that stays. -/
theorem exists_of_mem_declaredFunctions (h : t.Idle chosen) (hf : f ∈ declaredFunctions t) :
    ∃ p ∈ t.children.zipIdx, p.1.stays chosen = true ∧ p.2 = f.position := by
  obtain ⟨p, hp, hf⟩ := List.mem_filterMap.mp hf
  refine ⟨p, hp, ?_, (position_of_declaredFunction? hf).symm⟩
  cases hstays : p.1.stays chosen with
  | true => rfl
  | false =>
    have hbare := h.isBareComment (List.fst_mem_of_mem_zipIdx hp) hstays
    exact absurd hf (by simp [declaredFunction?_of_bare hbare])

theorem functionNames_moved (g : Nat → Nat) (fs : List DeclaredFunction) :
    functionNames (fs.map (·.moved g)) = functionNames fs := by
  unfold functionNames
  rw [List.foldl_map]
  rfl

theorem primary?_moved (g : Nat → Nat) (fs : List DeclaredFunction) (name : String) :
    primary? (fs.map (·.moved g)) name = (primary? fs name).map (·.moved g) := by
  have hname : (fun f : DeclaredFunction => f.name == name) ∘ DeclaredFunction.moved g =
      fun f => f.name == name := rfl
  have hbody : (fun f : DeclaredFunction => f.hasBody) ∘ DeclaredFunction.moved g =
      fun f => f.hasBody := rfl
  unfold primary?
  simp only [List.filter_map, hname, hbody, List.getLast?_map, List.head?_map, Option.map_or]

theorem mem_of_primary? {fs : List DeclaredFunction} {name : String}
    (h : primary? fs name = some f) : f ∈ fs := by
  unfold primary? at h
  rcases Option.or_eq_some_iff.mp h with h | ⟨-, h⟩
  · exact (List.mem_filter.mp (List.mem_filter.mp (List.mem_of_getLast? h)).1).1
  · exact (List.mem_filter.mp (List.mem_of_mem_head? h)).1

/-- What a container decides about its functions does not depend on where they stand, as long as
they stand at different positions. -/
theorem assignment?_moved {fs : List DeclaredFunction} (fqns : List (String × QName))
    {g : Nat → Nat} {i : Nat} (hi : ∀ f ∈ fs, g f.position = g i → f.position = i)
    (hg : ∀ f ∈ fs, ∀ f' ∈ fs, g f.position = g f'.position → f.position = f'.position) :
    assignment? (fs.map (·.moved g)) fqns (g i) = assignment? fs fqns i := by
  have hfind : (fs.map (·.moved g)).find? (·.position == g i) =
      (fs.find? (·.position == i)).map (·.moved g) := by
    rw [List.find?_map]
    refine congrArg _ (List.find?_congr fun f hf => ?_)
    rw [Bool.eq_iff_iff, Function.comp, beq_iff_eq, beq_iff_eq]
    exact ⟨hi f hf, fun h => congrArg g h⟩
  unfold assignment?
  rw [hfind]
  cases hf : fs.find? (·.position == i) with
  | none => rfl
  | some f =>
    have hmem := List.mem_of_find?_eq_some hf
    -- positions tell functions of one name apart, and they still do after the move
    have hprimary : primary? (fs.map (·.moved g)) f.name = some (f.moved g) ↔
        primary? fs f.name = some f := by
      rw [primary?_moved, Option.map_eq_some_iff]
      constructor
      · rintro ⟨f', hf', hmoved⟩
        have hposition := hg f' (mem_of_primary? hf') f hmem
          (congrArg DeclaredFunction.position hmoved)
        rw [hf', DeclaredFunction.eq_of_moved hposition hmoved]
      · exact fun h => ⟨f, h, rfl⟩
    simp only [Option.map_some, Option.bind_eq_bind, Option.bind_some]
    rw [show (f.moved g).name = f.name from rfl]
    simp only [hprimary]

/-! ## Tasks -/

theorem visitNamed_erase (t : Syntax.Tree α) : visitNamed (t.erase chosen) =
    kept chosen .skip t.children (visitNamed t) := by
  unfold visitNamed
  exact map_children_erase (fun c => by rw [label_erase]) t

theorem skipAll_erase (t : Syntax.Tree α) : skipAll (t.erase chosen) =
    kept chosen .skip t.children (skipAll t) := by
  unfold skipAll
  exact map_children_erase (fun _ => rfl) t

theorem visitDeclarators_erase (t : Syntax.Tree α) : visitDeclarators (t.erase chosen) =
    kept chosen .skip t.children (visitDeclarators t) := by
  unfold visitDeclarators
  exact map_children_erase (fun c => by rw [label_erase]) t

theorem visitBody_erase (h : t.Idle chosen) : visitBody (t.erase chosen) =
    kept chosen .skip t.children (visitBody t) := by
  have hrole (c : Syntax.Tree α) : (c.erase chosen).label.roles.contains "body" =
      c.label.roles.contains "body" := by rw [label_erase]
  unfold visitBody
  rw [Syntax.Tree.findIdx?_children_erase hrole fun _ => h.stays_of_role]
  cases hb : t.children.findIdx? fun c => c.label.roles.contains "body" with
  | none => exact skipAll_erase t
  | some b => exact Syntax.Tree.map_only_erase hrole (fun _ => h.stays_of_role) hb

theorem visitWrapped_erase (h : t.Idle chosen) (assigned : Option Assignment) :
    visitWrapped (t.erase chosen) assigned =
      kept chosen .skip t.children (visitWrapped t assigned) := by
  unfold visitWrapped
  dsimp only
  rw [kind_erase]
  refine Syntax.Tree.map_zipIdx_erase fun p hp hstays => ?_
  dsimp only
  rw [label_erase]
  split
  case isFalse => rfl
  case isTrue =>
    split
    case h_1 =>
      have hiff := Syntax.Tree.findIdx?_children_erase_iff
        (f := fun c => c.label.roles.contains "declaration")
        (fun c => by rw [label_erase]) (fun _ => h.stays_of_role) hp hstays
      simp only [hiff]
    case h_2 hkind =>
      have hiff := Syntax.Tree.findIdx?_children_erase_iff
        (f := fun c => c.label.named) (fun c => by rw [label_erase])
        (fun c hc => ?_) hp hstays
      · simp only [hiff]
      · -- the first named child is where the declaration is looked for
        refine h.stays_of_reading (r := .leading 1) (by rw [hkind]; rfl) ?_
        rw [Reading.trees, List.take_one, Syntax.Tree.namedChildren, List.head?_filter, hc]
        exact List.mem_singleton_self c
    case h_3 => rfl

theorem visitStatements_erase (h : t.Idle chosen) (fqns : List (String × QName)) :
    visitStatements (t.erase chosen) (declaredFunctions (t.erase chosen)) fqns =
      kept chosen .skip t.children (visitStatements t (declaredFunctions t) fqns) := by
  unfold visitStatements
  refine Syntax.Tree.map_zipIdx_erase fun p hp hstays => ?_
  dsimp only
  rw [label_erase, declaredFunctions_erase h, assignment?_moved]
  · intro f hf hrank
    obtain ⟨q, hq, hkq, hposition⟩ := exists_of_mem_declaredFunctions h hf
    rw [← hposition] at hrank ⊢
    exact Syntax.rank_injective hq hp hkq hstays hrank
  · intro f hf f' hf' hrank
    obtain ⟨q, hq, hkq, hposition⟩ := exists_of_mem_declaredFunctions h hf
    obtain ⟨q', hq', hkq', hposition'⟩ := exists_of_mem_declaredFunctions h hf'
    rw [← hposition, ← hposition'] at hrank ⊢
    exact Syntax.rank_injective hq hq' hkq hkq' hrank

end Scope

/-! ## Plans -/

namespace Plan

open Scope

/-- The plan without the tasks for the chosen children of its node. -/
def erase (chosen : Label → Bool) (t : Syntax.Tree α) (p : Plan) : Plan :=
  { p with tasks := Syntax.Tree.kept chosen .skip t.children p.tasks }

theorem passThrough_erase (frame : Frame) (h : t.Idle chosen) (assigned : Option Assignment)
    (taken : Taken) : passThrough frame (t.erase chosen) assigned taken =
      (passThrough frame t assigned taken).erase chosen t := by
  unfold passThrough
  rw [visitWrapped_erase h]
  rfl

theorem container_erase (frame : Frame) (h : t.Idle chosen) (taken : Taken) :
    container frame (t.erase chosen) taken = (container frame t taken).erase chosen t := by
  have hnames : functionNames (declaredFunctions (t.erase chosen)) =
      functionNames (declaredFunctions t) := by
    rw [declaredFunctions_erase h, functionNames_moved]
  unfold container
  dsimp only
  rw [hnames]
  simp only [visitStatements_erase h]
  rfl

theorem opening_erase (owner : QName) (entries : Scope) (t : Syntax.Tree α) (taken : Taken) :
    opening owner entries (t.erase chosen) taken =
      (opening owner entries t taken).erase chosen t := by
  unfold opening
  rw [visitNamed_erase]
  rfl

theorem functionDeclaration_erase (frame : Frame) (h : t.Idle chosen)
    (assigned : Option Assignment) (taken : Taken) :
    functionDeclaration frame (t.erase chosen) assigned taken =
      (functionDeclaration frame t assigned taken).erase chosen t := by
  unfold functionDeclaration
  rw [ofSignature_erase h, fieldText?_erase h]
  simp only [opening_erase]
  split
  · rfl
  · rfl
  · cases t.fieldText? "name" <;> rfl

theorem anonymousFunction_erase (frame : Frame) (h : t.Idle chosen) (taken : Taken) :
    anonymousFunction frame (t.erase chosen) taken =
      (anonymousFunction frame t taken).erase chosen t := by
  unfold anonymousFunction
  rw [ofSignature_erase h, fieldText?_erase h, opening_erase]

theorem memberName?_erase (frame : Frame) (h : t.Idle chosen) :
    memberName? frame (t.erase chosen) = memberName? frame t := by
  rw [memberName?, fieldText?_erase h, memberName?]

theorem memberFunction_erase (frame : Frame) (h : t.Idle chosen) (taken : Taken) :
    memberFunction frame (t.erase chosen) taken =
      (memberFunction frame t taken).erase chosen t := by
  unfold memberFunction
  rw [ofSignature_erase h, memberName?_erase frame h]
  simp only [opening_erase]
  rfl

theorem property_erase (frame : Frame) (h : t.Idle chosen) (taken : Taken) :
    property frame (t.erase chosen) taken = (property frame t taken).erase chosen t := by
  unfold property
  rw [memberName?_erase frame h, visitNamed_erase]
  rfl

theorem typed_erase (kind : Kind) (enter : String → Meaning → Scope) (namedMembers : Bool)
    (frame : Frame) (h : t.Idle chosen) (taken : Taken) :
    typed kind enter namedMembers frame (t.erase chosen) taken =
      (typed kind enter namedMembers frame t taken).erase chosen t := by
  unfold typed
  rw [fieldText?_erase h, ofTypeParameters_erase h, visitNamed_erase,
    passThrough_erase frame h]
  cases t.fieldText? "name" <;> rfl

theorem classExpression_erase (frame : Frame) (h : t.Idle chosen) (taken : Taken) :
    classExpression frame (t.erase chosen) taken =
      (classExpression frame t taken).erase chosen t := by
  unfold classExpression
  rw [ofTypeParameters_erase h, fieldText?_erase h, opening_erase]

theorem enumDeclaration_erase (frame : Frame) (h : t.Idle chosen) (taken : Taken) :
    enumDeclaration frame (t.erase chosen) taken =
      (enumDeclaration frame t taken).erase chosen t := by
  unfold enumDeclaration
  rw [fieldText?_erase h, visitNamed_erase, passThrough_erase frame h]
  cases t.fieldText? "name" <;> rfl

theorem namespaceDeclaration_erase (frame : Frame) (h : t.Idle chosen) (taken : Taken) :
    namespaceDeclaration frame (t.erase chosen) taken =
      (namespaceDeclaration frame t taken).erase chosen t := by
  unfold namespaceDeclaration
  rw [field?_erase h, visitBody_erase h, passThrough_erase frame h]
  cases t.field? "name" with
  | none => rfl
  | some name =>
    simp only [Option.map_some, text_erase, kind_erase]
    rfl

theorem variableDeclarator_erase (frame : Frame) (h : t.Idle chosen) (taken : Taken) :
    variableDeclarator frame (t.erase chosen) taken =
      (variableDeclarator frame t taken).erase chosen t := by
  unfold variableDeclarator
  rw [field?_erase h, visitNamed_erase, skipAll_erase]
  simp only [passThrough_erase frame h]
  cases hname : t.field? "name" with
  | none => rfl
  | some name =>
    simp only [Option.map_some, text_erase, kind_erase,
      ofPattern_erase (h.of_field? hname)]
    split <;> rfl

theorem forLoop_erase (frame : Frame) (h : t.Idle chosen) (taken : Taken) :
    forLoop frame (t.erase chosen) taken = (forLoop frame t taken).erase chosen t := by
  unfold forLoop
  rw [opening_erase, field?_erase h, field?_erase h]
  cases t.field? "kind" with
  | none => rfl
  | some _ =>
    cases hleft : t.field? "left" with
    | none => rfl
    | some left => simp only [Option.map_some, ofPattern_erase (h.of_field? hleft)]

theorem catchClause_erase (frame : Frame) (h : t.Idle chosen) (taken : Taken) :
    catchClause frame (t.erase chosen) taken = (catchClause frame t taken).erase chosen t := by
  unfold catchClause
  rw [opening_erase, field?_erase h]
  cases hp : t.field? "parameter" with
  | none => rfl
  | some p => simp only [Option.map_some, ofPattern_erase (h.of_field? hp)]

theorem ofNode_erase (resolve : String → QName) (frame : Frame) (assigned : Option Assignment)
    (h : t.Idle chosen) (taken : Taken) :
    ofNode resolve frame assigned (t.erase chosen) taken =
      (ofNode resolve frame assigned t taken).erase chosen t := by
  unfold ofNode
  rw [kind_erase]
  cases ScopeRole.ofKind t.kind with
  | functionDeclaration => exact functionDeclaration_erase frame h assigned taken
  | anonymousFunction => exact anonymousFunction_erase frame h taken
  | memberFunction => exact memberFunction_erase frame h taken
  | classDeclaration => exact typed_erase _ _ _ frame h taken
  | classExpression => exact classExpression_erase frame h taken
  | interfaceDeclaration | typeAliasDeclaration => exact typed_erase _ _ _ frame h taken
  | enumDeclaration => exact enumDeclaration_erase frame h taken
  | namespaceDeclaration => exact namespaceDeclaration_erase frame h taken
  | variableStatement =>
    dsimp only
    rw [passThrough_erase frame h, visitDeclarators_erase]
    rfl
  | importStatement =>
    dsimp only
    rw [passThrough_erase frame h, ofImport_erase resolve h, skipAll_erase]
    rfl
  | property => exact property_erase frame h taken
  | block => exact container_erase _ h taken
  | catchClause => exact catchClause_erase frame h taken
  | forLoop => exact forLoop_erase frame h taken
  | other => exact passThrough_erase frame h assigned taken

theorem ofTask_erase (resolve : String → QName) (task : Task) (frame : Frame) (h : t.Idle chosen)
    (taken : Taken) : ofTask resolve task frame (t.erase chosen) taken =
      (ofTask resolve task frame t taken).erase chosen t := by
  cases task with
  | skip =>
    dsimp only [ofTask]
    rw [passThrough_erase frame h, skipAll_erase]
    rfl
  | visit assigned => exact ofNode_erase resolve frame assigned h taken
  | declarator =>
    dsimp only [ofTask]
    rw [kind_erase, variableDeclarator_erase frame h, ofNode_erase resolve frame _ h]
    split <;> rfl
  | body => exact container_erase frame h taken

end Plan

/-! ## The walk -/

/-- The analysis of a bare comment adds nothing. -/
structure Annotated.Blank (before : Taken) (a : Annotated (Syntax.Tree Note)) : Prop where
  declares : a.result.note.declares = none
  outward : a.outward = []
  taken : a.taken = before

theorem blank_annotate (resolve : String → QName) (task : Task) (frame : Frame) (taken : Taken)
    (h : t.IsBareComment) : (annotate resolve task frame taken t).Blank taken := by
  obtain ⟨l, a, cs⟩ := t
  obtain ⟨hkind, hleaf, -⟩ := h
  obtain rfl : cs = [] := hleaf
  replace hkind : l.kind = "comment" := hkind
  have hnode (assigned : Option Assignment) :
      Plan.ofNode resolve frame assigned (.node l a []) taken =
        Plan.passThrough frame (.node l a []) assigned taken := by
    unfold Plan.ofNode
    rw [show Syntax.Tree.kind (.node l a []) = "comment" from hkind]
    rfl
  rw [annotate]
  cases task with
  | skip => exact ⟨rfl, rfl, rfl⟩
  | visit assigned =>
    dsimp only [Plan.ofTask]
    rw [hnode]
    exact ⟨rfl, rfl, rfl⟩
  | declarator =>
    have hother : Syntax.Tree.kind (.node l a []) ≠ "variable_declarator" := by
      rw [show Syntax.Tree.kind (.node l a []) = "comment" from hkind]
      decide
    dsimp only [Plan.ofTask]
    rw [if_neg hother, hnode]
    exact ⟨rfl, rfl, rfl⟩
  | body => exact ⟨rfl, rfl, rfl⟩

theorem label_annotate (resolve : String → QName) (task : Task) (frame : Frame) (taken : Taken)
    (t : Syntax.Tree α) : (annotate resolve task frame taken t).result.label = t.label := by
  cases t
  rfl

mutual

theorem annotate_erase (resolve : String → QName) (task : Task) (frame : Frame) (taken : Taken) :
    ∀ {t : Syntax.Tree α}, t.Idle chosen →
      annotate resolve task frame taken (t.erase chosen) =
        { annotate resolve task frame taken t with
          result := (annotate resolve task frame taken t).result.erase chosen }
  | .node l a cs, h => by
    have hplan := Plan.ofTask_erase resolve task frame h taken
    have hinner := annotateAll_erase resolve
      (Plan.ofTask resolve task frame (.node l a cs) taken).tasks
      (Plan.ofTask resolve task frame (.node l a cs) taken).frame
      (Plan.ofTask resolve task frame (.node l a cs) taken).taken cs
      fun c hc => h.of_mem_children hc
    rw [Syntax.Tree.erase] at hplan ⊢
    rw [annotate, annotate, hplan]
    dsimp only [Plan.erase, Syntax.Tree.children]
    rw [hinner]
    rfl

theorem annotateAll_erase (resolve : String → QName) (tasks : List Task) (frame : Frame)
    (taken : Taken) : ∀ ts : List (Syntax.Tree α), (∀ t ∈ ts, t.Idle chosen) →
      annotateAll resolve (kept chosen .skip ts tasks) frame taken
          (Syntax.Tree.eraseAll chosen ts) =
        { annotateAll resolve tasks frame taken ts with
          result := Syntax.Tree.eraseAll chosen (annotateAll resolve tasks frame taken ts).result }
  | [], _ => rfl
  | t :: ts, h => by
    have hidle := h t List.mem_cons_self
    have hfirst := annotate_erase resolve (tasks.head?.getD .skip) frame taken hidle
    have hrest (after : Taken) := annotateAll_erase resolve tasks.tail frame after ts
      fun u hu => h u (List.mem_cons_of_mem _ hu)
    rw [Syntax.Tree.eraseAll, kept, annotateAll]
    split
    case isTrue hchosen =>
      -- the statements after the comment see the same scope and the same taken names
      have hblank := blank_annotate resolve (tasks.head?.getD .skip) frame taken
        (hidle.bare t (Syntax.Tree.mem_subtrees_self t) hchosen)
      dsimp only
      rw [Syntax.Tree.eraseAll, label_annotate, if_pos hchosen, hblank.outward, hblank.taken,
        hrest]
      rfl
    case isFalse hchosen =>
      dsimp only
      rw [Syntax.Tree.eraseAll, label_annotate, if_neg hchosen, annotateAll]
      dsimp only [List.head?_cons, Option.getD_some, List.tail_cons]
      rw [hfirst, hrest]

end

/-- The analysis without comments is that of the tree without them. -/
theorem analyse_erase (resolve : String → QName) (module : QName) (h : t.Idle chosen) :
    analyse resolve module (t.erase chosen) = (analyse resolve module t).erase chosen := by
  rw [analyse, annotate_erase resolve .body _ _ h]
  rfl

theorem idle_analyse (resolve : String → QName) (module : QName) (h : t.Idle chosen) :
    (analyse resolve module t).Idle chosen :=
  (Syntax.Tree.idle_congr (shape_analyse resolve module t)).mpr h

/-! ## Comments declare nothing -/

/-- The chosen nodes of an analysed tree have no names. -/
def Silent (chosen : Label → Bool) (t : Syntax.Tree Note) : Prop :=
  ∀ u ∈ t.subtrees, chosen u.label → u.note.declares = none

theorem silent_analyse (resolve : String → QName) (module : QName) (h : t.Idle chosen) :
    Silent chosen (analyse resolve module t) := by
  intro u hu hchosen
  obtain ⟨t', task, frame, taken, hidle, rfl⟩ := exists_annotate_of_step resolve
    (P := fun _ _ t => t.Idle chosen)
    (fun _ _ _ _ _ _ h hc => h.of_mem_children (List.mem_of_getElem? hc)) t [] hu h
  rw [label_annotate] at hchosen
  exact (blank_annotate resolve task frame taken
    (hidle.bare t' (Syntax.Tree.mem_subtrees_self t') hchosen)).declares

end CodeConcepts
