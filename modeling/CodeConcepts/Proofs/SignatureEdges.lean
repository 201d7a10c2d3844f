import CodeConcepts.Proofs.Attribution
import CodeConcepts.Proofs.TypeReadings

/-!
# Types in signatures are referred to

The record of a function describes the types in its signature, and the walk finds the references
below the node of the function. Both look at the same nodes (`Followed.part`): what is read to read
a type lies below it in the tree, the walk goes there, and the function stays the owner on the way,
because members of object types inside a signature have no names (`Nameless`). So a name that is
written in a signature is the target of an edge from the function (`signature_names_have_edges`).

Names that are implied by a form need not be. An array type stands for `Array`, and a default value
inside a function type may stand for `RegExp` or `Promise`:

```text
function f(p: { m(x = /a/): A }) {}
```

Here the type of `p` mentions `RegExp`, and the only edge from `f` leads to `A`.
-/

namespace CodeConcepts

variable {α : Type} {n c : ScopedNode} {d : FunctionDecl} {s r : NodeReading} {kind : String}
  {g : QName}

/-! ## Members without names -/

/-- The children of an annotated tree are annotated with one frame. -/
theorem exists_annotate_of_mem (resolve : String → QName) {tasks : List Task} {frame : Frame}
    {taken : Taken} {ts : List (Syntax.Tree α)} {u : Syntax.Tree Note}
    (h : u ∈ (annotateAll resolve tasks frame taken ts).result) :
    ∃ (t : Syntax.Tree α) (task : Task) (taken' : Taken),
      u = (annotate resolve task frame taken' t).result := by
  obtain ⟨i, hi⟩ := List.mem_iff_getElem?.mp h
  obtain ⟨taken', htaken⟩ := getElem?_annotateAll resolve tasks frame taken ts i
  obtain ⟨t, -, hu⟩ := Option.map_eq_some_iff.mp (htaken.symm.trans hi)
  exact ⟨t, _, taken', hu.symm⟩

/-- A tree annotated in a place where members have no names. -/
def Nameless (resolve : String → QName) (α : Type) (u : Syntax.Tree Note) : Prop :=
  ∃ (t : Syntax.Tree α) (task : Task) (frame : Frame) (taken : Taken),
    frame.namedMembers = false ∧ u = (annotate resolve task frame taken t).result

namespace Plan

variable {resolve : String → QName} {task : Task} {frame : Frame} {t : Syntax.Tree α}
  {taken : Taken}

theorem namedMembers_functionDeclaration (assigned : Option Assignment) :
    (functionDeclaration frame t assigned taken).frame.namedMembers = false := by
  unfold functionDeclaration
  split
  · rfl
  · rfl
  · split <;> rfl

/-- Only classes and interfaces give names to the members inside them. -/
theorem namedMembers_ofNode {assigned : Option Assignment} (h : frame.namedMembers = false)
    (hclass : ScopeRole.ofKind t.kind ≠ .classDeclaration)
    (hinterface : ScopeRole.ofKind t.kind ≠ .interfaceDeclaration) :
    (ofNode resolve frame assigned t taken).frame.namedMembers = false := by
  unfold ofNode
  cases hrole : ScopeRole.ofKind t.kind with
  | classDeclaration => exact absurd hrole hclass
  | interfaceDeclaration => exact absurd hrole hinterface
  | functionDeclaration => exact namedMembers_functionDeclaration assigned
  | typeAliasDeclaration =>
    dsimp only
    unfold typed
    split
    · exact h
    · rfl
  | enumDeclaration =>
    dsimp only
    unfold enumDeclaration
    split
    · exact h
    · rfl
  | namespaceDeclaration =>
    dsimp only
    unfold namespaceDeclaration
    split
    · exact h
    · rfl
  | variableStatement | importStatement | other => exact h
  | _ => rfl

theorem namedMembers_ofTask (h : frame.namedMembers = false)
    (hclass : ScopeRole.ofKind t.kind ≠ .classDeclaration)
    (hinterface : ScopeRole.ofKind t.kind ≠ .interfaceDeclaration) :
    (ofTask resolve task frame t taken).frame.namedMembers = false := by
  cases task with
  | skip => exact h
  | visit assigned => exact namedMembers_ofNode h hclass hinterface
  | body => exact h
  | declarator =>
    unfold ofTask
    dsimp only
    split
    · unfold variableDeclarator
      split
      · exact h
      · split <;> exact h
    · exact namedMembers_ofNode h hclass hinterface

/-- A member declares nothing where members have no names. -/
theorem declares_of_nameless (h : frame.namedMembers = false)
    (hrole : Extract.Role.ofKind? t.kind = some .member) :
    (ofTask resolve task frame t taken).declares = none := by
  cases htask : task.isVisit with
  | true =>
    rw [declares_of_member resolve frame taken htask hrole, memberName?, h]
    rfl
  | false => exact declares_of_not_isVisit resolve frame t taken htask

/-- Members inside a function that is declared have no names. -/
theorem namedMembers_of_function (hrole : ScopeRole.ofKind t.kind = .functionDeclaration)
    (hname : (ofTask resolve task frame t taken).declares ≠ none) :
    (ofTask resolve task frame t taken).frame.namedMembers = false := by
  have hvisit (assigned : Option Assignment) :
      (ofNode resolve frame assigned t taken).frame.namedMembers = false := by
    unfold ofNode
    rw [hrole]
    exact namedMembers_functionDeclaration assigned
  cases task with
  | skip => exact absurd rfl hname
  | visit assigned => exact hvisit assigned
  | body => exact absurd rfl hname
  | declarator =>
    unfold ofTask
    dsimp only
    split
    · next hkind =>
      rw [hkind] at hrole
      cases hrole
    · exact hvisit none

end Plan

section Nameless

variable {resolve : String → QName} {u : Syntax.Tree Note}

theorem Nameless.declares_of_member (h : Nameless resolve α u)
    (hrole : Extract.Role.ofKind? u.kind = some .member) : u.note.declares = none := by
  obtain ⟨⟨l, a, cs⟩, task, frame, taken, hframe, rfl⟩ := h
  rw [annotate] at hrole ⊢
  exact Plan.declares_of_nameless (t := .node l a cs) hframe hrole

theorem Nameless.children (h : Nameless resolve α u)
    (hclass : ScopeRole.ofKind u.kind ≠ .classDeclaration)
    (hinterface : ScopeRole.ofKind u.kind ≠ .interfaceDeclaration) :
    ∀ c ∈ u.children, Nameless resolve α c := by
  obtain ⟨⟨l, a, cs⟩, task, frame, taken, hframe, rfl⟩ := h
  rw [annotate] at hclass hinterface ⊢
  intro c hc
  obtain ⟨t', task', taken', hc⟩ := exists_annotate_of_mem resolve hc
  exact ⟨t', task', _, taken',
    Plan.namedMembers_ofTask (t := .node l a cs) hframe hclass hinterface, hc⟩

/-- Members inside a function that is declared have no names. -/
theorem nameless_of_function {module : QName} {t : Syntax.Tree α}
    (hu : u ∈ (analyse resolve module t).subtrees)
    (hrole : ScopeRole.ofKind u.kind = .functionDeclaration) (hname : u.note.declares ≠ none) :
    ∀ c ∈ u.children, Nameless resolve α c := by
  obtain ⟨⟨l, a, cs⟩, task, frame, taken, rfl⟩ := exists_annotate resolve t _ _ _ hu
  rw [annotate] at hrole hname ⊢
  intro c hc
  obtain ⟨t', task', taken', hc⟩ := exists_annotate_of_mem resolve hc
  exact ⟨t', task', _, taken', Plan.namedMembers_of_function (t := .node l a cs) hrole hname, hc⟩

end Nameless

namespace Extract

open ScopedNode (declares? overloads?)
open Typing (ExpressionForm NodeReading TypeForm parameter? typeOf)
open Typing.NodeReading (IsParameterOf Part Reads)

/-! ## Signatures in the grammar -/

/-- The fields that lead from a function to the names in its signature. -/
def signatureFields : List String :=
  ["parameters", "type", "return_type", "name", "type_arguments", "type_parameters", "constraint",
    "value", "constructor"]

/-- The one kind of nodes that the grammar has for a field. -/
def fieldKind? : String → Option String
  | "parameters" => some "formal_parameters"
  | "type_arguments" => some "type_arguments"
  | "type_parameters" => some "type_parameters"
  | "constraint" => some "constraint"
  | _ => none

/-- The parts of signatures stand at a node as the grammar has it. -/
@[mk_iff]
structure PlacesParts (t : Syntax.Tree α) : Prop where
  /-- They are children. -/
  direct : ∀ r ∈ t.label.remote, r.1 ∉ signatureFields
  /-- They are named. -/
  named : ∀ c ∈ t.children, ∀ field ∈ c.label.roles, field ∈ signatureFields →
    c.label.named = true
  /-- Lists and constraints are nodes of their own. -/
  kind : ∀ c ∈ t.children, ∀ field ∈ c.label.roles, ∀ k ∈ fieldKind? field, c.kind = k
  /-- The type of a result is not the name of the function. -/
  result : ∀ c ∈ t.children, "return_type" ∈ c.label.roles → "name" ∉ c.label.roles
  /-- A list of type parameters holds type parameters. -/
  typeParameters : t.kind = "type_parameters" → ∀ c ∈ t.namedChildren,
    c.kind = "type_parameter" ∨ c.kind = "comment"

instance (t : Syntax.Tree α) : Decidable (PlacesParts t) :=
  decidable_of_iff _ (placesParts_iff t).symm

/-- The parts of signatures stand where the grammar has a place for them. -/
def PlacedParts (t : Syntax.Tree α) : Prop := ∀ u ∈ t.subtrees, PlacesParts u

instance (t : Syntax.Tree α) : Decidable (PlacedParts t) :=
  inferInstanceAs (Decidable (∀ u ∈ t.subtrees, PlacesParts u))

theorem placesParts_mapNotes {β : Type} (f : α → β) (t : Syntax.Tree α) :
    PlacesParts (t.mapNotes f) ↔ PlacesParts t := by
  rw [placesParts_iff, placesParts_iff]
  simp only [Syntax.Tree.label_mapNotes, Syntax.Tree.kind_mapNotes, Syntax.Tree.children_mapNotes,
    Syntax.Tree.namedChildren_mapNotes, List.forall_mem_map]

section Fields

variable {n c : ScopedNode} {name : String}

/-- A field of a signature leads to a named child. -/
theorem PlacesParts.field (h : PlacesParts n.tree) (hname : name ∈ signatureFields)
    (hc : n.field? name = some c) : c ∈ n.namedChildren ∧ name ∈ c.label.roles := by
  unfold Syntax.Node.field? at hc
  split at hc
  · next d hd =>
    cases hc
    have hmem := List.mem_of_find?_eq_some hd
    have hfound := List.find?_some hd
    have hrole : name ∈ d.label.roles := List.contains_iff_mem.mp hfound
    have hnamed := h.named d hmem name hrole hname
    exact ⟨List.mem_map.mpr ⟨d, List.mem_filter.mpr ⟨hmem, hnamed⟩, rfl⟩, hrole⟩
  · split at hc
    · next field id hr =>
      have hfound := List.find?_some hr
      have hfield : field = name := beq_iff_eq.mp hfound
      refine absurd hname ?_
      rw [← hfield]
      exact h.direct _ (List.mem_of_find?_eq_some hr)
    · cases hc

theorem parent?_of_mem_namedChildren (hc : c ∈ n.namedChildren) : c.parent? = some n := by
  obtain ⟨d, hd, rfl⟩ := List.mem_map.mp hc
  rfl

theorem PlacesParts.kind_field (h : PlacesParts n.tree) {k : String}
    (hkind : fieldKind? name = some k) (hname : name ∈ signatureFields)
    (hc : n.field? name = some c) : c.kind = k := by
  obtain ⟨hmem, hrole⟩ := h.field hname hc
  exact h.kind c.tree (Syntax.Node.mem_children_of_mem_namedChildren hmem) name hrole k hkind

/-- What stands below a node that declares nothing is not the name of a declaration. -/
theorem isDeclarationName_eq_false (hc : c ∈ n.namedChildren) (hkind : n.kind ∉ declaringKinds) :
    isDeclarationName c = false := by
  unfold isDeclarationName
  rw [parent?_of_mem_namedChildren hc]
  dsimp only
  rw [Bool.and_eq_false_iff]
  exact .inl (Bool.eq_false_iff.mpr fun h => hkind (List.contains_iff_mem.mp h))

/-- The type of a result is not the name of a declaration. -/
theorem PlacesParts.isDeclarationName_result (h : PlacesParts n.tree)
    (hc : n.field? "return_type" = some c) : isDeclarationName c = false := by
  obtain ⟨hmem, hrole⟩ := h.field (by decide) hc
  unfold isDeclarationName Syntax.Node.isField
  rw [parent?_of_mem_namedChildren hmem]
  dsimp only
  rw [Bool.and_eq_false_iff]
  refine .inr (Bool.eq_false_iff.mpr fun hname => ?_)
  -- the node that fills `name` would have the label of `c`, and so both roles
  obtain ⟨d, hd, hlabel⟩ := (Option.any_eq_true _ _).mp hname
  have hname := (h.field (by decide) hd).2
  rw [beq_iff_eq.mp hlabel] at hname
  exact h.result c.tree (Syntax.Node.mem_children_of_mem_namedChildren hmem) hrole hname

end Fields

/-! ## Nodes that are passed through -/

/-- The walk passes through the nodes of a kind, and they are named only as members. -/
def Passed (kind : String) : Prop :=
  Role.ofKind? kind = none ∨ Role.ofKind? kind = some .member

instance (kind : String) : Decidable (Passed kind) := inferInstanceAs (Decidable (_ ∨ _))

theorem Passed.scopeRole (h : Passed kind) :
    ScopeRole.ofKind kind ≠ .classDeclaration ∧ ScopeRole.ofKind kind ≠ .interfaceDeclaration := by
  unfold ScopeRole.ofKind
  constructor
  · intro hrole
    split at hrole <;> first | exact absurd h (by decide) | cases hrole
  · intro hrole
    split at hrole <;> first | exact absurd h (by decide) | cases hrole

/-- The kinds of the types that have parts. -/
theorem passed_of_typeForm (h : TypeForm.ofKind kind ∉ [.name, .dottedName, .other]) :
    Passed kind ∧ kind ∉ declaringKinds := by
  unfold TypeForm.ofKind at h
  split at h <;> first | decide | exact absurd h (by decide)

/-- The kinds of the expressions that have parts. -/
theorem passed_of_expressionForm
    (h : ExpressionForm.ofKind kind ∈ [.wrapped, .cast, .construct, .function]) :
    Passed kind ∧ (ExpressionForm.ofKind kind ≠ .function → kind ∉ declaringKinds) := by
  unfold ExpressionForm.ofKind at h
  split at h <;> first | decide | exact absurd h (by decide)

theorem passed_parameter (h : kind = "required_parameter" ∨ kind = "optional_parameter") :
    Passed kind ∧ kind ∉ declaringKinds := by
  rcases h with rfl | rfl <;> decide

/-! ## The walk follows readings -/

theorem Descent.mem_visits_children (owner : QName) (hc : c ∈ n.namedChildren) :
    ⟨owner, none, c⟩ ∈ (Descent.children owner n).visits n := by
  rw [visits_children]
  exact List.mem_map_of_mem hc

/-- The walk comes to a node with a given owner, in a place where members have no names. -/
structure Reached (resolve : String → QName) (module owner : QName) (t : Syntax.Tree α) (f : QName)
    (n : ScopedNode) : Prop where
  visited : ⟨f, none, n⟩ ∈ walk Extractor.all owner (analyse resolve module t)
  nameless : Nameless resolve α n.tree

/-- The walk comes to what is read, and does not take a type for the name of a declaration. For the
result of a function it comes to the parts of the function. -/
def Followed (resolve : String → QName) (module owner : QName) (t : Syntax.Tree α) (f : QName) :
    NodeReading → Prop
  | .type n => Reached resolve module owner t f n ∧ isDeclarationName n = false
  | .result n => PlacesParts n.tree ∧ ∀ c ∈ n.namedChildren, Reached resolve module owner t f c
  | .member n | .parameter n | .expression n => Reached resolve module owner t f n

section Follow

variable {resolve : String → QName} {module owner f : QName} {t : Syntax.Tree α}

/-- The walk passes through with the owner it has. -/
theorem Reached.child (h : Reached resolve module owner t f n) (hpassed : Passed n.kind) :
    ∀ c ∈ n.namedChildren, Reached resolve module owner t f c := by
  intro c hc
  have hdescent : (⟨f, none, n⟩ : Visit).descent Extractor.all = .children f n := by
    unfold Visit.descent
    rw [handledRole?_all]
    rcases hpassed with hrole | hrole
    · simp only [hrole]
      rfl
    · -- a member has no name here, so the owner stays
      have hnone : declares? n = none := h.nameless.declares_of_member hrole
      simp only [hrole]
      show Descent.children ((declares? n).getD f) n = _
      rw [hnone]
      rfl
  refine ⟨next_subset_walk h.visited ?_, ?_⟩
  · unfold Visit.next
    rw [hdescent]
    exact Descent.mem_visits_children f hc
  · exact h.nameless.children hpassed.scopeRole.1 hpassed.scopeRole.2 c.tree
      (Syntax.Node.mem_children_of_mem_namedChildren hc)

/-- The walk comes to the parameters of what it passes through. -/
theorem reached_parameter (hn : PlacesParts n.tree)
    (hchildren : ∀ c ∈ n.namedChildren, Reached resolve module owner t f c)
    (hc : IsParameterOf c n) : Reached resolve module owner t f c := by
  obtain ⟨list, hlist, hc⟩ := hc
  have hreached := hchildren list (hn.field (by decide) hlist).1
  have hkind : list.kind = "formal_parameters" := hn.kind_field rfl (by decide) hlist
  refine hreached.child ?_ c hc
  rw [hkind]
  decide

theorem Reached.type_child (h : Reached resolve module owner t f n)
    (hpassed : Passed n.kind ∧ n.kind ∉ declaringKinds) (hc : c ∈ n.namedChildren) :
    Followed resolve module owner t f (.type c) :=
  ⟨h.child hpassed.1 c hc, isDeclarationName_eq_false hc hpassed.2⟩

variable (hparts : PlacedParts (analyse resolve module t))

include hparts

theorem Reached.parts (h : Reached resolve module owner t f n) :
    PlacesParts n.tree := hparts _ (tree_mem_of_mem_walk h.visited)

theorem Reached.field {n c : ScopedNode} {name : String} (h : Reached resolve module owner t f n)
    (hpassed : Passed n.kind) (hname : name ∈ signatureFields) (hc : n.field? name = some c) :
    Reached resolve module owner t f c :=
  h.child hpassed c ((h.parts hparts).field hname hc).1

theorem Reached.type_field {name : String} (h : Reached resolve module owner t f n)
    (hpassed : Passed n.kind ∧ n.kind ∉ declaringKinds) (hname : name ∈ signatureFields)
    (hc : n.field? name = some c) : Followed resolve module owner t f (.type c) :=
  h.type_child hpassed ((h.parts hparts).field hname hc).1

/-- The walk goes wherever reading goes. -/
theorem Followed.part (h : Followed resolve module owner t f r) (hpart : Part r s) :
    Followed resolve module owner t f s := by
  cases hpart with
  | wrapped hform hc =>
    exact h.1.type_child (passed_of_typeForm (by rw [hform]; decide))
      (List.mem_of_getElem? hc)
  | element hform hc =>
    exact h.1.type_child (passed_of_typeForm (by rw [hform]; decide))
      (List.mem_of_getElem? hc)
  | genericName hform hc =>
    exact h.1.type_field hparts (passed_of_typeForm (by rw [hform]; decide)) (by decide) hc
  | argument hform hlist hc =>
    have hpassed := passed_of_typeForm (by rw [hform]; decide)
    have hreached := h.1.field hparts hpassed.1 (by decide) hlist
    have hkind := (h.1.parts hparts).kind_field rfl (by decide) hlist
    refine hreached.type_child ?_ hc
    rw [hkind]
    decide
  | component hform hc =>
    simp only [List.mem_cons, List.not_mem_nil, or_false] at hform
    have hpassed := passed_of_typeForm (by rcases hform with h | h | h <;> rw [h] <;> decide)
    exact h.1.type_child hpassed hc
  | objectMember hform hc =>
    exact h.1.child (passed_of_typeForm (by rw [hform]; decide)).1 _ hc
  | functionParameter hform hc =>
    have hpassed := passed_of_typeForm (by rw [hform]; decide)
    exact reached_parameter (h.1.parts hparts) (h.1.child hpassed.1) hc
  | functionResult hform hc =>
    exact h.1.type_field hparts (passed_of_typeForm (by rw [hform]; decide)) (by decide) hc
  | propertyType hkind hc =>
    exact Reached.type_field hparts h (by rw [hkind]; decide) (by decide) hc
  | methodParameter hkind hc =>
    have hchildren := Reached.child h (by rw [hkind]; decide)
    exact reached_parameter (Reached.parts hparts h) hchildren hc
  | methodResult hkind =>
    exact ⟨Reached.parts hparts h, Reached.child h (by rw [hkind]; decide)⟩
  | parameterType hkind hc =>
    exact Reached.type_field hparts h (passed_parameter hkind) (by decide) hc
  | defaultValue hkind _ hc =>
    exact Reached.field hparts h (passed_parameter hkind).1 (by decide) hc
  | resultType hc =>
    exact ⟨h.2 _ (h.1.field (by decide) hc).1, h.1.isDeclarationName_result hc⟩
  | inner hform hc =>
    have hpassed := passed_of_expressionForm (by rw [hform]; decide)
    exact Reached.child h hpassed.1 _ (List.mem_of_getElem? hc)
  | cast hform hc =>
    have hpassed := passed_of_expressionForm (by rw [hform]; decide)
    exact Reached.type_child h ⟨hpassed.1, hpassed.2 (by rw [hform]; decide)⟩
      (List.mem_of_getElem? hc)
  | valueParameter hform hc =>
    have hpassed := passed_of_expressionForm (by rw [hform]; decide)
    exact reached_parameter (Reached.parts hparts h) (Reached.child h hpassed.1) hc
  | valueResult hform =>
    have hpassed := passed_of_expressionForm (by rw [hform]; decide)
    exact ⟨Reached.parts hparts h, Reached.child h hpassed.1⟩

theorem Followed.reads (h : Followed resolve module owner t f r) (hreads : Reads r s) :
    Followed resolve module owner t f s := by
  induction hreads with
  | refl => exact h
  | tail _ hpart ih => exact ih.part hparts hpart

end Follow

/-! ## Types in a signature -/

/-- The nodes that the parameters of a function are read off. -/
def parameterNodes (n : ScopedNode) : List ScopedNode :=
  ((n.field? "parameters").toList.flatMap (·.namedChildren)).filter fun p => (parameter? p).isSome

/-- The nodes that the type parameters of a function are read off. -/
def typeParameterNodes (n : ScopedNode) : List ScopedNode :=
  ((n.field? "type_parameters").toList.flatMap (·.namedChildren)).filter fun p =>
    (p.fieldText? "name").isSome

/-- A type in the record of a function that the signature of the function spells out, and where it
is read: the type of a parameter that has one, the result if it has one, or the constraint of a type
parameter. -/
inductive SignatureType (n : ScopedNode) (d : FunctionDecl) : TypeDesc → NodeReading → Prop
  | parameter {i : Nat} {p s : ScopedNode} {q : Param} : (parameterNodes n)[i]? = some p →
      p.field? "type" = some s → d.parameters[i]? = some q → SignatureType n d q.type (.type s)
  | result : (n.field? "return_type").isSome → SignatureType n d d.returnType (.result n)
  | constraint {i : Nat} {p c s : ScopedNode} {name : String} {x : TypeDesc} :
      (typeParameterNodes n)[i]? = some p → p.field? "constraint" = some c →
      c.namedChild? 0 = some s → d.typeParameters[i]? = some ⟨name, some x⟩ →
      SignatureType n d x (.type s)

theorem map_some_filterMap {β γ : Type} (g : β → Option γ) (xs : List β) :
    (xs.filterMap g).map some = (xs.filter fun x => (g x).isSome).map g := by
  induction xs with
  | nil => rfl
  | cons x xs ih =>
    rw [List.filterMap_cons, List.filter_cons]
    cases hx : g x with
    | none => exact ih
    | some y =>
      rw [List.map_cons, ih]
      simp [hx]

/-- What is kept of a list is found at the place of where it comes from. -/
theorem getElem?_filterMap_of_filter {β γ : Type} {g : β → Option γ} {xs : List β} {i : Nat}
    {x : β} {y : γ} (hx : (xs.filter fun x => (g x).isSome)[i]? = some x)
    (hy : (xs.filterMap g)[i]? = some y) : g x = some y := by
  have h := congrArg (·[i]?) (map_some_filterMap g xs)
  rw [List.getElem?_map, List.getElem?_map, hx, hy] at h
  exact (Option.some.inj h).symm

section Record

variable {o : Origin} {n : ScopedNode} {d : FunctionDecl}

theorem functionDecl_eq_ok (h : functionDecl o n = .ok d) : ∃ list,
    n.field? "parameters" = some list ∧ d.parameters = Typing.parametersOf list ∧
      d.returnType = Typing.returnTypeOf n ∧ d.typeParameters = Typing.typeParametersOf n := by
  obtain ⟨_, _, h⟩ := bind_eq_ok.mp h
  obtain ⟨_, _, h⟩ := bind_eq_ok.mp h
  obtain ⟨list, hlist, h⟩ := bind_eq_ok.mp h
  cases h
  exact ⟨list, need_eq_ok hlist, rfl, rfl, rfl⟩

/-- Parameters are recorded one for each of their nodes. -/
theorem parameters_functionDecl (h : functionDecl o n = .ok d) :
    d.parameters.length = (parameterNodes n).length ∧
    ∀ (i : Nat) (p : ScopedNode) (q : Param), (parameterNodes n)[i]? = some p →
      d.parameters[i]? = some q →
        ∃ y, parameter? p = some y ∧ q.type = y.2.1 := by
  obtain ⟨list, hlist, hparameters, -, -⟩ := functionDecl_eq_ok h
  have hnodes : parameterNodes n = list.namedChildren.filter fun p => (parameter? p).isSome := by
    unfold parameterNodes
    rw [hlist, Option.toList_some, List.flatMap_singleton]
  rw [hparameters, hnodes, Typing.parametersOf_eq, Typing.numbered]
  constructor
  · have hlength := congrArg List.length (map_some_filterMap parameter? list.namedChildren)
    rw [List.length_map, List.length_map] at hlength
    rw [List.length_map, List.length_zipIdx, hlength]
  · intro i p q hp hq
    rw [List.getElem?_map, List.getElem?_zipIdx, Option.map_map] at hq
    obtain ⟨y, hy, rfl⟩ := Option.map_eq_some_iff.mp hq
    exact ⟨y, getElem?_filterMap_of_filter hp hy, rfl⟩

/-- Type parameters are recorded one for each of their nodes. -/
theorem typeParameters_functionDecl (h : functionDecl o n = .ok d) :
    d.typeParameters.length = (typeParameterNodes n).length ∧
    ∀ (i : Nat) (p : ScopedNode) (q : TypeParameter), (typeParameterNodes n)[i]? = some p →
      d.typeParameters[i]? = some q →
        q.constraint = ((p.field? "constraint").bind (·.namedChild? 0)).map typeOf := by
  obtain ⟨-, -, -, -, htypeParameters⟩ := functionDecl_eq_ok h
  rw [htypeParameters]
  unfold Typing.typeParametersOf typeParameterNodes
  cases n.field? "type_parameters" with
  | none => exact ⟨rfl, fun i p q hp => absurd hp (by simp)⟩
  | some list =>
    dsimp only
    rw [Option.toList_some, List.flatMap_singleton]
    constructor
    · have hlength := congrArg List.length (map_some_filterMap (fun p : ScopedNode =>
        (p.fieldText? "name").map fun name => (⟨name, ((p.field? "constraint").bind
          (·.namedChild? 0)).map typeOf⟩ : TypeParameter)) list.namedChildren)
      simpa only [List.length_map, Option.isSome_map] using hlength
    · intro i p q hp hq
      have hq := getElem?_filterMap_of_filter (by simpa only [Option.isSome_map] using hp) hq
      obtain ⟨_, -, rfl⟩ := Option.map_eq_some_iff.mp hq
      rfl

/-- The names of a type in a record are those that are read in the signature. -/
theorem SignatureType.names_eq {x : TypeDesc} (h : SignatureType n d x s)
    (hd : functionDecl o n = .ok d) : x.names = s.names := by
  cases h with
  | parameter hp hs hq =>
    obtain ⟨y, hy, htype⟩ := (parameters_functionDecl hd).2 _ _ _ hp hq
    rw [htype, (Typing.NodeReading.names_of_parameter? hy).2]
    unfold declaredType
    rw [hs]
    rfl
  | result _ =>
    obtain ⟨-, -, -, hresult, -⟩ := functionDecl_eq_ok hd
    rw [hresult]
    rfl
  | constraint hp hc hs hx =>
    have hconstraint := (typeParameters_functionDecl hd).2 _ _ _ hp hx
    rw [hc, Option.bind_some, hs] at hconstraint
    rw [Option.some.inj hconstraint]
    rfl

end Record

/-! ## Where functions are recorded -/

section File

variable {o : Origin} {resolve : String → QName} {module f : QName} {t : Syntax.Tree α} {m : Model}

/-- The walk comes to the parts of a function with the function as their owner. -/
theorem reached_of_function {v : Visit}
    (hv : v ∈ walk Extractor.all o.module (analyse resolve module t))
    (hvariable : v.declaredVariable? = none) (hrole : Role.ofKind? v.node.kind = some .function)
    (hd : functionDecl o v.node = .ok d) :
    ∀ c ∈ v.node.namedChildren, Reached resolve module o.module t d.fqn c := by
  intro c hc
  have hdeclares : declares? v.node = some d.fqn := fqn_functionDecl hd
  have hoverloads : overloads? v.node = none :=
    overloads_of_declares (tree_mem_of_mem_walk hv) hdeclares
  constructor
  · refine next_subset_walk hv ?_
    unfold Visit.next Visit.descent
    rw [hvariable, handledRole?_all, hrole]
    show _ ∈ (Descent.children (ownerWithin v.owner v.node) v.node).visits v.node
    rw [ownerWithin, hoverloads, hdeclares]
    exact Descent.mem_visits_children d.fqn hc
  · have hscope : ScopeRole.ofKind v.node.kind = .functionDeclaration :=
      List.mem_singleton.mp (scopeRole_of_ofKind? hrole)
    have hname : v.node.tree.note.declares ≠ none := by
      intro hnone
      cases hdeclares.symm.trans hnone
    exact nameless_of_function (tree_mem_of_mem_walk hv) hscope hname c.tree
      (Syntax.Node.mem_children_of_mem_namedChildren hc)

/-- The walk follows the types in the signature of a function. -/
theorem SignatureType.followed (hparts : PlacedParts (analyse resolve module t)) {x : TypeDesc}
    (h : SignatureType n d x s) (hd : functionDecl o n = .ok d) (hn : PlacesParts n.tree)
    (hchildren : ∀ c ∈ n.namedChildren, Reached resolve module o.module t f c) :
    Followed resolve module o.module t f s := by
  cases h with
  | result _ => exact ⟨hn, hchildren⟩
  | @parameter i p s q hp hs hq =>
    obtain ⟨y, hy, -⟩ := (parameters_functionDecl hd).2 i p q hp hq
    obtain ⟨list, hlist, hmem⟩ := List.mem_flatMap.mp
      (List.mem_filter.mp (List.mem_of_getElem? hp)).1
    have hreached := reached_parameter hn hchildren ⟨list, Option.mem_toList.mp hlist, hmem⟩
    have hkind := (Typing.NodeReading.names_of_parameter? hy).1
    exact hreached.type_field hparts (passed_parameter hkind) (by decide) hs
  | @constraint i p c s name x hp hc hs hx =>
    obtain ⟨list, hlist, hmem⟩ := List.mem_flatMap.mp
      (List.mem_filter.mp (List.mem_of_getElem? hp)).1
    have hlist := Option.mem_toList.mp hlist
    have hlistKind : list.kind = "type_parameters" := hn.kind_field rfl (by decide) hlist
    have hlistReached := hchildren list (hn.field (by decide) hlist).1
    have hreached := hlistReached.child (by rw [hlistKind]; decide) p hmem
    have hkind : p.kind = "type_parameter" ∨ p.kind = "comment" := by
      refine (hlistReached.parts hparts).typeParameters hlistKind p.tree ?_
      obtain ⟨u, hu, rfl⟩ := List.mem_map.mp hmem
      exact hu
    have hpassed : Passed p.kind := by
      rcases hkind with hkind | hkind <;> rw [hkind] <;> decide
    have hconstraint : c.kind = "constraint" :=
      (hreached.parts hparts).kind_field rfl (by decide) hc
    exact (hreached.field hparts hpassed (by decide) hc).type_child (by rw [hconstraint]; decide)
      (List.mem_of_getElem? hs)

variable (hmodel : fileModel Extractor.all o (analyse resolve module t) = .ok m)

include hmodel

/-- A function is recorded at a visit in the role of a function. -/
theorem exists_visit_of_function (hd : d ∈ m.functions) :
    ∃ v ∈ walk Extractor.all o.module (analyse resolve module t), v.declaredVariable? = none ∧
      Role.ofKind? v.node.kind = some .function ∧ functionDecl o v.node = .ok d := by
  obtain ⟨cs, hcs, rfl⟩ := fileModel_eq_ok hmodel
  have hd : d ∈ (Model.ofConcepts (⟨.module, ⟨o.module, o.path⟩⟩ :: cs)).get .function := hd
  rw [mem_get_ofConcepts] at hd
  rcases List.mem_cons.mp hd with hd | hd
  · cases hd
  · obtain ⟨v, hv, made, hmade, hd⟩ := exists_concepts_of_mem hcs hd
    cases v.makes hmade hd with
    | @role r _ hvariable hrole hmakes =>
      cases hmakes with
      | edge _ href =>
        obtain ⟨_, hedge, -⟩ := href
        cases hedge
      | declaration hr hmade =>
        obtain rfl : r = .function := by
          cases r with
          | function => rfl
          | _ => cases hr
        cases hmade with
        | anonymous h => cases h.2
        | function hdecl => exact ⟨v, hv, hvariable, hrole, hdecl⟩

/-! ## Edges of the names that are read -/

/-- The edge of a name at a node that the walk comes to. -/
theorem exists_edge_of_reached {r : Role} {k : ReferenceKind}
    (h : Reached resolve module o.module t f n) (hrole : Role.ofKind? n.kind = some r)
    (hconcepts : r.concepts o f n = .ok ((depend f g k).map (Concept.mk .edge))) (hne : g ≠ f) :
    ∃ e ∈ m.edges, e.source = f ∧ e.target = g := by
  obtain ⟨cs, hcs, rfl⟩ := fileModel_eq_ok hmodel
  obtain ⟨made, hmade, hsub⟩ := concepts_of_mem hcs h.visited
  unfold Visit.concepts at hmade
  rw [handledRole?_all] at hmade
  simp only [hrole] at hmade
  have hmade : made = [⟨.edge, ⟨f, g, k⟩⟩] := by
    have := hmade.symm.trans hconcepts
    rw [depend, if_neg (Ne.symm hne)] at this
    exact Except.ok.inj this
  have hedge : (⟨.edge, ⟨f, g, k⟩⟩ : Concept) ∈ cs := by
    refine hsub ?_
    rw [hmade]
    exact List.mem_singleton_self _
  refine ⟨⟨f, g, k⟩, ?_, rfl, rfl⟩
  show _ ∈ (Model.ofConcepts _).get .edge
  exact mem_get_ofConcepts.mpr (List.mem_cons_of_mem _ hedge)

/-- The name behind `new` is the target of an edge. -/
theorem exists_edge_of_constructor (hparts : PlacedParts (analyse resolve module t))
    (h : Reached resolve module o.module t f n) (hkind : n.kind = "new_expression")
    (hc : n.field? "constructor" = some c) (hidentifier : c.kind = "identifier")
    (htarget : (ScopedNode.resolve .value c).target? = some g) (hne : g ≠ f) :
    ∃ e ∈ m.edges, e.source = f ∧ e.target = g := by
  have hmem := ((h.parts hparts).field (by decide) hc).1
  have hname : isDeclarationName c = false :=
    isDeclarationName_eq_false hmem (by rw [hkind]; decide)
  have htag : isIntrinsicTag c = false := by
    unfold isIntrinsicTag
    rw [parent?_of_mem_namedChildren hmem]
    dsimp only
    rw [hkind]
    rfl
  refine exists_edge_of_reached hmodel (k := usage c .read)
    (h.child (by rw [hkind]; decide) c hmem) (by rw [hidentifier]; rfl) ?_ hne
  show Except.ok ((identifierEdges f c).map _) = _
  rw [identifierEdges, hname, htag, htarget]
  rfl

/-- A name that is written where the walk follows is the target of an edge. -/
theorem Followed.exists_edge (hparts : PlacedParts (analyse resolve module t))
    (h : Followed resolve module o.module t f r) (hwritten : r.written? = some g) (hne : g ≠ f) :
    ∃ e ∈ m.edges, e.source = f ∧ e.target = g := by
  cases r with
  | type n =>
    cases hform : TypeForm.ofKind n.kind with
    | name =>
      simp only [NodeReading.written?, hform] at hwritten
      split at hwritten
      · cases hwritten
      · have hkind : n.kind = "type_identifier" := by
          unfold TypeForm.ofKind at hform
          split at hform <;> first | assumption | cases hform
        refine exists_edge_of_reached hmodel (k := usage n .typeReference) h.1
          (by rw [hkind]; rfl) ?_ hne
        show Except.ok ((typeIdentifierEdges f n).map _) = _
        rw [typeIdentifierEdges, h.2, hwritten]
        rfl
    | dottedName =>
      simp only [NodeReading.written?, hform] at hwritten
      have hkind : n.kind = "nested_type_identifier" := by
        unfold TypeForm.ofKind at hform
        split at hform <;> first | assumption | cases hform
      refine exists_edge_of_reached hmodel (k := usage n .typeReference) h.1
        (by rw [hkind]; rfl) ?_ hne
      show Except.ok ((nestedTypeEdges f n).map _) = _
      rw [nestedTypeEdges, Option.some.inj hwritten]
    | _ =>
      simp only [NodeReading.written?, hform] at hwritten
      cases hwritten
  | expression n =>
    cases hform : ExpressionForm.ofKind n.kind with
    | construct =>
      simp only [NodeReading.written?, hform] at hwritten
      obtain ⟨c, hc, hwritten⟩ := Option.bind_eq_some_iff.mp hwritten
      obtain ⟨hc, hidentifier⟩ := Option.filter_eq_some_iff.mp hc
      have hkind : n.kind = "new_expression" := by
        unfold ExpressionForm.ofKind at hform
        split at hform <;> first | assumption | cases hform
      exact exists_edge_of_constructor hmodel hparts h hkind hc (beq_iff_eq.mp hidentifier)
        hwritten hne
    | _ =>
      simp only [NodeReading.written?, hform] at hwritten
      cases hwritten
  | member n | parameter n | result n => cases hwritten

/-- Every function record describes the parameters and type parameters of a visited function one by
one. A name in a type that the signature spells out, if it is written there, is the target of an
edge from the function, unless it is the name of the function itself. A name without such an edge
is only implied. -/
theorem signature_names_have_edges (hparts : PlacedParts t) :
    ∀ d ∈ m.functions, ∃ v ∈ walk Extractor.all o.module (analyse resolve module t),
      functionDecl o v.node = .ok d ∧
      d.parameters.length = (parameterNodes v.node).length ∧
      d.typeParameters.length = (typeParameterNodes v.node).length ∧
      ∀ x s, SignatureType v.node d x s → ∀ g ∈ x.names, g ≠ d.fqn →
        (∃ e ∈ m.edges, e.source = d.fqn ∧ e.target = g) ∨ s.Implied g ∧ ¬ s.Written g := by
  intro d hd
  have hanalysed : PlacedParts (analyse resolve module t) :=
    (Syntax.Tree.forall_subtrees_of_shape (P := PlacesParts) (placesParts_mapNotes _)
      (shape_analyse resolve module t)).mpr hparts
  obtain ⟨v, hv, hvariable, hrole, hdecl⟩ := exists_visit_of_function hmodel hd
  refine ⟨v, hv, hdecl, (parameters_functionDecl hdecl).1, (typeParameters_functionDecl hdecl).1,
    ?_⟩
  intro x s hs g hg hne
  have hfollowed := hs.followed hanalysed hdecl (hanalysed _ (tree_mem_of_mem_walk hv))
    (reached_of_function hv hvariable hrole hdecl)
  by_cases hwritten : s.Written g
  · obtain ⟨u, hreads, hu⟩ := hwritten
    exact .inl ((hfollowed.reads hanalysed hreads).exists_edge hmodel hanalysed hu hne)
  · rw [hs.names_eq hdecl] at hg
    exact .inr ⟨(Typing.NodeReading.written_or_implied hg).resolve_left hwritten, hwritten⟩

end File

/-- The parameter of a function with a member in its type, `p: { m(x…): A }`. -/
def memberParameter (x : List (Syntax.Tree Unit)) : Syntax.Tree Unit :=
  sampleNode "required_parameter" [] "" [
    sampleNode "identifier" ["pattern"] "p" [],
    sampleNode "type_annotation" ["type"] "" [
      sampleNode "object_type" [] "" [
        sampleNode "method_signature" [] "" [
          sampleNode "property_identifier" ["name"] "m" [],
          sampleNode "formal_parameters" ["parameters"] "" [
            sampleNode "required_parameter" [] ""
              (sampleNode "identifier" ["pattern"] "x" [] :: x)],
          typedAsA "return_type"]]]]

/-- The function `function f<T extends B>(p: { m(x: C[]): A }): A {}`. -/
def signatureTree : Syntax.Tree Unit :=
  sampleNode "program" [] "" [
    sampleNode "function_declaration" [] "" [
      sampleNode "identifier" ["name"] "f" [],
      sampleNode "type_parameters" ["type_parameters"] "" [
        sampleNode "type_parameter" [] "" [
          sampleNode "type_identifier" ["name"] "T" [],
          sampleNode "constraint" ["constraint"] "" [sampleNode "type_identifier" [] "B" []]]],
      sampleNode "formal_parameters" ["parameters"] "" [
        memberParameter [sampleNode "type_annotation" ["type"] "" [
          sampleNode "array_type" [] "" [sampleNode "type_identifier" [] "C" []]]]],
      typedAsA "return_type",
      sampleNode "statement_block" ["body"] "" []]]

theorem signature_names_have_edges_nested : PlacedParts signatureTree ∧
    ∃ m, fileModel Extractor.all sampleOrigin (sampleNotes signatureTree) = .ok m ∧
      m.functions.map (fun d => [d.parameters.flatMap (·.type.names), d.returnType.names,
        d.typeParameters.flatMap (·.constraint.toList.flatMap (·.names))]) =
        [[[.bare "Array", .bare "C", .bare "A"], [.bare "A"], [.bare "B"]]] ∧
      m.edges.map (·.target) = [.bare "B", .bare "C", .bare "A", .bare "A"] ∧
      ∀ d ∈ m.functions,
        ∃ v ∈ walk Extractor.all sampleOrigin.module (sampleNotes signatureTree),
          functionDecl sampleOrigin v.node = .ok d ∧
          d.parameters.length = (parameterNodes v.node).length ∧
          d.typeParameters.length = (typeParameterNodes v.node).length ∧
          ∀ x s, SignatureType v.node d x s → ∀ g ∈ x.names, g ≠ d.fqn →
            (∃ e ∈ m.edges, e.source = d.fqn ∧ e.target = g) ∨ s.Implied g ∧ ¬ s.Written g := by
  have hparts : PlacedParts signatureTree := by decide +kernel
  have hsample : (fileModel Extractor.all sampleOrigin (sampleNotes signatureTree)).toOption.map
      (fun m => (m.functions.map (fun d => [d.parameters.flatMap (·.type.names),
        d.returnType.names, d.typeParameters.flatMap (·.constraint.toList.flatMap (·.names))]),
        m.edges.map (·.target))) =
      some ([[[.bare "Array", .bare "C", .bare "A"], [.bare "A"], [.bare "B"]]],
        [.bare "B", .bare "C", .bare "A", .bare "A"]) := by decide +kernel
  obtain ⟨m, hmodel, hsample⟩ := exists_ok_of_map hsample
  obtain ⟨hfunctions, hedges⟩ := Prod.mk.inj hsample
  exact ⟨hparts, m, hmodel, hfunctions, hedges, signature_names_have_edges hmodel hparts⟩

/-- The function `function f(p: { m(x = /a/): A }) {}`. -/
def implyingTree : Syntax.Tree Unit :=
  sampleNode "program" [] "" [
    sampleNode "function_declaration" [] "" [
      sampleNode "identifier" ["name"] "f" [],
      sampleNode "formal_parameters" ["parameters"] "" [
        memberParameter [sampleNode "regex" ["value"] "/a/" []]],
      sampleNode "statement_block" ["body"] "" []]]

/-- A default value inside the type of a parameter implies a name other than `Array`, and no edge
leads there. -/
theorem signature_name_implied : PlacedParts implyingTree ∧
    ∃ m, fileModel Extractor.all sampleOrigin (sampleNotes implyingTree) = .ok m ∧
      (∃ d ∈ m.functions, d.fqn ≠ .bare "RegExp" ∧
        ∃ q ∈ d.parameters, q.type.names = [.bare "RegExp", .bare "A"]) ∧
      ∀ e ∈ m.edges, e.target ≠ .bare "RegExp" := by
  have hsample : (fileModel Extractor.all sampleOrigin (sampleNotes implyingTree)).toOption.map
      (fun m => (decide (∃ d ∈ m.functions, d.fqn ≠ .bare "RegExp" ∧
        ∃ q ∈ d.parameters, q.type.names = [.bare "RegExp", .bare "A"]),
        decide (∀ e ∈ m.edges, e.target ≠ .bare "RegExp"))) = some (true, true) := by
    decide +kernel
  obtain ⟨m, hmodel, hsample⟩ := exists_ok_of_map hsample
  obtain ⟨hfunctions, hedges⟩ := Prod.mk.inj hsample
  exact ⟨by decide +kernel, m, hmodel, of_decide_eq_true hfunctions, of_decide_eq_true hedges⟩

end Extract

end CodeConcepts
