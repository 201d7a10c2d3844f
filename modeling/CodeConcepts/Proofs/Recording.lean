import CodeConcepts.Proofs.Bindings
import CodeConcepts.Proofs.Coverage

/-!
# What the scope analysis names, the extraction records

The extraction follows the analysis: wherever the analysis has a task at a node, the extraction
comes to the node as well, and in the same way (`agreement_descent`), as long as declarations stand
only where the grammar has a place for them. Every node that has been given a name is therefore
visited (`visited_of_declared`), and where extraction succeeds there is a record under that name
(`recorded_of_declared`). A function that has overloads is recorded for all of them
(`recorded_of_overloads`).
-/

namespace CodeConcepts

variable {α β : Type} {t : Syntax.Tree α} {resolve : String → QName} {f module : QName}
  {u : Syntax.Tree Note} {v : Visit} {o : Origin} {exempt : Syntax.Tree Note → Prop}
  {n : ScopedNode} {made : List Concept} {kind : String} {frame : Frame} {taken : Taken} {k : Kind}
  {turns : List Turn} {m : Model}

/-! ## Places in the annotated tree -/

theorem barren_mapNotes (f : α → β) (t : Syntax.Tree α) : Barren (t.mapNotes f) ↔ Barren t := by
  unfold Barren
  simp only [Syntax.Tree.subtrees_mapNotes, List.forall_mem_map, Syntax.Tree.kind_mapNotes]

theorem hasBlock_mapNotes (f : α → β) (t : Syntax.Tree α) :
    HasBlock (t.mapNotes f) ↔ HasBlock t := by
  unfold HasBlock
  simp only [Syntax.Tree.children_mapNotes, Syntax.Tree.field?_mapNotes, Option.isSome_map,
    List.isEmpty_map, List.forall_mem_map, Syntax.Tree.label_mapNotes, Syntax.Tree.kind_mapNotes]

theorem placesDeclarations_mapNotes (f : α → β) (t : Syntax.Tree α) :
    PlacesDeclarations (t.mapNotes f) ↔ PlacesDeclarations t := by
  have htoken : (t.mapNotes f).hasToken "=" = t.hasToken "=" := by
    unfold Syntax.Tree.hasToken
    rw [Syntax.Tree.children_mapNotes, List.any_map]
    simp only [Function.comp_def, Syntax.Tree.label_mapNotes, Syntax.Tree.kind_mapNotes]
  rw [placesDeclarations_iff, placesDeclarations_iff]
  simp only [barren_mapNotes, List.forall_mem_map, htoken, hasBlock_mapNotes,
    Syntax.Tree.field?_mapNotes, Syntax.Tree.kind_mapNotes, Syntax.Tree.namedChildren_mapNotes,
    Syntax.Tree.children_mapNotes, Syntax.Tree.label_mapNotes, Option.any_map, Option.isSome_map,
    Option.map_eq_none_iff, List.map_eq_nil_iff, List.find?_map, Function.comp_def]

/-! ## Nodes that are passed over -/

/-- A node that is passed over is given no name, nor is one below it. -/
theorem declares_skip (resolve : String → QName) {u : Syntax.Tree Note} (t : Syntax.Tree α)
    (frame : Frame) (taken : Taken)
    (hu : u ∈ (annotate resolve .skip frame taken t).result.subtrees) : u.note.declares = none := by
  obtain ⟨⟨l, a, cs⟩, task, frame', taken', rfl, rfl⟩ := exists_annotate_of_step resolve
    (P := fun task _ _ => task = .skip) (fun task frame taken t i c htask hc => by
      subst htask
      show (Scope.skipAll t)[i]?.getD .skip = .skip
      rw [Scope.skipAll, List.getElem?_map, hc]
      rfl) t taken hu rfl
  rfl

/-! ## Tasks that visit -/

/-- Every tree of a list is visited, or passed over; only named ones are visited. -/
def Task.Visiting (tasks : List Task) (cs : List (Syntax.Tree α)) : Prop :=
  ∀ (i : Nat) (c : Syntax.Tree α), cs[i]? = some c → tasks[i]?.getD .skip = .skip ∨
    c.label.named ∧ ∃ assigned, tasks[i]?.getD .skip = .visit assigned

theorem visiting_zipIdx (cs : List (Syntax.Tree α)) (assigned : Nat → Option Assignment) :
    Task.Visiting (cs.zipIdx.map fun p => if p.1.label.named then .visit (assigned p.2) else .skip)
      cs := by
  intro i c hc
  rw [List.getElem?_map, List.getElem?_zipIdx, hc, Option.map_some, Option.map_some,
    Option.getD_some]
  split
  · next hnamed => exact .inr ⟨hnamed, _, rfl⟩
  · exact .inl rfl

theorem visiting_visitNamed (t : Syntax.Tree α) :
    Task.Visiting (Scope.visitNamed t) t.children := by
  intro i c hc
  unfold Scope.visitNamed
  rw [List.getElem?_map, hc, Option.map_some, Option.getD_some]
  split
  · next hnamed => exact .inr ⟨hnamed, _, rfl⟩
  · exact .inl rfl

theorem visiting_skipAll (t : Syntax.Tree α) : Task.Visiting (Scope.skipAll t) t.children := by
  intro i c hc
  unfold Scope.skipAll
  rw [List.getElem?_map, hc]
  exact .inl rfl

theorem visiting_visitWrapped (t : Syntax.Tree α) (assigned : Option Assignment) :
    Task.Visiting (Scope.visitWrapped t assigned) t.children := by
  obtain ⟨target, htasks⟩ := visitWrapped_eq t assigned
  rw [htasks]
  exact visiting_zipIdx t.children fun i => if target = some i then assigned else none

theorem visiting_container (frame : Frame) (t : Syntax.Tree α) (taken : Taken) :
    Task.Visiting (Plan.container frame t taken).tasks t.children := visiting_zipIdx t.children _

namespace Plan

theorem visiting_variableDeclarator (frame : Frame) (t : Syntax.Tree α) (taken : Taken) :
    Task.Visiting (variableDeclarator frame t taken).tasks t.children := by
  unfold variableDeclarator
  split
  · exact visiting_skipAll t
  · split
    · exact visiting_visitNamed t
    · exact visiting_visitWrapped t none

/-- Namespaces and statements that declare variables apart, the children of a node are visited. -/
theorem visiting_ofNode (resolve : String → QName) (frame : Frame) (assigned : Option Assignment)
    (t : Syntax.Tree α) (taken : Taken)
    (hspace : ScopeRole.ofKind t.kind ≠ .namespaceDeclaration)
    (hstatement : ScopeRole.ofKind t.kind ≠ .variableStatement) :
    Task.Visiting (ofNode resolve frame assigned t taken).tasks t.children :=
  tasks_ofNode (P := fun tasks => Task.Visiting tasks t.children) resolve frame assigned t taken
    (visiting_visitNamed t) (visiting_visitWrapped t none) (visiting_visitWrapped t assigned)
    (fun _ => visiting_container _ t taken) (fun h => absurd h hspace)
    (fun h => absurd h hstatement) fun _ => visiting_skipAll t

end Plan

namespace Extract

open ScopedNode (declares? overloads?)

/-! ## Turns that follow the tasks -/

/-- A turn of the extraction at a node of a kind follows the task of the analysis there. -/
inductive Follows (kind : String) : Task → Turn → Prop
  | skip (turn : Turn) : Follows kind .skip turn
  | visit (assigned : Option Assignment) : Follows kind (.visit assigned) .visit
  | declarator (keyword : VariableKind) : Follows kind .declarator (.declarator keyword)
  | body : kind = "statement_block" → Follows kind .body .visit

/-- The extraction follows the analysis, except into trees that are exempt. -/
def Agreement (exempt : Syntax.Tree α → Prop) (tasks : List Task) (turns : List Turn)
    (cs : List (Syntax.Tree α)) : Prop :=
  ∀ (i : Nat) (c : Syntax.Tree α), cs[i]? = some c →
    exempt c ∨ Follows c.kind (tasks[i]?.getD .skip) (turns[i]?.getD .skip)

theorem agreement_of_exempt {exempt : Syntax.Tree α → Prop} {tasks : List Task}
    {cs : List (Syntax.Tree α)} (h : ∀ c ∈ cs, exempt c) : Agreement exempt tasks turns cs :=
  fun _ c hc => .inl (h c (List.mem_of_getElem? hc))

/-- Children that the extraction does not come to, although the analysis does, are exempt. -/
structure Closes (exempt : Syntax.Tree α → Prop) (t : Syntax.Tree α) : Prop where
  /-- The extraction stops at names. -/
  name : t.kind ∈ nameKinds → ∀ c ∈ t.children, exempt c
  /-- It stops at the access to a member of something named. -/
  access : t.kind = "member_expression" → (t.field? "object").any (·.kind == "identifier") →
    ∀ c ∈ t.children, exempt c
  /-- It stops at an export statement that exports no declaration or value. -/
  clause : t.kind = "export_statement" → t.field? "declaration" = none → t.field? "value" = none →
    (t.hasToken "=" → t.namedChildren = []) → ∀ c ∈ t.children, exempt c
  /-- It passes over the parts of a namespace without a name. -/
  space : ScopeRole.ofKind t.kind = .namespaceDeclaration → t.field? "name" = none →
    ∀ c ∈ t.children, exempt c
  /-- It comes to the body of a namespace if that is a block. -/
  body : ScopeRole.ofKind t.kind = .namespaceDeclaration → ∀ b ∈ t.children,
    b.label.roles.contains "body" → exempt b ∨ b.label.named ∧ b.kind = "statement_block"

/-- Where declarations have their places, what is closed to the extraction is barren. -/
theorem closes_of_places (h : PlacesDeclarations t) : Closes Barren t where
  name := h.name
  access := h.access
  clause := h.clause
  space hspace hnone := by
    have hempty : t.children = [] := by
      refine List.isEmpty_iff.mp ((h.space hspace).1.resolve_right fun hname => ?_)
      rw [hnone] at hname
      cases hname
    rw [hempty]
    exact List.forall_mem_nil _
  body hspace b hb hbody := .inr ((h.space hspace).2 b hb hbody)

section Descents

variable {exempt : Syntax.Tree Note → Prop} {n : ScopedNode} {t : Syntax.Tree α} {tasks : List Task}
  (hlabels : n.tree.children.map (·.label) = t.children.map (·.label))

include hlabels

theorem agreement_skipAll (turns : List Turn) :
    Agreement exempt (Scope.skipAll t) turns n.tree.children := by
  intro i c hc
  obtain ⟨c', hc', -⟩ := exists_getElem?_of_labels hlabels hc
  unfold Scope.skipAll
  rw [List.getElem?_map, hc']
  exact .inr (.skip _)

theorem agreement_children (owner : QName) (hvisiting : Task.Visiting tasks t.children) :
    Agreement exempt tasks (Descent.children owner n).turns n.tree.children := by
  intro i c hc
  obtain ⟨c', hc', hlabel⟩ := exists_getElem?_of_labels hlabels hc
  unfold Descent.children
  rw [List.getElem?_map, hc, Option.map_some, Option.getD_some]
  rcases hvisiting i c' hc' with htask | ⟨hnamed, assigned, htask⟩
  · rw [htask]
    exact .inr (.skip _)
  · rw [hlabel] at hnamed
    rw [htask, if_pos hnamed]
    exact .inr (.visit assigned)

theorem agreement_declarators (keyword : VariableKind) (owner : QName) :
    Agreement exempt (Scope.visitDeclarators t) (Descent.declarators keyword owner n).turns
      n.tree.children := by
  intro i c hc
  obtain ⟨c', hc', hlabel⟩ := exists_getElem?_of_labels hlabels hc
  unfold Scope.visitDeclarators Descent.declarators
  rw [List.getElem?_map, hc', List.getElem?_map, hc, Option.map_some, Option.map_some,
    Option.getD_some, Option.getD_some, hlabel]
  split
  · exact .inr (.declarator keyword)
  · exact .inr (.skip _)

/-- The analysis visits the body of a namespace only; the extraction has to come to it. -/
theorem agreement_visitBody (hblock : ∀ b ∈ n.tree.children, b.label.roles.contains "body" →
      exempt b ∨ b.label.named ∧ b.kind = "statement_block")
    (hturns : ∀ (i : Nat) (c : Syntax.Tree Note), n.tree.children[i]? = some c →
      n.tree.children.findIdx? (fun c => c.label.roles.contains "body") = some i →
      c.label.named → turns[i]?.getD .skip = .visit) :
    Agreement exempt (Scope.visitBody t) turns n.tree.children := by
  unfold Scope.visitBody
  rw [← findIdx?_body hlabels]
  split
  · exact agreement_skipAll hlabels turns
  · next b hb =>
    intro i c hc
    obtain ⟨c', hc', -⟩ := exists_getElem?_of_labels hlabels hc
    rw [List.getElem?_map, List.getElem?_zipIdx, hc', Option.map_some, Option.map_some,
      Option.getD_some, Nat.zero_add]
    dsimp only
    split
    · next hi =>
      subst hi
      have hbody : c.label.roles.contains "body" := by
        obtain ⟨hlt, hfills, -⟩ := List.findIdx?_eq_some_iff_getElem.mp hb
        rw [List.getElem?_eq_getElem hlt] at hc
        exact Option.some.inj hc ▸ hfills
      rcases hblock c (List.mem_of_getElem? hc) hbody with hexempt | ⟨hnamed, hkind⟩
      · exact .inl hexempt
      · rw [hturns i c hc hb hnamed]
        exact .inr (.body hkind)
    · exact .inr (.skip _)

/-- A namespace without a name is passed through. -/
theorem agreement_namespace (hshape : n.tree.shape = t.shape) (hcloses : Closes exempt n.tree)
    (hspace : ScopeRole.ofKind n.tree.kind = .namespaceDeclaration)
    (hturns : ∀ (i : Nat) (c : Syntax.Tree Note), n.tree.children[i]? = some c →
      n.tree.children.findIdx? (fun c => c.label.roles.contains "body") = some i →
      c.label.named → turns[i]?.getD .skip = .visit) :
    Agreement exempt (Plan.namespaceDeclaration frame t taken).tasks turns n.tree.children := by
  unfold Plan.namespaceDeclaration
  split
  · next hnone =>
    have hname : n.tree.field? "name" = none := by
      rw [← Option.isNone_iff_eq_none, ← Option.not_isSome,
        Syntax.Tree.isSome_field?_congr hshape, hnone]
      rfl
    exact agreement_of_exempt (hcloses.space hspace hname)
  · exact agreement_visitBody hlabels (hcloses.body hspace) hturns

end Descents

theorem turn_children (owner : QName) {i : Nat} {c : Syntax.Tree Note}
    (hc : n.tree.children[i]? = some c) (hnamed : c.label.named) :
    (Descent.children owner n).turns[i]?.getD .skip = .visit := by
  unfold Descent.children
  rw [List.getElem?_map, hc, Option.map_some, Option.getD_some, if_pos hnamed]

theorem turn_body (owner : QName) {i : Nat} {c : Syntax.Tree Note}
    (hc : n.tree.children[i]? = some c)
    (hi : n.tree.children.findIdx? (fun c => c.label.roles.contains "body") = some i) :
    (Descent.body owner n).turns[i]?.getD .skip = .visit := by
  unfold Descent.body
  rw [hi]
  dsimp only
  rw [List.getElem?_map, List.getElem?_zipIdx, hc, Option.map_some, Option.map_some,
    Option.getD_some, Nat.zero_add, if_pos rfl]

theorem ofKind?_of_variableStatement (h : ScopeRole.ofKind kind = .variableStatement) :
    Role.ofKind? kind = some .variableStatement := by
  unfold ScopeRole.ofKind at h
  split at h <;> first | rfl | cases h

/-- Only what an identifier stands for has members that are accessed. -/
theorem kind_of_accessedMember? (h : (accessedMember? n).isSome) :
    (n.tree.field? "object").any (·.kind == "identifier") := by
  unfold accessedMember? at h
  split at h
  · next object property hobject _ =>
    rw [← Syntax.Node.tree_field?, hobject]
    unfold ScopedNode.resolveMember? ScopedNode.namespace? at h
    rw [Option.isSome_map] at h
    split at h
    · next hkind => exact beq_iff_eq.mpr hkind
    · cases h
  · cases h

/-- Where an export statement is not walked into, it exports no declaration or value. -/
theorem exempt_of_export (hcloses : Closes exempt n.tree) (hkind : n.tree.kind = "export_statement")
    (h : ¬((n.field? "declaration").isSome || (exportedValue? n).isSome) = true) :
    ∀ c ∈ n.tree.children, exempt c := by
  rw [Bool.or_eq_true, not_or, Bool.not_eq_true, Bool.not_eq_true] at h
  obtain ⟨hdeclaration, hvalue⟩ := h
  unfold exportedValue? at hvalue
  rw [Option.isSome_or, Bool.or_eq_false_iff] at hvalue
  have hnone {field : String} (h : (n.field? field).isSome = false) :
      n.tree.field? field = none := by
    rw [← Syntax.Node.tree_field?, Option.map_eq_none_iff]
    exact Option.isSome_eq_false_iff.mp h |> Option.isNone_iff_eq_none.mp
  refine hcloses.clause hkind (hnone hdeclaration) (hnone hvalue.1) fun htoken => ?_
  have hfirst := hvalue.2
  rw [if_pos (show n.hasToken "=" = true from htoken)] at hfirst
  unfold Syntax.Node.namedChild? Syntax.Node.namedChildren at hfirst
  cases hchildren : n.tree.namedChildren with
  | nil => rfl
  | cons c cs =>
    rw [hchildren] at hfirst
    cases hfirst

theorem kind_of_nameRole {r : Role} (h : Role.ofKind? kind = some r)
    (hr : r ∈ [.identifier, .typeIdentifier, .nestedType, .closingTag]) : kind ∈ nameKinds := by
  unfold Role.ofKind? at h
  split at h <;> cases h <;> first | decide | exact absurd hr (by decide)

theorem kind_of_memberAccess (h : Role.ofKind? kind = some .memberAccess) :
    kind = "member_expression" := by
  unfold Role.ofKind? at h
  split at h <;> first | rfl | cases h

/-- Below a node that the analysis visits as what it is, the extraction follows. -/
theorem agreement_ofNode {assigned : Option Assignment}
    (hlabels : v.node.tree.children.map (·.label) = t.children.map (·.label))
    (hshape : v.node.tree.shape = t.shape) (hkind : v.node.tree.kind = t.kind)
    (hcloses : Closes exempt v.node.tree) (hvariable : v.declaredVariable? = none) :
    Agreement exempt (Plan.ofNode resolve frame assigned t taken).tasks (v.descent Extractor.all).turns
      v.node.tree.children := by
  unfold Visit.descent
  rw [hvariable, handledRole?_all, show v.node.kind = t.kind from hkind]
  cases hrole : Role.ofKind? t.kind with
  | none =>
    refine agreement_children hlabels _ (Plan.visiting_ofNode _ _ _ _ _ ?_ ?_)
    · intro hspace
      rw [ofKind?_of_namespaceDeclaration hspace] at hrole
      cases hrole
    · intro hstatement
      rw [ofKind?_of_variableStatement hstatement] at hrole
      cases hrole
  | some r =>
    have hscope := scopeRole_of_ofKind? hrole
    -- most roles visit all named children, as the analysis does for every node but two kinds
    have hchildren (owner : QName) (h : .namespaceDeclaration ∉ r.scopeRoles)
        (h' : .variableStatement ∉ r.scopeRoles) :
        Agreement exempt (Plan.ofNode resolve frame assigned t taken).tasks
          (Descent.children owner v.node).turns v.node.tree.children :=
      agreement_children hlabels owner (Plan.visiting_ofNode _ _ _ _ _
        (fun hspace => h (hspace ▸ hscope)) fun hstatement => h' (hstatement ▸ hscope))
    -- the extraction stops at names, and there is nothing below them
    have hname (turns : List Turn)
        (hr : r ∈ [.identifier, .typeIdentifier, .nestedType, .closingTag]) :
        Agreement exempt (Plan.ofNode resolve frame assigned t taken).tasks turns
          v.node.tree.children :=
      agreement_of_exempt (hcloses.name (hkind ▸ kind_of_nameRole hrole hr))
    dsimp only
    cases r with
    | «import» =>
      unfold Plan.ofNode
      rw [List.mem_singleton.mp hscope]
      exact agreement_skipAll hlabels _
    | «export» =>
      unfold Role.descent
      dsimp only
      split
      · exact hchildren _ (by decide) (by decide)
      · next hstop =>
        exact agreement_of_exempt
          (exempt_of_export hcloses (hkind.trans (Role.kind_of_export hrole)) hstop)
    | memberAccess =>
      unfold Role.descent
      dsimp only
      split
      · next hmember =>
        exact agreement_of_exempt (hcloses.access (hkind.trans (kind_of_memberAccess hrole))
          (kind_of_accessedMember? hmember))
      · exact hchildren _ (by decide) (by decide)
    | variableStatement =>
      unfold Plan.ofNode
      rw [List.mem_singleton.mp hscope]
      exact agreement_declarators hlabels _ _
    | «namespace» =>
      have hspace : ScopeRole.ofKind t.kind = .namespaceDeclaration :=
        List.mem_singleton.mp hscope
      unfold Plan.ofNode
      rw [hspace]
      exact agreement_namespace hlabels hshape hcloses (hkind ▸ hspace)
        fun i c hc hi _ => turn_body _ hc hi
    | identifier | typeIdentifier | nestedType | closingTag => exact hname _ (by decide)
    | function | classDeclaration | member | interface | typeAlias | enum =>
      exact hchildren _ (by decide) (by decide)

/-- Below a node where the extraction follows the analysis, it goes on to follow it. -/
theorem agreement_descent {task : Task} (hv : Annotates resolve task frame t taken v.node)
    (hshape : v.node.tree.shape = t.shape) (hcloses : Closes exempt v.node.tree)
    (hfollows : Follows t.kind task v.turn) :
    Agreement exempt (Plan.ofTask resolve task frame t taken).tasks (v.descent Extractor.all).turns
      v.node.tree.children := by
  have hkind : v.node.tree.kind = t.kind := congrArg Syntax.Label.kind hv.label
  -- nodes that are visited like any others are not taken for declarators
  have hplain (h : v.turn = .visit) : v.declaredVariable? = none := by
    unfold Visit.turn at h
    unfold Visit.declaredVariable?
    cases hdeclarator : v.declarator with
    | none => rfl
    | some keyword =>
      rw [hdeclarator] at h
      cases h
  generalize hturn : v.turn = turn at hfollows
  cases hfollows with
  | skip => exact agreement_skipAll hv.labels _
  | visit assigned =>
    exact agreement_ofNode hv.labels hshape hkind hcloses (hplain hturn)
  | body hblock =>
    have hnone : Role.ofKind? t.kind = none := by rw [hblock]; rfl
    unfold Visit.descent
    rw [hplain hturn, handledRole?_all, show v.node.kind = t.kind from hkind, hnone]
    exact agreement_children hv.labels _ (visiting_container frame t taken)
  | declarator keyword =>
    have hdeclares := hv.declares
    unfold Plan.ofTask at hdeclares ⊢
    dsimp only at hdeclares ⊢
    cases hvariable : v.declaredVariable? with
    | none =>
      split
      · next hdeclarator =>
        have hnone : Role.ofKind? t.kind = none := by rw [hdeclarator]; rfl
        unfold Visit.descent
        rw [hvariable, handledRole?_all, show v.node.kind = t.kind from hkind, hnone]
        exact agreement_children hv.labels _ (Plan.visiting_variableDeclarator frame t taken)
      · exact agreement_ofNode hv.labels hshape hkind hcloses hvariable
    | some found =>
      obtain ⟨-, hname⟩ := Visit.declaredVariable?_eq_some hvariable
      unfold Visit.descent
      rw [hvariable]
      dsimp only
      -- anything that has a name and stands in such a statement is taken for a declarator
      split at hdeclares
      · next hdeclarator =>
        rw [if_pos hdeclarator]
        exact agreement_children hv.labels _ (Plan.visiting_variableDeclarator frame t taken)
      · next hdeclarator =>
        rw [if_neg hdeclarator]
        by_cases hspace : ScopeRole.ofKind t.kind = .namespaceDeclaration
        · unfold Plan.ofNode
          rw [hspace]
          exact agreement_namespace hv.labels hshape hcloses (hkind ▸ hspace)
            fun i c hc _ hnamed => turn_children _ hc hnamed
        · refine agreement_children hv.labels _
            (Plan.visiting_ofNode _ _ _ _ _ hspace fun hstatement => ?_)
          -- statements declare nothing themselves
          unfold Plan.ofNode at hdeclares
          rw [hstatement, hname] at hdeclares
          cases hdeclares

/-! ## Named nodes are visited -/

/-- A node that declares a variable has been taken for a declarator. -/
theorem isSome_declarator {task : Task} (hv : Annotates resolve task frame t taken v.node)
    (hfollows : Follows t.kind task v.turn)
    (hvariable : declared? v.node.tree = some (.variable, f)) : v.declarator.isSome := by
  have hkind : v.node.tree.kind = t.kind := congrArg Syntax.Label.kind hv.label
  obtain ⟨k, hk, hname⟩ := Option.bind_eq_some_iff.mp hvariable
  obtain ⟨g, hg, hpair⟩ := Option.bind_eq_some_iff.mp hname
  obtain ⟨rfl, rfl⟩ := Prod.mk.inj (Option.some.inj hpair)
  have hdeclarator : t.kind = "variable_declarator" := by
    rw [hkind] at hk
    unfold Kind.declaredBy? at hk
    split at hk
    · assumption
    · unfold ScopeRole.declares? at hk
      split at hk <;> cases hk
  have hdeclares : (Plan.ofTask resolve task frame t taken).declares = some g :=
    hv.declares.symm.trans hg
  generalize hturn : v.turn = turn at hfollows
  cases hfollows with
  | skip | body => cases hdeclares
  | visit assigned =>
    have hrole : ScopeRole.ofKind t.kind = .other := by rw [hdeclarator]; rfl
    unfold Plan.ofTask Plan.ofNode at hdeclares
    rw [hrole] at hdeclares
    cases hdeclares
  | declarator keyword =>
    unfold Visit.turn at hturn
    cases hsome : v.declarator with
    | none =>
      rw [hsome] at hturn
      cases hturn
    | some keyword => rfl

/-- A visit of a node that makes a declaration, as what it is. -/
def Visit.Finds (u : Syntax.Tree Note) (k : Kind) (v : Visit) : Prop :=
  v.node.tree = u ∧ (k = .variable → v.declarator.isSome)

mutual

theorem visited_annotate (resolve : String → QName) {u : Syntax.Tree Note} {k : Kind} {f : QName}
    (hu : declared? u = some (k, f)) : ∀ (t : Syntax.Tree α) (task : Task) (frame : Frame)
    (taken : Taken) (owner : QName) (declarator : Option VariableKind)
    (above : List (Syntax.Tree Note)), Placed (annotate resolve task frame taken t).result →
      Follows t.kind task (declarator.elim .visit .declarator) →
      u ∈ (annotate resolve task frame taken t).result.subtrees →
      ∃ v ∈ visits Extractor.all owner declarator above (annotate resolve task frame taken t).result,
        v.Finds u k
  | .node l a cs, task, frame, taken, owner, declarator, above, hplaced, hfollows, hmem => by
    have hnode := annotates_annotate resolve task frame taken (.node l a cs) above
    have hshape := shape_annotate resolve task frame taken (.node l a cs)
    rw [annotate] at hplaced hmem hnode hshape ⊢
    rw [visits]
    rcases List.mem_cons.mp hmem with rfl | hmem
    · refine ⟨_, List.mem_cons_self, rfl, ?_⟩
      rintro rfl
      exact isSome_declarator (v := ⟨owner, declarator, ⟨_, above⟩⟩) hnode hfollows hu
    · obtain ⟨v, hv, hfinds⟩ := visited_annotateAll resolve hu cs _ _ _ _ _ _
        (fun u hu => hplaced u (List.mem_cons_of_mem _ hu))
        (agreement_descent (v := ⟨owner, declarator, ⟨_, above⟩⟩) hnode hshape
          (closes_of_places (hplaced _ List.mem_cons_self)) hfollows) hmem
      exact ⟨v, List.mem_cons_of_mem _ hv, hfinds⟩

theorem visited_annotateAll (resolve : String → QName) {u : Syntax.Tree Note} {k : Kind}
    {f : QName} (hu : declared? u = some (k, f)) : ∀ (ts : List (Syntax.Tree α))
    (tasks : List Task) (frame : Frame) (taken : Taken) (owner : QName) (turns : List Turn)
    (above : List (Syntax.Tree Note)),
      (∀ u ∈ Syntax.Tree.subtreesAll (annotateAll resolve tasks frame taken ts).result,
        PlacesDeclarations u) →
      Agreement Barren tasks turns (annotateAll resolve tasks frame taken ts).result →
      u ∈ Syntax.Tree.subtreesAll (annotateAll resolve tasks frame taken ts).result →
      ∃ v ∈ visitsAll Extractor.all owner turns above
        (annotateAll resolve tasks frame taken ts).result, v.Finds u k
  | [], _, _, _, _, _, _, _, _, hmem => absurd hmem List.not_mem_nil
  | t :: ts, tasks, frame, taken, owner, turns, above, hplaced, hagree, hmem => by
    rw [annotateAll] at hplaced hagree hmem ⊢
    rw [visitsAll]
    rcases List.mem_append.mp hmem with hmem | hmem
    · have hfirst := hagree 0 _ rfl
      rw [← List.head?_eq_getElem?, ← List.head?_eq_getElem?] at hfirst
      have hparts : Placed (annotate resolve (tasks.head?.getD .skip) frame taken t).result :=
        fun u hu => hplaced u (List.mem_append_left _ hu)
      have hkind : (annotate resolve (tasks.head?.getD .skip) frame taken t).result.kind =
          t.kind := congrArg Syntax.Label.kind
        (annotates_annotate resolve (tasks.head?.getD .skip) frame taken t above).label
      rw [hkind] at hfirst
      rcases hfirst with hbarren | hfollows
      · rw [declared?, declaration?, hbarren u hmem] at hu
        cases hu
      -- from here on only the first task and the first turn count, not the lists they come from
      · generalize tasks.head?.getD .skip = task at hfollows hmem hparts ⊢
        generalize turns.head?.getD .skip = turn at hfollows ⊢
        have hvisited (declarator : Option VariableKind)
            (hfollows : Follows t.kind task (declarator.elim .visit .declarator)) :=
          visited_annotate resolve hu t task frame taken owner declarator above hparts hfollows
            hmem
        cases hfollows with
        | skip turn =>
          -- nothing is declared where the analysis passes over
          rw [declared?, declares_skip resolve t frame taken hmem, Plan.declaration?_none] at hu
          cases hu
        | visit assigned =>
          obtain ⟨v, hv, hfinds⟩ := hvisited none (.visit assigned)
          exact ⟨v, List.mem_append_left _ hv, hfinds⟩
        | declarator keyword =>
          obtain ⟨v, hv, hfinds⟩ := hvisited (some keyword) (.declarator keyword)
          exact ⟨v, List.mem_append_left _ hv, hfinds⟩
        | body hblock =>
          obtain ⟨v, hv, hfinds⟩ := hvisited none (.body hblock)
          exact ⟨v, List.mem_append_left _ hv, hfinds⟩
    · obtain ⟨v, hv, hfinds⟩ := visited_annotateAll resolve hu ts tasks.tail frame _ owner
        turns.tail above (fun u hu => hplaced u (List.mem_append_right _ hu))
        (fun i c hc => by
          have hnext := hagree (i + 1) c hc
          rw [List.getElem?_tail, List.getElem?_tail]
          exact hnext) hmem
      exact ⟨v, List.mem_append_right _ hv, hfinds⟩

end

/-- Every node that makes a declaration is visited. -/
theorem visited_of_declared (resolve : String → QName) (module owner : QName) (h : Placed t)
    (hu : u ∈ (analyse resolve module t).subtrees) (hf : declared? u = some (k, f)) :
    ∃ v ∈ walk Extractor.all owner (analyse resolve module t), v.Finds u k := by
  have hplaced : Placed (analyse resolve module t) :=
    (Syntax.Tree.forall_subtrees_of_shape (P := PlacesDeclarations) (placesDeclarations_mapNotes _)
      (shape_analyse resolve module t)).mpr h
  obtain ⟨l, a, cs⟩ := t
  have hroot := annotates_annotate resolve .body ⟨module, true, false⟩ [] (.node l a cs) []
  unfold walk analyse at *
  rw [annotate] at hu hplaced hroot ⊢
  rcases List.mem_cons.mp hu with rfl | hu
  -- the walk starts below the root, which declares nothing
  · cases (Plan.declaration?_none _).symm.trans hf
  · exact visited_annotateAll resolve hf cs _ _ _ _ _ _
      (fun u hu => hplaced u (List.mem_cons_of_mem _ hu))
      (agreement_children hroot.labels owner (visiting_container _ (.node l a cs) _)) hu

/-! ## Visited declarations are recorded -/

theorem concepts_of_mem {table : List Extractor} {vs : List Visit} {cs : List Concept}
    (h : conceptsOf table o vs = .ok cs) (hv : v ∈ vs) :
    ∃ made, v.concepts table o = .ok made ∧ made ⊆ cs := by
  obtain ⟨made, hmade, rfl⟩ := conceptsOf_eq_ok h
  exact ⟨made v, hmade v hv, fun c hc => List.mem_flatMap.mpr ⟨v, hv, hc⟩⟩

/-- The kinds of records that declarations have. -/
def declarationKinds : List Kind :=
  [.function, .classDeclaration, .interface, .typeAlias, .enum, .variable]

theorem mem_declarationKinds {r : Role} (h : r.declares? = some k) : k ∈ declarationKinds := by
  cases r <;> cases h <;> decide

/-- Nodes that make declarations have a role in the extraction, declarators apart. -/
theorem exists_role (h : Kind.declaredBy? kind = some k) (hk : k ≠ .variable) :
    ∃ r, Role.ofKind? kind = some r ∧ r.declares? = some k := by
  unfold Kind.declaredBy? at h
  split at h
  · exact absurd (Option.some.inj h).symm hk
  · unfold ScopeRole.ofKind at h
    split at h <;> cases h <;> exact ⟨_, rfl, rfl⟩

theorem declared?_eq_some (h : declared? u = some (k, f)) :
    Kind.declaredBy? u.kind = some k ∧ u.note.declares = some f := by
  obtain ⟨k', hk, h⟩ := Option.bind_eq_some_iff.mp h
  obtain ⟨f', hf, h⟩ := Option.bind_eq_some_iff.mp h
  obtain ⟨rfl, rfl⟩ := Prod.mk.inj (Option.some.inj h)
  exact ⟨hk, hf⟩

/-- A concept is the record of a declaration under a name. -/
def IsRecordOf (f : QName) (c : Concept) : Prop :=
  ∃ k ∈ declarationKinds, identity? c = some (k, f)

theorem isRecordOf (hk : k ∈ declarationKinds) {d : k.Record} (hf : k.fqn? d = some f) :
    IsRecordOf f ⟨k, d⟩ := by
  refine ⟨k, hk, ?_⟩
  rw [identity?, hf]
  rfl

/-- What is visited as the declarator of a variable makes a record. -/
theorem exists_record_of_variable {table : List Extractor} (h : v.concepts table o = .ok made)
    {keyword : VariableKind} (hvariable : v.declaredVariable? = some (keyword, f)) :
    ∃ c ∈ made, IsRecordOf f c := by
  unfold Visit.concepts at h
  rw [hvariable] at h
  obtain ⟨d, hd, rfl⟩ := map_eq_ok.mp h
  exact ⟨_, List.mem_singleton_self _, isRecordOf (by decide) (congrArg some (fqn_variableDecl hd))⟩

/-- What is visited in the role of a declaration makes a record. -/
theorem exists_record_of_role (h : v.concepts Extractor.all o = .ok made)
    (hvariable : v.declaredVariable? = none) {r : Role} (hrole : Role.ofKind? v.node.kind = some r)
    (hr : r.declares?.isSome) (hf : declares? v.node = some f)
    (hoverloads : overloads? v.node = none) : ∃ c ∈ made, IsRecordOf f c := by
  unfold Visit.concepts at h
  rw [hvariable, handledRole?_all, hrole] at h
  cases Role.yields h with
  | «import» | «export» => cases hr
  | declaration hkind _ hname hdeclares =>
    obtain rfl := Option.some.inj (hf.symm.trans hdeclares)
    exact ⟨_, List.mem_singleton_self _, isRecordOf (mem_declarationKinds hkind) hname⟩
  | overload hsome => exact absurd hsome (by rw [hoverloads]; decide)
  | reference _ _ hnone | nothing hnone => exact absurd hr (by rw [hnone]; decide)

/-- A visited node that makes a declaration makes a record under its name. -/
theorem exists_record (h : v.concepts Extractor.all o = .ok made) (hfinds : v.Finds u k)
    (hf : declared? u = some (k, f)) (hoverloads : u.note.overloads = none) :
    ∃ c ∈ made, IsRecordOf f c := by
  obtain ⟨rfl, hdeclarator⟩ := hfinds
  obtain ⟨hkind, hdeclares⟩ := declared?_eq_some hf
  cases hvariable : v.declaredVariable? with
  | some found =>
    obtain rfl : found.2 = f := Option.some.inj
      ((Visit.declaredVariable?_eq_some hvariable).2.symm.trans hdeclares)
    exact exists_record_of_variable h hvariable
  | none =>
    have hk : k ≠ .variable := by
      intro hk
      obtain ⟨keyword, hkeyword⟩ := Option.isSome_iff_exists.mp (hdeclarator hk)
      unfold Visit.declaredVariable? at hvariable
      rw [hkeyword, show declares? v.node = some f from hdeclares] at hvariable
      cases hvariable
    obtain ⟨r, hrole, hr⟩ := exists_role hkind hk
    exact exists_record_of_role h hvariable hrole (by rw [hr]; rfl) hdeclares hoverloads

/-- A node that is noted as an overload declares nothing. -/
theorem overloads_of_declares (hu : u ∈ (analyse resolve module t).subtrees)
    (hf : u.note.declares = some f) : u.note.overloads = none := by
  obtain ⟨t', task, frame, taken, inner, -, hnote⟩ := exists_plan_annotate resolve t _ _ _ hu
  rw [hnote] at hf ⊢
  cases hover : (Plan.ofTask resolve task frame t' taken).overloads with
  | none => exact hover
  | some g =>
    have hnone := (Plan.overloads_ofTask hover).2
    cases hnone.symm.trans hf

end Extract

/-- A model has the record of a declaration under a name. -/
def Model.Records (m : Model) (f : QName) : Prop :=
  ∃ k ∈ Extract.declarationKinds, f ∈ m.identities k

instance (m : Model) (f : QName) : Decidable (m.Records f) :=
  inferInstanceAs (Decidable (∃ k ∈ Extract.declarationKinds, f ∈ m.identities k))

namespace Extract

/-- What is made at a visited node of a file is recorded. -/
theorem records_of_visit {t : Syntax.Tree Note} (h : fileModel Extractor.all o t = .ok m)
    (hv : v ∈ walk Extractor.all o.module t)
    (hrecord : ∀ made, v.concepts Extractor.all o = .ok made → ∃ c ∈ made, IsRecordOf f c) :
    m.Records f := by
  obtain ⟨cs, hcs, rfl⟩ := fileModel_eq_ok h
  obtain ⟨made, hmade, hsub⟩ := concepts_of_mem hcs hv
  obtain ⟨c, hc, k, hk, hidentity⟩ := hrecord made hmade
  refine ⟨k, hk, ?_⟩
  rw [identities_ofConcepts]
  refine List.mem_filterMap.mpr ⟨(k, f), ?_, if_pos rfl⟩
  exact List.mem_filterMap.mpr ⟨c, List.mem_cons_of_mem _ (hsub hc), hidentity⟩

/-- Where the extraction of a file succeeds, what is declared in it is recorded. -/
theorem recorded_of_declared (hplaced : Placed t)
    (h : fileModel Extractor.all o (analyse resolve module t) = .ok m)
    (hf : DeclaredIn (analyse resolve module t).subtrees k f) : m.Records f := by
  obtain ⟨u, hu, hdeclared⟩ := hf
  obtain ⟨v, hv, hfinds⟩ := visited_of_declared resolve module o.module hplaced hu hdeclared
  refine records_of_visit h hv fun made hmade => exists_record hmade hfinds hdeclared ?_
  exact overloads_of_declares hu (declared?_eq_some hdeclared).2

/-- The function that an overload belongs to is recorded. -/
theorem recorded_of_overloads (hplaced : Placed t)
    (h : fileModel Extractor.all o (analyse resolve module t) = .ok m)
    (hu : u ∈ (analyse resolve module t).subtrees) (hf : u.note.overloads = some f) : m.Records f :=
  recorded_of_declared hplaced h (declaredIn_of_overloads resolve module hplaced hu hf)

end Extract

end CodeConcepts
