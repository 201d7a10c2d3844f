import CodeConcepts.Proofs.DistinctRecords

/-!
# What the extraction visits, the scope analysis has visited

Scope analysis and extraction are two walks over one tree, each with its own rules on where to go
from a node. A declaration that the extraction comes to and the analysis has passed over would have
no name, which is a fault. It does not happen: wherever the extraction turns, the analysis has a
task there (`covering_descent`), so every declaration it visits has been given a name or is an
overload (`covered_walk`). With the parts that the grammar requires of declarations (`HasParts`),
extraction succeeds.
-/

namespace CodeConcepts

variable {α β : Type} {t : Syntax.Tree α} {task : Task} {v : Visit} {n : ScopedNode}

/-! ## Parts that nodes have to have -/

/-- The fields that nodes with a part in the scope analysis have to have. -/
def ScopeRole.requiredFields : ScopeRole → List String
  | .functionDeclaration => ["name", "parameters"]
  | .classDeclaration => ["name", "body"]
  | .interfaceDeclaration => ["name"]
  | .typeAliasDeclaration => ["name", "value"]
  | .enumDeclaration => ["name", "body"]
  | _ => []

/-- The fields that nodes of a kind have to have. -/
def requiredFields (kind : String) : List String :=
  if kind = "variable_declarator" then ["name"]
  else if kind = "import_require_clause" then ["source"]
  else (ScopeRole.ofKind kind).requiredFields

/-- A node has the parts that the grammar requires, and none where the grammar has no place for
them: the body of a namespace is not itself a declaration, and no namespace is a declarator. -/
@[mk_iff]
structure HasParts (t : Syntax.Tree α) : Prop where
  fields : ∀ field ∈ requiredFields t.kind, (t.field? field).isSome
  source : ScopeRole.ofKind t.kind = .importStatement →
    t.namedChildren.any (·.kind == "import_require_clause") ∨ (t.field? "source").isSome
  body : ScopeRole.ofKind t.kind = .namespaceDeclaration →
    ∀ b ∈ t.children, b.label.roles.contains "body" →
      b.label.named ∧ (ScopeRole.ofKind b.kind).declares? = none
  declarators : ScopeRole.ofKind t.kind = .variableStatement →
    ∀ c ∈ t.namedChildren, ScopeRole.ofKind c.kind ≠ .namespaceDeclaration

instance (t : Syntax.Tree α) : Decidable (HasParts t) := decidable_of_iff _ (hasParts_iff t).symm

/-- All nodes of a tree have their parts. -/
def WellFormed (t : Syntax.Tree α) : Prop := ∀ u ∈ t.subtrees, HasParts u

instance (t : Syntax.Tree α) : Decidable (WellFormed t) :=
  inferInstanceAs (Decidable (∀ u ∈ t.subtrees, HasParts u))

theorem hasParts_mapNotes (f : α → β) (t : Syntax.Tree α) :
    HasParts (t.mapNotes f) ↔ HasParts t := by
  simp only [hasParts_iff, Syntax.Tree.field?_mapNotes, Syntax.Tree.kind_mapNotes,
    Syntax.Tree.namedChildren_mapNotes, Syntax.Tree.children_mapNotes, Syntax.Tree.label_mapNotes,
    Option.isSome_map, List.forall_mem_map, List.any_map, Function.comp_def]

theorem HasParts.field {t : Syntax.Tree α} {r : ScopeRole} (h : HasParts t)
    (hrole : ScopeRole.ofKind t.kind = r) (hr : r ≠ .other) {field : String}
    (hfield : field ∈ r.requiredFields) : (t.field? field).isSome := by
  refine h.fields field ?_
  unfold requiredFields
  split
  · next hkind =>
    rw [hkind] at hrole
    exact absurd hrole.symm hr
  · split
    · next hkind =>
      rw [hkind] at hrole
      exact absurd hrole.symm hr
    · rw [hrole]
      exact hfield

/-! ## Tasks that reach a node -/

/-- Whether a node is visited as what it is. -/
def Task.isVisit : Task → Bool
  | .visit _ => true
  | .declarator => true
  | _ => false

/-- The task makes the analysis look at a node. The statements of a container are looked at through
the container, which must not be a declaration itself. -/
def Task.Reaches (t : Syntax.Tree α) : Task → Prop
  | .skip => False
  | .body => (ScopeRole.ofKind t.kind).declares? = none
  | _ => True

theorem Task.reaches_of_isVisit (h : task.isVisit) (t : Syntax.Tree α) : task.Reaches t := by
  cases task with
  | skip => cases h
  | visit assigned | declarator => trivial
  | body => cases h

/-- Every named tree of a list is visited. -/
def Task.Full (tasks : List Task) (cs : List (Syntax.Tree α)) : Prop :=
  ∀ (i : Nat) (c : Syntax.Tree α), cs[i]? = some c → c.label.named →
    (tasks[i]?.getD .skip).isVisit

theorem full_visitNamed (t : Syntax.Tree α) : Task.Full (Scope.visitNamed t) t.children := by
  intro i c hc hnamed
  unfold Scope.visitNamed
  rw [List.getElem?_map, hc, Option.map_some, Option.getD_some, if_pos hnamed]
  rfl

theorem full_visitDeclarators (t : Syntax.Tree α) :
    Task.Full (Scope.visitDeclarators t) t.children := by
  intro i c hc hnamed
  unfold Scope.visitDeclarators
  rw [List.getElem?_map, hc, Option.map_some, Option.getD_some, if_pos hnamed]
  rfl

/-- Tasks by position, of which a named child gets a visit. -/
theorem full_zipIdx (cs : List (Syntax.Tree α)) (assigned : Nat → Option Assignment) :
    Task.Full (cs.zipIdx.map fun p => if p.1.label.named then .visit (assigned p.2) else .skip)
      cs := by
  intro i c hc hnamed
  rw [List.getElem?_map, List.getElem?_zipIdx, hc, Option.map_some, Option.map_some,
    Option.getD_some, if_pos hnamed]
  rfl

theorem full_visitWrapped (t : Syntax.Tree α) (assigned : Option Assignment) :
    Task.Full (Scope.visitWrapped t assigned) t.children := by
  obtain ⟨target, htasks⟩ := visitWrapped_eq t assigned
  rw [htasks]
  exact full_zipIdx t.children fun i => if target = some i then assigned else none

theorem full_container (frame : Frame) (t : Syntax.Tree α) (taken : Taken) :
    Task.Full (Plan.container frame t taken).tasks t.children :=
  full_zipIdx t.children _

/-! ## Plans -/

namespace Plan

/-- A plan gives its node a name if it has one, where nodes of its kind declare something. -/
structure Covers (p : Plan) (t : Syntax.Tree α) : Prop where
  /-- Declarations get a name. -/
  declares : (ScopeRole.ofKind t.kind).declares?.isSome → p.declares.isSome ∨
    ScopeRole.ofKind t.kind = .functionDeclaration ∧ p.overloads.isSome
  /-- What gets a name has one. -/
  named : p.declares.isSome → (t.field? "name").isSome
  /-- All named children are visited, except where the walks agree on fewer. -/
  full : ScopeRole.ofKind t.kind ≠ .importStatement →
    ScopeRole.ofKind t.kind ≠ .namespaceDeclaration → Task.Full p.tasks t.children

theorem isSome_field?_of_fieldText? {field name : String} (h : t.fieldText? field = some name) :
    (t.field? field).isSome := by
  obtain ⟨u, hu, -⟩ := Option.map_eq_some_iff.mp h
  rw [hu]
  rfl

theorem isSome_fieldText? {field : String} (h : (t.field? field).isSome) :
    t.fieldText? field ≠ none := by
  obtain ⟨u, hu⟩ := Option.isSome_iff_exists.mp h
  unfold Syntax.Tree.fieldText?
  rw [hu]
  exact nofun

/-- A plan for a node that declares nothing and whose children are all visited. -/
theorem Covers.of_other {p : Plan} (hrole : (ScopeRole.ofKind t.kind).declares? = none)
    (hdeclares : p.declares = none) (hfull : Task.Full p.tasks t.children) : p.Covers t where
  declares := by
    rw [hrole]
    exact nofun
  named := by
    rw [hdeclares]
    exact nofun
  full := fun _ _ => hfull

/-- A plan that gives its node a name. -/
theorem Covers.of_declares {p : Plan} (hname : (t.field? "name").isSome)
    (hdeclares : p.declares.isSome) (hfull : Task.Full p.tasks t.children) : p.Covers t where
  declares := fun _ => .inl hdeclares
  named := fun _ => hname
  full := fun _ _ => hfull

theorem covers_functionDeclaration (frame : Frame) (assigned : Option Assignment) (taken : Taken)
    (hrole : ScopeRole.ofKind t.kind = .functionDeclaration) (hname : (t.field? "name").isSome) :
    (functionDeclaration frame t assigned taken).Covers t := by
  unfold functionDeclaration
  split
  · exact .of_declares hname rfl (full_visitNamed t)
  · exact ⟨fun _ => .inr ⟨hrole, rfl⟩, nofun, fun _ _ => full_visitNamed t⟩
  · split
    · next hnone => exact absurd hnone (isSome_fieldText? hname)
    · exact .of_declares hname rfl (full_visitNamed t)

theorem covers_typed (k : Kind) (enter : String → Meaning → Scope) (namedMembers : Bool)
    (frame : Frame) (taken : Taken) (hname : (t.field? "name").isSome) :
    (typed k enter namedMembers frame t taken).Covers t := by
  unfold typed
  split
  · next hnone => exact absurd hnone (isSome_fieldText? hname)
  · exact .of_declares hname rfl (full_visitNamed t)

theorem covers_enumDeclaration (frame : Frame) (taken : Taken) (hname : (t.field? "name").isSome) :
    (enumDeclaration frame t taken).Covers t := by
  unfold enumDeclaration
  split
  · next hnone => exact absurd hnone (isSome_fieldText? hname)
  · exact .of_declares hname rfl (full_visitNamed t)

theorem covers_member {p : Plan} (frame : Frame)
    (hrole : (ScopeRole.ofKind t.kind).declares? = none)
    (hdeclares : p.declares = memberName? frame t) (htasks : p.tasks = Scope.visitNamed t) :
    p.Covers t where
  declares := by
    rw [hrole]
    exact nofun
  named := by
    intro h
    obtain ⟨n, hn⟩ := Option.isSome_iff_exists.mp h
    rw [hdeclares, memberName?] at hn
    split at hn
    · obtain ⟨name, hname, -⟩ := Option.map_eq_some_iff.mp hn
      exact isSome_field?_of_fieldText? hname
    · cases hn
  full := fun _ _ => htasks ▸ full_visitNamed t

theorem covers_variableDeclarator (frame : Frame) (taken : Taken)
    (hrole : (ScopeRole.ofKind t.kind).declares? = none) (hname : (t.field? "name").isSome) :
    (variableDeclarator frame t taken).Covers t := by
  unfold variableDeclarator
  split
  · next hnone =>
    rw [hnone] at hname
    cases hname
  · split
    · exact .of_declares hname rfl (full_visitNamed t)
    · exact .of_other hrole rfl (full_visitWrapped t none)

theorem covers_namespaceDeclaration (frame : Frame) (taken : Taken)
    (hrole : ScopeRole.ofKind t.kind = .namespaceDeclaration) :
    (namespaceDeclaration frame t taken).Covers t where
  declares := by
    rw [hrole]
    exact nofun
  named := by
    unfold namespaceDeclaration
    cases hname : t.field? "name" with
    | none => exact nofun
    | some nameNode => exact fun _ => rfl
  full := fun _ h => absurd hrole h

theorem covers_ofNode (resolve : String → QName) (frame : Frame) (assigned : Option Assignment)
    (taken : Taken) (hparts : HasParts t) : (ofNode resolve frame assigned t taken).Covers t := by
  unfold ofNode
  cases hrole : ScopeRole.ofKind t.kind with
  | functionDeclaration =>
    exact covers_functionDeclaration frame assigned taken hrole (hparts.field hrole nofun (by decide))
  | classDeclaration | interfaceDeclaration | typeAliasDeclaration =>
    exact covers_typed _ _ _ frame taken (hparts.field hrole nofun (by decide))
  | enumDeclaration => exact covers_enumDeclaration frame taken (hparts.field hrole nofun (by decide))
  | namespaceDeclaration => exact covers_namespaceDeclaration frame taken hrole
  | memberFunction | property => exact covers_member frame (by rw [hrole]; rfl) rfl rfl
  | importStatement =>
    exact ⟨by rw [hrole]; exact nofun, nofun, fun h => absurd hrole h⟩
  | variableStatement => exact .of_other (by rw [hrole]; rfl) rfl (full_visitDeclarators t)
  | anonymousFunction | classExpression | catchClause | forLoop =>
    exact .of_other (by rw [hrole]; rfl) rfl (full_visitNamed t)
  | block => exact .of_other (by rw [hrole]; rfl) rfl (full_container _ t taken)
  | other => exact .of_other (by rw [hrole]; rfl) rfl (full_visitWrapped t assigned)

theorem covers_ofTask (resolve : String → QName) (frame : Frame) (taken : Taken)
    (hparts : HasParts t) (hreach : task.Reaches t) :
    (ofTask resolve task frame t taken).Covers t := by
  cases task with
  | skip => exact hreach.elim
  | visit assigned => exact covers_ofNode resolve frame assigned taken hparts
  | declarator =>
    unfold ofTask
    dsimp only
    split
    · next hkind =>
      refine covers_variableDeclarator frame taken (by rw [hkind]; rfl) (hparts.fields "name" ?_)
      rw [hkind]
      decide
    · exact covers_ofNode resolve frame none taken hparts
  | body => exact .of_other hreach rfl (full_container frame t taken)

/-- The body of a namespace is visited, as its statements or as a child like any other. -/
theorem reaches_body (resolve : String → QName) (frame : Frame) (taken : Taken)
    (hparts : HasParts t) (hreach : task.Reaches t)
    (hrole : ScopeRole.ofKind t.kind = .namespaceDeclaration) {i : Nat} {c : Syntax.Tree α}
    (hi : t.children.findIdx? (fun c => c.label.roles.contains "body") = some i)
    (hc : t.children[i]? = some c) :
    ((ofTask resolve task frame t taken).tasks[i]?.getD .skip).Reaches c := by
  have hbody : c.label.roles.contains "body" := by
    obtain ⟨hlt, hfills, -⟩ := List.findIdx?_eq_some_iff_getElem.mp hi
    rw [List.getElem?_eq_getElem hlt] at hc
    exact Option.some.inj hc ▸ hfills
  obtain ⟨hnamed, hplain⟩ := hparts.body hrole c (List.mem_of_getElem? hc) hbody
  have hfull {tasks : List Task} (h : Task.Full tasks t.children) :
      (tasks[i]?.getD .skip).Reaches c := Task.reaches_of_isVisit (h i c hc hnamed) c
  have hspace : ((namespaceDeclaration frame t taken).tasks[i]?.getD .skip).Reaches c := by
    unfold namespaceDeclaration
    split
    · exact hfull (full_visitWrapped t none)
    · dsimp only [Scope.visitBody]
      rw [hi]
      dsimp only
      rw [List.getElem?_map, List.getElem?_zipIdx, hc, Option.map_some, Option.map_some,
        Option.getD_some, Nat.zero_add, if_pos rfl]
      exact hplain
  have hnode (assigned : Option Assignment) :
      ofNode resolve frame assigned t taken = namespaceDeclaration frame t taken := by
    unfold ofNode
    rw [hrole]
  cases task with
  | skip => exact hreach.elim
  | visit assigned =>
    rw [ofTask, hnode]
    exact hspace
  | declarator =>
    have hkind : t.kind ≠ "variable_declarator" := by
      intro hkind
      rw [hkind] at hrole
      cases hrole
    rw [ofTask, if_neg hkind, hnode]
    exact hspace
  | body => exact hfull (full_container frame t taken)

end Plan

namespace Extract

open ScopedNode (declares? overloads?)

/-! ## Turns -/

/-- What a turn of the extraction needs of the task of the analysis at the same node. -/
def Turn.Covered (task : Task) (c : Syntax.Tree α) : Turn → Prop
  | .skip => True
  | .visit => task.Reaches c
  | .declarator _ => task.Reaches c ∧ ScopeRole.ofKind c.kind ≠ .namespaceDeclaration

/-- Wherever the extraction turns, the analysis has a task. -/
def Covering (turns : List Turn) (tasks : List Task) (cs : List (Syntax.Tree α)) : Prop :=
  ∀ (i : Nat) (c : Syntax.Tree α), cs[i]? = some c →
    (turns[i]?.getD .skip).Covered (tasks[i]?.getD .skip) c

/-- The trees at one position of two lists with the same labels have the same label. -/
theorem exists_getElem?_of_labels {ts : List (Syntax.Tree α)} {us : List (Syntax.Tree β)}
    (h : ts.map (·.label) = us.map (·.label)) {i : Nat} {c : Syntax.Tree α} (hc : ts[i]? = some c) :
    ∃ d, us[i]? = some d ∧ d.label = c.label := by
  have hi := congrArg (·[i]?) h
  simp only [List.getElem?_map, hc, Option.map_some] at hi
  exact Option.map_eq_some_iff.mp hi.symm

/-- Both walks look for the body of a namespace at the same place. -/
theorem findIdx?_body {ts : List (Syntax.Tree α)} {us : List (Syntax.Tree β)}
    (h : ts.map (·.label) = us.map (·.label)) :
    ts.findIdx? (fun c => c.label.roles.contains "body") =
      us.findIdx? fun c => c.label.roles.contains "body" := by
  have hmap {γ : Type} (vs : List (Syntax.Tree γ)) :
      vs.findIdx? (fun c => c.label.roles.contains "body") =
        (vs.map (·.label)).findIdx? fun l => l.roles.contains "body" := by
    rw [List.findIdx?_map]
    rfl
  rw [hmap, hmap, h]

section Descents

variable {n : ScopedNode} {cs : List (Syntax.Tree α)} {tasks : List Task}
  (hlabels : n.tree.children.map (·.label) = cs.map (·.label))

theorem covering_stop (owner : QName) : Covering (Descent.stop owner n).turns tasks cs := by
  intro i c _
  unfold Descent.stop
  rw [List.getElem?_map]
  cases n.tree.children[i]? <;> trivial

include hlabels

theorem covering_children (owner : QName) (hfull : Task.Full tasks cs) :
    Covering (Descent.children owner n).turns tasks cs := by
  intro i c hc
  obtain ⟨c', hc', hlabel⟩ := exists_getElem?_of_labels hlabels.symm hc
  unfold Descent.children
  rw [List.getElem?_map, hc', Option.map_some, Option.getD_some, hlabel]
  split
  · next hnamed => exact Task.reaches_of_isVisit (hfull i c hc hnamed) c
  · trivial

theorem covering_declarators (kind : VariableKind) (owner : QName) (hfull : Task.Full tasks cs)
    (hcs : ∀ c ∈ cs, c.label.named → ScopeRole.ofKind c.kind ≠ .namespaceDeclaration) :
    Covering (Descent.declarators kind owner n).turns tasks cs := by
  intro i c hc
  obtain ⟨c', hc', hlabel⟩ := exists_getElem?_of_labels hlabels.symm hc
  unfold Descent.declarators
  rw [List.getElem?_map, hc', Option.map_some, Option.getD_some, hlabel]
  split
  · next hnamed =>
    exact ⟨Task.reaches_of_isVisit (hfull i c hc hnamed) c,
      hcs c (List.mem_of_getElem? hc) hnamed⟩
  · trivial

/-- The extraction turns to the first child that fills the body. -/
theorem covering_body (owner : QName)
    (hbody : ∀ i c, cs.findIdx? (fun c => c.label.roles.contains "body") = some i →
      cs[i]? = some c → (tasks[i]?.getD .skip).Reaches c) :
    Covering (Descent.body owner n).turns tasks cs := by
  unfold Descent.body
  rw [findIdx?_body hlabels]
  split
  · exact covering_stop owner
  · next b hb =>
    intro i c hc
    obtain ⟨c', hc', -⟩ := exists_getElem?_of_labels hlabels.symm hc
    dsimp only
    rw [List.getElem?_map, List.getElem?_zipIdx, hc', Option.map_some, Option.map_some,
      Option.getD_some, Nat.zero_add]
    split
    · next hi =>
      subst hi
      exact hbody i c hb hc
    · trivial

end Descents

/-- All roles are handled by default. -/
theorem handledRole?_all (kind : String) : handledRole? Extractor.all kind = Role.ofKind? kind := by
  unfold handledRole?
  cases Role.ofKind? kind with
  | none => rfl
  | some r => cases r <;> rfl

theorem ofKind?_of_importStatement {kind : String} (h : ScopeRole.ofKind kind = .importStatement) :
    Role.ofKind? kind = some .import := by
  unfold ScopeRole.ofKind at h
  split at h <;> first | rfl | cases h

theorem ofKind?_of_namespaceDeclaration {kind : String}
    (h : ScopeRole.ofKind kind = .namespaceDeclaration) :
    Role.ofKind? kind = some .namespace := by
  unfold ScopeRole.ofKind at h
  split at h <;> first | rfl | cases h

/-- A visit of a node that the scope analysis has annotated. -/
structure Annotates (resolve : String → QName) (task : Task) (frame : Frame) (t : Syntax.Tree α)
    (taken : Taken) (n : ScopedNode) : Prop where
  label : n.label = t.label
  labels : n.tree.children.map (·.label) = t.children.map (·.label)
  declares : declares? n = (Plan.ofTask resolve task frame t taken).declares
  overloads : overloads? n = (Plan.ofTask resolve task frame t taken).overloads

theorem annotates_annotate (resolve : String → QName) (task : Task) (frame : Frame) (taken : Taken)
    (t : Syntax.Tree α) (above : List (Syntax.Tree Note)) :
    Annotates resolve task frame t taken ⟨(annotate resolve task frame taken t).result, above⟩ := by
  obtain ⟨l, a, cs⟩ := t
  rw [annotate]
  exact ⟨rfl, labels_annotateAll resolve _ _ _ cs, rfl, rfl⟩

/-- Below a node that the analysis has visited, the extraction turns only where the analysis goes
as well. -/
theorem covering_descent {resolve : String → QName} {frame : Frame} {taken : Taken}
    (hv : Annotates resolve task frame t taken v.node) (hparts : HasParts t)
    (hreach : task.Reaches t)
    (hdeclarator : v.declarator.isSome → ScopeRole.ofKind t.kind ≠ .namespaceDeclaration) :
    Covering (v.descent Extractor.all).turns (Plan.ofTask resolve task frame t taken).tasks
      t.children := by
  have hcovers := Plan.covers_ofTask resolve frame taken hparts hreach
  have hkind : v.node.kind = t.kind := congrArg Syntax.Label.kind hv.label
  unfold Visit.descent
  rw [handledRole?_all, hkind]
  split
  · next kind fqn hvariable =>
    obtain ⟨hsome, hdeclares⟩ := Visit.declaredVariable?_eq_some hvariable
    refine covering_children hv.labels _ (hcovers.full ?_ (hdeclarator hsome))
    intro himport
    have hnone := Plan.declares_ofTask_eq_none resolve task frame taken (.inr (.inl himport)) (by
      intro hdecl
      rw [hdecl] at himport
      cases himport)
    rw [← hv.declares, hdeclares] at hnone
    cases hnone
  · cases hrole : Role.ofKind? t.kind with
    | none =>
      refine covering_children hv.labels _ (hcovers.full ?_ ?_)
      · intro himport
        rw [ofKind?_of_importStatement himport] at hrole
        cases hrole
      · intro hspace
        rw [ofKind?_of_namespaceDeclaration hspace] at hrole
        cases hrole
    | some r =>
      have hscope := scopeRole_of_ofKind? hrole
      have hchildren (owner : QName) (h : .importStatement ∉ r.scopeRoles)
          (h' : .namespaceDeclaration ∉ r.scopeRoles) :
          Covering (Descent.children owner v.node).turns
            (Plan.ofTask resolve task frame t taken).tasks t.children :=
        covering_children hv.labels owner
          (hcovers.full (fun himport => h (himport ▸ hscope)) fun hspace => h' (hspace ▸ hscope))
      dsimp only
      cases r with
      | «import» => exact covering_stop _
      | «export» =>
        unfold Role.descent
        dsimp only
        split
        · exact hchildren _ (by decide) (by decide)
        · exact covering_stop _
      | memberAccess =>
        unfold Role.descent
        dsimp only
        split
        · exact covering_stop _
        · exact hchildren _ (by decide) (by decide)
      | variableStatement =>
        have hstatement := List.mem_singleton.mp hscope
        refine covering_declarators hv.labels _ _ (hcovers.full ?_ ?_) fun c hc hnamed => ?_
        · rw [hstatement]; exact nofun
        · rw [hstatement]; exact nofun
        · exact hparts.declarators hstatement c (List.mem_filter.mpr ⟨hc, hnamed⟩)
      | «namespace» =>
        refine covering_body hv.labels _ fun i c hi hc => ?_
        exact Plan.reaches_body resolve frame taken hparts hreach (List.mem_singleton.mp hscope) hi hc
      | identifier | typeIdentifier | nestedType | closingTag => exact covering_stop _
      | function | classDeclaration | member | interface | typeAlias | enum =>
        exact hchildren _ (by decide) (by decide)

/-! ## The two walks -/

/-- A declaration that is visited has been given a name, or it is an overload of a function that
has been; and what has been given a name has one. -/
structure Visit.Covered (v : Visit) : Prop where
  declares : (ScopeRole.ofKind v.node.kind).declares?.isSome → (declares? v.node).isSome ∨
    ScopeRole.ofKind v.node.kind = .functionDeclaration ∧ (overloads? v.node).isSome
  named : (declares? v.node).isSome → (v.node.tree.field? "name").isSome

theorem covered_of_annotates {resolve : String → QName} {frame : Frame} {taken : Taken}
    (hv : Annotates resolve task frame t taken v.node) (hshape : v.node.tree.shape = t.shape)
    (hparts : HasParts t) (hreach : task.Reaches t) : v.Covered := by
  have hcovers := Plan.covers_ofTask resolve frame taken hparts hreach
  have hkind : v.node.kind = t.kind := congrArg Syntax.Label.kind hv.label
  constructor
  · rw [hkind, hv.declares, hv.overloads]
    exact hcovers.declares
  · rw [hv.declares, Syntax.Tree.isSome_field?_congr hshape]
    exact hcovers.named

mutual

theorem covered_visits (resolve : String → QName) {v : Visit} : ∀ (t : Syntax.Tree α) (task : Task)
    (frame : Frame) (taken : Taken) (owner : QName) (declarator : Option VariableKind)
    (above : List (Syntax.Tree Note)), WellFormed t → task.Reaches t →
      (declarator.isSome → ScopeRole.ofKind t.kind ≠ .namespaceDeclaration) →
      v ∈ visits Extractor.all owner declarator above (annotate resolve task frame taken t).result →
      v.Covered
  | .node l a cs, task, frame, taken, owner, declarator, above, hwf, hreach, hdeclarator, hv => by
    have hparts := hwf _ (Syntax.Tree.mem_subtrees_self _)
    have hshape := shape_annotate resolve task frame taken (.node l a cs)
    rw [annotate] at hv hshape
    rw [visits] at hv
    have hnode := annotates_annotate resolve task frame taken (.node l a cs) above
    rw [annotate] at hnode
    rcases List.mem_cons.mp hv with rfl | hv
    · exact covered_of_annotates hnode hshape hparts hreach
    · refine covered_visitsAll resolve cs _ _ _ _ _ _ (fun u hu => ?_)
        (covering_descent hnode hparts hreach hdeclarator) hv
      exact hwf u (List.mem_cons_of_mem _ hu)

theorem covered_visitsAll (resolve : String → QName) {v : Visit} : ∀ (ts : List (Syntax.Tree α))
    (tasks : List Task) (frame : Frame) (taken : Taken) (owner : QName) (turns : List Turn)
    (above : List (Syntax.Tree Note)), (∀ u ∈ Syntax.Tree.subtreesAll ts, HasParts u) →
      Covering turns tasks ts →
      v ∈ visitsAll Extractor.all owner turns above
        (annotateAll resolve tasks frame taken ts).result → v.Covered
  | [], tasks, frame, taken, owner, turns, above, _, _, hv => by
    rw [annotateAll, visitsAll] at hv
    exact absurd hv List.not_mem_nil
  | t :: ts, tasks, frame, taken, owner, turns, above, hwf, hcovering, hv => by
    rw [annotateAll, visitsAll] at hv
    have hfirst := hcovering 0 t rfl
    rw [← List.head?_eq_getElem?, ← List.head?_eq_getElem?] at hfirst
    have hparts : WellFormed t := fun u hu => hwf u (List.mem_append_left _ hu)
    rcases List.mem_append.mp hv with hv | hv
    · split at hv
      · exact absurd hv List.not_mem_nil
      · next hturn =>
        rw [hturn] at hfirst
        exact covered_visits resolve t _ _ _ owner none above hparts hfirst nofun hv
      · next hturn =>
        rw [hturn] at hfirst
        exact covered_visits resolve t _ _ _ _ _ _ hparts hfirst.1 (fun _ => hfirst.2) hv
    · refine covered_visitsAll resolve ts tasks.tail _ _ _ turns.tail _
        (fun u hu => hwf u (List.mem_append_right _ hu)) (fun i c hc => ?_) hv
      have hnext := hcovering (i + 1) c hc
      rw [List.getElem?_tail, List.getElem?_tail]
      exact hnext

end

theorem covered_walk (resolve : String → QName) (module owner : QName) (h : WellFormed t) :
    ∀ v ∈ walk Extractor.all owner (analyse resolve module t), v.Covered := by
  obtain ⟨l, a, cs⟩ := t
  intro v hv
  have hroot := annotates_annotate resolve .body ⟨module, true, false⟩ [] (.node l a cs) []
  unfold walk analyse at hv
  rw [annotate] at hv hroot
  refine covered_visitsAll resolve cs _ _ _ _ _ _ (fun u hu => h u (List.mem_cons_of_mem _ hu)) ?_ hv
  exact covering_children hroot.labels owner (full_container _ (.node l a cs) _)

/-! ## Extraction succeeds -/

/-- Work succeeds if its first part does and the rest does whatever that gives. -/
theorem exists_ok_bind {ε γ : Type} {x : Except ε β} {f : β → Except ε γ} (hx : ∃ b, x = .ok b)
    (hf : ∀ b, ∃ c, f b = .ok c) : ∃ c, (x >>= f) = .ok c := by
  obtain ⟨b, rfl⟩ := hx
  exact hf b

theorem exists_ok_map {ε γ : Type} {x : Except ε β} (f : β → γ) (hx : ∃ b, x = .ok b) :
    ∃ c, x.map f = .ok c := by
  obtain ⟨b, rfl⟩ := hx
  exact ⟨f b, rfl⟩

theorem exists_ok_need {field : String} (h : (n.tree.field? field).isSome) :
    ∃ c, need n field = .ok c := by
  rw [← Syntax.Node.tree_field?, Option.isSome_map] at h
  obtain ⟨c, hc⟩ := Option.isSome_iff_exists.mp h
  refine ⟨c, ?_⟩
  unfold need
  rw [hc]

theorem exists_ok_needName (h : (declares? n).isSome) : ∃ fqn, needName n = .ok fqn := by
  obtain ⟨fqn, hfqn⟩ := Option.isSome_iff_exists.mp h
  exact ⟨fqn, needName_eq_ok.mpr hfqn⟩

theorem exists_ok_importConcepts (o : Origin) (owner : QName) (hwf : WellFormed n.tree)
    (hrole : ScopeRole.ofKind n.kind = .importStatement) :
    ∃ cs, importConcepts o owner n = .ok cs := by
  unfold importConcepts
  dsimp only
  cases hclause : n.namedChildren.find? (·.kind == "import_require_clause") with
  | some clause =>
    refine exists_ok_bind (exists_ok_need ?_) fun source => ⟨_, rfl⟩
    obtain ⟨c, hc, rfl⟩ := List.mem_map.mp (List.mem_of_find?_eq_some hclause)
    have hfound := List.find?_some hclause
    have hkind : c.kind = "import_require_clause" := beq_iff_eq.mp hfound
    have hparts := hwf c (Syntax.Tree.mem_subtrees_of_mem_children (List.mem_filter.mp hc).1)
    refine hparts.fields "source" ?_
    rw [hkind]
    decide
  | none =>
    have hsource : (n.tree.field? "source").isSome := by
      refine ((hwf _ (Syntax.Tree.mem_subtrees_self _)).source hrole).resolve_left fun hany => ?_
      obtain ⟨c, hc, hkind⟩ := List.any_eq_true.mp hany
      exact List.find?_eq_none.mp hclause (n.down c) (List.mem_map_of_mem hc) hkind
    refine exists_ok_bind (exists_ok_need hsource) fun source => ?_
    split <;> exact ⟨_, rfl⟩

theorem exists_ok_roleConcepts (o : Origin) {r : Role} (hcovered : v.Covered)
    (hwf : WellFormed v.node.tree) (hrole : Role.ofKind? v.node.kind = some r) :
    ∃ cs, r.concepts o v.owner v.node = .ok cs := by
  have hscope := scopeRole_of_ofKind? hrole
  have hparts := hwf _ (Syntax.Tree.mem_subtrees_self _)
  have hneed {s : ScopeRole} {field : String} (hs : ScopeRole.ofKind v.node.kind = s)
      (hother : s ≠ .other) (hfield : field ∈ s.requiredFields) : ∃ c, need v.node field = .ok c :=
    exists_ok_need (hparts.field hs hother hfield)
  -- only functions can be overloads
  have hname {s : ScopeRole} (hs : ScopeRole.ofKind v.node.kind = s) (hdeclares : s.declares?.isSome)
      (hfunction : s ≠ .functionDeclaration) : ∃ fqn, needName v.node = .ok fqn := by
    refine exists_ok_needName ((hcovered.declares (hs ▸ hdeclares)).resolve_right fun h => ?_)
    exact hfunction (hs.symm.trans h.1)
  cases r with
  | «import» => exact exists_ok_importConcepts o v.owner hwf (List.mem_singleton.mp hscope)
  | function =>
    have hs := List.mem_singleton.mp hscope
    unfold Role.concepts
    dsimp only
    split
    · exact ⟨_, rfl⟩
    · next hoverload =>
      have hdeclares := (hcovered.declares (by rw [hs]; rfl)).resolve_right
        fun h => hoverload h.2
      exact exists_ok_map _ <| exists_ok_bind (hneed hs nofun (by decide)) fun _ =>
        exists_ok_bind (exists_ok_needName hdeclares) fun _ =>
          exists_ok_bind (hneed hs nofun (by decide)) fun _ => ⟨_, rfl⟩
  | classDeclaration =>
    have hs := List.mem_singleton.mp hscope
    exact exists_ok_map _ <| exists_ok_bind (hneed hs nofun (by decide)) fun _ =>
      exists_ok_bind (hname hs rfl nofun) fun _ =>
        exists_ok_bind (hneed hs nofun (by decide)) fun _ => ⟨_, rfl⟩
  | interface =>
    have hs := List.mem_singleton.mp hscope
    exact exists_ok_map _ <| exists_ok_bind (hneed hs nofun (by decide)) fun _ =>
      exists_ok_bind (hname hs rfl nofun) fun _ => ⟨_, rfl⟩
  | typeAlias =>
    have hs := List.mem_singleton.mp hscope
    exact exists_ok_map _ <| exists_ok_bind (hneed hs nofun (by decide)) fun _ =>
      exists_ok_bind (hname hs rfl nofun) fun _ =>
        exists_ok_bind (hneed hs nofun (by decide)) fun _ => ⟨_, rfl⟩
  | enum =>
    have hs := List.mem_singleton.mp hscope
    exact exists_ok_map _ <| exists_ok_bind (hneed hs nofun (by decide)) fun _ =>
      exists_ok_bind (hname hs rfl nofun) fun _ =>
        exists_ok_bind (hneed hs nofun (by decide)) fun _ => ⟨_, rfl⟩
  | _ => exact ⟨_, rfl⟩

theorem exists_ok_concepts (o : Origin) (hcovered : v.Covered) (hwf : WellFormed v.node.tree) :
    ∃ cs, v.concepts Extractor.all o = .ok cs := by
  unfold Visit.concepts
  split
  · next hvariable =>
    obtain ⟨-, hdeclares⟩ := Visit.declaredVariable?_eq_some hvariable
    have hname := hcovered.named (by rw [hdeclares]; rfl)
    exact exists_ok_map _ (exists_ok_bind (exists_ok_need hname) fun _ => ⟨_, rfl⟩)
  · rw [handledRole?_all]
    split
    · next hrole => exact exists_ok_roleConcepts o hcovered hwf hrole
    · exact ⟨_, rfl⟩

theorem exists_ok_conceptsOf (o : Origin) {vs : List Visit} (hcovered : ∀ v ∈ vs, v.Covered)
    (hwf : ∀ v ∈ vs, WellFormed v.node.tree) : ∃ cs, conceptsOf Extractor.all o vs = .ok cs := by
  induction vs with
  | nil => exact ⟨[], rfl⟩
  | cons v vs ih =>
    obtain ⟨first, hfirst⟩ := exists_ok_concepts o (hcovered v List.mem_cons_self)
      (hwf v List.mem_cons_self)
    obtain ⟨rest, hrest⟩ := ih (fun w hw => hcovered w (List.mem_cons_of_mem _ hw))
      fun w hw => hwf w (List.mem_cons_of_mem _ hw)
    refine ⟨first ++ rest, ?_⟩
    rw [conceptsOf, hfirst]
    dsimp only
    rw [hrest]

/-- The two walks agree: with all extractors, the records of a file that is not too deep and whose
declarations have their parts can be extracted, and every declaration that is visited has been given
a name, or is an overload of a function. -/
theorem fileModel_covers (o : Origin) (resolve : String → QName) (module : QName)
    {t : Syntax.Tree α} (hwf : WellFormed t) (hdepth : t.exceedsDepth depthLimit = false) :
    (∃ m, fileModel Extractor.all o (analyse resolve module t) = .ok m) ∧
      ∀ v ∈ walk Extractor.all o.module (analyse resolve module t),
        (ScopeRole.ofKind v.node.kind).declares?.isSome → (declares? v.node).isSome ∨
          ScopeRole.ofKind v.node.kind = .functionDeclaration ∧ (overloads? v.node).isSome := by
  have hcovered := covered_walk resolve module o.module hwf
  have hanalysed : WellFormed (analyse resolve module t) :=
    (Syntax.Tree.forall_subtrees_of_shape (P := HasParts) (hasParts_mapNotes _)
      (shape_analyse resolve module t)).mpr hwf
  have hdepth' : (analyse resolve module t).exceedsDepth depthLimit = false :=
    (exceedsDepth_analyse resolve module depthLimit t).trans hdepth
  obtain ⟨cs, hcs⟩ := exists_ok_conceptsOf o hcovered fun v hv u hu =>
    hanalysed u (Syntax.Tree.subtrees_subset _ (tree_mem_of_mem_walk hv) hu)
  refine ⟨⟨.ofConcepts (⟨.module, ⟨o.module, o.path⟩⟩ :: cs), ?_⟩,
    fun v hv => (hcovered v hv).declares⟩
  unfold fileModel
  rw [if_neg (by rw [hdepth']; exact Bool.false_ne_true), hcs]

/-- A file with a declaration of every kind, some of them inside a namespace and behind `export`. -/
def declaringTree : Syntax.Tree Unit :=
  sampleNode "program" [] "" [
    sampleNode "import_statement" [] "" [sampleNode "string" ["source"] "'./b'" []],
    sampleNode "export_statement" [] "" [
      sampleNode "function_signature" ["declaration"] "" [
        sampleNode "identifier" ["name"] "f" [],
        sampleNode "formal_parameters" ["parameters"] "()" []]],
    sampleFunction "function_declaration" "f",
    sampleNode "expression_statement" [] "" [
      sampleNode "internal_module" [] "" [
        sampleNode "identifier" ["name"] "N" [],
        sampleNode "statement_block" ["body"] "" [
          sampleNode "class_declaration" [] "" [
            sampleNode "type_identifier" ["name"] "C" [],
            sampleNode "class_body" ["body"] "" [
              sampleNode "method_definition" [] "" [
                sampleNode "property_identifier" ["name"] "m" [],
                sampleNode "formal_parameters" ["parameters"] "()" [],
                sampleNode "statement_block" ["body"] "" [
                  sampleFunction "function_declaration" "f"]]]],
          sampleNode "type_alias_declaration" [] "" [
            sampleNode "type_identifier" ["name"] "T" [],
            sampleNode "predefined_type" ["value"] "string" []],
          sampleNode "enum_declaration" [] "" [
            sampleNode "identifier" ["name"] "E" [],
            sampleNode "enum_body" ["body"] "" []]]]],
    sampleNode "lexical_declaration" [] "" [
      sampleNode "variable_declarator" [] "" [sampleNode "identifier" ["name"] "x" []]]]

theorem fileModel_covers_declaring : WellFormed declaringTree ∧
    declaringTree.exceedsDepth depthLimit = false ∧
    (∃ m, fileModel Extractor.all sampleOrigin (analyse .ofModule (.ofModule "m") declaringTree) =
        .ok m ∧
      [.function, .classDeclaration, .typeAlias, .enum, .variable].map m.identities =
        [[⟨"\"m\".f"⟩, ⟨"\"m\".N.C.m.f"⟩], [⟨"\"m\".N.C"⟩], [⟨"\"m\".N.T"⟩], [⟨"\"m\".N.E"⟩],
          [⟨"\"m\".x"⟩]]) ∧
    ((walk Extractor.all sampleOrigin.module
        (analyse .ofModule (.ofModule "m") declaringTree)).filter fun v =>
          (ScopeRole.ofKind v.node.kind).declares?.isSome).map
        (fun v => (declares? v.node, overloads? v.node)) =
      [(none, some ⟨"\"m\".f"⟩), (some ⟨"\"m\".f"⟩, none), (some ⟨"\"m\".N.C"⟩, none),
        (some ⟨"\"m\".N.C.m.f"⟩, none), (some ⟨"\"m\".N.T"⟩, none), (some ⟨"\"m\".N.E"⟩, none)] ∧
    ∀ v ∈ walk Extractor.all sampleOrigin.module (analyse .ofModule (.ofModule "m") declaringTree),
      (ScopeRole.ofKind v.node.kind).declares?.isSome → (declares? v.node).isSome ∨
        ScopeRole.ofKind v.node.kind = .functionDeclaration ∧ (overloads? v.node).isSome := by
  have hwf : WellFormed declaringTree := by decide +kernel
  have hdepth : declaringTree.exceedsDepth depthLimit = false := by decide
  have hnames : (fileModel Extractor.all sampleOrigin
      (analyse .ofModule (.ofModule "m") declaringTree)).toOption.map (fun m =>
        [.function, .classDeclaration, .typeAlias, .enum, .variable].map m.identities) =
      some [[⟨"\"m\".f"⟩, ⟨"\"m\".N.C.m.f"⟩], [⟨"\"m\".N.C"⟩], [⟨"\"m\".N.T"⟩],
        [⟨"\"m\".N.E"⟩], [⟨"\"m\".x"⟩]] := by decide +kernel
  obtain ⟨⟨m, hm⟩, hvisited⟩ := fileModel_covers sampleOrigin .ofModule (.ofModule "m") hwf hdepth
  rw [hm] at hnames
  exact ⟨hwf, hdepth, ⟨m, hm, Option.some.inj hnames⟩, by decide +kernel, hvisited⟩

end Extract

end CodeConcepts
