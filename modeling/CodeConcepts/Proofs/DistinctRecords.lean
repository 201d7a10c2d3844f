import CodeConcepts.Proofs.DistinctNames
import CodeConcepts.Proofs.RecordNames
import CodeConcepts.Proofs.Shape
import Mathlib.Data.List.Flatten

/-!
# The records of a file have distinct names

The extraction visits a node at most once (`trees_walk`) and makes at most one record for it that
is identified by a name. Its kind is the one under which the scope analysis gave the name away
(`Visit.identities_concepts`), so that no two records of one kind share a name.
-/

namespace CodeConcepts

variable {α : Type}

open scoped List

variable {table : List Extractor} {cs : List Concept} {t : Syntax.Tree α} {o : Origin}
  {module : QName} {r : Role}

/-- The named children of statements that declare variables are declarators or comments. -/
def OnlyDeclarators (t : Syntax.Tree α) : Prop :=
  ∀ u ∈ t.subtrees, ScopeRole.ofKind u.kind = .variableStatement →
    ∀ c ∈ u.namedChildren, c.kind = "variable_declarator" ∨ c.kind = "comment"

instance (t : Syntax.Tree α) : Decidable (OnlyDeclarators t) :=
  inferInstanceAs (Decidable (∀ u ∈ t.subtrees, _ → ∀ c ∈ u.namedChildren, _))

theorem onlyDeclarators_congr {β : Type} {u : Syntax.Tree β} (h : t.shape = u.shape) :
    OnlyDeclarators t ↔ OnlyDeclarators u := by
  refine Syntax.Tree.forall_subtrees_of_shape
    (P := fun s => ScopeRole.ofKind s.kind = .variableStatement →
      ∀ c ∈ s.namedChildren, c.kind = "variable_declarator" ∨ c.kind = "comment") (fun s => ?_) h
  simp only [Syntax.Tree.shape, List.forall_mem_map, Syntax.Tree.kind_mapNotes,
    Syntax.Tree.namedChildren_mapNotes]

/-! ## Notes -/

theorem exists_annotate (resolve : String → QName) {u : Syntax.Tree Note} (t : Syntax.Tree α)
    (task : Task) (frame : Frame) (taken : Taken)
    (hu : u ∈ (annotate resolve task frame taken t).result.subtrees) :
    ∃ (t' : Syntax.Tree α) (task' : Task) (frame' : Frame) (taken' : Taken),
      u = (annotate resolve task' frame' taken' t').result := by
  obtain ⟨t', task', frame', taken', -, hu⟩ := exists_annotate_of_step resolve
    (P := fun _ _ _ => True) (fun _ _ _ _ _ _ _ _ => trivial) t taken hu trivial
  exact ⟨t', task', frame', taken', hu⟩

/-- Every note is made by a plan for a node with the same label. -/
theorem exists_plan_annotate (resolve : String → QName) {u : Syntax.Tree Note} (t : Syntax.Tree α)
    (task : Task) (frame : Frame) (taken : Taken)
    (h : u ∈ (annotate resolve task frame taken t).result.subtrees) :
    ∃ (t' : Syntax.Tree α) (task' : Task) (frame' : Frame) (taken' : Taken) (inner : Scope),
      u.label = t'.label ∧ u.note = (Plan.ofTask resolve task' frame' t' taken').note inner := by
  obtain ⟨⟨l, a, cs⟩, task', frame', taken', rfl⟩ := exists_annotate resolve t task frame taken h
  rw [annotate]
  exact ⟨.node l a cs, task', frame', taken', _, rfl, rfl⟩

/-- The forms that the tasks for the children of a visited node have. -/
theorem Plan.tasks_ofNode {P : List Task → Prop} (resolve : String → QName) (frame : Frame)
    (assigned : Option Assignment) (t : Syntax.Tree α) (taken : Taken)
    (hnamed : P (Scope.visitNamed t)) (hwrapped : P (Scope.visitWrapped t none))
    (hassigned : P (Scope.visitWrapped t assigned))
    (hblock : ScopeRole.ofKind t.kind = .block → P (container (.inside frame.owner) t taken).tasks)
    (hspace : ScopeRole.ofKind t.kind = .namespaceDeclaration → P (Scope.visitBody t))
    (hstatement : ScopeRole.ofKind t.kind = .variableStatement → P (Scope.visitDeclarators t))
    (himport : ScopeRole.ofKind t.kind = .importStatement → P (Scope.skipAll t)) :
    P (ofNode resolve frame assigned t taken).tasks := by
  have htyped (k : Kind) (enter : String → Meaning → Scope) (namedMembers : Bool) :
      P (typed k enter namedMembers frame t taken).tasks := by
    unfold typed
    split
    · exact hwrapped
    · exact hnamed
  unfold ofNode
  cases hrole : ScopeRole.ofKind t.kind with
  | functionDeclaration =>
    dsimp only
    unfold functionDeclaration
    split
    · exact hnamed
    · exact hnamed
    · split <;> exact hnamed
  | classDeclaration | interfaceDeclaration | typeAliasDeclaration => exact htyped _ _ _
  | enumDeclaration =>
    dsimp only
    unfold enumDeclaration
    split
    · exact hwrapped
    · exact hnamed
  | namespaceDeclaration =>
    dsimp only
    unfold namespaceDeclaration
    split
    · exact hwrapped
    · exact hspace hrole
  | variableStatement => exact hstatement hrole
  | importStatement => exact himport hrole
  | block => exact hblock hrole
  | other => exact hassigned
  | anonymousFunction | memberFunction | classExpression | property | catchClause | forLoop =>
    exact hnamed

/-- Import statements, variable statements and nodes without a part in the analysis declare
nothing, declarators apart. -/
theorem Plan.declares_ofTask_eq_none (resolve : String → QName) (task : Task) (frame : Frame)
    (taken : Taken)
    (hrole : ScopeRole.ofKind t.kind = .other ∨ ScopeRole.ofKind t.kind = .importStatement ∨
      ScopeRole.ofKind t.kind = .variableStatement) (hkind : t.kind ≠ "variable_declarator") :
    (ofTask resolve task frame t taken).declares = none := by
  have hvisit (assigned : Option Assignment) :
      (ofNode resolve frame assigned t taken).declares = none := by
    unfold ofNode
    rcases hrole with hrole | hrole | hrole <;> rw [hrole] <;> rfl
  cases task with
  | skip => rfl
  | visit assigned => exact hvisit assigned
  | declarator =>
    unfold ofTask
    dsimp only
    rw [if_neg hkind]
    exact hvisit none
  | body => rfl

theorem declares_of_comment {resolve : String → QName} {u : Syntax.Tree Note}
    (hu : u ∈ (analyse resolve module t).subtrees) (hkind : u.kind = "comment") :
    u.note.declares = none := by
  obtain ⟨t', task, frame, taken, inner, hlabel, hnote⟩ := exists_plan_annotate resolve t _ _ _ hu
  have hcomment : t'.kind = "comment" := (congrArg Syntax.Label.kind hlabel).symm.trans hkind
  rw [hnote]
  exact Plan.declares_ofTask_eq_none resolve task frame taken (.inl (by rw [hcomment]; rfl))
    (by rw [hcomment]; decide)

namespace Extract

open ScopedNode (declares? overloads?)

/-! ## Concepts of a node -/

/-- Extraction and scope analysis agree on the kind of what nodes declare. -/
theorem declaredBy?_of_ofKind? {kind : String} (h : Role.ofKind? kind = some r) :
    Kind.declaredBy? kind = r.declares? := by
  unfold Role.ofKind? at h
  split at h <;> cases h <;> rfl

/-- The parts that nodes in a role play in the scope analysis. -/
def Role.scopeRoles : Role → List ScopeRole
  | .import => [.importStatement]
  | .function => [.functionDeclaration]
  | .classDeclaration => [.classDeclaration]
  | .member => [.memberFunction, .property]
  | .interface => [.interfaceDeclaration]
  | .typeAlias => [.typeAliasDeclaration]
  | .enum => [.enumDeclaration]
  | .variableStatement => [.variableStatement]
  | .namespace => [.namespaceDeclaration]
  | _ => [.other]

theorem scopeRole_of_ofKind? {kind : String} (h : Role.ofKind? kind = some r) :
    ScopeRole.ofKind kind ∈ r.scopeRoles := by
  unfold Role.ofKind? at h
  split at h <;> cases h <;> decide

/-- The kind and name that identify a concept. -/
def identity? (c : Concept) : Option (Kind × QName) := (c.kind.fqn? c.record).map (c.kind, ·)

/-- What a node declares. -/
def declared? (t : Syntax.Tree Note) : Option (Kind × QName) :=
  declaration? t.kind t.note.declares

/-- A single record under the name noted on its node, of the kind such nodes declare. -/
theorem identities_of_faithful {n : ScopedNode} {k : Kind} {d : k.Record}
    (hkind : Kind.declaredBy? n.kind = some k) (h : Faithful n ⟨k, d⟩) :
    [⟨k, d⟩].filterMap identity? <+ (declared? n.tree).toList := by
  cases hname : k.fqn? d with
  | none =>
    have hnone : identity? ⟨k, d⟩ = none := by rw [identity?, hname]; rfl
    rw [List.filterMap_cons_none hnone]
    exact List.nil_sublist _
  | some x =>
    have hsome : identity? ⟨k, d⟩ = some (k, x) := by rw [identity?, hname]; rfl
    have hdeclared : declared? n.tree = some (k, x) := by
      have hnoted : n.tree.note.declares = some x := h.2 x hname
      rw [declared?, hnoted]
      exact Plan.declaration?_some hkind x
    rw [List.filterMap_cons_some hsome, hdeclared]
    exact List.Sublist.refl _

theorem identities_roleConcepts {owner : QName} {n : ScopedNode} (h : r.concepts o owner n = .ok cs)
    (hrole : Role.ofKind? n.kind = some r) :
    cs.filterMap identity? <+ (declared? n.tree).toList := by
  have hkind := declaredBy?_of_ofKind? hrole
  -- what is no declaration has no name
  have hanonymous (hr : r.declares? = none) :
      cs.filterMap identity? <+ (declared? n.tree).toList := by
    suffices hnone : cs.filterMap identity? = [] from hnone ▸ List.nil_sublist _
    refine List.filterMap_eq_nil_iff.mpr fun c hc => ?_
    cases Role.makes h hc with
    | edge _ href =>
      obtain ⟨e, rfl, -⟩ := href
      rfl
    | «import» d | «export» _ => rfl
    | declaration hsome _ => cases hr.symm.trans hsome
  cases Role.yields h with
  | «import» | «export» => exact hanonymous rfl
  | declaration hr hmade => exact identities_of_faithful (hkind.trans hr) hmade.faithful
  | overload => exact List.nil_sublist _
  | reference _ _ hr => exact hanonymous hr
  | nothing => exact List.nil_sublist _

/-- A visited node that is taken for a declarator of variables is one, if it declares anything. -/
def Visit.Proper (v : Visit) : Prop :=
  v.declarator.isSome → v.node.kind = "variable_declarator" ∨ declares? v.node = none

theorem Visit.identities_concepts {v : Visit} (hv : v.Proper) (h : v.concepts table o = .ok cs) :
    cs.filterMap identity? <+ (declared? v.node.tree).toList := by
  have hmade := v.made_concepts h
  unfold Visit.concepts at h
  split at h
  · next kind fqn hvariable =>
    obtain ⟨d, -, rfl⟩ := map_eq_ok.mp h
    refine identities_of_faithful ?_ (hmade _ List.mem_cons_self).faithful
    obtain ⟨hdeclarator, hdeclares⟩ := Visit.declaredVariable?_eq_some hvariable
    rcases hv hdeclarator with hkind | hnothing
    · rw [hkind]
      rfl
    · rw [hnothing] at hdeclares
      cases hdeclares
  · split at h
    · next r hhandled =>
      unfold handledRole? at hhandled
      exact identities_roleConcepts h (Option.filter_eq_some_iff.mp hhandled).1
    · cases h
      exact List.nil_sublist _

theorem identities_conceptsOf {vs : List Visit} (hvs : ∀ v ∈ vs, v.Proper)
    (h : conceptsOf table o vs = .ok cs) :
    cs.filterMap identity? <+ (vs.map (·.node.tree)).filterMap declared? := by
  obtain ⟨made, hmade, rfl⟩ := conceptsOf_eq_ok h
  clear h
  induction vs with
  | nil => exact List.nil_sublist _
  | cons v vs ih =>
    obtain ⟨hv, hvs⟩ := List.forall_mem_cons.mp hvs
    obtain ⟨hfirst, hmade⟩ := List.forall_mem_cons.mp hmade
    have hboth := (v.identities_concepts hv hfirst).append (ih hvs hmade)
    rw [List.flatMap_cons, List.filterMap_append, List.map_cons, List.filterMap_cons]
    cases hdeclared : declared? v.node.tree <;> rw [hdeclared] at hboth <;> exact hboth

/-! ## Declarators are visited as such -/

/-- No child is visited as a declarator. -/
def Descent.Plain (d : Descent) : Prop := ∀ kind, .declarator kind ∉ d.turns

theorem Descent.plain_children (owner : QName) (n : ScopedNode) : (children owner n).Plain := by
  intro kind h
  obtain ⟨c, -, hc⟩ := List.mem_map.mp h
  split at hc <;> cases hc

theorem Descent.plain_stop (owner : QName) (n : ScopedNode) : (stop owner n).Plain := by
  intro kind h
  obtain ⟨c, -, hc⟩ := List.mem_map.mp h
  cases hc

theorem Descent.plain_body (owner : QName) (n : ScopedNode) : (body owner n).Plain := by
  unfold body
  split
  · exact plain_stop owner n
  · intro kind h
    obtain ⟨p, -, hp⟩ := List.mem_map.mp h
    dsimp only at hp
    split at hp <;> cases hp

theorem Role.plain_descent (h : r ≠ .variableStatement) (owner : QName) (n : ScopedNode) :
    (r.descent owner n).Plain := by
  cases r with
  | variableStatement => exact absurd rfl h
  | «export» =>
    unfold Role.descent
    dsimp only
    split
    · exact Descent.plain_children owner n
    · exact Descent.plain_stop owner n
  | memberAccess =>
    unfold Role.descent
    dsimp only
    split
    · exact Descent.plain_stop owner n
    · exact Descent.plain_children owner n
  | «import» | identifier | typeIdentifier | nestedType | closingTag =>
    exact Descent.plain_stop owner n
  | «namespace» => exact Descent.plain_body owner n
  | function | classDeclaration | member | interface | typeAlias | enum =>
    exact Descent.plain_children _ n

/-- Only named children of a statement that declares variables are visited as declarators. -/
theorem Visit.declarator_mem_descent {v : Visit} {kind : VariableKind} {c : Syntax.Tree Note}
    (h : (.declarator kind, c) ∈ (v.descent table).turns.zip v.node.tree.children) :
    ScopeRole.ofKind v.node.kind = .variableStatement ∧ c ∈ v.node.tree.namedChildren := by
  have hplain {d : Descent} (hd : d.Plain) (h : (.declarator kind, c) ∈
      d.turns.zip v.node.tree.children) : False := hd kind (List.of_mem_zip h).1
  unfold Visit.descent at h
  split at h
  · exact (hplain (Descent.plain_children _ v.node) h).elim
  · split at h
    · next r hhandled =>
      by_cases hr : r = .variableStatement
      · subst hr
        have hrole := scopeRole_of_ofKind? (Option.filter_eq_some_iff.mp hhandled).1
        refine ⟨List.mem_singleton.mp hrole, ?_⟩
        rw [Role.descent, Descent.declarators, ← List.map_prod_right_eq_zip] at h
        obtain ⟨c', hc', hpair⟩ := List.mem_map.mp h
        obtain ⟨hturn, rfl⟩ := Prod.mk.inj hpair
        refine List.mem_filter.mpr ⟨hc', ?_⟩
        by_contra hnamed
        rw [if_neg hnamed] at hturn
        cases hturn
      · exact (hplain (Role.plain_descent hr v.owner v.node) h).elim
    · exact (hplain (Descent.plain_children _ v.node) h).elim

/-- The named children of statements that declare variables are declarators, or declare nothing. -/
def ProperDeclarators (t : Syntax.Tree Note) : Prop :=
  ScopeRole.ofKind t.kind = .variableStatement →
    ∀ c ∈ t.namedChildren, c.kind = "variable_declarator" ∨ c.note.declares = none

theorem Descent.proper_of_mem_visits {d : Descent} {n : ScopedNode} {v : Visit}
    (hv : v ∈ d.visits n)
    (h : ∀ c kind, (.declarator kind, c) ∈ d.turns.zip n.tree.children →
      c.kind = "variable_declarator" ∨ c.note.declares = none) : v.Proper := by
  intro hsome
  obtain ⟨kind, hkind⟩ := Option.isSome_iff_exists.mp hsome
  obtain ⟨turn, c, hc, -, hnode, rfl⟩ := Descent.mem_visits hv
  rw [Visit.turn, hkind] at hc
  rw [hnode]
  exact h c kind hc

theorem proper_walk {t : Syntax.Tree Note} (h : ∀ u ∈ t.subtrees, ProperDeclarators u) :
    ∀ v ∈ walk table module t, v.Proper := by
  refine forall_walk (fun v hv => ?_) fun w hw _ v hv => ?_
  · refine Descent.proper_of_mem_visits hv fun c kind hc => ?_
    exact absurd (List.of_mem_zip hc).1 (Descent.plain_children module (.root t) kind)
  · refine Descent.proper_of_mem_visits hv fun c kind hc => ?_
    obtain ⟨hrole, hnamed⟩ := Visit.declarator_mem_descent hc
    exact h _ (tree_mem_of_mem_walk hw) hrole c hnamed

/-! ## The model of a file -/

theorem identities_ofConcepts (cs : List Concept) (k : Kind) :
    (Model.ofConcepts cs).identities k =
      (cs.filterMap identity?).filterMap fun x => if x.1 = k then some x.2 else none := by
  unfold Model.identities Model.ofConcepts
  rw [Model.get_ofFn, List.filterMap_filterMap, List.filterMap_filterMap]
  congr 1
  funext ⟨l, r⟩
  unfold Concept.as? identity?
  by_cases hl : l = k
  · subst hl
    cases hname : l.fqn? r <;> simp [hname]
  · cases hname : l.fqn? r <;> simp [hl]

/-- No declaration is a module. -/
theorem ne_module_of_mem_declarations {t : Syntax.Tree Note} {x : Kind × QName}
    (h : x ∈ declarations t) : x.1 ≠ .module := by
  obtain ⟨u, -, hu⟩ := List.mem_filterMap.mp h
  obtain ⟨k, hk, hu⟩ := Option.bind_eq_some_iff.mp hu
  obtain ⟨n, -, hu⟩ := Option.bind_eq_some_iff.mp hu
  cases hu
  intro hmodule
  rw [show k = .module from hmodule] at hk
  unfold Kind.declaredBy? at hk
  split at hk
  · cases hk
  · unfold ScopeRole.declares? at hk
    split at hk <;> cases hk

/-- The identified records of a file are the declarations of its tree, each at most once. -/
theorem identities_conceptsOf_walk {resolve : String → QName} (ht : OnlyDeclarators t)
    (h : conceptsOf table o (walk table o.module (analyse resolve module t)) = .ok cs) :
    cs.filterMap identity? <+ declarations (analyse resolve module t) := by
  have honly := (onlyDeclarators_congr (shape_analyse resolve module t)).mpr ht
  have hproper : ∀ u ∈ (analyse resolve module t).subtrees, ProperDeclarators u := by
    intro u hu hrole c hc
    have hmem : c ∈ (analyse resolve module t).subtrees := Syntax.Tree.subtrees_subset _ hu
      (Syntax.Tree.mem_subtrees_of_mem_children (List.mem_filter.mp hc).1)
    rcases honly u hu hrole c hc with hkind | hkind
    · exact .inl hkind
    · exact .inr (declares_of_comment hmem hkind)
  exact (identities_conceptsOf (proper_walk hproper) h).trans
    ((trees_walk o.module _).filterMap _)

/-- A file never collides with itself: its model has one module, and no two of its records that are
identified by their name share it with another one of their kind. -/
theorem fileModel_distinct {table : List Extractor} {o : Origin} {resolve : String → QName}
    {module : QName} {t : Syntax.Tree α} {m : Model} (ht : OnlyDeclarators t)
    (h : fileModel table o (analyse resolve module t) = .ok m) :
    m.modules = [⟨o.module, o.path⟩] ∧ ∀ k, k.isIdentified = true → (m.identities k).Nodup := by
  obtain ⟨cs, hcs, rfl⟩ := fileModel_eq_ok h
  have hsublist := identities_conceptsOf_walk ht hcs
  have hdeclared : ∀ x ∈ cs.filterMap identity?, x.1 ≠ .module :=
    fun x hx => ne_module_of_mem_declarations (hsublist.subset hx)
  constructor
  · have hnone : cs.filterMap (·.as? .module) = [] := by
      refine List.filterMap_eq_nil_iff.mpr fun c hc => ?_
      obtain ⟨k, r⟩ := c
      unfold Concept.as?
      by_cases hk : k = .module
      · subst hk
        exact absurd rfl (hdeclared (.module, r.fqn) (List.mem_filterMap.mpr ⟨_, hc, rfl⟩))
      · rw [dif_neg hk]
    exact congrArg (List.cons _) hnone
  · intro k _
    rw [identities_ofConcepts]
    have hnodup : ((⟨.module, ⟨o.module, o.path⟩⟩ :: cs : List Concept).filterMap identity?).Nodup :=
      List.nodup_cons.mpr ⟨fun hmem => hdeclared _ hmem rfl,
        (nodup_declarations_analyse resolve module t).sublist hsublist⟩
    refine hnodup.filterMap fun a b x ha hb => ?_
    simp only [Option.mem_def, Option.ite_none_right_eq_some, Option.some.injEq] at ha hb
    exact Prod.ext (ha.1.trans hb.1.symm) (ha.2.trans hb.2.symm)

/-- What is read off a result shows that there is one. -/
theorem exists_ok_of_map {ε σ τ : Type} {x : Except ε σ} {f : σ → τ} {b : τ}
    (h : x.toOption.map f = some b) : ∃ a, x = .ok a ∧ f a = b := by
  cases x with
  | error e => cases h
  | ok a => exact ⟨a, rfl, Option.some.inj h⟩

/-! ### A file full of clashes -/

/-- A construct written down by hand, with a note. -/
def notedNode (note : α) (kind : String) (roles : List String) (text : String)
    (children : List (Syntax.Tree α)) : Syntax.Tree α :=
  .node ⟨0, kind, true, false, roles, text, ⟨0, 0⟩, ⟨0, 0⟩, []⟩ note children

/-- A construct written down by hand. -/
def sampleNode (kind : String) (roles : List String) (text : String)
    (children : List (Syntax.Tree Unit)) : Syntax.Tree Unit := notedNode () kind roles text children

/-- A function without parameters. -/
def sampleFunction (kind name : String) : Syntax.Tree Unit :=
  sampleNode kind [] "" [sampleNode "identifier" ["name"] name [],
    sampleNode "formal_parameters" ["parameters"] "()" []]

/-- Two sibling blocks that declare `f`, a function called `f$1`, an overloaded function `g`, an
interface that is declared twice, and a comment between two variables. -/
def clashingTree : Syntax.Tree Unit :=
  sampleNode "program" [] "" [
    sampleNode "statement_block" [] "" [sampleFunction "function_declaration" "f"],
    sampleNode "statement_block" [] "" [sampleFunction "function_declaration" "f"],
    sampleFunction "function_declaration" "f$1",
    sampleFunction "function_signature" "g",
    sampleFunction "function_signature" "g",
    sampleFunction "function_declaration" "g",
    sampleNode "interface_declaration" [] "" [sampleNode "type_identifier" ["name"] "I" []],
    sampleNode "interface_declaration" [] "" [sampleNode "type_identifier" ["name"] "I" []],
    sampleNode "lexical_declaration" [] "" [
      sampleNode "variable_declarator" [] "" [sampleNode "identifier" ["name"] "f" []],
      sampleNode "comment" [] "// f" [],
      sampleNode "variable_declarator" [] "" [sampleNode "identifier" ["name"] "f" []]]]

/-- The file these clashes stand in. -/
def sampleOrigin : Origin := ⟨.ofModule "/p/a.ts", "./a.ts", .ofModule⟩

/-- The model of the sample file. -/
def clashingModel : Except Fault Model :=
  fileModel Extractor.all sampleOrigin (analyse sampleOrigin.resolve sampleOrigin.module clashingTree)

theorem fileModel_distinct_clashing : OnlyDeclarators clashingTree ∧ ∃ m, clashingModel = .ok m ∧
    m.identities .function = [⟨"\"/p/a.ts\".f"⟩, ⟨"\"/p/a.ts\".f$2"⟩, ⟨"\"/p/a.ts\".f$1"⟩,
      ⟨"\"/p/a.ts\".g"⟩] ∧
    m.identities .interface = [⟨"\"/p/a.ts\".I"⟩, ⟨"\"/p/a.ts\".I$1"⟩] ∧
    m.identities .variable = [⟨"\"/p/a.ts\".f"⟩, ⟨"\"/p/a.ts\".f$1"⟩] ∧
    m.modules = [⟨sampleOrigin.module, sampleOrigin.path⟩] ∧
    ∀ k, k.isIdentified = true → (m.identities k).Nodup := by
  have hdeclarators : OnlyDeclarators clashingTree := by decide
  have hmodel : clashingModel.toOption.map (fun m =>
      [m.identities .function, m.identities .interface, m.identities .variable]) =
      some [[⟨"\"/p/a.ts\".f"⟩, ⟨"\"/p/a.ts\".f$2"⟩, ⟨"\"/p/a.ts\".f$1"⟩, ⟨"\"/p/a.ts\".g"⟩],
        [⟨"\"/p/a.ts\".I"⟩, ⟨"\"/p/a.ts\".I$1"⟩], [⟨"\"/p/a.ts\".f"⟩, ⟨"\"/p/a.ts\".f$1"⟩]] := by
    decide +kernel
  obtain ⟨m, hm, hnames⟩ := exists_ok_of_map hmodel
  simp only [List.cons.injEq] at hnames
  exact ⟨hdeclarators, m, hm, hnames.1, hnames.2.1, hnames.2.2.1,
    fileModel_distinct hdeclarators hm⟩

end Extract

end CodeConcepts
