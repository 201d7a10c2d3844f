import CodeConcepts.Proofs.DependencySources
import CodeConcepts.Proofs.ReferenceTargets

/-!
# References belong to the innermost declaration

The walk carries the declaration that references belong to on its way down. Going up from a node
instead, this is the nearest of the nodes the walk came to that is a declaration, and the module if
there is none (`Attributed`).

A step of the walk either stays with the owner or passes on the name of the visited node, according
to whether that node is a declaration (`Visit.attributed_descent`), and by induction on steps so
does the whole walk (`attributed_walk`).
-/

namespace CodeConcepts

open scoped List

variable {α : Type} {t : Syntax.Tree Note} {v w : Visit} {k : Kind} {o : Origin} {cs : List Concept}
  {vs : List Visit} {module owner : QName} {x : Except Fault k.Record}

namespace Syntax.Node

/-- The nodes that a list of trees stands for, of which each lies in the next. -/
def ofAbove : List (Tree α) → List (Node α)
  | [] => []
  | t :: above => ⟨t, above⟩ :: ofAbove above

/-- A node and the nodes around it, the nearest first. -/
def upward (n : Node α) : List (Node α) := n :: ofAbove n.above

theorem ofAbove_down (n : Node α) (c : Tree α) : ofAbove (n.down c).above = n.upward := rfl

end Syntax.Node

namespace Extract

open ScopedNode (declares? overloads?)

/-! ## Declarations around a node -/

/-- The roles of declarations that own the references inside them. -/
def owningRoles : List Role := [.function, .classDeclaration, .interface, .typeAlias, .enum]

theorem mem_owningRoles {r : Role} : r ∈ owningRoles ↔ r.declares?.isSome := by
  cases r <;> decide

/-- The walk came to a node. -/
def Entered (vs : List Visit) (n : ScopedNode) : Prop := ∃ v ∈ vs, v.node = n

/-- The ways in which a node is a declaration: by its role, as a member that has a name, or as a
declarator that has a name, which stands in a variable statement that the walk came to. -/
inductive IsDeclaration (vs : List Visit) (n : ScopedNode) : Prop
  | role (r : Role) : Role.ofKind? n.kind = some r → r ∈ owningRoles → IsDeclaration vs n
  | member : Role.ofKind? n.kind = some .member → (declares? n).isSome → IsDeclaration vs n
  | declarator (p : ScopedNode) : n.parent? = some p → Entered vs p →
      Role.ofKind? p.kind = some .variableStatement → (declares? n).isSome → IsDeclaration vs n

/-- The name of a declaration; an overload goes by the name of its implementation. -/
def ownName? (n : ScopedNode) : Option QName := (overloads? n).or (declares? n)

/-- Among nodes of which each lies in the next, the first declaration that the walk came to is known
by a name; if there is none, the name is that of the module. -/
inductive Attributed (vs : List Visit) (module : QName) : List ScopedNode → QName → Prop
  | outermost : Attributed vs module [] module
  | here {n : ScopedNode} {around : List ScopedNode} {f : QName} : Entered vs n →
      IsDeclaration vs n → ownName? n = some f → Attributed vs module (n :: around) f
  | outward {n : ScopedNode} {around : List ScopedNode} {f : QName} :
      ¬ (Entered vs n ∧ IsDeclaration vs n) → Attributed vs module around f →
      Attributed vs module (n :: around) f

/-- Variable statements have no name of their own. -/
theorem declares_of_variableStatement {resolve : String → QName} {t : Syntax.Tree α}
    {u : Syntax.Tree Note} (hu : u ∈ (analyse resolve module t).subtrees)
    (hrole : Role.ofKind? u.kind = some .variableStatement) : u.note.declares = none := by
  obtain ⟨t', task, frame, taken, inner, hlabel, hnote⟩ := exists_plan_annotate resolve t _ _ _ hu
  have hkind : u.kind = t'.kind := congrArg Syntax.Label.kind hlabel
  have hscope : ScopeRole.ofKind t'.kind = .variableStatement := by
    have := scopeRole_of_ofKind? hrole
    rw [hkind] at this
    exact List.mem_singleton.mp this
  have hne : t'.kind ≠ "variable_declarator" := by
    intro h
    rw [h] at hscope
    cases hscope
  rw [hnote]
  exact Plan.declares_ofTask_eq_none resolve task frame taken (.inr (.inr hscope)) hne

section Declarators

variable {v w : Visit}

theorem Visit.declaredVariable?_of_plain (h : v.declarator = none) :
    v.declaredVariable? = none := by
  unfold Visit.declaredVariable?
  rw [h]

theorem Visit.declaredVariable?_of_unnamed (h : declares? v.node = none) :
    v.declaredVariable? = none := by
  unfold Visit.declaredVariable?
  rw [h]
  cases v.declarator <;> rfl

/-- A node that is visited as a declarator stands in a variable statement. -/
theorem Visit.role_of_next (h : v ∈ w.next Extractor.all) (hsome : v.declarator.isSome) :
    Role.ofKind? w.node.kind = some .variableStatement := by
  obtain ⟨turn, c, hmem, -, -, hturn⟩ := Descent.mem_visits h
  obtain ⟨keyword, hkeyword⟩ := Option.isSome_iff_exists.mp hsome
  unfold Visit.turn at hturn
  rw [hkeyword] at hturn
  subst hturn
  exact ofKind?_of_variableStatement (Visit.declarator_mem_descent hmem).1

/-- What a variable statement leads to is visited as a declarator, if the statement itself has no
name. -/
theorem Visit.isSome_declarator_of_next (h : v ∈ w.next Extractor.all)
    (hrole : Role.ofKind? w.node.kind = some .variableStatement)
    (hnone : declares? w.node = none) : v.declarator.isSome := by
  obtain ⟨turn, c, hmem, -, -, hturn⟩ := Descent.mem_visits h
  unfold Visit.descent at hmem
  rw [w.declaredVariable?_of_unnamed hnone, handledRole?_all, hrole] at hmem
  obtain ⟨c', -, hc'⟩ := List.mem_map.mp (List.of_mem_zip hmem).1
  cases hdeclarator : v.declarator with
  | some keyword => rfl
  | none =>
    unfold Visit.turn at hturn
    rw [hdeclarator] at hturn
    subst hturn
    split at hc' <;> cases hc'

/-- The walk does not come to the root. -/
theorem above_ne_nil {table : List Extractor} : ∀ v ∈ walk table owner t, v.node.above ≠ [] := by
  refine forall_walk (fun v hv => ?_) fun w _ _ v hv => ?_
  · obtain ⟨_, c, -, -, hnode, -⟩ := Descent.mem_visits hv
    rw [hnode]
    exact List.cons_ne_nil _ _
  · obtain ⟨_, c, -, -, hnode, -⟩ := Descent.mem_visits hv
    rw [hnode]
    exact List.cons_ne_nil _ _

theorem not_entered_root {table : List Extractor} : ¬ Entered (walk table owner t) (.root t) := by
  rintro ⟨v, hv, hroot⟩
  refine above_ne_nil v hv ?_
  rw [hroot]
  rfl

/-- A node is visited as a declarator just when it stands in a variable statement that the walk came
to. -/
def Visit.Settled (vs : List Visit) (v : Visit) : Prop :=
  v.declarator.isSome ↔ ∃ p, v.node.parent? = some p ∧ Entered vs p ∧
    Role.ofKind? p.kind = some .variableStatement

theorem settled_walk {resolve : String → QName} {t : Syntax.Tree α} :
    ∀ v ∈ walk Extractor.all owner (analyse resolve module t),
      v.Settled (walk Extractor.all owner (analyse resolve module t)) := by
  refine forall_walk (fun v hv => ?_) fun w hw _ v hv => ?_
  · obtain ⟨turn, c, hmem, -, hnode, hturn⟩ := Descent.mem_visits hv
    constructor
    · intro hsome
      obtain ⟨keyword, hkeyword⟩ := Option.isSome_iff_exists.mp hsome
      unfold Visit.turn at hturn
      rw [hkeyword] at hturn
      subst hturn
      exact absurd (List.of_mem_zip hmem).1 (Descent.plain_children _ _ keyword)
    · rintro ⟨p, hp, hentered, -⟩
      rw [hnode] at hp
      cases hp
      exact absurd hentered not_entered_root
  · obtain ⟨_, c, -, -, hnode, -⟩ := Descent.mem_visits hv
    constructor
    · intro hsome
      refine ⟨w.node, ?_, ⟨w, hw, rfl⟩, Visit.role_of_next hv hsome⟩
      rw [hnode]
      rfl
    · rintro ⟨p, hp, -, hrole⟩
      rw [hnode] at hp
      cases hp
      exact Visit.isSome_declarator_of_next hv hrole
        (declares_of_variableStatement (tree_mem_of_mem_walk hw) hrole)

/-- A named declarator is a declaration. -/
theorem Visit.Settled.isDeclaration (h : v.Settled vs) {keyword : VariableKind} {f : QName}
    (hvariable : v.declaredVariable? = some (keyword, f)) : IsDeclaration vs v.node := by
  obtain ⟨hsome, hdeclares⟩ := Visit.declaredVariable?_eq_some hvariable
  obtain ⟨p, hparent, hentered, hrole⟩ := h.mp hsome
  exact .declarator p hparent hentered hrole (by rw [hdeclares]; rfl)

/-- A node that is a declaration only as a declarator has been taken for one. -/
theorem Visit.Settled.declaredVariable?_ne_none (h : v.Settled vs) {p : ScopedNode}
    (hparent : v.node.parent? = some p) (hentered : Entered vs p)
    (hrole : Role.ofKind? p.kind = some .variableStatement) (hname : (declares? v.node).isSome) :
    v.declaredVariable? ≠ none := by
  obtain ⟨keyword, hkeyword⟩ := Option.isSome_iff_exists.mp (h.mpr ⟨p, hparent, hentered, hrole⟩)
  obtain ⟨f, hf⟩ := Option.isSome_iff_exists.mp hname
  unfold Visit.declaredVariable?
  rw [hkeyword, hf]
  exact Option.some_ne_none _

/-- Below a node that is no declaration the owner stays. -/
theorem Visit.owner_descent_of_not (hsettled : v.Settled vs) (h : ¬ IsDeclaration vs v.node) :
    (v.descent Extractor.all).owner = v.owner := by
  cases hvariable : v.declaredVariable? with
  | some found => exact absurd (hsettled.isDeclaration hvariable) h
  | none =>
    unfold Visit.descent
    rw [hvariable, handledRole?_all]
    cases hrole : Role.ofKind? v.node.kind with
    | none => rfl
    | some r =>
      have howning (hr : r.declares?.isSome) : False := h (.role r hrole (mem_owningRoles.mpr hr))
      dsimp only
      rw [Role.owner_descent]
      split_ifs with hfunction hnames
      · subst hfunction
        exact (howning rfl).elim
      · obtain rfl : r = .member := hnames.resolve_right howning
        cases hname : declares? v.node with
        | none => rfl
        | some f => exact absurd (.member hrole (by rw [hname]; rfl)) h
      · rfl

end Declarators

section File

variable {o : Origin} {resolve : String → QName} {module : QName} {t : Syntax.Tree α} {m : Model}
  (hmodel : fileModel Extractor.all o (analyse resolve module t) = .ok m)

include hmodel

/-- Where extraction succeeds, declarations have names. -/
theorem isSome_declares? (hv : v ∈ walk Extractor.all o.module (analyse resolve module t))
    (hvariable : v.declaredVariable? = none) {r : Role} (hrole : Role.ofKind? v.node.kind = some r)
    (hr : r ∈ owningRoles) :
    (declares? v.node).isSome ∨ r = .function ∧ (overloads? v.node).isSome := by
  obtain ⟨cs, hcs, -⟩ := fileModel_eq_ok hmodel
  obtain ⟨made, hmade, -⟩ := concepts_of_mem hcs hv
  have hsome : r.declares?.isSome := mem_owningRoles.mp hr
  unfold Visit.concepts at hmade
  rw [hvariable, handledRole?_all, hrole] at hmade
  cases Role.yields hmade with
  | «import» | «export» => cases hsome
  | declaration _ _ _ hdeclares => exact .inl (by rw [hdeclares]; rfl)
  | overload hoverload => exact .inr ⟨rfl, hoverload⟩
  | reference _ _ hnone | nothing hnone => exact absurd hsome (by rw [hnone]; decide)

/-- Below a declaration the owner is the declaration. -/
theorem Visit.ownName?_of_declaration
    (hv : v ∈ walk Extractor.all o.module (analyse resolve module t))
    (h : IsDeclaration (walk Extractor.all o.module (analyse resolve module t)) v.node) :
    ownName? v.node = some (v.descent Extractor.all).owner := by
  have hnamed {f : QName} (hf : declares? v.node = some f) : ownName? v.node = some f := by
    have hoverloads : overloads? v.node = none :=
      overloads_of_declares (tree_mem_of_mem_walk hv) hf
    rw [ownName?, hoverloads, hf]
    rfl
  cases hvariable : v.declaredVariable? with
  | some found =>
    unfold Visit.descent
    rw [hvariable]
    exact hnamed (Visit.declaredVariable?_eq_some hvariable).2
  | none =>
    cases h with
    | declarator p hparent hentered hrole hname =>
      have hsettled := settled_walk v hv
      exact absurd hvariable (hsettled.declaredVariable?_ne_none hparent hentered hrole hname)
    | member hrole hname =>
      obtain ⟨f, hf⟩ := Option.isSome_iff_exists.mp hname
      unfold Visit.descent
      rw [hvariable, handledRole?_all, hrole, hnamed hf]
      show some f = some ((declares? v.node).getD v.owner)
      rw [hf]
      rfl
    | role r hrole hr =>
      have hname := isSome_declares? hmodel hv hvariable hrole hr
      unfold Visit.descent
      rw [hvariable, handledRole?_all, hrole]
      by_cases hfunction : r = .function
      · subst hfunction
        have hsome : (ownName? v.node).isSome := by
          unfold ownName?
          rw [Option.isSome_or, Bool.or_eq_true]
          exact hname.symm.imp_left (·.2)
        obtain ⟨f, hf⟩ := Option.isSome_iff_exists.mp hsome
        show ownName? v.node = some ((ownName? v.node).getD v.owner)
        rw [hf]
        rfl
      · have hsome := hname.resolve_right fun h => hfunction h.1
        obtain ⟨f, hf⟩ := Option.isSome_iff_exists.mp hsome
        dsimp only
        rw [Role.owner_descent, if_neg hfunction, if_pos (.inr (mem_owningRoles.mp hr)), hnamed hf,
          hf]
        rfl

/-- What a visit hands on belongs to the innermost declaration around what comes next. -/
theorem Visit.attributed_descent (hv : v ∈ walk Extractor.all o.module (analyse resolve module t))
    (h : Attributed (walk Extractor.all o.module (analyse resolve module t)) o.module
      (Syntax.Node.ofAbove v.node.above) v.owner) :
    Attributed (walk Extractor.all o.module (analyse resolve module t)) o.module v.node.upward
      (v.descent Extractor.all).owner := by
  by_cases hdeclaration :
      IsDeclaration (walk Extractor.all o.module (analyse resolve module t)) v.node
  · exact .here ⟨v, hv, rfl⟩ hdeclaration (v.ownName?_of_declaration hmodel hv hdeclaration)
  · rw [Visit.owner_descent_of_not (settled_walk v hv) hdeclaration]
    exact .outward (fun h => hdeclaration h.2) h

/-- The owner of a visit is the innermost declaration around its node. -/
theorem attributed_walk : ∀ v ∈ walk Extractor.all o.module (analyse resolve module t),
    Attributed (walk Extractor.all o.module (analyse resolve module t)) o.module
      (Syntax.Node.ofAbove v.node.above) v.owner := by
  refine forall_walk (fun v hv => ?_) fun w hw howner v hv => ?_
  · obtain ⟨_, c, -, howner, hnode, -⟩ := Descent.mem_visits hv
    rw [howner, hnode, Syntax.Node.ofAbove_down]
    -- nothing but the root is around it
    exact .outward (fun h => not_entered_root h.1) .outermost
  · obtain ⟨_, c, -, hnext, hnode, -⟩ := Descent.mem_visits hv
    rw [hnext, hnode, Syntax.Node.ofAbove_down]
    exact w.attributed_descent hmodel hw howner

end File

/-! ## Records of visits -/

theorem as?_self (k : Kind) (r : k.Record) : (Concept.mk k r).as? k = some r := dif_pos rfl

theorem as?_of_ne {c : Concept} (h : c.kind ≠ k) : c.as? k = none := dif_neg h

theorem filterMap_as?_self (rs : List k.Record) :
    (rs.map (Concept.mk k)).filterMap (·.as? k) = rs := by
  rw [List.filterMap_map]
  exact (List.filterMap_congr fun r _ => as?_self k r).trans (List.filterMap_some)

theorem filterMap_as?_of_ne {l : Kind} (h : l ≠ k) (rs : List l.Record) :
    (rs.map (Concept.mk l)).filterMap (·.as? k) = [] := by
  rw [List.filterMap_map]
  exact List.filterMap_eq_nil_iff.mpr fun r _ => as?_of_ne h

/-- The records of a kind that are made at a visit. -/
def Visit.records (k : Kind) (o : Origin) (v : Visit) : List k.Record :=
  match v.concepts Extractor.all o with
  | .ok cs => cs.filterMap (·.as? k)
  | .error _ => []

theorem Visit.records_of_ok (h : v.concepts Extractor.all o = .ok cs) :
    v.records k o = cs.filterMap (·.as? k) := by
  unfold Visit.records
  rw [h]

theorem Visit.mem_records {r : k.Record} (h : r ∈ v.records k o) :
    ∃ cs, v.concepts Extractor.all o = .ok cs ∧ (⟨k, r⟩ : Concept) ∈ cs := by
  unfold Visit.records at h
  split at h
  · next cs hcs =>
    refine ⟨cs, hcs, mem_get_ofConcepts.mp ?_⟩
    unfold Model.ofConcepts
    rw [Model.get_ofFn]
    exact h
  · exact absurd h List.not_mem_nil

/-- The records of a list of visits are those of each of them. -/
theorem records_conceptsOf (h : conceptsOf Extractor.all o vs = .ok cs) :
    cs.filterMap (·.as? k) = vs.flatMap (·.records k o) := by
  obtain ⟨made, hmade, rfl⟩ := conceptsOf_eq_ok h
  rw [List.filterMap_flatMap]
  exact List.flatMap_congr fun v hv => (v.records_of_ok (hmade v hv)).symm

/-- Beside the record of its module, a file has the records of its visits. -/
theorem get_fileModel (hk : k ≠ .module) {m : Model} (h : fileModel Extractor.all o t = .ok m) :
    m.get k = (walk Extractor.all o.module t).flatMap (·.records k o) := by
  obtain ⟨cs, hcs, rfl⟩ := fileModel_eq_ok h
  have hmodule : (⟨.module, ⟨o.module, o.path⟩⟩ : Concept).as? k = none := dif_neg (Ne.symm hk)
  rw [← records_conceptsOf hcs]
  unfold Model.ofConcepts
  rw [Model.get_ofFn, List.filterMap_cons, hmodule]

/-- The records of a visit stand together in the model. -/
theorem Visit.records_infix (hk : k ≠ .module) {m : Model} (h : fileModel Extractor.all o t = .ok m)
    (hv : v ∈ walk Extractor.all o.module t) : v.records k o <:+: m.get k := by
  obtain ⟨before, after, hwalk⟩ := List.append_of_mem hv
  rw [get_fileModel hk h, hwalk, List.flatMap_append, List.flatMap_cons, ← List.append_assoc]
  exact ⟨_, _, rfl⟩

/-! ## Edges -/

/-- The edges that are recorded at a visit. -/
def Visit.edges (o : Origin) (v : Visit) : List Edge := v.records .edge o

theorem kind_of_record (h : (x.map fun d => [⟨k, d⟩]) = .ok cs) : ∀ c ∈ cs, c.kind = k := by
  obtain ⟨d, -, rfl⟩ := map_eq_ok.mp h
  exact List.forall_mem_singleton.mpr rfl

/-- No edge is recorded at a declaration itself. -/
theorem Visit.not_isDeclaration_of_edge (hsettled : v.Settled vs) {e : Edge} (he : e ∈ v.edges o) :
    ¬ IsDeclaration vs v.node := by
  obtain ⟨cs, hcs, hmem⟩ := Visit.mem_records he
  unfold Visit.concepts at hcs
  cases hvariable : v.declaredVariable? with
  | some found =>
    rw [hvariable] at hcs
    cases kind_of_record (k := .variable) hcs _ hmem
  | none =>
    rw [hvariable, handledRole?_all] at hcs
    dsimp only at hcs
    intro h
    cases h with
    | declarator p hparent hentered hrole hname =>
      exact hsettled.declaredVariable?_ne_none hparent hentered hrole hname hvariable
    | member hrole _ =>
      rw [hrole] at hcs
      cases hcs
      exact absurd hmem List.not_mem_nil
    | role r hrole hr =>
      rw [hrole] at hcs
      dsimp only at hcs
      have hsome : r.declares?.isSome := mem_owningRoles.mp hr
      cases Role.makes hcs hmem with
      | edge hnone _ => exact absurd hsome (by rw [hnone]; decide)
      | declaration hkind _ => exact absurd (mem_declarationKinds hkind) (by decide)

theorem length_depend_le (owner target : QName) (kind : ReferenceKind) :
    (depend owner target kind).length ≤ 1 := by
  unfold depend
  split
  · exact Nat.zero_le 1
  · exact Nat.le_refl 1

/-- Statements that import or export apart, a node stands for one reference at most. -/
theorem Visit.length_edges_le (himport : Role.ofKind? v.node.kind ≠ some .import)
    (hexport : Role.ofKind? v.node.kind ≠ some .export) : (v.edges o).length ≤ 1 := by
  unfold Visit.edges Visit.records
  split
  · next cs hcs =>
    refine Nat.le_trans (List.length_filterMap_le _ _) ?_
    unfold Visit.concepts at hcs
    split at hcs
    · obtain ⟨d, -, rfl⟩ := map_eq_ok.mp hcs
      exact Nat.le_refl 1
    · rw [handledRole?_all] at hcs
      cases hrole : Role.ofKind? v.node.kind with
      | none =>
        rw [hrole] at hcs
        cases hcs
        exact Nat.zero_le 1
      | some r =>
        rw [hrole] at hcs himport hexport
        cases Role.yields hcs with
        | «import» => exact absurd rfl himport
        | «export» => exact absurd rfl hexport
        | declaration => exact Nat.le_refl 1
        | overload => exact Nat.zero_le 1
        | reference _ _ _ =>
          rw [List.length_map]
          exact length_depend_le _ _ _
        | nothing => exact Nat.zero_le 1
  · exact Nat.zero_le 1

/-- Every edge of a file is recorded at a visit, and starts at the innermost declaration around the
visited node that the walk came to, or at the module if there is none. No edge leads back to where
it starts. No node is visited twice, and only statements that import or export stand for more than
one edge. -/
theorem edges_attributed {o : Origin} {resolve : String → QName} {module : QName}
    {t : Syntax.Tree α} {m : Model}
    (hmodel : fileModel Extractor.all o (analyse resolve module t) = .ok m) :
    m.edges = (walk Extractor.all o.module (analyse resolve module t)).flatMap (·.edges o) ∧
    (∀ v ∈ walk Extractor.all o.module (analyse resolve module t), ∀ e ∈ v.edges o,
      Attributed (walk Extractor.all o.module (analyse resolve module t)) o.module v.node.upward
        e.source ∧ e.source ≠ e.target) ∧
    (walk Extractor.all o.module (analyse resolve module t)).map (·.node) <+
      (Syntax.Node.root (analyse resolve module t)).descendants ∧
    ∀ v ∈ walk Extractor.all o.module (analyse resolve module t),
      Role.ofKind? v.node.kind ≠ some .import → Role.ofKind? v.node.kind ≠ some .export →
        (v.edges o).length ≤ 1 := by
  refine ⟨get_fileModel (k := .edge) (by decide) hmodel, ?_, nodes_walk _ _,
    fun v _ => v.length_edges_le⟩
  intro v hv e he
  obtain ⟨cs, hcs, hmem⟩ := Visit.mem_records he
  obtain ⟨hsource, htarget⟩ := (v.sourced_concepts hcs _ hmem).2 e rfl
  rw [hsource]
  refine ⟨?_, Ne.symm htarget⟩
  have hnot := Visit.not_isDeclaration_of_edge (settled_walk v hv) he
  exact .outward (fun h => hnot h.2) (attributed_walk hmodel v hv)

/-- A function with a type as its result, `function f(): A`. -/
def resultTree (kind name : String) : Syntax.Tree Unit :=
  sampleNode kind [] "" [
    sampleNode "identifier" ["name"] name [],
    sampleNode "formal_parameters" ["parameters"] "()" [],
    typedAsA "return_type"]

/-- An overload `function f(): A;` with its implementation `function f(): A`, the variable
`const x = f`, the class `class K { m(): A {} }` and the statement `f`. -/
def nestedTree : Syntax.Tree Unit :=
  sampleNode "program" [] "" [
    resultTree "function_signature" "f",
    resultTree "function_declaration" "f",
    sampleNode "lexical_declaration" [] "" [
      sampleNode "variable_declarator" [] "" [
        sampleNode "identifier" ["name"] "x" [],
        sampleNode "identifier" ["value"] "f" []]],
    sampleNode "class_declaration" [] "" [
      sampleNode "type_identifier" ["name"] "K" [],
      sampleNode "class_body" ["body"] "" [
        sampleMember "method_definition" "m" [typedAsA "return_type"]]],
    sampleNode "expression_statement" [] "" [sampleNode "identifier" [] "f" []]]

theorem edges_attributed_nested :
    ∃ m, fileModel Extractor.all sampleOrigin (sampleNotes nestedTree) = .ok m ∧
      m.edges.map (·.source) = [⟨"\"/p/a.ts\".f"⟩, ⟨"\"/p/a.ts\".f"⟩, ⟨"\"/p/a.ts\".x"⟩,
        ⟨"\"/p/a.ts\".K.m"⟩, ⟨"\"/p/a.ts\""⟩] ∧
      ∀ v ∈ walk Extractor.all sampleOrigin.module (sampleNotes nestedTree),
        ∀ e ∈ v.edges sampleOrigin,
          Attributed (walk Extractor.all sampleOrigin.module (sampleNotes nestedTree))
            sampleOrigin.module v.node.upward e.source ∧ e.source ≠ e.target := by
  have hsources : (fileModel Extractor.all sampleOrigin (sampleNotes nestedTree)).toOption.map
      (fun m => m.edges.map (·.source)) = some [⟨"\"/p/a.ts\".f"⟩, ⟨"\"/p/a.ts\".f"⟩,
        ⟨"\"/p/a.ts\".x"⟩, ⟨"\"/p/a.ts\".K.m"⟩, ⟨"\"/p/a.ts\""⟩] := by decide +kernel
  obtain ⟨m, hmodel, hsources⟩ := exists_ok_of_map hsources
  exact ⟨m, hmodel, hsources, (edges_attributed hmodel).2.1⟩

end Extract

end CodeConcepts
