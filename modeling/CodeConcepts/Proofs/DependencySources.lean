import CodeConcepts.Proofs.Completion
import CodeConcepts.Proofs.MemberLists

/-!
# Where the edges of a file start

An edge starts at the declaration it is found in (`Visit.sourced_concepts`). On its way down the
walk changes that declaration only at nodes that have been given a name (`Visit.opens_descent`), so
every edge starts at the module or at a name that is noted in the tree. Functions, classes,
interfaces, type aliases, enumerations and variables are recorded under that name, and the members
in the body of a class or interface are listed under it.

One kind of name is left over. What looks like a member of a class or interface also occurs outside
of its body, for instance in an object type that a type parameter extends:

```text
interface I<T extends { m(): A }> {}
```

The method here is named `I.m`, an edge leads from there to `A`, and no record lists it. Such a
member is stray (`Visit.Stray`). Stray members are the only sources of edges that the model of a
file does not declare.
-/

namespace CodeConcepts

variable {α : Type} {cs : List Concept} {owner f : QName} {table : List Extractor} {o : Origin}
  {m : Model} {v : Visit} {k : Kind}

/-- A model declares a name: as that of a record or as that of a part of a record. -/
def Model.Declares (m : Model) (f : QName) : Prop := ∃ x ∈ m.declarations, x.1 = f

instance (m : Model) (f : QName) : Decidable (m.Declares f) :=
  inferInstanceAs (Decidable (∃ x ∈ m.declarations, x.1 = f))

theorem Model.Records.declares (h : m.Records f) : m.Declares f := by
  obtain ⟨k, hk, hf⟩ := h
  have hidentified : ∀ k ∈ Extract.declarationKinds, k.isIdentified = true := by decide
  obtain ⟨word, hword⟩ := Model.mem_declarations_of_mem_identities (hidentified k hk) hf
  exact ⟨_, hword, rfl⟩

/-- The parts of a record are declared. -/
theorem Model.declares_of_part (hk : k.isIdentified = true) {r : k.Record} (hr : r ∈ m.get k)
    (hf : f ∈ (partLabels k r).map (·.1)) : m.Declares f := by
  obtain ⟨l, hl, rfl⟩ := List.mem_map.mp hf
  refine ⟨l, ?_, rfl⟩
  rw [← labels_eq_declarations, labels, List.mem_flatMap]
  exact ⟨k, List.mem_filter.mpr ⟨k.mem_all, hk⟩,
    List.mem_flatMap.mpr ⟨r, hr, List.mem_append_right _ hl⟩⟩

/-- A project declares nothing. -/
theorem Model.declares_setProject (m : Model) (p : Project) (f : QName) :
    (m.set .project [p]).Declares f ↔ m.Declares f := by
  unfold Declares
  rw [← labels_eq_declarations, ← labels_eq_declarations, labels_congr fun k hk => ?_]
  refine get_set_of_ne m (k := .project) [p] ?_
  rintro rfl
  exact absurd hk (by decide)

/-- The model of one file has no project; given one, it can be aggregated. -/
theorem Model.aggregateEdges_setProject (hnone : m.dependencies = []) (p : Project) :
    aggregateEdges.run.run (m.set .project [p]) = (.ok (), (m.set .project [p]).aggregated) := by
  have hnone : (m.set .project [p]).dependencies = [] :=
    (get_set_of_ne m (k := .project) (l := .dependency) [p] (by decide)).trans hnone
  have hone : (m.set .project [p]).projects = [p] := get_set_self m .project [p]
  rw [aggregateEdges_of_one (by rw [hone]; rfl), hnone, List.nil_append]
  rfl

/-- An aggregated dependency starts where an edge starts. If this is declared then the dependency
has a type of source. -/
theorem Model.source_of_mem_aggregated {p : Project} {d : Dependency}
    (hd : d ∈ (m.set .project [p]).aggregated.dependencies) :
    (∃ e ∈ m.edges, e.source = d.source) ∧ (m.Declares d.source → d.sourceType.isSome) := by
  have hspec := aggregated_spec (m.set .project [p])
  constructor
  · have hedges : (m.set .project [p]).edges = m.edges :=
      get_set_of_ne m (k := .project) (l := .edge) [p] (by decide)
    obtain ⟨-, e, he, hsource, -⟩ := (hspec.pair d.source d.target).mp ⟨d, hd, rfl, rfl⟩
    exact ⟨e, hedges ▸ he, hsource⟩
  · intro hdeclares
    obtain ⟨x, hx, hname⟩ := (m.declares_setProject p d.source).mpr hdeclares
    have hlabel := hspec.source d hd
    cases htype : d.sourceType with
    | some word => rfl
    | none =>
      rw [htype] at hlabel
      exact absurd hname (hlabel x hx)

/-- Methods with a body have a list of parameters. -/
def HasParameters (t : Syntax.Tree α) : Prop :=
  ∀ u ∈ t.subtrees, u.kind = "method_definition" → (u.field? "parameters").isSome

instance (t : Syntax.Tree α) : Decidable (HasParameters t) :=
  inferInstanceAs (Decidable (∀ u ∈ t.subtrees, _ → _))

theorem hasParameters_congr {β : Type} {t : Syntax.Tree α} {u : Syntax.Tree β}
    (h : t.shape = u.shape) : HasParameters t ↔ HasParameters u := by
  refine Syntax.Tree.forall_subtrees_of_shape
    (P := fun s => s.kind = "method_definition" → (s.field? "parameters").isSome) (fun s => ?_) h
  simp only [Syntax.Tree.shape, Syntax.Tree.kind_mapNotes, Syntax.Tree.field?_mapNotes,
    Option.isSome_map]

namespace Extract

open ScopedNode (declares? overloads?)

/-! ## Edges start at the owner -/

/-- A concept is no counted dependency, and if it is an edge it starts at the owner and leads
elsewhere. -/
def Sourced (owner : QName) (c : Concept) : Prop :=
  c.kind ≠ .dependency ∧ ∀ e : Edge, c = ⟨.edge, e⟩ → e.source = owner ∧ e.target ≠ owner

theorem sourced_of_mem_declarationKinds (hk : k ∈ declarationKinds) (d : k.Record) :
    Sourced owner ⟨k, d⟩ := by
  constructor
  · rintro rfl
    exact absurd hk (by decide)
  · rintro e he
    cases he
    exact absurd hk (by decide)

theorem Role.Makes.sourced {r : Role} {n : ScopedNode} {c : Concept} (h : r.Makes o owner n c) :
    Sourced owner c := by
  cases h with
  | edge _ href =>
    obtain ⟨e, rfl, hsource, htarget⟩ := href
    refine ⟨(by decide : Kind.edge ≠ .dependency), fun e' he' => ?_⟩
    cases he'
    exact ⟨hsource, htarget⟩
  | «import» d => exact ⟨(by decide : Kind.import ≠ .dependency), nofun⟩
  | «export» _ => exact ⟨(by decide : Kind.export ≠ .dependency), nofun⟩
  | declaration hr _ => exact sourced_of_mem_declarationKinds (mem_declarationKinds hr) _

theorem Visit.sourced_concepts (h : v.concepts table o = .ok cs) : ∀ c ∈ cs, Sourced v.owner c := by
  intro c hc
  cases v.makes h hc with
  | «variable» _ _ => exact sourced_of_mem_declarationKinds (by decide) _
  | role _ _ hmakes => exact hmakes.sourced

theorem exists_sourced_of_mem {vs : List Visit} (h : conceptsOf table o vs = .ok cs) {c : Concept}
    (hc : c ∈ cs) : ∃ v ∈ vs, Sourced v.owner c := by
  obtain ⟨v, hv, made, hmade, hc⟩ := exists_concepts_of_mem h hc
  exact ⟨v, hv, v.sourced_concepts hmade c hc⟩

/-! ## Owners along the walk -/

/-- What holds of the owner at the start, and what every visit hands on, holds of all owners. -/
theorem owner_walk {P : QName → Prop} {module : QName} {t : Syntax.Tree Note} (hstart : P module)
    (hstep : ∀ w ∈ walk table module t, P w.owner → P (w.descent table).owner) :
    ∀ v ∈ walk table module t, P v.owner := by
  refine forall_walk (fun v hv => ?_) fun w hw howner v hv => ?_
  · obtain ⟨-, -, -, howner, -⟩ := Descent.mem_visits hv
    exact howner ▸ hstart
  · obtain ⟨-, -, -, hv, -⟩ := Descent.mem_visits hv
    exact hv ▸ hstep w hw howner

/-- The ways in which a visited node becomes the owner of what stands below it. -/
inductive Visit.Opens (v : Visit) (f : QName) : Prop
  | declarator (keyword : VariableKind) : v.declaredVariable? = some (keyword, f) → Opens v f
  | overload : overloads? v.node = some f → Opens v f
  | declaration (r : Role) : v.declaredVariable? = none → Role.ofKind? v.node.kind = some r →
      r.declares?.isSome → declares? v.node = some f → Opens v f
  | member : Role.ofKind? v.node.kind = some .member → declares? v.node = some f → Opens v f

/-- A node that has been given a name becomes the owner, any other node does not. -/
theorem Visit.opens_of_declares (v : Visit) (h : ∀ f, declares? v.node = some f → v.Opens f) :
    (declares? v.node).getD v.owner = v.owner ∨ v.Opens ((declares? v.node).getD v.owner) := by
  cases hname : declares? v.node with
  | none => exact .inl rfl
  | some f => exact .inr (h f hname)

/-- The owner stays, or the visited node becomes the owner. -/
theorem Visit.opens_descent (v : Visit) :
    (v.descent Extractor.all).owner = v.owner ∨ v.Opens (v.descent Extractor.all).owner := by
  cases hvariable : v.declaredVariable? with
  | some found =>
    unfold Visit.descent
    rw [hvariable]
    exact .inr (.declarator found.1 hvariable)
  | none =>
    unfold Visit.descent
    rw [hvariable, handledRole?_all]
    cases hrole : Role.ofKind? v.node.kind with
    | none => exact .inl rfl
    | some r =>
      dsimp only
      rw [Role.owner_descent]
      split_ifs with hfunction hnames
      · subst hfunction
        unfold ownerWithin
        cases hoverloads : overloads? v.node with
        -- a signature belongs to the function that it is an overload of
        | some f => exact .inr (.overload hoverloads)
        | none => exact v.opens_of_declares fun f => .declaration .function hvariable hrole rfl
      · refine v.opens_of_declares fun f hname => ?_
        rcases hnames with rfl | hsome
        · exact .member hrole hname
        · exact .declaration r hvariable hrole hsome hname
      · exact .inl rfl

/-! ## Members that are listed, and others -/

/-- The kinds of members that the record made in a role lists. -/
def Role.memberKinds : Role → List String
  | .classDeclaration => classMemberKinds
  | .interface => interfaceMemberKinds
  | _ => []

/-- The members that the record made at a visited node lists: those in the body of a class or an
interface. -/
def Visit.listedMembers (v : Visit) : List ScopedNode :=
  match v.declaredVariable?, Role.ofKind? v.node.kind, v.node.field? "body" with
  | none, some r, some body => body.namedChildren.filter fun c => r.memberKinds.contains c.kind
  | _, _, _ => []

/-- Among the visits of a file, one of a member that has a name and that no record lists. -/
def Visit.Stray (vs : List Visit) (v : Visit) : Prop :=
  Role.ofKind? v.node.kind = some .member ∧ (declares? v.node).isSome ∧
    ∀ w ∈ vs, v.node ∉ w.listedMembers

/-- A name is that of a stray member. -/
def StrayName (vs : List Visit) (f : QName) : Prop :=
  ∃ v ∈ vs, v.Stray vs ∧ declares? v.node = some f

theorem Visit.mem_listedMembers {c : ScopedNode} (h : c ∈ v.listedMembers) :
    v.declaredVariable? = none ∧ ∃ r body, Role.ofKind? v.node.kind = some r ∧
      v.node.field? "body" = some body ∧ c ∈ body.namedChildren ∧ c.kind ∈ r.memberKinds := by
  unfold Visit.listedMembers at h
  split at h
  · next r body hvariable hrole hbody =>
    obtain ⟨hc, hkind⟩ := List.mem_filter.mp h
    exact ⟨hvariable, r, body, hrole, hbody, hc, List.contains_iff_mem.mp hkind⟩
  · exact absurd h List.not_mem_nil

/-- A part of a node is in its tree. -/
theorem mem_subtrees_of_field? {n c : ScopedNode} {name : String} (h : n.field? name = some c) :
    c.tree ∈ n.tree.subtrees := by
  have hbelow := Syntax.Node.mem_subtreesAll_of_field? h
  obtain ⟨⟨l, a, cs⟩, above⟩ := n
  exact List.mem_cons_of_mem _ hbelow

section File

variable {o : Origin} {resolve : String → QName} {module : QName} {t : Syntax.Tree α} {m : Model}
  (hmodel : fileModel Extractor.all o (analyse resolve module t) = .ok m)

include hmodel

/-- The record that is made at a visited node is in the model. -/
theorem mem_get_of_visit (hv : v ∈ walk Extractor.all o.module (analyse resolve module t))
    {x : Except Fault k.Record} (hconcepts : v.concepts Extractor.all o = x.map fun d => [⟨k, d⟩]) :
    ∃ d, x = .ok d ∧ d ∈ m.get k := by
  obtain ⟨cs, hcs, rfl⟩ := fileModel_eq_ok hmodel
  obtain ⟨made, hmade, hsub⟩ := concepts_of_mem hcs hv
  obtain ⟨d, hd, rfl⟩ := map_eq_ok.mp (hconcepts.symm.trans hmade)
  refine ⟨d, hd, mem_get_ofConcepts.mpr (List.mem_cons_of_mem _ (hsub ?_))⟩
  exact List.mem_singleton_self _

/-- A listed member is declared under its name. -/
theorem declares_of_listed (hparameters : HasParameters t) {w : Visit}
    (hw : w ∈ walk Extractor.all o.module (analyse resolve module t)) {c : ScopedNode}
    (hc : c ∈ w.listedMembers) (hf : declares? c = some f) : m.Declares f := by
  obtain ⟨hvariable, r, body, hrole, hbody, hmem, hkind⟩ := Visit.mem_listedMembers hc
  have hanalysed := (hasParameters_congr (shape_analyse resolve module t)).mpr hparameters
  have hinside : body.tree ∈ (analyse resolve module t).subtrees :=
    Syntax.Tree.subtrees_subset _ (tree_mem_of_mem_walk hw) (mem_subtrees_of_field? hbody)
  have hconcepts : w.concepts Extractor.all o = r.concepts o w.owner w.node := by
    unfold Visit.concepts
    rw [hvariable, handledRole?_all, hrole]
  cases r with
  | classDeclaration =>
    obtain ⟨d, hd, hrecord⟩ := mem_get_of_visit hmodel hw (k := .classDeclaration) hconcepts
    obtain ⟨above, hnamed⟩ := exists_namedBelow hinside hmem (ofKind?_of_classMember hkind) hf
    refine Model.declares_of_part rfl hrecord
      (mem_partLabels_classDecl hd hbody hnamed (fun e he hmethod => ?_) hmem hkind hf)
    -- a method without parameters would not be listed
    obtain ⟨u, hu, rfl⟩ := List.mem_map.mp he
    have hchild := Syntax.Tree.subtrees_subset _ hinside
      (Syntax.Tree.mem_subtrees_of_mem_children (List.mem_filter.mp hu).1)
    have hsome := hanalysed u hchild hmethod
    rw [← Option.isSome_map, Syntax.Node.tree_field?]
    exact hsome
  | interface =>
    obtain ⟨d, hd, hrecord⟩ := mem_get_of_visit hmodel hw (k := .interface) hconcepts
    have hmember := ofKind?_of_interfaceMember hkind
    obtain ⟨above, hnamed⟩ := exists_namedBelow hinside hmem hmember hf
    -- members are listed by their name, which is also what they have been named after
    have hname : (c.fieldText? "name").isSome := by
      have hdeclares := hnamed c hmem hmember
      rw [hf] at hdeclares
      obtain ⟨name, hname, -⟩ := Option.map_eq_some_iff.mp hdeclares.symm
      rw [hname]
      rfl
    refine Model.declares_of_part rfl hrecord
      (mem_partLabels_interfaceDecl hd ?_ hkind hname hf)
    unfold interfaceMembers
    rw [hbody]
    exact hmem
  | _ => exact absurd hkind List.not_mem_nil

/-- A node that becomes the owner of what stands below it is declared, or it is a stray member. -/
theorem declares_of_opens (hplaced : Placed t) (hparameters : HasParameters t)
    (hv : v ∈ walk Extractor.all o.module (analyse resolve module t)) (hopens : v.Opens f) :
    m.Declares f ∨ StrayName (walk Extractor.all o.module (analyse resolve module t)) f := by
  have hinside := tree_mem_of_mem_walk hv
  cases hopens with
  | declarator keyword hvariable =>
    exact .inl (records_of_visit hmodel hv fun made hmade =>
      exists_record_of_variable hmade hvariable).declares
  | overload hoverloads =>
    exact .inl (recorded_of_overloads hplaced hmodel hinside hoverloads).declares
  | declaration r hvariable hrole hr hdeclares =>
    exact .inl (records_of_visit hmodel hv fun made hmade =>
      exists_record_of_role hmade hvariable hrole hr hdeclares
        (overloads_of_declares hinside hdeclares)).declares
  | member hrole hdeclares =>
    by_cases hlisted : ∃ w ∈ walk Extractor.all o.module (analyse resolve module t),
        v.node ∈ w.listedMembers
    · obtain ⟨w, hw, hmem⟩ := hlisted
      exact .inl (declares_of_listed hmodel hparameters hw hmem hdeclares)
    · refine .inr ⟨v, hv, ⟨hrole, by rw [hdeclares]; rfl, fun w hw hmem => ?_⟩, hdeclares⟩
      exact hlisted ⟨w, hw, hmem⟩

/-- The declarations that references belong to are declared, stray members apart. -/
theorem declares_owner (hplaced : Placed t) (hparameters : HasParameters t) :
    ∀ v ∈ walk Extractor.all o.module (analyse resolve module t), m.Declares v.owner ∨
      StrayName (walk Extractor.all o.module (analyse resolve module t)) v.owner := by
  refine owner_walk (P := fun f => m.Declares f ∨ StrayName _ f) (.inl ?_) fun w hw howner => ?_
  -- the walk starts with the module as owner
  · refine ⟨(o.module, "typescript-module"), ?_, rfl⟩
    refine List.mem_append_left _ (List.mem_map.mpr ⟨⟨o.module, o.path⟩, ?_, rfl⟩)
    rw [modules_fileModel hmodel]
    exact List.mem_singleton_self _
  · rcases w.opens_descent with hstays | hopens
    · rw [hstays]
      exact howner
    · exact declares_of_opens hmodel hplaced hparameters hw hopens

/-- Extraction counts nothing. -/
theorem dependencies_fileModel : m.dependencies = [] := by
  obtain ⟨cs, hcs, rfl⟩ := fileModel_eq_ok hmodel
  refine List.eq_nil_iff_forall_not_mem.mpr fun d hd => ?_
  have hd : d ∈ (Model.ofConcepts (⟨.module, ⟨o.module, o.path⟩⟩ :: cs)).get .dependency := hd
  rw [mem_get_ofConcepts] at hd
  rcases List.mem_cons.mp hd with hd | hd
  · cases hd
  · obtain ⟨v, -, hsourced⟩ := exists_sourced_of_mem hcs hd
    exact hsourced.1 rfl

/-- Every edge of a file starts at the owner of one of its visits. -/
theorem exists_visit_of_edge {e : Edge} (he : e ∈ m.edges) :
    ∃ v ∈ walk Extractor.all o.module (analyse resolve module t), v.owner = e.source := by
  obtain ⟨cs, hcs, rfl⟩ := fileModel_eq_ok hmodel
  have he : e ∈ (Model.ofConcepts (⟨.module, ⟨o.module, o.path⟩⟩ :: cs)).get .edge := he
  rw [mem_get_ofConcepts] at he
  rcases List.mem_cons.mp he with he | he
  · cases he
  · obtain ⟨v, hv, hsourced⟩ := exists_sourced_of_mem hcs he
    exact ⟨v, hv, (hsourced.2 e rfl).1.symm⟩

/-- Every edge of a file starts at a name that the model of the file declares, unless it starts at
a stray member. So once the edges of this one model are aggregated, a dependency without a type of
source starts at a stray member. -/
theorem edge_sources_declared (hplaced : Placed t) (hparameters : HasParameters t) :
    (∀ e ∈ m.edges, m.Declares e.source ∨
      StrayName (walk Extractor.all o.module (analyse resolve module t)) e.source) ∧
    ∀ p, ∃ r, Model.aggregateEdges.run.run (m.set .project [p]) = (.ok (), r) ∧
      ∀ d ∈ r.dependencies, d.sourceType.isSome ∨
        StrayName (walk Extractor.all o.module (analyse resolve module t)) d.source := by
  have hedges : ∀ e ∈ m.edges, m.Declares e.source ∨
      StrayName (walk Extractor.all o.module (analyse resolve module t)) e.source := by
    intro e he
    obtain ⟨v, hv, howner⟩ := exists_visit_of_edge hmodel he
    rw [← howner]
    exact declares_owner hmodel hplaced hparameters v hv
  refine ⟨hedges, fun p => ⟨_, Model.aggregateEdges_setProject (dependencies_fileModel hmodel) p,
    fun d hd => ?_⟩⟩
  obtain ⟨⟨e, he, hsource⟩, htype⟩ := Model.source_of_mem_aggregated hd
  rcases hedges e he with hdeclares | hstray
  · exact .inl (htype (hsource ▸ hdeclares))
  · exact .inr (hsource ▸ hstray)

end File

/-- A member with a list of parameters and further parts. -/
def sampleMember (kind name : String) (parts : List (Syntax.Tree Unit)) : Syntax.Tree Unit :=
  sampleNode kind [] "" (sampleNode "property_identifier" ["name"] name [] ::
    sampleNode "formal_parameters" ["parameters"] "()" [] :: parts)

/-- The annotation `: A`. -/
def typedAsA (role : String) : Syntax.Tree Unit :=
  sampleNode "type_annotation" [role] ": A" [sampleNode "type_identifier" [] "A" []]

/-- The class `class C { m(): A; m(): A {} constructor() { f } p: A }`. -/
def owningTree : Syntax.Tree Unit :=
  sampleNode "program" [] "" [
    sampleNode "class_declaration" [] "" [
      sampleNode "type_identifier" ["name"] "C" [],
      sampleNode "class_body" ["body"] "" [
        sampleMember "method_signature" "m" [typedAsA "return_type"],
        sampleMember "method_definition" "m" [typedAsA "return_type",
          sampleNode "statement_block" ["body"] "" []],
        sampleMember "method_definition" "constructor" [
          sampleNode "statement_block" ["body"] "" [
            sampleNode "expression_statement" [] "" [sampleNode "identifier" [] "f" []]]],
        sampleNode "public_field_definition" [] "" [
          sampleNode "property_identifier" ["name"] "p" [], typedAsA "type"]]]]

/-- The interface `interface I<T extends { m(): A }> {}`. -/
def strayTree : Syntax.Tree Unit :=
  sampleNode "program" [] "" [
    sampleNode "interface_declaration" [] "" [
      sampleNode "type_identifier" ["name"] "I" [],
      sampleNode "type_parameters" ["type_parameters"] "" [
        sampleNode "type_parameter" [] "" [
          sampleNode "type_identifier" ["name"] "T" [],
          sampleNode "constraint" ["constraint"] "" [
            sampleNode "object_type" [] "" [
              sampleMember "method_signature" "m" [typedAsA "return_type"]]]]],
      sampleNode "interface_body" ["body"] "" []]]

/-- A sample file with the notes of the analysis. -/
def sampleNotes (t : Syntax.Tree Unit) : Syntax.Tree Note :=
  analyse sampleOrigin.resolve sampleOrigin.module t

/-- Both declarations of the method, the constructor and the property own what they refer to. -/
theorem edge_sources_declared_members : Placed owningTree ∧ HasParameters owningTree ∧
    ∃ m, fileModel Extractor.all sampleOrigin (sampleNotes owningTree) = .ok m ∧
      m.edges.map (·.source) = [⟨"\"/p/a.ts\".C.m"⟩, ⟨"\"/p/a.ts\".C.m"⟩,
        ⟨"\"/p/a.ts\".C.constructor"⟩, ⟨"\"/p/a.ts\".C.p"⟩] ∧
      ∀ e ∈ m.edges, m.Declares e.source ∨
        StrayName (walk Extractor.all sampleOrigin.module (sampleNotes owningTree)) e.source := by
  have hplaced : Placed owningTree := by decide +kernel
  have hparameters : HasParameters owningTree := by decide +kernel
  have hsources : (fileModel Extractor.all sampleOrigin (sampleNotes owningTree)).toOption.map
      (fun m => m.edges.map (·.source)) = some [⟨"\"/p/a.ts\".C.m"⟩, ⟨"\"/p/a.ts\".C.m"⟩,
        ⟨"\"/p/a.ts\".C.constructor"⟩, ⟨"\"/p/a.ts\".C.p"⟩] := by decide +kernel
  obtain ⟨m, hmodel, hsources⟩ := exists_ok_of_map hsources
  exact ⟨hplaced, hparameters, m, hmodel, hsources,
    (edge_sources_declared hmodel hplaced hparameters).1⟩

/-- A member of the constraint of a type parameter owns an edge, and no record lists it. -/
theorem edge_source_undeclared : Placed strayTree ∧ HasParameters strayTree ∧
    ∃ m, fileModel Extractor.all sampleOrigin (sampleNotes strayTree) = .ok m ∧
      m.edges = [⟨⟨"\"/p/a.ts\".I.m"⟩, .bare "A", .typeReference⟩] ∧
      ¬ m.Declares ⟨"\"/p/a.ts\".I.m"⟩ ∧
      ∃ r, Model.aggregateEdges.run.run (m.set .project [⟨"/p"⟩]) = (.ok (), r) ∧
        r.dependencies = [⟨⟨"\"/p/a.ts\".I.m"⟩, none, .bare "A", "external", 1⟩] := by
  have hsample : (fileModel Extractor.all sampleOrigin (sampleNotes strayTree)).toOption.map
      (fun m => (m.edges, m.declarations, (m.set .project [⟨"/p"⟩]).aggregated.dependencies)) =
      some ([⟨⟨"\"/p/a.ts\".I.m"⟩, .bare "A", .typeReference⟩],
        [(⟨"\"/p/a.ts\""⟩, "typescript-module"), (⟨"\"/p/a.ts\".I"⟩, "interface-declaration")],
        [⟨⟨"\"/p/a.ts\".I.m"⟩, none, .bare "A", "external", 1⟩]) := by decide +kernel
  obtain ⟨m, hmodel, hsample⟩ := exists_ok_of_map hsample
  obtain ⟨hedges, hrest⟩ := Prod.mk.inj hsample
  obtain ⟨hdeclarations, hdependencies⟩ := Prod.mk.inj hrest
  refine ⟨by decide +kernel, by decide +kernel, m, hmodel, hedges, ?_, _,
    Model.aggregateEdges_setProject (dependencies_fileModel hmodel) ⟨"/p"⟩, hdependencies⟩
  unfold Model.Declares
  rw [hdeclarations]
  decide

end Extract

end CodeConcepts
