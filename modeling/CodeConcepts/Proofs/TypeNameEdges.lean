import CodeConcepts.Proofs.Attribution
import CodeConcepts.Proofs.TypingForms

/-!
# Type names and their edges

A type name is looked at twice: as a type it is described, and as a reference it may become an edge.
The description asks a table of primitive names before it asks the scopes, the reference asks the
scopes only.

* For a name that is not in the table both ask the same question (`typeOf_of_target`,
  `typeOf_of_no_target`), so a type that is described as declared has its edge and no other has one.
* A name of the table is described as primitive, whatever the scopes say, and has an edge just when
  the scopes know no type parameter or local of that name (`type_names_have_edges`). The grammar
  takes `bigint` for a type name, so big integers become dependencies of what mentions them
  (`big_integer_has_edge`).
-/

namespace CodeConcepts

variable {α : Type}

namespace Extract

open ScopedNode (declares? lookup? resolve)
open Typing (primitiveNames typeOf)

/-! ## What a type name is described as -/

section Description

variable {n : ScopedNode}

theorem typeOf_of_typeIdentifier (hkind : n.kind = "type_identifier") :
    typeOf n = Typing.namedType n := by
  rw [Typing.typeOf_eq, hkind]
  rfl

/-- A name of the table is primitive. -/
theorem typeOf_of_mem_primitiveNames (hkind : n.kind = "type_identifier")
    (h : n.text ∈ primitiveNames) : typeOf n = .primitive n.text := by
  rw [typeOf_of_typeIdentifier hkind, Typing.namedType, if_pos h]

/-- Outside of the table, a name that refers to something is described as what it refers to. -/
theorem typeOf_of_target (hkind : n.kind = "type_identifier") (h : n.text ∉ primitiveNames)
    {f : QName} (htarget : (resolve .type n).target? = some f) : typeOf n = .declared f [] := by
  rw [typeOf_of_typeIdentifier hkind, Typing.namedType, if_neg h]
  cases hresolve : resolve .type n with
  | declaration g =>
    rw [hresolve] at htarget
    cases htarget
    rfl
  | unresolved g =>
    rw [hresolve] at htarget
    cases htarget
    rfl
  | localVariable =>
    rw [hresolve] at htarget
    cases htarget
  | typeParameter name =>
    rw [hresolve] at htarget
    cases htarget

/-- Outside of the table, a name that refers to nothing is a type parameter or not identified. -/
theorem typeOf_of_no_target (hkind : n.kind = "type_identifier") (h : n.text ∉ primitiveNames)
    (htarget : (resolve .type n).target? = none) :
    (∃ name, typeOf n = .typeParameter name) ∨ ∃ text, typeOf n = .notIdentified text := by
  rw [typeOf_of_typeIdentifier hkind, Typing.namedType, if_neg h]
  cases hresolve : resolve .type n with
  | declaration g =>
    rw [hresolve] at htarget
    cases htarget
  | unresolved g =>
    rw [hresolve] at htarget
    cases htarget
  | localVariable => exact .inr ⟨_, rfl⟩
  | typeParameter name => exact .inl ⟨_, rfl⟩

/-- A name that no scope binds refers to itself. -/
theorem target?_of_unbound (h : lookup? n .type n.text = none) :
    (resolve .type n).target? = some (.bare n.text) := by
  rw [resolve, h]
  rfl

end Description

/-! ## Which edge a type name has -/

/-- Type names declare nothing. -/
theorem declares_of_typeIdentifier {resolve : String → QName} {module : QName} {t : Syntax.Tree α}
    {u : Syntax.Tree Note} (hu : u ∈ (analyse resolve module t).subtrees)
    (hkind : u.kind = "type_identifier") : u.note.declares = none := by
  obtain ⟨t', task, frame, taken, inner, hlabel, hnote⟩ := exists_plan_annotate resolve t _ _ _ hu
  have hname : t'.kind = "type_identifier" := (congrArg Syntax.Label.kind hlabel).symm.trans hkind
  rw [hnote]
  exact Plan.declares_ofTask_eq_none resolve task frame taken (.inl (by rw [hname]; rfl))
    (by rw [hname]; decide)

/-- What is recorded at a type name is its edge as a reference. -/
theorem Visit.edges_of_typeIdentifier {resolve : String → QName} {module owner : QName}
    {t : Syntax.Tree α} {v : Visit} (o : Origin)
    (hv : v ∈ walk Extractor.all owner (analyse resolve module t))
    (hkind : v.node.kind = "type_identifier") :
    v.edges o = typeIdentifierEdges v.owner v.node := by
  have hvariable : v.declaredVariable? = none :=
    v.declaredVariable?_of_unnamed (declares_of_typeIdentifier (tree_mem_of_mem_walk hv) hkind)
  have hconcepts : v.concepts Extractor.all o =
      .ok ((typeIdentifierEdges v.owner v.node).map (Concept.mk .edge)) := by
    unfold Visit.concepts
    rw [hvariable, handledRole?_all, hkind]
    rfl
  exact (v.records_of_ok hconcepts).trans (filterMap_as?_self _)

theorem typeIdentifierEdges_of_target {n : ScopedNode} (hname : isDeclarationName n = false)
    {f : QName} (htarget : (resolve .type n).target? = some f) (owner : QName) :
    typeIdentifierEdges owner n =
      if owner = f then [] else [⟨owner, f, usage n .typeReference⟩] := by
  rw [typeIdentifierEdges, hname, htarget]
  rfl

theorem typeIdentifierEdges_of_no_target {n : ScopedNode}
    (htarget : (resolve .type n).target? = none) (owner : QName) :
    typeIdentifierEdges owner n = [] := by
  rw [typeIdentifierEdges, htarget, ite_self]

/-- The edges of a file are those recorded at its visits, and no node is visited twice. At a visited
type name that is not the name of a declaration,

* a type that is described as declared has one edge, which leads there, or none if that is where
  the edge would start;
* a type parameter and a type that is not identified have no edge;
* a type that is described as primitive is a name of the table, and has the edge of what the scopes
  say about this name: none if it is a type parameter or a local, and one to the bare name if no
  scope binds it. -/
theorem type_names_have_edges {o : Origin} {resolve : String → QName} {module : QName}
    {t : Syntax.Tree α} {m : Model}
    (hmodel : fileModel Extractor.all o (analyse resolve module t) = .ok m) :
    m.edges = (walk Extractor.all o.module (analyse resolve module t)).flatMap (·.edges o) ∧
    List.Sublist ((walk Extractor.all o.module (analyse resolve module t)).map (·.node))
      (Syntax.Node.root (analyse resolve module t)).descendants ∧
    ∀ v ∈ walk Extractor.all o.module (analyse resolve module t),
      v.node.kind = "type_identifier" → isDeclarationName v.node = false →
      (∀ f args, typeOf v.node = .declared f args →
        v.edges o = if v.owner = f then [] else [⟨v.owner, f, usage v.node .typeReference⟩]) ∧
      (∀ name, typeOf v.node = .typeParameter name ∨ typeOf v.node = .notIdentified name →
        v.edges o = []) ∧
      ∀ p, typeOf v.node = .primitive p → p = v.node.text ∧ p ∈ primitiveNames ∧
        (∀ f, (ScopedNode.resolve .type v.node).target? = some f →
          v.edges o = if v.owner = f then [] else [⟨v.owner, f, usage v.node .typeReference⟩]) ∧
        ((ScopedNode.resolve .type v.node).target? = none → v.edges o = []) ∧
        (lookup? v.node .type p = none →
          (ScopedNode.resolve .type v.node).target? = some (.bare p)) := by
  refine ⟨get_fileModel (k := .edge) (by decide) hmodel, nodes_walk _ _, fun v hv hkind hname => ?_⟩
  have hedges := Visit.edges_of_typeIdentifier o hv hkind
  have hsome (f : QName) (htarget : (ScopedNode.resolve .type v.node).target? = some f) :
      v.edges o = if v.owner = f then [] else [⟨v.owner, f, usage v.node .typeReference⟩] :=
    hedges.trans (typeIdentifierEdges_of_target hname htarget v.owner)
  have hnone (htarget : (ScopedNode.resolve .type v.node).target? = none) : v.edges o = [] :=
    hedges.trans (typeIdentifierEdges_of_no_target htarget v.owner)
  by_cases htable : v.node.text ∈ primitiveNames
  · have htype := typeOf_of_mem_primitiveNames hkind htable
    rw [htype]
    refine ⟨fun f args h => (by cases h), fun name h => (by rcases h with h | h <;> cases h), ?_⟩
    rintro p ⟨⟩
    exact ⟨rfl, htable, hsome, hnone, target?_of_unbound⟩
  · cases htarget : (ScopedNode.resolve .type v.node).target? with
    | some g =>
      rw [typeOf_of_target hkind htable htarget]
      refine ⟨?_, fun name h => (by rcases h with h | h <;> cases h), fun p h => (by cases h)⟩
      rintro f args ⟨⟩
      exact hsome _ htarget
    | none =>
      refine ⟨fun f args h => ?_, fun _ _ => hnone htarget, fun p h => ?_⟩
      all_goals
        rcases typeOf_of_no_target hkind htable htarget with ⟨name, h'⟩ | ⟨text, h'⟩ <;>
          cases h'.symm.trans h

/-- The type alias `type name<parameter> = […]` of a tuple of type names. -/
def tupleAlias (name parameter : String) (parts : List String) : Syntax.Tree Unit :=
  sampleNode "type_alias_declaration" [] "" [
    sampleNode "type_identifier" ["name"] name [],
    sampleNode "type_parameters" ["type_parameters"] "" [
      sampleNode "type_parameter" [] "" [sampleNode "type_identifier" ["name"] parameter []]],
    sampleNode "tuple_type" ["value"] "" (parts.map fun part =>
      sampleNode "type_identifier" [] part [])]

/-- The type aliases `type T<P> = [P, T, A, bigint]` and `type U<bigint> = [bigint]`. -/
def namedTypesTree : Syntax.Tree Unit :=
  sampleNode "program" [] "" [
    tupleAlias "T" "P" ["P", "T", "A", "bigint"],
    tupleAlias "U" "bigint" ["bigint"]]

/-- The types that the names visited in a tree are described as. -/
def visitedTypes (t : Syntax.Tree Unit) : List TypeDesc :=
  ((walk Extractor.all sampleOrigin.module (sampleNotes t)).filter fun v =>
    v.node.kind == "type_identifier" && !isDeclarationName v.node).map fun v => typeOf v.node

/-- A type parameter, the alias itself, an unknown name, a primitive name and a type parameter that
goes by a primitive name: two of them have an edge. -/
theorem type_names_have_edges_tuples :
    visitedTypes namedTypesTree = [.typeParameter "P", .declared ⟨"\"/p/a.ts\".T"⟩ [],
      .declared (.bare "A") [], .primitive "bigint", .primitive "bigint"] ∧
    ∃ m, fileModel Extractor.all sampleOrigin (sampleNotes namedTypesTree) = .ok m ∧
      m.edges = [⟨⟨"\"/p/a.ts\".T"⟩, .bare "A", .typeReference⟩,
        ⟨⟨"\"/p/a.ts\".T"⟩, .bare "bigint", .typeReference⟩] ∧
      ∀ v ∈ walk Extractor.all sampleOrigin.module (sampleNotes namedTypesTree),
        v.node.kind = "type_identifier" → isDeclarationName v.node = false →
        (∀ f args, typeOf v.node = .declared f args → v.edges sampleOrigin =
          if v.owner = f then [] else [⟨v.owner, f, usage v.node .typeReference⟩]) ∧
        ∀ name, typeOf v.node = .typeParameter name ∨ typeOf v.node = .notIdentified name →
          v.edges sampleOrigin = [] := by
  have hsample : (fileModel Extractor.all sampleOrigin (sampleNotes namedTypesTree)).toOption.map
      (·.edges) = some [⟨⟨"\"/p/a.ts\".T"⟩, .bare "A", .typeReference⟩,
        ⟨⟨"\"/p/a.ts\".T"⟩, .bare "bigint", .typeReference⟩] := by decide +kernel
  obtain ⟨m, hmodel, hedges⟩ := exists_ok_of_map hsample
  refine ⟨by decide +kernel, m, hmodel, hedges, fun v hv hkind hname => ?_⟩
  have h := (type_names_have_edges hmodel).2.2 v hv hkind hname
  exact ⟨h.1, h.2.1⟩

/-- The type alias `type T = bigint`. -/
def bigIntegerAlias : Syntax.Tree Unit :=
  sampleNode "program" [] "" [
    sampleNode "type_alias_declaration" [] "" [
      sampleNode "type_identifier" ["name"] "T" [],
      sampleNode "type_identifier" ["value"] "bigint" []]]

/-- A type name that is described as primitive has an edge: `bigint` counts as a dependency. -/
theorem big_integer_has_edge :
    (∃ m, fileModel Extractor.all sampleOrigin (sampleNotes bigIntegerAlias) = .ok m) ∧
    ∃ v ∈ walk Extractor.all sampleOrigin.module (sampleNotes bigIntegerAlias),
      v.node.kind = "type_identifier" ∧ isDeclarationName v.node = false ∧
      typeOf v.node = .primitive "bigint" ∧
      v.edges sampleOrigin = [⟨⟨"\"/p/a.ts\".T"⟩, .bare "bigint", .typeReference⟩] := by
  have hok : (fileModel Extractor.all sampleOrigin
      (sampleNotes bigIntegerAlias)).toOption.map (fun _ => ()) = some () := by decide +kernel
  obtain ⟨m, hmodel, -⟩ := exists_ok_of_map hok
  exact ⟨⟨m, hmodel⟩, by decide +kernel⟩

end Extract

end CodeConcepts
