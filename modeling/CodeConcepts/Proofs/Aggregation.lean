import CodeConcepts.Proofs.ByteOrder
import CodeConcepts.Proofs.Tally

/-!
# Aggregating edges is exact

Aggregation turns the edges of a model into counted dependencies. `Aggregated m r` says what the
result `r` has to be, without saying how it is computed: one dependency for each pair of different
names that some edge joins, with the number of these edges, in the order of bytes, with the word
for what declares its ends, and nothing else touched.

The words come from all declarations of the model, listed in order by `Model.declarations`; where a
name is declared more than once the last declaration counts (`LabelOf`).
-/

namespace CodeConcepts.Model

variable {m : Model}

/-! ## Labels -/

/-- All declarations with the word for what they are: kind by kind, record by record, each record
in front of its parts. -/
def declarations (m : Model) : List (QName × String) :=
  List.flatten [
    m.modules.map fun d => (d.fqn, "typescript-module"),
    m.functions.map fun d => (d.fqn, "function-declaration"),
    m.classes.flatMap fun d =>
      (d.fqn, "class-declaration") ::
        (d.constructors.map (fun c => (c.fqn, "constructor-declaration")) ++
          d.properties.map (fun p => (p.fqn, "property-declaration")) ++
          d.methods.map (fun f => (f.fqn, "method-declaration")) ++
          d.accessors.map (fun a => (a.fqn, "accessor-property"))),
    m.interfaces.flatMap fun d =>
      (d.fqn, "interface-declaration") ::
        (d.properties.map (fun p => (p.fqn, "property-declaration")) ++
          d.methods.map (fun f => (f.fqn, "method-declaration"))),
    m.typeAliases.map fun d => (d.fqn, "type-alias-declaration"),
    m.enums.flatMap fun d =>
      (d.fqn, "enum-declaration") :: d.members.map (fun e => (e.fqn, "enum-member")),
    m.variableDecls.map fun d => (d.fqn, "variable-declaration")]

theorem labels_eq_declarations (m : Model) : m.labels = m.declarations := by
  -- a kind without parts has one label a record
  have single {α : Type} (f : α → QName × String) (xs : List α) :
      xs.map f = xs.flatMap (fun x => [f x]) := by
    induction xs with
    | nil => rfl
    | cons x xs ih => rw [List.flatMap_cons, ← ih]; rfl
  unfold declarations
  rw [single _ m.modules, single _ m.functions, single _ m.typeAliases, single _ m.variableDecls]
  rfl

/-- What a list of declarations says of a name: the word of the last declaration of the name, or
nothing if there is none. -/
def LabelOf (declared : List (QName × String)) (n : QName) : Option String → Prop
  | some word => ∃ earlier later, declared = earlier ++ (n, word) :: later ∧ ∀ x ∈ later, x.1 ≠ n
  | none => ∀ x ∈ declared, x.1 ≠ n

theorem labelOf_labelIn? (declared : List (QName × String)) (n : QName) :
    LabelOf declared n (labelIn? declared n) := by
  unfold labelIn?
  cases hf : declared.reverse.find? (fun l => l.1 == n) with
  | none =>
    intro x hx e
    have := List.find?_eq_none.mp hf x (List.mem_reverse.mpr hx)
    exact this (by simp [e])
  | some l =>
    obtain ⟨hl, before, after, hsplit, hbefore⟩ := List.find?_eq_some_iff_append.mp hf
    obtain ⟨k, word⟩ := l
    have hk : k = n := by simpa using hl
    subst hk
    -- the search starts at the end, so what it passes over stands behind the declaration found
    refine ⟨after.reverse, before.reverse, ?_, ?_⟩
    · have := congrArg List.reverse hsplit
      simpa using this
    · intro x hx e
      have := hbefore x (List.mem_reverse.mp hx)
      simp [e] at this

/-! ## Counted edges -/

/-- The edges from one name to another. -/
def edgesBetween (m : Model) (s t : QName) : List Edge :=
  m.edges.filter fun e => e.source = s ∧ e.target = t

/-- Each edge of a pair adds one to its total. -/
theorem total_pairs {s t : QName} (hne : s ≠ t) (edges : List Edge) :
    Tally.total ((edges.filter fun e => e.source ≠ e.target).map
        fun e => ((e.source, e.target), 1)) (s, t) =
      (edges.filter fun e => e.source = s ∧ e.target = t).length := by
  induction edges with
  | nil => rfl
  | cons e edges ih =>
    by_cases hloop : e.source = e.target
    · -- an edge from a name to itself belongs to no such pair
      have hpair : ¬ (e.source = s ∧ e.target = t) := by
        rintro ⟨rfl, rfl⟩
        exact hne hloop
      rw [List.filter_cons_of_neg (by simpa using hloop),
        List.filter_cons_of_neg (by simpa using hpair), ih]
    · rw [List.filter_cons_of_pos (by simpa using hloop), List.map_cons, Tally.total, ih]
      by_cases hpair : e.source = s ∧ e.target = t
      · rw [if_pos (Prod.ext hpair.1 hpair.2), List.filter_cons_of_pos (by simpa using hpair),
          List.length_cons, Nat.add_comm]
      · rw [if_neg fun h => hpair (Prod.mk.inj h),
          List.filter_cons_of_neg (by simpa using hpair)]

theorem mem_tallyEdges {edges : List Edge} {s t : QName} {c : Nat} :
    ((s, t), c) ∈ tallyEdges edges ↔
      (s ≠ t ∧ ∃ e ∈ edges, e.source = s ∧ e.target = t) ∧
        c = (edges.filter fun e => e.source = s ∧ e.target = t).length % Tally.wordSize := by
  unfold tallyEdges
  rw [Tally.mem_ofList]
  have hkeys : (s, t) ∈ ((edges.filter fun e => e.source ≠ e.target).map
        fun e => ((e.source, e.target), 1)).map Prod.fst ↔
      s ≠ t ∧ ∃ e ∈ edges, e.source = s ∧ e.target = t := by
    simp only [List.map_map, List.mem_map, List.mem_filter, decide_eq_true_eq,
      Function.comp_apply, Prod.mk.injEq]
    constructor
    · rintro ⟨e, ⟨he, hne⟩, rfl, rfl⟩
      exact ⟨hne, e, he, rfl, rfl⟩
    · rintro ⟨hne, e, he, rfl, rfl⟩
      exact ⟨e, ⟨he, hne⟩, rfl, rfl⟩
  rw [hkeys]
  refine and_congr_right ?_
  rintro ⟨hne, -⟩
  rw [total_pairs hne]

/-! ## The pass -/

theorem aggregateEdges_of_one (h : m.projects.length = 1) :
    aggregateEdges.run.run m =
      (.ok (), (m.set .edge []).set .dependency
        (m.dependencies ++ (tallyEdges m.edges).map (dependencyOf m.labels))) := by
  -- the dependencies are read when the edges are already gone
  have hkept : (m.set .edge []).dependencies = m.dependencies :=
    get_set_of_ne m (k := .edge) (l := .dependency) [] (by decide)
  rw [← hkept]
  show (if m.projects.length ≠ 1 then _ else _ : StateM Model (Except Violation Unit)) m = _
  rw [if_neg (not_not_intro h)]
  rfl

theorem aggregateEdges_of_not_one (h : m.projects.length ≠ 1) :
    aggregateEdges.run.run m = (.error (.projectCount m.projects.length), m) := by
  show (if m.projects.length ≠ 1 then _ else _ : StateM Model (Except Violation Unit)) m = _
  rw [if_pos h]
  rfl

/-! ## The result -/

/-- One dependency stands before another: the bytes of the sources decide, then those of the
targets. -/
def Before (a b : Dependency) : Prop :=
  Text.bytes a.source.text < Text.bytes b.source.text ∨
    a.source = b.source ∧ Text.bytes a.target.text < Text.bytes b.target.text

/-- What aggregation has to make of a model that has no dependencies yet. -/
structure Aggregated (m r : Model) : Prop where
  /-- There is a dependency for a pair of names exactly if an edge joins them and they differ. -/
  pair : ∀ s t, (∃ d ∈ r.dependencies, d.source = s ∧ d.target = t) ↔
    s ≠ t ∧ ∃ e ∈ m.edges, e.source = s ∧ e.target = t
  /-- Counts have 64 bits. -/
  wrapped : ∀ d ∈ r.dependencies,
    d.cardinality = (m.edgesBetween d.source d.target).length % Tally.wordSize
  /-- As long as 64 bits are enough to number the edges, the count is the number of edges. -/
  counted : m.edges.length < Tally.wordSize → ∀ d ∈ r.dependencies,
    d.cardinality = (m.edgesBetween d.source d.target).length
  increasing : r.dependencies.Pairwise Before
  source : ∀ d ∈ r.dependencies, LabelOf m.declarations d.source d.sourceType
  target : ∀ d ∈ r.dependencies, ∃ word,
    LabelOf m.declarations d.target word ∧ d.targetType = word.getD "external"
  drained : r.edges = []
  kept : ∀ k, k ≠ .edge → k ≠ .dependency → r.get k = m.get k

/-- The model that aggregation makes of a model without dependencies. -/
def aggregated (m : Model) : Model :=
  (m.set .edge []).set .dependency ((tallyEdges m.edges).map (dependencyOf m.labels))

theorem mem_aggregated {d : Dependency} :
    d ∈ m.aggregated.dependencies ↔
      ∃ s t c, ((s, t), c) ∈ tallyEdges m.edges ∧ dependencyOf m.labels ((s, t), c) = d := by
  show d ∈ m.aggregated.get .dependency ↔ _
  unfold aggregated
  rw [get_set_self, List.mem_map]
  exact ⟨fun ⟨⟨⟨s, t⟩, c⟩, h⟩ => ⟨s, t, c, h⟩, fun ⟨s, t, c, h⟩ => ⟨((s, t), c), h⟩⟩

theorem before_of_precedes {x y : (QName × QName) × Nat} (h : Tally.precedes x.1 y.1 = true) :
    Before (dependencyOf m.labels x) (dependencyOf m.labels y) := by
  rcases Tally.precedes_iff.mp h with hs | ⟨hs, ht⟩
  · exact .inl (QName.lt_iff_bytes_lt.mp hs)
  · exact .inr ⟨hs, QName.lt_iff_bytes_lt.mp ht⟩

theorem aggregated_spec (m : Model) : Aggregated m m.aggregated where
  pair := by
    intro s t
    constructor
    · rintro ⟨d, hd, rfl, rfl⟩
      obtain ⟨s, t, c, hmem, rfl⟩ := mem_aggregated.mp hd
      exact (mem_tallyEdges.mp hmem).1
    · intro h
      exact ⟨_, mem_aggregated.mpr ⟨s, t, _, mem_tallyEdges.mpr ⟨h, rfl⟩, rfl⟩, rfl, rfl⟩
  wrapped := by
    intro d hd
    obtain ⟨s, t, c, hmem, rfl⟩ := mem_aggregated.mp hd
    exact (mem_tallyEdges.mp hmem).2
  counted := by
    intro hlen d hd
    obtain ⟨s, t, c, hmem, rfl⟩ := mem_aggregated.mp hd
    have hle : (m.edgesBetween s t).length ≤ m.edges.length := List.length_filter_le _ _
    show c = (m.edgesBetween s t).length
    rw [(mem_tallyEdges.mp hmem).2]
    exact Nat.mod_eq_of_lt (Nat.lt_of_le_of_lt hle hlen)
  increasing := by
    show (m.aggregated.get .dependency).Pairwise Before
    unfold aggregated
    rw [get_set_self]
    exact List.Pairwise.map _ (fun _ _ h => before_of_precedes h) (Tally.increasing_ofList _)
  source := by
    intro d hd
    obtain ⟨s, t, c, -, rfl⟩ := mem_aggregated.mp hd
    rw [← labels_eq_declarations]
    exact labelOf_labelIn? m.labels s
  target := by
    intro d hd
    obtain ⟨s, t, c, -, rfl⟩ := mem_aggregated.mp hd
    rw [← labels_eq_declarations]
    exact ⟨_, labelOf_labelIn? m.labels t, rfl⟩
  drained := by
    show m.aggregated.get .edge = []
    unfold aggregated
    rw [get_set_of_ne _ _ (by decide), get_set_self]
  kept := by
    intro k hedge hdep
    unfold aggregated
    rw [get_set_of_ne _ _ (Ne.symm hdep), get_set_of_ne _ _ (Ne.symm hedge)]

/-- Aggregation is exact. On a model with one project and no dependencies it succeeds, and the
result is as `Aggregated` says; without a single project it fails, and the model stays as it was. -/
theorem aggregateEdges_exact (m : Model) :
    (m.projects.length = 1 → m.dependencies = [] →
      ∃ r, aggregateEdges.run.run m = (.ok (), r) ∧ Aggregated m r) ∧
    (m.projects.length ≠ 1 →
      aggregateEdges.run.run m = (.error (.projectCount m.projects.length), m)) := by
  refine ⟨fun hone hnone => ⟨m.aggregated, ?_, aggregated_spec m⟩, aggregateEdges_of_not_one⟩
  rw [aggregateEdges_of_one hone, hnone, List.nil_append]
  rfl

/-- A module that reads a name no record declares, twice and in two ways, gets one dependency with
count two on something external; without its project the model is refused as it is. -/
theorem aggregateEdges_exact_console :
    let console : Model := .ofConcepts [⟨.project, ⟨"/p"⟩⟩,
      ⟨.module, ⟨.ofModule "./a.ts", "./a.ts"⟩⟩,
      ⟨.edge, ⟨.ofModule "./a.ts", .bare "console", .read⟩⟩,
      ⟨.edge, ⟨.ofModule "./a.ts", .bare "console", .call⟩⟩]
    (console.projects.length = 1 ∧ console.dependencies = [] ∧
      ∃ r, aggregateEdges.run.run console = (.ok (), r) ∧ Aggregated console r ∧
        r.dependencies = [⟨.ofModule "./a.ts", some "typescript-module", .bare "console",
          "external", 2⟩]) ∧
    ((console.set .project []).projects.length ≠ 1 ∧
      aggregateEdges.run.run (console.set .project []) =
        (.error (.projectCount 0), console.set .project [])) := by
  intro console
  refine ⟨⟨rfl, rfl, ?_⟩, by decide, (aggregateEdges_exact _).2 (by decide)⟩
  obtain ⟨r, hrun, hr⟩ := (aggregateEdges_exact console).1 rfl rfl
  refine ⟨r, hrun, hr, ?_⟩
  rw [aggregateEdges_of_one rfl] at hrun
  obtain rfl := congrArg Prod.snd hrun
  decide +kernel

end CodeConcepts.Model
