import CodeConcepts.Proofs.Completion

/-!
# Module dependencies count references

A module dependency is counted in two steps: edges are counted by pair of declarations, and these
counts are added up by pair of modules. `Tally.total_regroup_ofList` says that counting what was
counted before gives the same totals as counting the list itself, up to what is lost when a count
of 64 bits is full. Nothing is lost as long as the totals fit (`Tally.exact_of_total_lt`).

`ModulesCounted m r` says what completing a model has to make of its edges, with one look at the
edges themselves: how many of them lead from one module to another once exports are followed.
-/

namespace CodeConcepts

variable {pairs : List ((QName × QName) × Nat)} {modules : List QName}

namespace Tally

/-! ## Counting what was counted -/

/-- The counts of a list under other pairs; a pair that is given none is left out. -/
def regroup (f : QName × QName → Option (QName × QName)) (pairs : List ((QName × QName) × Nat)) :
    List ((QName × QName) × Nat) :=
  pairs.filterMap fun x => (f x.1).map (·, x.2)

variable (f : QName × QName → Option (QName × QName))

theorem total_regroup_cons (x : (QName × QName) × Nat) (rest : List ((QName × QName) × Nat))
    (q : QName × QName) :
    total (regroup f (x :: rest)) q =
      (if f x.1 = some q then x.2 else 0) + total (regroup f rest) q := by
  unfold regroup
  rw [List.filterMap_cons]
  cases f x.1 with
  | none => simp
  | some p =>
    show total ((p, x.2) :: _) q = _
    rw [total]
    by_cases e : p = q
    · simp [e]
    · simp [e]

/-- Adding to a pair adds to the pair it is counted under, except for what does not fit. -/
theorem total_regroup_add (t : Tally) (p : QName × QName) (n : Nat) (q : QName × QName) :
    ∃ lost, total (regroup f (t.add p n)) q + lost * wordSize =
      total (regroup f t) q + if f p = some q then n else 0 := by
  -- a count that was full starts again from what is left
  have hfull (k : Nat) : k % wordSize + k / wordSize * wordSize = k := by
    rw [Nat.mul_comm]
    exact Nat.mod_add_div k wordSize
  induction t with
  | nil =>
    refine ⟨if f p = some q then n / wordSize else 0, ?_⟩
    rw [add, total_regroup_cons]
    have := hfull n
    split <;> simp only [regroup, total, List.filterMap_nil] <;> omega
  | cons x rest ih =>
    obtain ⟨r, k⟩ := x
    unfold add
    split
    · refine ⟨if f p = some q then n / wordSize else 0, ?_⟩
      rw [total_regroup_cons]
      have := hfull n
      dsimp only
      split <;> omega
    · split
      · next hpr =>
        subst hpr
        refine ⟨if f p = some q then (k + n) / wordSize else 0, ?_⟩
        rw [total_regroup_cons, total_regroup_cons]
        have := hfull (k + n)
        dsimp only
        split <;> omega
      · obtain ⟨lost, hlost⟩ := ih
        refine ⟨lost, ?_⟩
        rw [total_regroup_cons, total_regroup_cons]
        omega

theorem total_regroup_foldl (pairs : List ((QName × QName) × Nat)) (t : Tally)
    (q : QName × QName) :
    ∃ lost, total (regroup f (pairs.foldl (fun t x => add x.1 x.2 t) t)) q + lost * wordSize =
      total (regroup f t) q + total (regroup f pairs) q := by
  induction pairs generalizing t with
  | nil => exact ⟨0, by simp [regroup, total]⟩
  | cons x rest ih =>
    obtain ⟨later, hlater⟩ := ih (t.add x.1 x.2)
    obtain ⟨now, hnow⟩ := total_regroup_add f t x.1 x.2 q
    refine ⟨later + now, ?_⟩
    rw [List.foldl_cons, total_regroup_cons, Nat.add_mul]
    omega

/-- Counting what was counted before gives the totals of the list, except for what does not fit. -/
theorem total_regroup_ofList (pairs : List ((QName × QName) × Nat)) (q : QName × QName) :
    ∃ lost, total (regroup f (ofList pairs)) q + lost * wordSize = total (regroup f pairs) q := by
  obtain ⟨lost, hlost⟩ := total_regroup_foldl f pairs [] q
  exact ⟨lost, hlost.trans (Nat.zero_add _)⟩

theorem mem_keys_ofList {q : QName × QName} :
    q ∈ (ofList pairs).map Prod.fst ↔ q ∈ pairs.map Prod.fst := by
  constructor
  · intro h
    obtain ⟨⟨r, c⟩, hx, rfl⟩ := List.mem_map.mp h
    exact (mem_ofList.mp hx).1
  · exact fun h => List.mem_map.mpr ⟨(q, _), mem_ofList.mpr ⟨h, rfl⟩, rfl⟩

theorem mem_keys_regroup {q : QName × QName} :
    q ∈ (regroup f pairs).map Prod.fst ↔ ∃ p ∈ pairs.map Prod.fst, f p = some q := by
  unfold regroup
  simp only [List.mem_map, List.mem_filterMap, Option.map_eq_some_iff]
  constructor
  · rintro ⟨_, ⟨x, hx, p, hp, rfl⟩, rfl⟩
    exact ⟨x.1, ⟨x, hx, rfl⟩, hp⟩
  · rintro ⟨_, ⟨x, hx, rfl⟩, hp⟩
    exact ⟨(q, x.2), ⟨x, hx, q, hp, rfl⟩, rfl⟩

/-! ## Counts that fit -/

/-- No addition that counting a list takes goes beyond 64 bits. -/
def Exact (pairs : List ((QName × QName) × Nat)) : Prop :=
  ∀ before p n after, pairs = before ++ (p, n) :: after →
    ((ofList before).lookup p).getD 0 + n < wordSize

theorem lookup_ofList_le (pairs : List ((QName × QName) × Nat)) (q : QName × QName) :
    ((ofList pairs).lookup q).getD 0 ≤ total pairs q := by
  cases h : (ofList pairs).lookup q with
  | none => exact Nat.zero_le _
  | some c =>
    rw [← (increasing_ofList pairs).mem_iff_lookup, mem_ofList] at h
    rw [h.2]
    exact Nat.mod_le _ _

theorem total_append (xs ys : List ((QName × QName) × Nat)) (q : QName × QName) :
    total (xs ++ ys) q = total xs q + total ys q := by
  induction xs with
  | nil => simp [total]
  | cons x xs ih =>
    rw [List.cons_append, total, total, ih]
    split <;> omega

/-- On the way to a total that fits, everything fits. -/
theorem exact_of_total_lt (h : ∀ q, total pairs q < wordSize) : Exact pairs := by
  rintro before p n after rfl
  have hsofar := lookup_ofList_le before p
  have htotal := h p
  rw [total_append, total, if_pos rfl] at htotal
  omega

end Tally

namespace Model

open ExportTable

/-! ## Crossings -/

/-- The pair of modules that a reference from one name to another crosses. -/
def crossed? (modules : List QName) (p : QName × QName) : Option (QName × QName) :=
  match p.1.moduleName?, p.2.moduleName? with
  | some s, some t => if s ≠ t ∧ s ∈ modules ∧ t ∈ modules then some (s, t) else none
  | _, _ => none

theorem crossed?_eq_some {p : QName × QName} {s t : QName} :
    crossed? modules p = some (s, t) ↔ (s ≠ t ∧ s ∈ modules ∧ t ∈ modules) ∧
      p.1.moduleName? = some s ∧ p.2.moduleName? = some t := by
  unfold crossed?
  cases p.1.moduleName? with
  | none => simp
  | some a =>
    cases p.2.moduleName? with
    | none => simp
    | some b =>
      dsimp only
      split
      · next h =>
        simp only [Option.some.injEq, Prod.mk.injEq]
        constructor
        · rintro ⟨rfl, rfl⟩
          exact ⟨h, rfl, rfl⟩
        · exact fun h => h.2
      · next h =>
        simp only [Option.some.injEq, reduceCtorEq, false_iff]
        rintro ⟨hmodules, rfl, rfl⟩
        exact h hmodules

/-- What is counted when edges are aggregated. -/
def edgePairs (edges : List Edge) : List ((QName × QName) × Nat) :=
  (edges.filter fun e => e.source ≠ e.target).map fun e => ((e.source, e.target), 1)

/-- What is counted when module dependencies are derived. -/
def modulePairs (modules : List QName) (ds : List Dependency) : List ((QName × QName) × Nat) :=
  ds.filterMap fun d => (crossing? modules d).map (·, d.cardinality)

theorem tallyEdges_eq (edges : List Edge) : tallyEdges edges = .ofList (edgePairs edges) := rfl

theorem tallyModules_eq (modules : List QName) (ds : List Dependency) :
    tallyModules modules ds = .ofList (modulePairs modules ds) := rfl

/-- The counts of aggregated edges, by pair of modules. -/
theorem modulePairs_aggregated (modules : List QName) (labels : List (QName × String))
    (t : Tally) :
    modulePairs modules (t.map (dependencyOf labels)) = Tally.regroup (crossed? modules) t := by
  unfold modulePairs Tally.regroup
  rw [List.filterMap_map]
  rfl

/-- The edges that lead from one module to another. -/
def edgesAcross (edges : List Edge) (s t : QName) : List Edge :=
  edges.filter fun e => e.source.moduleName? = some s ∧ e.target.moduleName? = some t

/-- Each edge that crosses a pair of modules adds one to its total. An edge from a name to itself
crosses none. -/
theorem total_regroup_edgePairs {s t : QName} (hne : s ≠ t) (hs : s ∈ modules) (ht : t ∈ modules)
    (edges : List Edge) :
    Tally.total (Tally.regroup (crossed? modules) (edgePairs edges)) (s, t) =
      (edgesAcross edges s t).length := by
  unfold edgePairs edgesAcross
  induction edges with
  | nil => rfl
  | cons e edges ih =>
    by_cases hacross : e.source.moduleName? = some s ∧ e.target.moduleName? = some t
    · have hloop : e.source ≠ e.target := by
        intro h
        rw [h, hacross.2] at hacross
        exact hne (Option.some.inj hacross.1).symm
      have hcrossed : crossed? modules (e.source, e.target) = some (s, t) :=
        crossed?_eq_some.mpr ⟨⟨hne, hs, ht⟩, hacross⟩
      rw [List.filter_cons_of_pos (by simpa using hloop), List.map_cons,
        Tally.total_regroup_cons, if_pos hcrossed, ih,
        List.filter_cons_of_pos (by simpa using hacross), List.length_cons, Nat.add_comm]
    · have hcrossed : crossed? modules (e.source, e.target) ≠ some (s, t) :=
        fun h => hacross (crossed?_eq_some.mp h).2
      conv_rhs => rw [List.filter_cons_of_neg (by simpa using hacross)]
      rw [← ih, List.filter_cons]
      split
      · rw [List.map_cons, Tally.total_regroup_cons, if_neg hcrossed, Nat.zero_add]
      · rfl

theorem mem_keys_edgePairs {edges : List Edge} {s t : QName} :
    (s, t) ∈ (Tally.regroup (crossed? modules) (edgePairs edges)).map Prod.fst ↔
      s ≠ t ∧ s ∈ modules ∧ t ∈ modules ∧ 0 < (edgesAcross edges s t).length := by
  rw [Tally.mem_keys_regroup, List.length_pos_iff_exists_mem]
  unfold edgePairs edgesAcross
  simp only [List.map_map, List.mem_map, List.mem_filter, decide_eq_true_eq]
  constructor
  · rintro ⟨p, ⟨e, ⟨he, -⟩, rfl⟩, hcrossed⟩
    obtain ⟨⟨hne, hs, ht⟩, hacross⟩ := crossed?_eq_some.mp hcrossed
    exact ⟨hne, hs, ht, e, he, hacross⟩
  · rintro ⟨hne, hs, ht, e, he, hacross⟩
    refine ⟨_, ⟨e, ⟨he, fun h => hne ?_⟩, rfl⟩, crossed?_eq_some.mpr ⟨⟨hne, hs, ht⟩, hacross⟩⟩
    rw [h, hacross.2] at hacross
    exact (Option.some.inj hacross.1).symm

/-- The module dependencies that follow from counted edges. -/
theorem mem_tallyModules {labels : List (QName × String)} {edges : List Edge} {s t : QName}
    {c : Nat} :
    ((s, t), c) ∈ tallyModules modules ((tallyEdges edges).map (dependencyOf labels)) ↔
      (s ≠ t ∧ s ∈ modules ∧ t ∈ modules ∧ 0 < (edgesAcross edges s t).length) ∧
        c = (edgesAcross edges s t).length % Tally.wordSize := by
  rw [tallyModules_eq, modulePairs_aggregated, Tally.mem_ofList, Tally.mem_keys_regroup,
    tallyEdges_eq]
  simp only [Tally.mem_keys_ofList]
  rw [← Tally.mem_keys_regroup, mem_keys_edgePairs]
  refine and_congr_right ?_
  rintro ⟨hne, hs, ht, -⟩
  obtain ⟨lost, hlost⟩ := Tally.total_regroup_ofList (crossed? modules) (edgePairs edges) (s, t)
  rw [← total_regroup_edgePairs hne hs ht, ← hlost, Nat.add_mul_mod_self_right]

/-! ## Counts that fit -/

theorem total_edgePairs_le (edges : List Edge) (q : QName × QName) :
    Tally.total (edgePairs edges) q ≤ edges.length := by
  by_cases hne : q.1 = q.2
  · -- nothing is counted for a name and itself
    rw [Tally.total_eq_zero]
    · exact Nat.zero_le _
    · unfold edgePairs
      simp only [List.map_map, List.mem_map, List.mem_filter, decide_eq_true_eq]
      rintro ⟨e, ⟨-, he⟩, rfl⟩
      exact he hne
  · unfold edgePairs
    rw [total_pairs hne]
    exact List.length_filter_le _ _

theorem total_modulePairs_le (modules : List QName) (labels : List (QName × String))
    (edges : List Edge) (q : QName × QName) :
    Tally.total (modulePairs modules ((tallyEdges edges).map (dependencyOf labels))) q ≤
      edges.length := by
  obtain ⟨s, t⟩ := q
  rw [modulePairs_aggregated, tallyEdges_eq]
  obtain ⟨lost, hlost⟩ := Tally.total_regroup_ofList (crossed? modules) (edgePairs edges) (s, t)
  refine Nat.le_trans (Nat.le_add_right _ (lost * Tally.wordSize)) (hlost ▸ ?_)
  by_cases hkey : s ≠ t ∧ s ∈ modules ∧ t ∈ modules
  · obtain ⟨hne, hs, ht⟩ := hkey
    rw [total_regroup_edgePairs hne hs ht]
    exact List.length_filter_le _ _
  · rw [Tally.total_eq_zero fun h => ?_]
    · exact Nat.zero_le _
    · obtain ⟨hne, hs, ht, -⟩ := mem_keys_edgePairs.mp h
      exact hkey ⟨hne, hs, ht⟩

/-! ## The result -/

/-- The edges of a model that lead from one module to another once exports are followed. -/
def crossings (m : Model) (s t : QName) : List Edge :=
  m.edges.filter fun e => ((ofModel m).resolved e.source).moduleName? = some s ∧
    ((ofModel m).resolved e.target).moduleName? = some t

/-- One module dependency stands before another: the bytes of the sources decide, then those of the
targets. -/
def ModuleBefore (a b : ModuleDependency) : Prop :=
  Text.bytes a.source.text < Text.bytes b.source.text ∨
    a.source = b.source ∧ Text.bytes a.target.text < Text.bytes b.target.text

/-- What completing a model has to make of its edges, if it has no dependencies yet. -/
structure ModulesCounted (m r : Model) : Prop where
  /-- There is a module dependency for a pair exactly if it is a pair of different modules of the
  result and some edge crosses it. -/
  pair : ∀ s t, (∃ d ∈ r.moduleDependencies, d.source = s ∧ d.target = t) ↔
    s ≠ t ∧ s ∈ r.modules.map (·.fqn) ∧ t ∈ r.modules.map (·.fqn) ∧ 0 < (m.crossings s t).length
  /-- Counts have 64 bits. -/
  wrapped : ∀ d ∈ r.moduleDependencies,
    d.cardinality = (m.crossings d.source d.target).length % Tally.wordSize
  /-- As long as 64 bits are enough to number the edges, the count is the number of edges. -/
  counted : m.edges.length < Tally.wordSize → ∀ d ∈ r.moduleDependencies,
    d.cardinality = (m.crossings d.source d.target).length
  /-- Then also every addition stays within 64 bits, when edges are counted and when their counts
  are added up. -/
  exact : m.edges.length < Tally.wordSize →
    Tally.Exact (edgePairs m.resolveExports.edges) ∧
      Tally.Exact (modulePairs (r.modules.map (·.fqn)) r.dependencies)
  single : (r.moduleDependencies.map fun d => (d.source, d.target)).Nodup
  increasing : r.moduleDependencies.Pairwise ModuleBefore

/-- Following exports keeps the edges and replaces their ends. -/
theorem edgesAcross_resolveExports (m : Model) (s t : QName) :
    (edgesAcross m.resolveExports.edges s t).length = (m.crossings s t).length := by
  have hedges : m.resolveExports.edges = m.edges.map (mapNames (ofModel m).resolved) := by
    show m.resolveExports.get .edge = _
    rw [resolveExports_eq_mapNames, get_mapNames]
    rfl
  unfold edgesAcross crossings
  rw [hedges, List.filter_map, List.length_map]
  rfl

theorem moduleBefore_of_precedes {x y : (QName × QName) × Nat}
    (h : Tally.precedes x.1 y.1 = true) :
    ModuleBefore ⟨x.1.1, x.1.2, x.2⟩ ⟨y.1.1, y.1.2, y.2⟩ := by
  rcases Tally.precedes_iff.mp h with hs | ⟨hs, ht⟩
  · exact .inl (QName.lt_iff_bytes_lt.mp hs)
  · exact .inr ⟨hs, QName.lt_iff_bytes_lt.mp ht⟩

/-- The module dependencies of a completed model. -/
theorem modulesCounted {m r : Model} (hdependencies : r.dependencies =
      (tallyEdges m.resolveExports.edges).map (dependencyOf m.resolveExports.labels))
    (hmodules : r.moduleDependencies = (tallyModules (r.modules.map (·.fqn)) r.dependencies).map
      fun e => ⟨e.1.1, e.1.2, e.2⟩) : ModulesCounted m r := by
  have hlength : m.resolveExports.edges.length = m.edges.length := by
    show (m.resolveExports.get .edge).length = _
    rw [resolveExports_eq_mapNames, get_mapNames, List.length_map]
    rfl
  have hmem (d : ModuleDependency) : d ∈ r.moduleDependencies ↔
      (d.source ≠ d.target ∧ d.source ∈ r.modules.map (·.fqn) ∧ d.target ∈ r.modules.map (·.fqn) ∧
          0 < (m.crossings d.source d.target).length) ∧
        d.cardinality = (m.crossings d.source d.target).length % Tally.wordSize := by
    rw [← edgesAcross_resolveExports, ← mem_tallyModules, ← hdependencies, hmodules, List.mem_map]
    constructor
    · rintro ⟨e, he, rfl⟩
      exact he
    · exact fun h => ⟨_, h, rfl⟩
  have hincreasing : r.moduleDependencies.Pairwise ModuleBefore := by
    rw [hmodules, tallyModules_eq]
    exact List.Pairwise.map _ (fun _ _ h => moduleBefore_of_precedes h) (Tally.increasing_ofList _)
  constructor
  case pair =>
    intro s t
    constructor
    · rintro ⟨d, hd, rfl, rfl⟩
      exact ((hmem d).mp hd).1
    · intro h
      exact ⟨⟨s, t, (m.crossings s t).length % Tally.wordSize⟩, (hmem _).mpr ⟨h, rfl⟩, rfl, rfl⟩
  case wrapped => exact fun d hd => ((hmem d).mp hd).2
  case counted =>
    intro hfits d hd
    have hle : (m.crossings d.source d.target).length ≤ m.edges.length := List.length_filter_le _ _
    rw [((hmem d).mp hd).2, Nat.mod_eq_of_lt (Nat.lt_of_le_of_lt hle hfits)]
  case exact =>
    intro hfits
    rw [← hlength] at hfits
    rw [hdependencies]
    exact ⟨Tally.exact_of_total_lt fun q => Nat.lt_of_le_of_lt (total_edgePairs_le _ q) hfits,
      Tally.exact_of_total_lt fun q => Nat.lt_of_le_of_lt (total_modulePairs_le _ _ _ q) hfits⟩
  case single =>
    rw [hmodules, List.map_map, List.Nodup, List.pairwise_map]
    refine (Tally.increasing_ofList _).imp fun {x y} hxy hsame => ?_
    rw [show x.1 = y.1 from hsame] at hxy
    exact Tally.precedes_irrefl _ hxy
  case increasing => exact hincreasing

/-- Completing a model with one project that has no dependencies yet succeeds, and its module
dependencies are counted as `ModulesCounted` says. -/
theorem complete_counts_modules {m : Model} (hone : m.projects.length = 1)
    (hdependencies : m.dependencies = []) (hmodules : m.moduleDependencies = []) :
    ∃ r, m.complete = .ok r ∧ ModulesCounted m r := by
  -- following exports does not add records
  have hkept (k : Kind) (h : m.get k = []) : m.resolveExports.get k = [] := by
    rw [resolveExports_eq_mapNames, get_mapNames, h]
    rfl
  have hcomplete : m.complete = .ok m.resolveExports.aggregated.deriveModuleDependencies := by
    rw [complete_eq_of_one hone, show m.resolveExports.dependencies = [] from
      hkept .dependency hdependencies, List.nil_append]
    rfl
  have hother (k : Kind) (h : Kind.moduleDependency ≠ k) :
      m.resolveExports.aggregated.deriveModuleDependencies.get k =
        m.resolveExports.aggregated.get k := get_set_of_ne _ _ h
  refine ⟨_, hcomplete, modulesCounted ((hother .dependency (by decide)).trans ?_) ?_⟩
  · exact get_set_self _ _ _
  · have hnone : m.resolveExports.aggregated.moduleDependencies = [] :=
      ((aggregated_spec _).kept .moduleDependency (by decide) (by decide)).trans
        (hkept .moduleDependency hmodules)
    show m.resolveExports.aggregated.deriveModuleDependencies.get .moduleDependency =
      (tallyModules
        ((m.resolveExports.aggregated.deriveModuleDependencies.get .module).map (·.fqn))
        (m.resolveExports.aggregated.deriveModuleDependencies.get .dependency)).map _
    rw [hother .module (by decide), hother .dependency (by decide), deriveModuleDependencies,
      get_set_self, hnone, List.nil_append]
    rfl

/-- Three modules: the second passes on what the third exports. The first uses it from both and
depends on the third alone; the third uses it through the second, which leaves it at home. -/
theorem complete_counts_modules_passed_on :
    let passing : Model := .ofConcepts [⟨.project, ⟨"/p"⟩⟩,
      ⟨.module, ⟨.ofModule "./a.ts", "./a.ts"⟩⟩, ⟨.module, ⟨.ofModule "./b.ts", "./b.ts"⟩⟩,
      ⟨.module, ⟨.ofModule "./c.ts", "./c.ts"⟩⟩,
      ⟨.export, ⟨"*", none, .ofModule "./c.ts", false, .value, .ofModule "./b.ts"⟩⟩,
      ⟨.export, ⟨"x", none, (QName.ofModule "./c.ts").child "x", false, .value,
        .ofModule "./c.ts"⟩⟩,
      ⟨.edge, ⟨(QName.ofModule "./a.ts").child "f", (QName.ofModule "./b.ts").child "x", .read⟩⟩,
      ⟨.edge, ⟨.ofModule "./a.ts", (QName.ofModule "./c.ts").child "x", .call⟩⟩,
      ⟨.edge, ⟨.ofModule "./c.ts", (QName.ofModule "./b.ts").child "x", .read⟩⟩]
    passing.projects.length = 1 ∧ passing.dependencies = [] ∧ passing.moduleDependencies = [] ∧
      passing.edges.length < Tally.wordSize ∧
      ∃ r, passing.complete = .ok r ∧ ModulesCounted passing r ∧
        r.moduleDependencies = [⟨.ofModule "./a.ts", .ofModule "./c.ts", 2⟩] := by
  intro passing
  refine ⟨rfl, rfl, rfl, by decide, ?_⟩
  obtain ⟨r, hr, hcounted⟩ := complete_counts_modules (m := passing) rfl rfl rfl
  refine ⟨r, hr, hcounted, ?_⟩
  rw [complete_eq_of_one rfl] at hr
  obtain rfl := Except.ok.inj hr
  decide +kernel

end Model

end CodeConcepts
