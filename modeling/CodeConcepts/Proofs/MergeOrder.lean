import CodeConcepts.Proofs.Completion
import Mathlib.Data.List.Perm.Basic

/-!
# The order of files

The models of the files are merged in the order in which the files were read. Two orders give
outcomes that differ in the order of records only, as long as the exports of each module stand in
one file (`assemble_perm`):

* following exports asks for the exports of one module at a time and for declared names, and neither
  depends on the order (`ExportTable.Alike`), so every name is replaced alike (`Alike.resolved_eq`);
* counts are listed in the order of names, whatever the order of what is counted
  (`Tally.ofList_perm`);
* the word for what declares a name is that of the last declaration, so it is safe only for names
  that are declared once (`labelIn?_perm`).
-/

namespace CodeConcepts

/-- If no two lists of a family share a key, the members with one key come in the same order
whichever way the lists are put together. -/
theorem filter_flatMap_of_perm {α β κ : Type} [DecidableEq κ] {f : α → List β} {key : β → κ}
    {xs ys : List α} (hperm : xs.Perm ys)
    (hapart : xs.Pairwise fun a b => ∀ x ∈ f a, ∀ y ∈ f b, key x ≠ key y) (c : κ) :
    (xs.flatMap f).filter (fun x => key x == c) = (ys.flatMap f).filter (fun x => key x == c) := by
  induction hperm with
  | nil => rfl
  | cons a _ ih =>
    rw [List.flatMap_cons, List.flatMap_cons, List.filter_append, List.filter_append,
      ih (List.pairwise_cons.mp hapart).2]
  | swap a b zs =>
    have hba := (List.pairwise_cons.mp hapart).1 a List.mem_cons_self
    have hnone {z : α} (h : ∀ x ∈ f z, key x ≠ c) : (f z).filter (fun x => key x == c) = [] := by
      rw [List.filter_eq_nil_iff]
      intro x hx
      simpa using h x hx
    simp only [List.flatMap_cons, List.filter_append]
    -- at most one of the two lists has members with the key
    by_cases h : ∃ x ∈ f b, key x = c
    · obtain ⟨x, hx, rfl⟩ := h
      rw [hnone fun y hy => Ne.symm (hba x hx y hy), List.nil_append, List.nil_append]
    · rw [hnone fun x hx e => h ⟨x, hx, e⟩, List.nil_append, List.nil_append]
  | trans hxy _ ih ih' =>
    refine (ih hapart).trans (ih' ((hxy.pairwise_iff ?_).mp hapart))
    intro a b hab x hx y hy
    exact Ne.symm (hab y hy x hx)

/-! ## Tallies -/

namespace Tally

theorem total_perm {pairs pairs' : List ((QName × QName) × Nat)} (h : pairs.Perm pairs')
    (q : QName × QName) : total pairs q = total pairs' q := by
  induction h with
  | nil => rfl
  | cons x _ ih => rw [total, total, ih]
  | swap x y rest =>
    simp only [total]
    split <;> split <;> omega
  | trans _ _ ih ih' => exact ih.trans ih'

/-- Tallies with the same entries are the same, since their order is fixed. -/
theorem Increasing.eq_of_mem_iff {t u : Tally} (ht : Increasing t) (hu : Increasing u)
    (h : ∀ x, x ∈ t ↔ x ∈ u) : t = u := by
  have hnodup {v : Tally} (hv : Increasing v) : v.Nodup := by
    refine List.Pairwise.imp ?_ hv
    intro x y hlt e
    rw [e] at hlt
    exact precedes_irrefl _ hlt
  refine List.Perm.eq_of_pairwise ?_ ht hu
    ((List.perm_ext_iff_of_nodup (hnodup ht) (hnodup hu)).mpr h)
  intro x y _ _ hxy hyx
  exact absurd (precedes_trans hxy hyx) (precedes_irrefl _)

theorem ofList_perm {pairs pairs' : List ((QName × QName) × Nat)} (h : pairs.Perm pairs') :
    ofList pairs = ofList pairs' := by
  refine (increasing_ofList pairs).eq_of_mem_iff (increasing_ofList pairs') ?_
  rintro ⟨q, c⟩
  rw [mem_ofList, mem_ofList, total_perm h, (h.map Prod.fst).mem_iff]

end Tally

/-! ## Export tables -/

namespace ExportTable

/-- Two tables have the same exports of each module, in the same order, and the same declared
names. -/
structure Alike (t u : ExportTable) : Prop where
  exports : ∀ m, t.exports.filter (fun e => e.exporter == m) =
    u.exports.filter (fun e => e.exporter == m)
  declared : ∀ n, n ∈ t.declared ↔ n ∈ u.declared

variable {t u : ExportTable}

theorem Alike.stars_eq (h : Alike t u) (m : QName) : t.stars m = u.stars m := by
  unfold stars
  rw [← List.filter_filter, ← List.filter_filter, h.exports m]

theorem Alike.named?_eq (h : Alike t u) (m : QName) (name : String) :
    t.named? m name = u.named? m name := by
  have hfind (v : ExportTable) :
      v.exports.find? (fun e => !isStar e && e.exporter == m && e.exportedName == name) =
        (v.exports.filter fun e => e.exporter == m).find?
          (fun e => !isStar e && e.exportedName == name) := by
    rw [List.find?_filter]
    congr 1
    funext e
    rw [Bool.decide_and, Bool.decide_eq_true, Bool.decide_eq_true, Bool.and_left_comm,
      Bool.and_assoc]
  unfold named?
  rw [hfind t, hfind u, h.exports m]

theorem Alike.declares_eq (h : Alike t u) (n : QName) : t.declares n = u.declares n := by
  unfold declares
  rw [Bool.eq_iff_iff, List.contains_iff_mem, List.contains_iff_mem, h.declared]

theorem Alike.reach_eq (h : Alike t u) (m : QName) : t.reach m = u.reach m := by
  obtain ⟨b, hb⟩ := t.reach_eq m
  obtain ⟨c, hc⟩ := u.reach_eq m
  rw [hb (max b c) (Nat.le_max_left b c), hc (max b c) (Nat.le_max_right b c),
    funext h.stars_eq]

theorem Alike.denote_eq (h : Alike t u) (steps : Nat) (entered : List (QName × String))
    (m : QName) (name : String) :
    t.denote steps entered m name = u.denote steps entered m name := by
  induction steps generalizing entered m name with
  | zero => rfl
  | succ steps ih =>
    rw [denote, denote, h.reach_eq m, h.declares_eq]
    simp only [h.named?_eq, h.declares_eq, ih]

theorem Alike.resolved_eq (h : Alike t u) : t.resolved = u.resolved := by
  funext n
  unfold resolved
  simp only [h.denote_eq]

end ExportTable

namespace Model

open ExportTable

/-! ## Merged models -/

/-- The models of files merged one after the other onto the record of the project. -/
def mergeAll (p : Project) (files : List Model) : Model :=
  files.foldl merge (ofConcepts [⟨.project, p⟩])

/-- What a run makes of the models of its files: they are merged, unified and completed. -/
def assemble (p : Project) (files : List Model) : Except Violation Model :=
  (Extraction.finish ⟨mergeAll p files, []⟩).map (·.model)

theorem get_foldl_merge (m : Model) (files : List Model) (k : Kind) :
    (files.foldl merge m).get k = m.get k ++ files.flatMap (·.get k) := by
  induction files generalizing m with
  | nil => simp
  | cons f files ih => rw [List.foldl_cons, ih, get_merge, List.flatMap_cons, List.append_assoc]

theorem get_mergeAll (p : Project) (files : List Model) {k : Kind} (hk : k ≠ .project) :
    (mergeAll p files).get k = files.flatMap (·.get k) := by
  have hseed : (ofConcepts [⟨.project, p⟩]).get k = [] := by
    cases k <;> first | rfl | exact absurd rfl hk
  rw [mergeAll, get_foldl_merge, hseed, List.nil_append]

theorem projects_mergeAll (p : Project) {files : List Model} (h : ∀ f ∈ files, f.projects = []) :
    (mergeAll p files).projects = [p] := by
  have hnone : files.flatMap (·.get .project) = [] := List.flatMap_eq_nil_iff.mpr h
  show (mergeAll p files).get .project = [p]
  rw [mergeAll, get_foldl_merge, hnone, List.append_nil]
  rfl

theorem get_mergeAll_perm (p : Project) {files files' : List Model} (hperm : files.Perm files')
    (k : Kind) : ((mergeAll p files).get k).Perm ((mergeAll p files').get k) := by
  rw [mergeAll, mergeAll, get_foldl_merge, get_foldl_merge]
  exact (hperm.flatMap_right _).append_left _

/-- The files keep to themselves which names their modules export. -/
def ExportersApart (files : List Model) : Prop :=
  files.Pairwise fun f g => ∀ e ∈ f.exports, ∀ d ∈ g.exports, e.exporter ≠ d.exporter

theorem alike_mergeAll (p : Project) {files files' : List Model} (hperm : files.Perm files')
    (hapart : ExportersApart files) :
    Alike (ofModel (mergeAll p files)) (ofModel (mergeAll p files')) where
  exports m := by
    show ((mergeAll p files).get .export).filter _ = ((mergeAll p files').get .export).filter _
    rw [get_mergeAll p files (by decide), get_mergeAll p files' (by decide)]
    exact filter_flatMap_of_perm hperm hapart m
  declared n := by
    unfold ofModel
    simp only [List.mem_flatMap]
    refine exists_congr fun k => and_congr_right fun _ => ?_
    exact ((get_mergeAll_perm p hperm k).filterMap _).mem_iff

theorem duplicates_mergeAll_perm (p : Project) {files files' : List Model}
    (hperm : files.Perm files') :
    (mergeAll p files).duplicates = [] ↔ (mergeAll p files').duplicates = [] := by
  rw [duplicates_eq_nil, duplicates_eq_nil]
  refine forall_congr' fun k => forall_congr' fun _ => ?_
  exact ((get_mergeAll_perm p hperm k).filterMap _).nodup_iff

/-! ## Labels -/

/-- Whether at most one record or part of a record declares a name. -/
def DeclaredOnce (m : Model) (n : QName) : Prop :=
  (m.declarations.filter fun d => d.1 == n).length ≤ 1

instance (m : Model) (n : QName) : Decidable (m.DeclaredOnce n) :=
  inferInstanceAs (Decidable (_ ≤ _))

theorem labelIn?_perm {declared declared' : List (QName × String)}
    (hperm : declared.Perm declared') {n : QName}
    (hone : (declared.filter fun d => d.1 == n).length ≤ 1) :
    labelIn? declared n = labelIn? declared' n := by
  have hlast (ds : List (QName × String)) :
      labelIn? ds n = ((ds.filter fun d => d.1 == n).reverse.head?).map (·.2) := by
    rw [labelIn?, ← List.head?_filter, List.filter_reverse]
  have hfilter := hperm.filter fun d => d.1 == n
  rw [hlast, hlast]
  -- there is nothing to reorder among at most one declaration
  match hmatch : declared.filter fun d => d.1 == n with
  | [] =>
    rw [hmatch] at hfilter
    rw [hmatch, hfilter.symm.eq_nil]
  | [d] =>
    rw [hmatch] at hfilter
    rw [hmatch, List.perm_singleton.mp hfilter.symm]
  | d :: e :: ds =>
    rw [hmatch] at hone
    simp at hone

theorem labels_perm {m n : Model} (h : ∀ k, (m.get k).Perm (n.get k)) :
    m.labels.Perm n.labels := by
  unfold labels
  exact List.Perm.flatMap_left _ fun k _ => (h k).flatMap_right _

/-! ## Completed models -/

/-- A model with one project and no dependencies, once it is completed. -/
theorem complete_eq {m : Model} {p : Project} (hone : m.projects = [p])
    (hnone : m.dependencies = []) :
    m.complete = .ok m.resolveExports.aggregated.deriveModuleDependencies := by
  have hget (k : Kind) : m.resolveExports.get k = (m.get k).map (mapNames (ofModel m).resolved) := by
    rw [resolveExports_eq_mapNames, get_mapNames]
  have hprojects : m.resolveExports.projects.length = 1 := by
    show (m.resolveExports.get .project).length = 1
    rw [hget, List.length_map]
    exact congrArg List.length hone
  have hdependencies : m.resolveExports.dependencies = [] := by
    show m.resolveExports.get .dependency = []
    rw [hget]
    exact congrArg _ hnone
  have hrun : Pass.dependencyAggregation.run m.resolveExports = .ok m.resolveExports.aggregated := by
    unfold Pass.run
    rw [show Pass.dependencyAggregation.edit = aggregateEdges from rfl,
      aggregateEdges_of_one hprojects, hdependencies]
    rfl
  show (Pass.dependencyAggregation.run m.resolveExports >>= fun n =>
    Pass.moduleDependencies.run n >>= pure) = _
  rw [hrun]
  rfl

/-- The outcomes of two runs agree but for the order of records. What is counted agrees in order,
too, and the words beside the counts agree for names that are declared once. -/
structure AgreeUpToOrder (r s : Model) : Prop where
  moduleDependencies : r.moduleDependencies = s.moduleDependencies
  counts : r.dependencies.map (fun d => (d.source, d.target, d.cardinality)) =
    s.dependencies.map (fun d => (d.source, d.target, d.cardinality))
  words : List.Forall₂ (fun d e => (r.DeclaredOnce d.source → d.sourceType = e.sourceType) ∧
    (r.DeclaredOnce d.target → d.targetType = e.targetType)) r.dependencies s.dependencies
  others : ∀ k, k ≠ .dependency → k ≠ .moduleDependency → (r.get k).Perm (s.get k)

theorem tallyEdges_perm {edges edges' : List Edge} (h : edges.Perm edges') :
    tallyEdges edges = tallyEdges edges' :=
  Tally.ofList_perm ((h.filter _).map _)

/-- Only the counts of the dependencies matter for those between modules, and of the modules only
which ones there are. -/
theorem tallyModules_congr {modules modules' : List QName} {ds es : List Dependency}
    (hmodules : ∀ n, n ∈ modules ↔ n ∈ modules')
    (hcounts : ds.map (fun d => (d.source, d.target, d.cardinality)) =
      es.map (fun d => (d.source, d.target, d.cardinality))) :
    tallyModules modules ds = tallyModules modules' es := by
  have hcrossing : crossing? modules = crossing? modules' := by
    funext d
    simp only [crossing?, hmodules]
  have hread (cs : List Dependency) :
      cs.filterMap (fun d => (crossing? modules' d).map (·, d.cardinality)) =
        (cs.map fun d => (d.source, d.target, d.cardinality)).filterMap fun x =>
          (crossing? modules' ⟨x.1, none, x.2.1, "", x.2.2⟩).map (·, x.2.2) := by
    rw [List.filterMap_map]
    rfl
  unfold tallyModules
  rw [hcrossing, hread ds, hread es, hcounts]

section Derived

variable {m n : Model}

theorem get_derived {k : Kind} (hedge : k ≠ .edge) (hdep : k ≠ .dependency)
    (hmodule : k ≠ .moduleDependency) :
    m.aggregated.deriveModuleDependencies.get k = m.get k := by
  unfold deriveModuleDependencies aggregated
  rw [get_set_of_ne _ _ (Ne.symm hmodule), get_set_of_ne _ _ (Ne.symm hdep),
    get_set_of_ne _ _ (Ne.symm hedge)]

theorem dependencies_derived :
    m.aggregated.deriveModuleDependencies.dependencies =
      (tallyEdges m.edges).map (dependencyOf m.labels) := by
  show m.aggregated.deriveModuleDependencies.get .dependency = _
  unfold deriveModuleDependencies aggregated
  rw [get_set_of_ne _ _ (by decide), get_set_self]

theorem edges_derived : m.aggregated.deriveModuleDependencies.edges = [] := by
  show m.aggregated.deriveModuleDependencies.get .edge = []
  unfold deriveModuleDependencies aggregated
  rw [get_set_of_ne _ _ (by decide), get_set_of_ne _ _ (by decide), get_set_self]

theorem moduleDependencies_derived :
    m.aggregated.deriveModuleDependencies.moduleDependencies =
      m.moduleDependencies ++
        (tallyModules (m.modules.map (·.fqn)) m.aggregated.deriveModuleDependencies.dependencies).map
          fun e => (⟨e.1.1, e.1.2, e.2⟩ : ModuleDependency) := by
  have hkept (k : Kind) (hedge : k ≠ .edge) (hdep : k ≠ .dependency) :
      m.aggregated.get k = m.get k := by
    unfold aggregated
    rw [get_set_of_ne _ _ (Ne.symm hdep), get_set_of_ne _ _ (Ne.symm hedge)]
  have hdependencies : m.aggregated.deriveModuleDependencies.dependencies =
      m.aggregated.dependencies :=
    get_set_of_ne m.aggregated _ (by decide : Kind.moduleDependency ≠ .dependency)
  have hmodules : m.aggregated.modules = m.modules := hkept .module (by decide) (by decide)
  have hderived : m.aggregated.moduleDependencies = m.moduleDependencies :=
    hkept .moduleDependency (by decide) (by decide)
  show m.aggregated.deriveModuleDependencies.get .moduleDependency = _
  rw [hdependencies, ← hmodules, ← hderived]
  unfold deriveModuleDependencies
  rw [get_set_self]

theorem declarations_derived :
    m.aggregated.deriveModuleDependencies.declarations = m.labels := by
  rw [← labels_eq_declarations]
  refine labels_congr fun k hk => get_derived ?_ ?_ ?_
  all_goals
    rintro rfl
    cases hk

/-- What is derived from two models agrees up to order if the models do. -/
theorem agree_derived (hperm : ∀ k, (m.get k).Perm (n.get k)) (hm : m.moduleDependencies = [])
    (hn : n.moduleDependencies = []) :
    AgreeUpToOrder m.aggregated.deriveModuleDependencies
      n.aggregated.deriveModuleDependencies := by
  have hedges : tallyEdges m.edges = tallyEdges n.edges := tallyEdges_perm (hperm .edge)
  have hcounts : m.aggregated.deriveModuleDependencies.dependencies.map
        (fun d => (d.source, d.target, d.cardinality)) =
      n.aggregated.deriveModuleDependencies.dependencies.map
        (fun d => (d.source, d.target, d.cardinality)) := by
    rw [dependencies_derived, dependencies_derived, List.map_map, List.map_map, hedges]
    rfl
  have hword {x : QName} (h : m.aggregated.deriveModuleDependencies.DeclaredOnce x) :
      labelIn? m.labels x = labelIn? n.labels x := by
    unfold DeclaredOnce at h
    rw [declarations_derived] at h
    exact labelIn?_perm (labels_perm hperm) h
  refine ⟨?_, hcounts, ?_, ?_⟩
  · have hmodules (x : QName) : x ∈ m.modules.map (·.fqn) ↔ x ∈ n.modules.map (·.fqn) :=
      ((hperm .module).map (·.fqn)).mem_iff
    rw [moduleDependencies_derived, moduleDependencies_derived, hm, hn,
      tallyModules_congr hmodules hcounts]
  · rw [dependencies_derived, dependencies_derived, ← hedges, List.forall₂_map_left_iff,
      List.forall₂_map_right_iff, List.forall₂_same]
    intro x _
    exact ⟨fun h => hword h, fun h => congrArg (·.getD externalTarget) (hword h)⟩
  · intro k hdep hmodule
    by_cases hedge : k = .edge
    · subst hedge
      show (m.aggregated.deriveModuleDependencies.edges).Perm
        n.aggregated.deriveModuleDependencies.edges
      rw [edges_derived, edges_derived]
    · rw [get_derived hedge hdep hmodule, get_derived hedge hdep hmodule]
      exact hperm k

end Derived

/-! ## The outcome -/

/-- The model of a file: it holds neither a project nor anything derived. -/
structure OfFile (f : Model) : Prop where
  projects : f.projects = []
  dependencies : f.dependencies = []
  moduleDependencies : f.moduleDependencies = []

section Outcome

variable {p : Project} {files files' : List Model}

theorem nothing_derived_mergeAll (hfiles : ∀ f ∈ files, f.OfFile) :
    (mergeAll p files).dependencies = [] ∧ (mergeAll p files).moduleDependencies = [] := by
  constructor
  · refine (get_mergeAll p files (k := .dependency) (by decide)).trans ?_
    exact List.flatMap_eq_nil_iff.mpr fun f hf => (hfiles f hf).dependencies
  · refine (get_mergeAll p files (k := .moduleDependency) (by decide)).trans ?_
    exact List.flatMap_eq_nil_iff.mpr fun f hf => (hfiles f hf).moduleDependencies

theorem assemble_eq_ok (hfiles : ∀ f ∈ files, f.OfFile) {r : Model} :
    assemble p files = .ok r ↔ (mergeAll p files).duplicates = [] ∧
      (mergeAll p files).resolveExports.aggregated.deriveModuleDependencies = r := by
  have hone := projects_mergeAll p fun f hf => (hfiles f hf).projects
  have hcomplete := complete_eq hone (nothing_derived_mergeAll hfiles).1
  unfold assemble Extraction.finish
  rw [map_eq_ok]
  constructor
  · rintro ⟨e, he, rfl⟩
    obtain ⟨m, hm, he⟩ := bind_eq_ok.mp he
    rw [unify_empty_of_one hone] at hm
    obtain ⟨hdup, rfl⟩ := requireDistinct_eq_ok.mp hm
    rw [hcomplete] at he
    cases he
    exact ⟨hdup, rfl⟩
  · rintro ⟨hdup, rfl⟩
    refine ⟨⟨_, []⟩, bind_eq_ok.mpr ⟨mergeAll p files, ?_, ?_⟩, rfl⟩
    · rw [unify_empty_of_one hone]
      exact requireDistinct_eq_ok.mpr ⟨hdup, rfl⟩
    · rw [hcomplete]
      rfl

/-- Whatever the order in which the models of files are merged, a run succeeds or fails alike, and
its outcomes agree up to order. -/
theorem assemble_perm (hfiles : ∀ f ∈ files, f.OfFile) (hapart : ExportersApart files)
    (hperm : files.Perm files') :
    ((∃ r, assemble p files = .ok r) ↔ ∃ s, assemble p files' = .ok s) ∧
      ∀ r s, assemble p files = .ok r → assemble p files' = .ok s → AgreeUpToOrder r s := by
  have hfiles' : ∀ f ∈ files', f.OfFile := fun f hf => hfiles f (hperm.mem_iff.mpr hf)
  constructor
  · simp only [assemble_eq_ok hfiles, assemble_eq_ok hfiles', exists_and_left, exists_eq',
      and_true, duplicates_mergeAll_perm p hperm]
  · intro r s hr hs
    obtain ⟨-, rfl⟩ := (assemble_eq_ok hfiles).mp hr
    obtain ⟨-, rfl⟩ := (assemble_eq_ok hfiles').mp hs
    have hresolved := (alike_mergeAll p hperm hapart).resolved_eq
    have hnone {fs : List Model} (hfs : ∀ f ∈ fs, f.OfFile) :
        (mergeAll p fs).resolveExports.moduleDependencies = [] := by
      show (mergeAll p fs).resolveExports.get .moduleDependency = []
      rw [resolveExports_eq_mapNames, get_mapNames]
      exact congrArg _ (nothing_derived_mergeAll hfs).2
    refine agree_derived (fun k => ?_) (hnone hfiles) (hnone hfiles')
    -- both runs replace the names of a record in the same way
    rw [resolveExports_eq_mapNames, resolveExports_eq_mapNames, get_mapNames, get_mapNames,
      hresolved]
    exact (get_mergeAll_perm p hperm k).map _

end Outcome

/-! ## A project read in two orders -/

/-- A file that exports all names of another one, the file that declares the name, and a file that
uses it by way of the first. -/
def reexportingFiles : List Model :=
  [.ofConcepts [⟨.module, ⟨.ofModule "./a.ts", "./a.ts"⟩⟩,
      ⟨.export, ⟨"*", none, .ofModule "./b.ts", false, .value, .ofModule "./a.ts"⟩⟩],
    .ofConcepts [⟨.module, ⟨.ofModule "./b.ts", "./b.ts"⟩⟩,
      ⟨.enum, ⟨(QName.ofModule "./b.ts").child "E", "E", [], false, false,
        ⟨"./b.ts", 1, 1, 1, 10⟩⟩⟩],
    .ofConcepts [⟨.module, ⟨.ofModule "./c.ts", "./c.ts"⟩⟩,
      ⟨.edge, ⟨.ofModule "./c.ts", (QName.ofModule "./a.ts").child "E", .read⟩⟩]]

/-- In both orders the use is counted for the enumeration itself. -/
theorem assemble_perm_reexporting :
    (∀ f ∈ reexportingFiles, f.OfFile) ∧ ExportersApart reexportingFiles ∧
      reexportingFiles.Perm reexportingFiles.reverse ∧
      ∃ r s, assemble ⟨"/p"⟩ reexportingFiles = .ok r ∧
        assemble ⟨"/p"⟩ reexportingFiles.reverse = .ok s ∧ AgreeUpToOrder r s ∧
        s.dependencies = [⟨.ofModule "./c.ts", some "typescript-module",
          (QName.ofModule "./b.ts").child "E", "enum-declaration", 1⟩] ∧
        s.moduleDependencies = [⟨.ofModule "./c.ts", .ofModule "./b.ts", 1⟩] := by
  have hfiles : ∀ f ∈ reexportingFiles, f.OfFile := by
    intro f hf
    simp only [reexportingFiles, List.mem_cons, List.not_mem_nil, or_false] at hf
    rcases hf with rfl | rfl | rfl <;> exact ⟨rfl, rfl, rfl⟩
  have hapart : ExportersApart reexportingFiles := by
    unfold ExportersApart
    decide +kernel
  have hperm : reexportingFiles.Perm reexportingFiles.reverse := (List.reverse_perm _).symm
  have hfiles' : ∀ f ∈ reexportingFiles.reverse, f.OfFile :=
    fun f hf => hfiles f (List.mem_reverse.mp hf)
  have hr := (assemble_eq_ok (p := ⟨"/p"⟩) hfiles).mpr ⟨by decide +kernel, rfl⟩
  have hs := (assemble_eq_ok (p := ⟨"/p"⟩) hfiles').mpr ⟨by decide +kernel, rfl⟩
  exact ⟨hfiles, hapart, hperm, _, _, hr, hs, (assemble_perm hfiles hapart hperm).2 _ _ hr hs,
    by decide +kernel, by decide +kernel⟩

end Model

end CodeConcepts
