import CodeConcepts.Proofs.Aggregation
import CodeConcepts.Proofs.ExportResolution
import CodeConcepts.Proofs.Merging
import Mathlib.Data.List.Forall2

/-!
# What completion does to declared names

Completing a model follows exports in every name, and the names under which records declare
something are no exception. A declaration keeps its name as long as the outermost declaration around
it is recorded. Namespaces are not recorded: what is declared inside a namespace is moved when the
module exports something else under the name of the namespace (`Model.Moves`).

`complete_renames_exactly` says for the merged model of any files which declared names are moved and
where to, that all others stay, and when the completed model is left without duplicates. The last
section has a file whose two enumerations end up with one name.
-/

namespace CodeConcepts

namespace Model

open ExportTable

/-- Following exports gives a name another one: its outermost part is not declared, some module
decides what it is, and this leads elsewhere. -/
def Moves (m : Model) (n g : QName) : Prop :=
  g ≠ n ∧ ∃ a name c final, HeadedBy n a name ∧ ¬ m.Identifies (a.child name) ∧ m.Decides a name c ∧
    (((¬ ∃ next, m.Exports c name next) ∧ final = c.child name) ∨
      ∃ next, m.Exports c name next ∧ m.Follows (chainLimit - 1) [(a, name)] next final) ∧
    final ≠ a.child name ∧ g = n.withHead final

theorem moves_iff {m : Model} {n g : QName} : m.Moves n g ↔ m.Resolves n g ∧ g ≠ n := by
  constructor
  · rintro ⟨hne, a, name, c, final, hhead, hown, hc, hfinal, hmoved, rfl⟩
    refine ⟨?_, hne⟩
    rcases hfinal with ⟨hnone, rfl⟩ | ⟨next, hnext, hfollows⟩
    · exact .offered hhead hown hc hnone
    · have h := Resolves.exported hhead hown hc hnext hfollows
      rwa [if_neg hmoved] at h
  · rintro ⟨h, hne⟩
    cases h with
    | unqualified _ | declared _ _ | unoffered _ _ _ => exact absurd rfl hne
    | offered hhead hown hc hnone =>
      exact ⟨hne, _, _, _, _, hhead, hown, hc, .inl ⟨hnone, rfl⟩,
        child_ne_of_decides hown hc hnone, rfl⟩
    | @exported a name c next final hhead hown hc hnext hfollows =>
      by_cases hfinal : final = a.child name
      · rw [if_pos hfinal] at hne
        exact absurd rfl hne
      · rw [if_neg hfinal] at hne ⊢
        exact ⟨hne, _, _, _, _, hhead, hown, hc, .inr ⟨next, hnext, hfollows⟩, hfinal, rfl⟩

theorem stays_iff {m : Model} {n : QName} : (∀ g, ¬ m.Moves n g) ↔ (ofModel m).resolved n = n := by
  constructor
  · intro h
    by_contra hne
    exact h _ (moves_iff.mpr ⟨m.resolves_resolved n, hne⟩)
  · intro h g hg
    obtain ⟨hresolves, hne⟩ := moves_iff.mp hg
    exact hne (by rw [← resolves_iff.mp hresolves, h])

/-- A name either moves to one other name, or it stays and moves nowhere. -/
theorem moves_or_stays (m : Model) (n : QName) :
    m.Moves n ((ofModel m).resolved n) ∨ (ofModel m).resolved n = n ∧ ∀ g, ¬ m.Moves n g := by
  by_cases h : (ofModel m).resolved n = n
  · exact .inr ⟨h, stays_iff.mpr h⟩
  · exact .inl (moves_iff.mpr ⟨m.resolves_resolved n, h⟩)

/-! ## Declared names -/

theorem labels_congr {m n : Model} (h : ∀ k, k.isIdentified = true → m.get k = n.get k) :
    m.labels = n.labels := by
  unfold labels
  apply List.flatMap_congr
  intro k hk
  rw [h k (List.mem_filter.mp hk).2]

theorem recordLabels_mapNames (f : QName → QName) (k : Kind) (r : k.Record) :
    recordLabels k (mapNames f r) = (recordLabels k r).map fun l => (f l.1, l.2) := by
  have hparts : partLabels k (mapNames f r) = (partLabels k r).map fun l => (f l.1, l.2) := by
    -- parts of one sort have one word for all
    have heach {α : Type} [HasNames α] (fqn : α → QName) (word : String) (xs : List α)
        (hfqn : ∀ x, fqn (mapNames f x) = f (fqn x)) :
        (mapNames f xs).map (fun x => (fqn x, word)) =
          (xs.map fun x => (fqn x, word)).map fun l => (f l.1, l.2) := by
      show (xs.map (mapNames f)).map _ = _
      rw [List.map_map, List.map_map]
      apply List.map_congr_left
      intro x _
      show (fqn (mapNames f x), word) = (f (fqn x), word)
      rw [hfqn]
    cases k with
    | classDeclaration =>
      unfold partLabels
      rw [List.map_append, List.map_append, List.map_append]
      rw [← heach _ _ r.constructors fun _ => rfl, ← heach _ _ r.properties fun _ => rfl,
        ← heach _ _ r.methods fun _ => rfl, ← heach _ _ r.accessors fun _ => rfl]
      rfl
    | interface =>
      unfold partLabels
      rw [List.map_append]
      rw [← heach _ _ r.properties fun _ => rfl, ← heach _ _ r.methods fun _ => rfl]
      rfl
    | enum =>
      unfold partLabels
      rw [← heach _ _ r.members fun _ => rfl]
      rfl
    | _ => rfl
  unfold recordLabels
  rw [fqn?_mapNames, hparts, List.map_append]
  cases k.fqn? r <;> rfl

theorem labels_mapNames (f : QName → QName) (m : Model) :
    (mapNames f m : Model).labels = m.labels.map fun l => (f l.1, l.2) := by
  unfold labels
  rw [List.map_flatMap]
  apply List.flatMap_congr
  intro k _
  rw [get_mapNames, List.flatMap_map, List.map_flatMap]
  apply List.flatMap_congr
  intro r _
  exact recordLabels_mapNames f k r

/-! ## Passes -/

/-- With one project completion succeeds, one pass behind the other. -/
theorem complete_eq_of_one {m : Model} (h : m.projects.length = 1) :
    m.complete = .ok (((m.resolveExports.set .edge []).set .dependency
      (m.resolveExports.dependencies ++ (tallyEdges m.resolveExports.edges).map
        (dependencyOf m.resolveExports.labels))).deriveModuleDependencies) := by
  have hone : m.resolveExports.projects.length = 1 := by
    show (m.resolveExports.get .project).length = 1
    rw [resolveExports_eq_mapNames, get_mapNames, List.length_map]
    exact h
  show (Pass.dependencyAggregation.run m.resolveExports >>= fun n =>
    Pass.moduleDependencies.run n >>= pure) = _
  rw [Pass.run, show Pass.dependencyAggregation.edit = aggregateEdges from rfl,
    aggregateEdges_of_one hone]
  rfl

/-- Only following exports changes declarations. -/
theorem complete_of_one {m : Model} (h : m.projects.length = 1) :
    ∃ r, m.complete = .ok r ∧
      ∀ k, k.isIdentified = true → r.get k = m.resolveExports.get k := by
  refine ⟨_, complete_eq_of_one h, fun k hk => ?_⟩
  -- the passes behind it write edges and dependencies, which identify nothing
  have hother (l : Kind) (hl : l.isIdentified = false) : l ≠ k := by
    rintro rfl
    rw [hk] at hl
    cases hl
  unfold deriveModuleDependencies
  rw [get_set_of_ne _ _ (hother .moduleDependency rfl), get_set_of_ne _ _ (hother .dependency rfl),
    get_set_of_ne _ _ (hother .edge rfl)]

theorem map_eq_self {α : Type} {f : α → α} {xs : List α} :
    xs.map f = xs ↔ ∀ x ∈ xs, f x = x := by
  conv_lhs => rw [← List.map_id xs, List.map_map]
  exact List.map_inj_left

theorem mem_declarations_of_mem_identities {m : Model} {k : Kind} {n : QName}
    (hk : k.isIdentified = true) (h : n ∈ m.identities k) : ∃ word, (n, word) ∈ m.declarations := by
  obtain ⟨r, hr, hname⟩ := List.mem_filterMap.mp h
  refine ⟨k.id, ?_⟩
  rw [← labels_eq_declarations, labels, List.mem_flatMap]
  refine ⟨k, List.mem_filter.mpr ⟨k.mem_all, hk⟩, List.mem_flatMap.mpr ⟨r, hr, ?_⟩⟩
  rw [recordLabels, hname]
  exact List.mem_append_left _ (List.mem_singleton_self _)

/-! ## Completed models -/

section Completed

variable {m r : Model} (h : ∀ k, k.isIdentified = true → r.get k = m.resolveExports.get k)

include h

theorem declarations_of_completed :
    r.declarations = m.declarations.map fun d => ((ofModel m).resolved d.1, d.2) := by
  rw [← labels_eq_declarations, ← labels_eq_declarations, labels_congr h,
    resolveExports_eq_mapNames, labels_mapNames]

theorem identities_of_completed {k : Kind} (hk : k.isIdentified = true) :
    r.identities k = (m.identities k).map (ofModel m).resolved := by
  rw [← identities_mapNames, ← resolveExports_eq_mapNames]
  unfold identities
  rw [h k hk]

theorem declarations_kept_iff : r.declarations = m.declarations ↔
    ∀ d ∈ m.declarations, ∀ g, ¬ m.Moves d.1 g := by
  rw [declarations_of_completed h, map_eq_self]
  refine forall_congr' fun d => forall_congr' fun _ => ?_
  rw [stays_iff]
  constructor
  · intro hsame
    exact congrArg Prod.fst hsame
  · intro hsame
    rw [hsame]

/-- Duplicates arise just where two names of a kind are brought together. -/
theorem duplicates_of_completed_eq_nil : r.duplicates = [] ↔
    ∀ k, k.isIdentified = true → (m.identities k).Pairwise fun a b =>
      ∀ g, ¬ (m.Resolves a g ∧ m.Resolves b g) := by
  rw [duplicates_eq_nil]
  refine forall_congr' fun k => forall_congr' fun hk => ?_
  rw [identities_of_completed h hk, List.Nodup, List.pairwise_map]
  refine List.Pairwise.iff fun {a b} => ?_
  constructor
  · rintro hne g ⟨ha, hb⟩
    rw [resolves_iff] at ha hb
    exact hne (ha.trans hb.symm)
  · intro hnone e
    exact hnone _ ⟨m.resolves_resolved a, resolves_iff.mpr e.symm⟩

theorem duplicates_eq_nil_of_kept (hdup : m.duplicates = [])
    (hnone : ∀ d ∈ m.declarations, ∀ g, ¬ m.Moves d.1 g) : r.duplicates = [] := by
  rw [duplicates_eq_nil] at hdup ⊢
  intro k hk
  -- a name that identifies a record is one of the declared names, so it stays
  have hfix : (m.identities k).map (ofModel m).resolved = m.identities k := by
    refine map_eq_self.mpr fun n hn => ?_
    obtain ⟨word, hword⟩ := mem_declarations_of_mem_identities hk hn
    exact stays_iff.mp (hnone _ hword)
  rw [identities_of_completed h hk, hfix]
  exact hdup k hk

end Completed

/-- Completing the merged model of any files renames a declaration exactly if exports move its name,
and then to where they move it. The names of all declarations are kept just when exports move none
of them. The completed model has no duplicates just when no two names of a kind are brought
together, as is the case when none is moved. -/
theorem complete_renames_exactly {s : Extraction.Setting} {paths : List Path} {u : Model}
    (h : (Extraction.ofFiles s paths).model.unify "" = .ok u) :
    ∃ r, u.complete = .ok r ∧
      List.Forall₂ (fun d e => e.2 = d.2 ∧
          (u.Moves d.1 e.1 ∨ e.1 = d.1 ∧ ∀ g, ¬ u.Moves d.1 g))
        u.declarations r.declarations ∧
      (r.declarations = u.declarations ↔
        ∀ d ∈ u.declarations, ∀ g, ¬ u.Moves d.1 g) ∧
      (r.duplicates = [] ↔ ∀ k, k.isIdentified = true → (u.identities k).Pairwise fun a b =>
        ∀ g, ¬ (u.Resolves a g ∧ u.Resolves b g)) ∧
      ((∀ d ∈ u.declarations, ∀ g, ¬ u.Moves d.1 g) → r.duplicates = []) := by
  obtain ⟨hdup, rfl⟩ := Extraction.unify_ofFiles.mp h
  have hone : (Extraction.ofFiles s paths).model.projects.length = 1 := by
    rw [Extraction.projects_ofFiles]
    rfl
  obtain ⟨r, hr, hkept⟩ := complete_of_one hone
  refine ⟨r, hr, ?_, declarations_kept_iff hkept, duplicates_of_completed_eq_nil hkept,
    duplicates_eq_nil_of_kept hkept hdup⟩
  rw [declarations_of_completed hkept, List.forall₂_map_right_iff, List.forall₂_same]
  intro d _
  exact ⟨rfl, moves_or_stays _ d.1⟩

end Model

/-! ## Two namespaces under one name -/

/-- The row of a construct. -/
def Syntax.Row.construct (depth : Nat) (kind : String) (roles : List String) (start stop : Nat) :
    Syntax.Row :=
  ⟨depth, kind, true, false, roles, start, stop, []⟩

/-- The row of a token. -/
def Syntax.Row.token (depth : Nat) (kind : String) (start stop : Nat) : Syntax.Row :=
  ⟨depth, kind, false, false, [], start, stop, []⟩

/-- A file that exports one namespace under the name of another one. -/
def renamingFile : StoredFile where
  path := ["p", "a.ts"]
  content :=
    ("namespace N \x7b enum E \x7b\x7d \x7d\n" ++
      "namespace X \x7b enum E \x7b\x7d \x7d\n" ++
      "export \x7b X as N \x7d;\n").toUTF8
  rows := [
    .construct 0 "program" [] 0 71, .construct 1 "expression_statement" [] 0 25,
    .construct 2 "internal_module" [] 0 25, .token 3 "namespace" 0 9,
    .construct 3 "identifier" ["name"] 10 11, .construct 3 "statement_block" ["body"] 12 25,
    .token 4 "\x7b" 12 13, .construct 4 "enum_declaration" [] 14 23, .token 5 "enum" 14 18,
    .construct 5 "identifier" ["name"] 19 20, .construct 5 "enum_body" ["body"] 21 23,
    .token 6 "\x7b" 21 22, .token 6 "\x7d" 22 23, .token 4 "\x7d" 24 25,
    .construct 1 "expression_statement" [] 26 51, .construct 2 "internal_module" [] 26 51,
    .token 3 "namespace" 26 35, .construct 3 "identifier" ["name"] 36 37,
    .construct 3 "statement_block" ["body"] 38 51, .token 4 "\x7b" 38 39,
    .construct 4 "enum_declaration" [] 40 49, .token 5 "enum" 40 44,
    .construct 5 "identifier" ["name"] 45 46, .construct 5 "enum_body" ["body"] 47 49,
    .token 6 "\x7b" 47 48, .token 6 "\x7d" 48 49, .token 4 "\x7d" 50 51,
    .construct 1 "export_statement" [] 52 70, .token 2 "export" 52 58,
    .construct 2 "export_clause" [] 59 69, .token 3 "\x7b" 59 60,
    .construct 3 "export_specifier" [] 61 67, .construct 4 "identifier" ["name"] 61 62,
    .token 4 "as" 63 65, .construct 4 "identifier" ["alias"] 66 67, .token 3 "\x7d" 68 69,
    .token 2 ";" 69 70]

/-- The project that consists of this file. -/
def renamingProject : Extraction.Setting :=
  ⟨⟨[["p"]], [renamingFile]⟩, .standard, .everything, Extract.Extractor.all, ⟨true, ["p"]⟩⟩

/-- Completing the model of this file gives both enumerations one name. -/
theorem complete_renames_namespaced_enum :
    ∃ u r, (Extraction.ofFiles renamingProject [⟨true, ["p", "a.ts"]⟩]).model.unify "" = .ok u ∧
      u.complete = .ok r ∧
      u.identities .enum = [⟨"\"./a.ts\".N.E"⟩, ⟨"\"./a.ts\".X.E"⟩] ∧
      u.Moves ⟨"\"./a.ts\".N.E"⟩ ⟨"\"./a.ts\".X.E"⟩ ∧
      r.declarations ≠ u.declarations ∧ r.duplicates ≠ [] := by
  have h : (Extraction.ofFiles renamingProject [⟨true, ["p", "a.ts"]⟩]).model.unify "" = .ok _ :=
    Extraction.unify_ofFiles.mpr ⟨by decide +kernel, rfl⟩
  obtain ⟨r, hr, -, hkeep, hdup, -⟩ := Model.complete_renames_exactly h
  have hids : (Extraction.ofFiles renamingProject [⟨true, ["p", "a.ts"]⟩]).model.identities .enum =
      [⟨"\"./a.ts\".N.E"⟩, ⟨"\"./a.ts\".X.E"⟩] := by decide +kernel
  have hmoved : (ExportTable.ofModel
      (Extraction.ofFiles renamingProject [⟨true, ["p", "a.ts"]⟩]).model).resolved
        ⟨"\"./a.ts\".N.E"⟩ = ⟨"\"./a.ts\".X.E"⟩ := by decide +kernel
  have hkept : (ExportTable.ofModel
      (Extraction.ofFiles renamingProject [⟨true, ["p", "a.ts"]⟩]).model).resolved
        ⟨"\"./a.ts\".X.E"⟩ = ⟨"\"./a.ts\".X.E"⟩ := by decide +kernel
  have hmoves := Model.moves_iff.mpr
    ⟨Model.resolves_iff.mpr hmoved, by decide⟩
  refine ⟨_, r, h, hr, hids, hmoves, fun e => ?_, fun e => ?_⟩
  · obtain ⟨word, hword⟩ := Model.mem_declarations_of_mem_identities (k := .enum) rfl
      (hids ▸ List.mem_cons_self)
    exact hkeep.mp e _ hword _ hmoves
  · have hpair := hdup.mp e .enum rfl
    rw [hids, List.pairwise_pair] at hpair
    exact hpair _ ⟨Model.resolves_iff.mpr hmoved, Model.resolves_iff.mpr hkept⟩

end CodeConcepts
