import CodeConcepts.Proofs.ModulePaths
import CodeConcepts.Proofs.NameVisits
import CodeConcepts.Proofs.RecordNames
import CodeConcepts.Run.Extraction
import Mathlib.Data.List.Nodup

/-!
# Merging the models of files

The merged model of a list of files holds one project and, kind by kind, the records of the files in
their order (`identities_ofFiles`). Unifying it at the empty root changes nothing and succeeds just
when the names of every identified kind are distinct (`unify_ofFiles`). As the files are unified one
by one before, the only names that can get in the way are those that two files share
(`nodup_identities_ofFiles`).
-/

namespace CodeConcepts

variable {m u : Model} {s : Setting}

namespace Model

/-! ## Duplicates -/

theorem repeated_eq_nil {α : Type} [DecidableEq α] {seen xs : List α} :
    repeated seen xs = [] ↔ xs.Nodup ∧ ∀ x ∈ xs, x ∉ seen := by
  induction xs generalizing seen with
  | nil => simp [repeated]
  | cons x xs ih =>
    rw [repeated]
    by_cases hx : x ∈ seen
    · rw [if_pos hx]
      simp [hx]
    · rw [if_neg hx, ih, List.nodup_cons]
      constructor
      · rintro ⟨hnodup, hseen⟩
        refine ⟨⟨fun hmem => hseen x hmem List.mem_cons_self, hnodup⟩, fun y hy => ?_⟩
        rcases List.mem_cons.mp hy with rfl | hy
        · exact hx
        · exact fun hmem => hseen y hy (List.mem_cons_of_mem _ hmem)
      · rintro ⟨⟨hnot, hnodup⟩, hseen⟩
        refine ⟨hnodup, fun y hy hmem => ?_⟩
        rcases List.mem_cons.mp hmem with rfl | hmem
        · exact hnot hy
        · exact hseen y (List.mem_cons_of_mem _ hy) hmem

/-- There are no duplicates just when the names of every identified kind are distinct. -/
theorem duplicates_eq_nil :
    m.duplicates = [] ↔ ∀ k, k.isIdentified = true → (m.identities k).Nodup := by
  unfold duplicates
  rw [List.flatMap_eq_nil_iff]
  constructor
  · intro h k hk
    have := h k (List.mem_filter.mpr ⟨k.mem_all, hk⟩)
    exact (repeated_eq_nil.mp (List.map_eq_nil_iff.mp this)).1
  · intro h k hk
    rw [List.map_eq_nil_iff, repeated_eq_nil]
    exact ⟨h k (List.mem_filter.mp hk).2, fun _ _ => List.not_mem_nil⟩

theorem requireDistinct_eq_ok : m.requireDistinct = .ok u ↔ m.duplicates = [] ∧ m = u := by
  unfold requireDistinct
  cases m.duplicates with
  | nil =>
    constructor
    · intro h
      cases h
      exact ⟨rfl, rfl⟩
    · rintro ⟨-, rfl⟩
      rfl
  | cons d ds =>
    constructor
    · intro h
      cases h
    · rintro ⟨h, -⟩
      cases h

theorem set_get (m : Model) (k : Kind) : m.set k (m.get k) = m := by
  apply ext_get
  intro l
  by_cases h : k = l
  · subst h
    rw [get_set_self]
  · rw [get_set_of_ne m _ h]

theorem set_set (m : Model) (k : Kind) (rs new : List k.Record) :
    (m.set k rs).set k new = m.set k new := by
  apply ext_get
  intro l
  by_cases h : k = l
  · subst h
    rw [get_set_self, get_set_self]
  · rw [get_set_of_ne _ _ h, get_set_of_ne _ _ h, get_set_of_ne _ _ h]

/-- With one project there is nothing to fold at the empty root. -/
theorem unify_empty_of_one {p : Project} (h : m.projects = [p]) :
    m.unify "" = m.requireDistinct := by
  have hroot : unifyRoot "" = "" := by decide
  unfold unify
  rw [hroot]
  show (foldProjects m.projects >>= fun ps => requireDistinct (m.set .project ps)) = _
  rw [h]
  show requireDistinct (m.set .project [p]) = _
  rw [← h]
  exact congrArg requireDistinct (m.set_get .project)

/-- The name that identifies a record is replaced with all its other names. -/
theorem fqn?_mapNames (f : QName → QName) (k : Kind) (r : k.Record) :
    k.fqn? (mapNames f r) = (k.fqn? r).map f := by
  cases k <;> rfl

theorem identities_mapNames (f : QName → QName) (m : Model) (k : Kind) :
    (mapNames f m : Model).identities k = (m.identities k).map f := by
  unfold identities
  rw [get_mapNames, List.filterMap_map, List.map_filterMap]
  congr 1
  funext r
  exact fqn?_mapNames f k r

/-- A model that was unified at a root has no duplicates, and its names were moved there. -/
theorem unify_eq_ok {root : String} (h : m.unify root = .ok u) :
    u.duplicates = [] ∧ ∀ k, k.isIdentified = true → u.identities k =
      (m.identities k).map (relocate root) := by
  unfold unify at h
  dsimp only at h
  split at h
  · next hroot =>
    obtain ⟨ps, -, h⟩ := bind_eq_ok.mp h
    obtain ⟨hdup, rfl⟩ := requireDistinct_eq_ok.mp h
    refine ⟨hdup, fun k hk => ?_⟩
    -- only projects were folded, and they are not identified by a name
    have hne : Kind.project ≠ k := by
      rintro rfl
      cases hk
    have hstays : relocate root = id := funext fun n => if_pos hroot
    rw [hstays, List.map_id]
    unfold identities
    rw [get_set_of_ne _ _ hne]
  · next hroot =>
    obtain ⟨hdup, rfl⟩ := requireDistinct_eq_ok.mp h
    refine ⟨hdup, fun k _ => ?_⟩
    have hmoves : relocate root = QName.rebase (unifyRoot root) := funext fun n => if_neg hroot
    rw [hmoves, identities_mapNames]

theorem projects_unify {root : String} (hm : m.projects = []) (h : m.unify root = .ok u) :
    u.projects = [] := by
  unfold unify at h
  dsimp only at h
  split at h
  · rw [hm] at h
    obtain ⟨ps, hps, h⟩ := bind_eq_ok.mp h
    cases hps
    obtain ⟨-, rfl⟩ := requireDistinct_eq_ok.mp h
    exact m.get_set_self .project []
  · obtain ⟨-, rfl⟩ := requireDistinct_eq_ok.mp h
    show (mapNames (QName.rebase (unifyRoot root)) m : Model).get .project = []
    rw [get_mapNames]
    exact List.map_eq_nil_iff.mpr hm

end Model

/-! ## Files -/

namespace Extraction

/-- Steps of which each merges what a file contributes, if it does, collect the records of all
files. -/
theorem get_foldl_of_step {step : Extraction → Path → Extraction} {given : Path → Option Model}
    (h : ∀ e path, (step e path).model = (given path).elim e.model e.model.merge) (e : Extraction)
    (paths : List Path) (k : Kind) :
    (paths.foldl step e).model.get k =
      e.model.get k ++ (paths.filterMap given).flatMap (·.get k) := by
  induction paths generalizing e with
  | nil => simp
  | cons p paths ih =>
    rw [List.foldl_cons, ih, h, List.filterMap_cons]
    cases given p with
    | none => rfl
    | some m =>
      dsimp only [Option.elim]
      rw [Model.get_merge, List.flatMap_cons, List.append_assoc]

/-- The model that the file at a path contributes, if it does. -/
def contribution? (s : Setting) (path : Path) : Option Model :=
  match fileModel? s path with
  | .ok found => found
  | .error _ => none

theorem model_addFile (s : Setting) (e : Extraction) (path : Path) :
    (addFile s e path).model =
      match contribution? s path with
      | some m => e.model.merge m
      | none => e.model := by
  unfold addFile contribution?
  cases fileModel? s path with
  | error fault => rfl
  | ok found => cases found <;> rfl

/-- The source behind a contribution: its model has been unified at the root. -/
theorem contribution?_eq_some {path : Path} (h : contribution? s path = some m) :
    ∃ source n, Source.read s.tree s.root path = .ok source ∧ source.model s.table = .ok n ∧
      n.unify s.root.text = .ok m := by
  have hmodel : fileModel? s path = .ok (some m) := by
    unfold contribution? at h
    split at h
    · next hfound => rw [hfound, h]
    · cases h
  unfold fileModel? at hmodel
  split at hmodel
  · cases hmodel
  · cases hmodel
  · next source hsource =>
    split at hmodel
    · cases hmodel
    · next n hn =>
      split at hmodel
      · cases hmodel
      · next u hu =>
        cases hmodel
        refine ⟨source, n, ?_, hn, hu⟩
        unfold source? at hsource
        split at hsource
        · obtain ⟨_, hread, hsome⟩ := map_eq_ok.mp hsource
          cases hsome
          exact hread
        · cases hsource

theorem projects_contribution {path : Path} (h : contribution? s path = some m) :
    m.projects = [] := by
  obtain ⟨source, n, -, hn, hu⟩ := contribution?_eq_some h
  exact Model.projects_unify (Extract.projects_fileModel hn) hu

theorem get_foldl_addFile (s : Setting) (e : Extraction) (paths : List Path) (k : Kind) :
    (paths.foldl (addFile s) e).model.get k =
      e.model.get k ++ (paths.filterMap (contribution? s)).flatMap (·.get k) := by
  refine get_foldl_of_step (fun e path => ?_) e paths k
  rw [model_addFile]
  cases contribution? s path <;> rfl

/-- All names that identify records of a kind, file by file. -/
theorem identities_ofFiles (s : Setting) (paths : List Path) {k : Kind}
    (hk : k.isIdentified = true) :
    (ofFiles s paths).model.identities k =
      (paths.filterMap (contribution? s)).flatMap (·.identities k) := by
  have hseed : (seed s.root).get k = [] := by
    cases k <;> first | rfl | cases hk
  unfold Model.identities ofFiles
  rw [get_foldl_addFile]
  show List.filterMap k.fqn? ((seed s.root).get k ++ _) = _
  rw [hseed, List.nil_append, List.filterMap_flatMap]

theorem projects_ofFiles (s : Setting) (paths : List Path) :
    (ofFiles s paths).model.projects = [⟨s.root.display⟩] := by
  have h := get_foldl_addFile s ⟨seed s.root, []⟩ paths .project
  have hnone : (paths.filterMap (contribution? s)).flatMap (·.get .project) = [] := by
    rw [List.flatMap_eq_nil_iff]
    intro m hm
    obtain ⟨p, -, hp⟩ := List.mem_filterMap.mp hm
    exact projects_contribution hp
  rw [hnone, List.append_nil] at h
  exact h

/-- The merged model is unified as it is, if its names are distinct. -/
theorem unify_ofFiles {paths : List Path} :
    (ofFiles s paths).model.unify "" = .ok u ↔
      (ofFiles s paths).model.duplicates = [] ∧ (ofFiles s paths).model = u := by
  rw [Model.unify_empty_of_one (projects_ofFiles s paths), Model.requireDistinct_eq_ok]

/-- The names of a kind are distinct if no two files share one. -/
theorem nodup_identities_ofFiles {paths : List Path} {k : Kind} (hk : k.isIdentified = true) :
    ((ofFiles s paths).model.identities k).Nodup ↔
      (paths.filterMap (contribution? s)).Pairwise fun m n =>
        ∀ x ∈ m.identities k, x ∉ n.identities k := by
  rw [identities_ofFiles s paths hk, List.nodup_flatMap]
  constructor
  · exact fun h => h.2.imp fun hdisjoint x hx hy => hdisjoint hx hy
  · intro h
    -- within one file names are distinct, since its model has been unified
    refine ⟨fun m hm => ?_, h.imp fun hdisjoint x hx hy => hdisjoint x hx hy⟩
    obtain ⟨p, -, hp⟩ := List.mem_filterMap.mp hm
    obtain ⟨_, _, _, _, hu⟩ := contribution?_eq_some hp
    exact Model.duplicates_eq_nil.mp (Model.unify_eq_ok hu).1 k hk

end Extraction

end CodeConcepts
