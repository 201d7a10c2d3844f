import CodeConcepts.Proofs.MergeOrder
import CodeConcepts.Proofs.Renaming

/-!
# Unification, file by file

A run unifies the model of each file at the root of the project, merges what comes out and unifies
the merged model at the empty root. That is the same as merging first and unifying once
(`unify_filewise`):

* replacing names goes through a merge (`mapNames_merge`), and a merged model without duplicates
  has parts without duplicates (`duplicates_of_merge`), so unification at a root goes through a
  merge (`unify_merge`) and through a fold of merges (`unify_foldl_merge`);
* at the empty root nothing but the records of the project can change (`unify_empty`), and a second
  pass finds nothing to fold (`unify_empty_idem`).
-/

namespace CodeConcepts

variable {s : Setting} {ms : List Model} {path : Path} {m : Model}

namespace Model

/-! ## Merges -/

theorem mapNames_merge (f : QName → QName) (a b : Model) :
    (mapNames f (a.merge b) : Model) = (mapNames f a : Model).merge (mapNames f b) := by
  apply ext_get
  intro k
  rw [get_merge, get_mapNames, get_mapNames, get_mapNames, get_merge]
  exact List.map_append

theorem identities_merge (a b : Model) (k : Kind) :
    (a.merge b).identities k = a.identities k ++ b.identities k := by
  unfold identities
  rw [get_merge, List.filterMap_append]

/-- What a merge leaves distinct was distinct before. -/
theorem duplicates_of_merge {a b : Model} (h : (a.merge b).duplicates = []) :
    a.duplicates = [] ∧ b.duplicates = [] := by
  have hnodup (k : Kind) (hk : k.isIdentified = true) :
      (a.identities k ++ b.identities k).Nodup := by
    rw [← identities_merge]
    exact duplicates_eq_nil.mp h k hk
  constructor
  · rw [duplicates_eq_nil]
    intro k hk
    exact (List.nodup_append.mp (hnodup k hk)).1
  · rw [duplicates_eq_nil]
    intro k hk
    exact (List.nodup_append.mp (hnodup k hk)).2.1

theorem duplicates_of_foldl_merge {a : Model} (h : (ms.foldl merge a).duplicates = []) :
    a.duplicates = [] := by
  induction ms generalizing a with
  | nil => exact h
  | cons m ms ih => exact (duplicates_of_merge (ih h)).1

/-! ## At a root -/

section Root

variable {root : String} (hroot : unifyRoot root ≠ "")
include hroot

theorem unify_at_root {u : Model} : m.unify root = .ok u ↔
    u = mapNames (QName.rebase (unifyRoot root)) m ∧ u.duplicates = [] := by
  have hsome : ¬ (unifyRoot root).isEmpty = true := by
    rwa [String.isEmpty_iff]
  unfold unify
  dsimp only
  rw [if_neg hsome, requireDistinct_eq_ok]
  constructor
  · rintro ⟨h, rfl⟩
    exact ⟨rfl, h⟩
  · rintro ⟨rfl, h⟩
    exact ⟨h, rfl⟩

/-- A merge is unified just when both parts are and their unified models share no name. -/
theorem unify_merge {a b u : Model} : (a.merge b).unify root = .ok u ↔
    ∃ a' b', a.unify root = .ok a' ∧ b.unify root = .ok b' ∧ (a'.merge b').duplicates = [] ∧
      u = a'.merge b' := by
  rw [unify_at_root hroot, mapNames_merge]
  constructor
  · rintro ⟨rfl, hdistinct⟩
    obtain ⟨ha, hb⟩ := duplicates_of_merge hdistinct
    exact ⟨_, _, (unify_at_root hroot).mpr ⟨rfl, ha⟩, (unify_at_root hroot).mpr ⟨rfl, hb⟩,
      hdistinct, rfl⟩
  · rintro ⟨a', b', ha, hb, hdistinct, rfl⟩
    obtain ⟨rfl, -⟩ := (unify_at_root hroot).mp ha
    obtain ⟨rfl, -⟩ := (unify_at_root hroot).mp hb
    exact ⟨rfl, hdistinct⟩

/-- Models merged one after the other are unified just when each of them is and their unified models
share no name. -/
theorem unify_foldl_merge {a w : Model} :
    (ms.foldl merge a).unify root = .ok w ↔
      ∃ a' us, a.unify root = .ok a' ∧ List.Forall₂ (fun m u => m.unify root = .ok u) ms us ∧
        (us.foldl merge a').duplicates = [] ∧ w = us.foldl merge a' := by
  induction ms generalizing a with
  | nil =>
    constructor
    · intro h
      exact ⟨w, [], h, .nil, (unify_eq_ok h).1, rfl⟩
    · rintro ⟨a', us, ha, hus, -, rfl⟩
      cases hus
      exact ha
  | cons m ms ih =>
    rw [List.foldl_cons, ih]
    constructor
    · rintro ⟨c, us, hc, hus, hdistinct, rfl⟩
      obtain ⟨a', m', ha, hm, -, rfl⟩ := (unify_merge hroot).mp hc
      exact ⟨a', m' :: us, ha, .cons hm hus, hdistinct, rfl⟩
    · rintro ⟨a', us, ha, hus, hdistinct, rfl⟩
      cases hus with
      | cons hm hus =>
        rw [List.foldl_cons] at hdistinct
        have hfirst := duplicates_of_foldl_merge hdistinct
        exact ⟨_, _, (unify_merge hroot).mpr ⟨a', _, ha, hm, hfirst, rfl⟩, hus, hdistinct, rfl⟩

end Root

/-! ## At the empty root -/

theorem foldProjects_eq_ok {ps qs : List Project} :
    foldProjects ps = .ok qs ↔ (∀ p ∈ ps, ∀ q ∈ ps, p = q) ∧ qs = ps.take 1 := by
  cases ps with
  | nil =>
    constructor
    · intro h
      cases h
      exact ⟨List.forall_mem_nil _, rfl⟩
    · rintro ⟨-, rfl⟩
      rfl
  | cons p ps =>
    cases hfind : ps.find? (· ≠ p) with
    | none =>
      have hsame : ∀ q ∈ p :: ps, q = p := by
        rw [List.forall_mem_cons]
        refine ⟨rfl, fun q hq => ?_⟩
        simpa using List.find?_eq_none.mp hfind q hq
      simp only [foldProjects, hfind]
      constructor
      · intro h
        cases h
        exact ⟨fun q hq r hr => (hsame q hq).trans (hsame r hr).symm, rfl⟩
      · rintro ⟨-, rfl⟩
        rfl
    | some q =>
      simp only [foldProjects, hfind]
      constructor
      · intro h
        cases h
      · rintro ⟨hsame, -⟩
        have hne : q ≠ p := by simpa using List.find?_some hfind
        have hq := List.mem_of_find?_eq_some hfind
        exact absurd (hsame q (List.mem_cons_of_mem _ hq) p List.mem_cons_self) hne

/-- Projects are not identified by a name. -/
theorem duplicates_set_project (m : Model) (ps : List Project) :
    (m.set .project ps).duplicates = m.duplicates := by
  have hids (k : Kind) (hk : k.isIdentified = true) :
      (m.set .project ps).identities k = m.identities k := by
    have hne : Kind.project ≠ k := by
      rintro rfl
      cases hk
    unfold identities
    rw [get_set_of_ne _ _ hne]
  unfold duplicates
  refine List.flatMap_congr fun k hk => ?_
  rw [hids k (List.mem_filter.mp hk).2]

/-- A model with the records of its project collapsed to at most one. -/
def collapseProjects (m : Model) : Model := m.set .project (m.projects.take 1)

theorem projects_collapseProjects (m : Model) :
    m.collapseProjects.projects = m.projects.take 1 :=
  m.get_set_self .project _

theorem unify_empty {u r : Model} : u.unify "" = .ok r ↔
    ((∀ p ∈ u.projects, ∀ q ∈ u.projects, p = q) ∧ u.duplicates = []) ∧ r = u.collapseProjects := by
  have hroot : unifyRoot "" = "" := by decide
  unfold unify
  rw [hroot]
  show (foldProjects u.projects >>= fun ps => requireDistinct (u.set .project ps)) = _ ↔ _
  rw [bind_eq_ok]
  constructor
  · rintro ⟨ps, hps, h⟩
    obtain ⟨hsame, rfl⟩ := foldProjects_eq_ok.mp hps
    obtain ⟨hdistinct, rfl⟩ := requireDistinct_eq_ok.mp h
    rw [duplicates_set_project] at hdistinct
    exact ⟨⟨hsame, hdistinct⟩, rfl⟩
  · rintro ⟨⟨hsame, hdistinct⟩, rfl⟩
    refine ⟨_, foldProjects_eq_ok.mpr ⟨hsame, rfl⟩, requireDistinct_eq_ok.mpr ⟨?_, rfl⟩⟩
    rw [duplicates_set_project]
    exact hdistinct

/-- A model with at most one project has nothing to collapse. -/
theorem collapseProjects_of_take (h : m.projects.take 1 = m.projects) : m.collapseProjects = m := by
  unfold collapseProjects
  rw [h]
  exact m.set_get .project

/-- What comes out of the pass at the empty root goes through it unchanged. -/
theorem unify_empty_idem {u r : Model} (h : u.unify "" = .ok r) : r.unify "" = .ok r := by
  obtain ⟨⟨hsame, hdistinct⟩, rfl⟩ := unify_empty.mp h
  have hprojects := u.projects_collapseProjects
  refine unify_empty.mpr ⟨⟨?_, ?_⟩, (collapseProjects_of_take ?_).symm⟩
  · rw [hprojects]
    intro p hp q hq
    exact hsame p (List.mem_of_mem_take hp) q (List.mem_of_mem_take hq)
  · exact (duplicates_set_project u _).trans hdistinct
  · rw [hprojects, List.take_take]
    rfl

/-- Both orders of merging and unifying lead to the same model through the pass at the empty
root. -/
theorem unify_empty_foldl_merge {root : String} (hroot : unifyRoot root ≠ "") {a r : Model} :
    (∃ a' us, a.unify root = .ok a' ∧ List.Forall₂ (fun m u => m.unify root = .ok u) ms us ∧
        (us.foldl merge a').unify "" = .ok r) ↔
      ∃ w, (ms.foldl merge a).unify root = .ok w ∧ w.unify "" = .ok r := by
  constructor
  · rintro ⟨a', us, ha, hus, h⟩
    have hdistinct := (unify_empty.mp h).1.2
    exact ⟨_, (unify_foldl_merge hroot).mpr ⟨a', us, ha, hus, hdistinct, rfl⟩, h⟩
  · rintro ⟨w, hw, h⟩
    obtain ⟨a', us, ha, hus, -, rfl⟩ := (unify_foldl_merge hroot).mp hw
    exact ⟨a', us, ha, hus, h⟩

end Model

/-! ## The files of a run -/

namespace Extraction

open Model

/-- The model of the source at a path as it was read, if the source contributes. -/
def extracted? (s : Setting) (path : Path) : Option Model :=
  match source? s path with
  | .ok (some source) =>
    match source.model s.table with
    | .ok m =>
      match m.unify s.root.text with
      | .ok _ => some m
      | .error _ => none
    | .error _ => none
  | _ => none

/-- A file contributes the model that was read, unified at the root. -/
theorem contribution?_eq_some_iff {u : Model} :
    contribution? s path = some u ↔
      ∃ m, extracted? s path = some m ∧ m.unify s.root.text = .ok u := by
  unfold extracted? contribution? fileModel?
  cases source? s path with
  | error e => simp
  | ok found =>
    cases found with
    | none => simp
    | some source =>
      dsimp only
      cases source.model s.table with
      | error e => simp
      | ok m =>
        dsimp only
        cases hm : m.unify s.root.text with
        | error v => simp
        | ok m' => simp [hm]

theorem unify_extracted (h : extracted? s path = some m) : ∃ u, m.unify s.root.text = .ok u := by
  unfold extracted? at h
  split at h
  · split at h
    · split at h
      · next u hu =>
        cases h
        exact ⟨u, hu⟩
      · cases h
    · cases h
  · cases h

theorem extracted?_eq_none_iff : extracted? s path = none ↔ contribution? s path = none := by
  constructor
  · intro h
    cases hc : contribution? s path with
    | none => rfl
    | some u =>
      obtain ⟨m, hm, -⟩ := contribution?_eq_some_iff.mp hc
      rw [h] at hm
      cases hm
  · intro h
    cases hm : extracted? s path with
    | none => rfl
    | some m =>
      obtain ⟨u, hu⟩ := unify_extracted hm
      rw [contribution?_eq_some_iff.mpr ⟨m, hm, hu⟩] at h
      cases h

/-- Path by path, what was read is unified into what is contributed. -/
theorem forall₂_contributions (s : Setting) (paths : List Path) :
    List.Forall₂ (fun m u => m.unify s.root.text = .ok u) (paths.filterMap (extracted? s))
      (paths.filterMap (contribution? s)) := by
  induction paths with
  | nil => exact .nil
  | cons path paths ih =>
    rw [List.filterMap_cons, List.filterMap_cons]
    cases hc : contribution? s path with
    | none =>
      rw [extracted?_eq_none_iff.mpr hc]
      exact ih
    | some u =>
      obtain ⟨m, hm, hu⟩ := contribution?_eq_some_iff.mp hc
      rw [hm]
      exact .cons hu ih

theorem model_ofFiles (s : Setting) (paths : List Path) :
    (ofFiles s paths).model = (paths.filterMap (contribution? s)).foldl merge (seed s.root) := by
  apply ext_get
  intro k
  rw [get_foldl_merge]
  exact get_foldl_addFile s ⟨seed s.root, []⟩ paths k

theorem unify_seed {root : String} (hroot : unifyRoot root ≠ "") (p : Path) :
    (seed p).unify root = .ok (seed p) := by
  have hnames : names (seed p) = [] := rfl
  have hdistinct : (seed p).duplicates = [] := rfl
  refine (unify_at_root hroot).mpr ⟨(mapNames_eq_self ?_).symm, hdistinct⟩
  rw [hnames]
  exact List.forall_mem_nil _

/-- Reading, unifying and folding the files one by one ends with the model that unifying the fold of
what was read gives. -/
theorem unify_ofFiles_eq_ok (hroot : unifyRoot s.root.text ≠ "") {paths : List Path} {u : Model} :
    (ofFiles s paths).model.unify "" = .ok u ↔
      ((paths.filterMap (extracted? s)).foldl merge (seed s.root)).unify s.root.text = .ok u := by
  rw [unify_ofFiles, model_ofFiles, unify_foldl_merge hroot]
  constructor
  · rintro ⟨hdistinct, rfl⟩
    exact ⟨_, _, unify_seed hroot s.root, forall₂_contributions s paths, hdistinct, rfl⟩
  · rintro ⟨a', us, ha, hus, hdistinct, rfl⟩
    have hseed : seed s.root = a' := by
      rw [unify_seed hroot s.root] at ha
      cases ha
      rfl
    have hsame : paths.filterMap (contribution? s) = us := by
      refine List.right_unique_forall₂' ?_ (forall₂_contributions s paths) hus
      intro m v w hv hw
      rw [hv] at hw
      cases hw
      rfl
    rw [hseed, hsame]
    exact ⟨hdistinct, rfl⟩

/-- Unifying and merging can be done in either order. -/
theorem unify_filewise :
    (∀ root, unifyRoot root ≠ "" → ∀ a b u : Model, (a.merge b).unify root = .ok u ↔
      ∃ a' b', a.unify root = .ok a' ∧ b.unify root = .ok b' ∧ (a'.merge b').duplicates = [] ∧
        u = a'.merge b') ∧
    (∀ u r : Model, u.unify "" = .ok r ↔
      ((∀ p ∈ u.projects, ∀ q ∈ u.projects, p = q) ∧ u.duplicates = []) ∧
        r = u.collapseProjects) ∧
    (∀ u r : Model, u.unify "" = .ok r → r.unify "" = .ok r) ∧
    (∀ root, unifyRoot root ≠ "" → ∀ (a r : Model) (ms : List Model),
      (∃ a' us, a.unify root = .ok a' ∧ List.Forall₂ (fun m u => m.unify root = .ok u) ms us ∧
          (us.foldl merge a').unify "" = .ok r) ↔
        ∃ w, (ms.foldl merge a).unify root = .ok w ∧ w.unify "" = .ok r) ∧
    ∀ (s : Setting) (paths : List Path), unifyRoot s.root.text ≠ "" → ∀ u : Model,
      (ofFiles s paths).model.unify "" = .ok u ↔
        ((paths.filterMap (extracted? s)).foldl merge (seed s.root)).unify s.root.text = .ok u := by
  refine ⟨?_, ?_, ?_, ?_, ?_⟩
  · intro root hroot a b u
    exact unify_merge hroot
  · intro u r
    exact unify_empty
  · intro u r
    exact unify_empty_idem
  · intro root hroot a r ms
    exact unify_empty_foldl_merge hroot
  · intro s paths hroot u
    exact unify_ofFiles_eq_ok hroot

/-- The model of one file, with a record of its project. -/
def fileWithin (module : QName) : Model :=
  ofConcepts [⟨.project, ⟨"/work/app"⟩⟩, ⟨.module, ⟨module, "./"⟩⟩]

/-- Two files of a project are unified after the merge as they are before it, and their records of
the project become one. A file merged with itself is not unified, though each part is. -/
theorem unify_filewise_siblings :
    let a := fileWithin ⟨"\"/work/app/a.ts\""⟩
    let b := fileWithin ⟨"\"/work/app/b.ts\""⟩
    let a' := fileWithin ⟨"\"./a.ts\""⟩
    let b' := fileWithin ⟨"\"./b.ts\""⟩
    unifyRoot "/work/app/" ≠ "" ∧ a.unify "/work/app/" = .ok a' ∧ b.unify "/work/app/" = .ok b' ∧
      (a.merge b).unify "/work/app/" = .ok (a'.merge b') ∧
      (∀ u, (a.merge a).unify "/work/app/" ≠ .ok u) ∧
      (a'.merge b').unify "" = .ok (a'.merge b').collapseProjects ∧
      (a'.merge b').collapseProjects.projects = [⟨"/work/app"⟩] ∧
      (a'.merge b').collapseProjects.unify "" = .ok (a'.merge b').collapseProjects := by
  intro a b a' b'
  have hroot : unifyRoot "/work/app/" ≠ "" := by decide
  have ha : a.unify "/work/app/" = .ok a' := by rfl
  have hb : b.unify "/work/app/" = .ok b' := by rfl
  obtain ⟨hmerge, hempty, hfixed, -⟩ := unify_filewise
  have hglobal : (a'.merge b').unify "" = .ok (a'.merge b').collapseProjects :=
    (hempty _ _).mpr ⟨⟨by decide, by decide⟩, rfl⟩
  refine ⟨hroot, ha, hb, ?_, ?_, hglobal, by rfl, hfixed _ _ hglobal⟩
  · exact (hmerge _ hroot a b _).mpr ⟨a', b', ha, hb, by decide, rfl⟩
  · intro u hu
    obtain ⟨c, d, hc, hd, hdistinct, -⟩ := (hmerge _ hroot a a u).mp hu
    rw [ha] at hc hd
    cases hc
    cases hd
    exact absurd hdistinct (by decide)

end Extraction

end CodeConcepts
