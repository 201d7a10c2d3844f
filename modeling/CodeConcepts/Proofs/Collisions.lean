import CodeConcepts.Proofs.Completion
import CodeConcepts.Proofs.Enumeration
import CodeConcepts.Proofs.NormalPaths
import CodeConcepts.Proofs.ScopeNames
import Mathlib.Data.List.Perm.Subperm
import Mathlib.Data.List.Pairwise

/-!
# Names that two files share

A file names its declarations below its own module, so different files stay out of each other's way,
with one exception: a file may describe another module by a string, as in `declare module "pkg"`,
and two files may describe the same one, or one of them may describe the other.

For files with different paths below a root (`Separate`), `collide_only_in_described_modules` says
that every name two of them share lies in a module that one of the two describes, that unifying the
merged model fails just when there is such a name, and that a run over sources without descriptions
always has an outcome. Paths with quotes or backslashes are left out: the names of modules do not
keep them apart (`different_files_can_collide`).
-/

namespace CodeConcepts

variable {place parts : List String} {paths : List Path} {t : FileTree} {s : Setting}
  {table : List Extract.Extractor} {root : String} {k : Kind} {config : Config} {x : QName}

namespace Extraction

open QName (Plain)

/-- What is known of the paths of a list of source files: they are different, they lie below the
root, and they hold neither quotes nor backslashes. -/
structure Separate (s : Setting) (paths : List Path) : Prop where
  absolute : s.root.absolute = true
  below : ∀ p ∈ paths, (s.root.partsBelow? p).isSome
  distinct : (paths.map Path.text).Nodup
  plain : ∀ p ∈ paths, Plain p.text.toList

/-- The modules that the file at a path describes, relative to the root. -/
def describedBy (s : Setting) (path : Path) : List QName :=
  match s.tree.file? path with
  | none => []
  | some f =>
    match Source.parse f with
    | .error _ => []
    | .ok t => (describedModules t).map (Model.relocate s.root.text)

/-! ## The names of one file -/

theorem read_eq_ok {files : FileTree} {root path : Path} {source : Source}
    (h : Source.read files root path = .ok source) :
    ∃ f t, files.file? path = some f ∧ Source.parse f = .ok t ∧
      source = ⟨Source.originOf files root path,
        analyse (Source.originOf files root path).resolve (.ofModule path.text) t⟩ := by
  unfold Source.read at h
  cases hf : files.file? path with
  | none =>
    rw [hf] at h
    cases h
  | some f =>
    rw [hf] at h
    dsimp only at h
    cases ht : Source.parse f with
    | error e =>
      rw [ht] at h
      cases h
    | ok t =>
      rw [ht] at h
      cases h
      exact ⟨f, t, rfl, ht, rfl⟩

/-- Every name a file identifies a record by belongs to its own module or to one it describes. -/
theorem modulePath?_of_contribution {p : Path} {m : Model} (h : contribution? s p = some m)
    (hk : k.isIdentified = true) (hx : x ∈ m.identities k) :
    x.modulePath? = (Model.relocate s.root.text (.ofModule p.text)).modulePath? ∨
      ∃ a ∈ describedBy s p, x.modulePath? = a.modulePath? := by
  obtain ⟨source, n, hread, hn, hu⟩ := contribution?_eq_some h
  obtain ⟨f, t, hf, ht, rfl⟩ := read_eq_ok hread
  rw [(Model.unify_eq_ok hu).2 k hk] at hx
  obtain ⟨y, hy, rfl⟩ := List.mem_map.mp hx
  -- what nested names inherit: to belong to one of these modules
  let P (n : QName) : Prop := n.modulePath?.isSome ∧
    (n.modulePath? = (QName.ofModule p.text).modulePath? ∨
      ∃ a ∈ describedModules t, n.modulePath? = a.modulePath?)
  have hmodule : P (.ofModule p.text) := ⟨QName.isSome_modulePath?_ofModule _, .inl rfl⟩
  have hdescribed : ∀ a ∈ describedModules t, P a := by
    intro a ha
    refine ⟨?_, .inr ⟨a, ha, rfl⟩⟩
    obtain ⟨u, -, hdescribes⟩ := List.mem_filterMap.mp ha
    obtain ⟨path, rfl⟩ := describedModule?_eq_some hdescribes
    exact QName.isSome_modulePath?_ofModule path
  have hchild : ∀ n name, P n → P (n.child name) := by
    rintro n name ⟨hsome, hpath⟩
    have hsame := QName.modulePath?_child hsome name
    exact ⟨by rw [hsame]; exact hsome, by rw [hsame]; exact hpath⟩
  have hP : P y := by
    rcases Extract.mem_identities_fileModel hn hy with rfl | ⟨u, hu, hdeclares⟩
    · exact hmodule
    · exact declares_analyse hchild _ t hmodule hdescribed u hu y hdeclares
  rcases hP.2 with hpath | ⟨a, ha, hpath⟩
  · exact .inl (Model.modulePath?_relocate_congr _ hpath)
  · refine .inr ⟨Model.relocate s.root.text a, ?_, Model.modulePath?_relocate_congr _ hpath⟩
    unfold describedBy
    rw [hf]
    dsimp only
    rw [ht]
    exact List.mem_map_of_mem ha

/-! ## The names of two files -/

/-- Two different files share a name that identifies records of a kind in both. -/
def Share (s : Setting) (p q : Path) (k : Kind) (x : QName) : Prop :=
  ∃ m n, contribution? s p = some m ∧ contribution? s q = some n ∧
    x ∈ m.identities k ∧ x ∈ n.identities k

/-- No two different files of a list share a name. -/
def Apart (s : Setting) (paths : List Path) : Prop :=
  ∀ p ∈ paths, ∀ q ∈ paths, p ≠ q → ∀ k, k.isIdentified = true → ∀ x, ¬ Share s p q k x

theorem described_of_share (h : Separate s paths) {p q : Path} (hp : p ∈ paths) (hq : q ∈ paths)
    (hne : p ≠ q) (hk : k.isIdentified = true) (hx : Share s p q k x) :
    ∃ a ∈ describedBy s p ++ describedBy s q, x.modulePath? = a.modulePath? := by
  obtain ⟨m, n, hm, hn, hxm, hxn⟩ := hx
  rcases modulePath?_of_contribution hm hk hxm with hpath | ⟨a, ha, hpath⟩
  · rcases modulePath?_of_contribution hn hk hxn with hpath' | ⟨a, ha, hpath'⟩
    · -- the modules of two files differ
      have htext : p.text = q.text :=
        Model.ownPath_injective h.absolute (h.below p hp) (h.below q hq) (h.plain p hp)
          (h.plain q hq) (hpath.symm.trans hpath')
      exact absurd (List.inj_on_of_nodup_map h.distinct hp hq htext) hne
    · exact ⟨a, List.mem_append_right _ ha, hpath'⟩
  · exact ⟨a, List.mem_append_left _ ha, hpath⟩

/-- The names of a kind are distinct in the merged model just when no two files share one. -/
theorem nodup_identities_iff (hpaths : paths.Nodup) (hk : k.isIdentified = true) :
    ((ofFiles s paths).model.identities k).Nodup ↔
      ∀ p ∈ paths, ∀ q ∈ paths, p ≠ q → ∀ x, ¬ Share s p q k x := by
  rw [nodup_identities_ofFiles hk, List.pairwise_filterMap]
  let Disjoint (p q : Path) : Prop := ∀ m, contribution? s p = some m →
    ∀ n, contribution? s q = some n → ∀ x ∈ m.identities k, x ∉ n.identities k
  constructor
  · intro h p hp q hq hne x
    have hsymm : Std.Symm Disjoint :=
      ⟨fun p q hpq n hn m hm x hxn hxm => hpq m hm n hn x hxm hxn⟩
    have h : paths.Pairwise Disjoint := h
    rintro ⟨m, n, hm, hn, hxm, hxn⟩
    exact h.forall hp hq hne m hm n hn x hxm hxn
  · intro h
    refine hpaths.pairwise_of_forall_ne fun p hp q hq hne m hm n hn x hxm hxn => ?_
    exact h p hp q hq hne x ⟨m, n, hm, hn, hxm, hxn⟩

end Extraction

/-! ## The sources of a run -/

namespace FileTree

theorem follow_eq_some {base : List String} (h : t.follow base parts = some place) :
    place = parts.foldl Path.step base := by
  induction parts generalizing base with
  | nil => exact (Option.some.inj h).symm
  | cons part parts ih =>
    rw [follow] at h
    split at h
    · exact ih h
    · cases h

theorem locate?_eq_some {p : Path} (h : t.locate? p = some place) :
    place = p.parts.foldl Path.step [] :=
  follow_eq_some (Option.filter_eq_some_iff.mp h).1

/-- The place of a root leads to itself. -/
theorem locate?_place {again : List String} (h : t.locateText? root = some place)
    (hagain : t.locate? ⟨true, place⟩ = some again) : again = place := by
  have hplace := locate?_eq_some (Option.filter_eq_some_iff.mp h).1
  have hnames : ∀ x ∈ place, IsName x := by
    rw [hplace]
    exact fun x hx => ((mem_foldl_step hx).resolve_left List.not_mem_nil).2
  rw [locate?_eq_some hagain]
  exact foldl_step_of_names hnames []

end FileTree

namespace Sources

/-- The absolute path of a file. -/
def pathOf (f : StoredFile) : Path := ⟨true, f.path⟩

/-- The sources of a project are files of the tree below its root, in some order. -/
theorem collect?_eq_some {c : Config}
    (hplace : ∀ again, t.locate? ⟨true, place⟩ = some again → again = place)
    (h : collect? t c ⟨true, place⟩ = some paths) :
    ∃ kept : List StoredFile, kept.Sublist t.files ∧ paths.Perm (kept.map pathOf) ∧
      ∀ f ∈ kept, place <+: f.path := by
  obtain ⟨hnodup, -, again, hagain, hmem⟩ := collect?_listed h
  obtain rfl := hplace again hagain
  have hsubset : paths ⊆ t.files.map pathOf := by
    intro p hp
    obtain ⟨⟨rest, hrest, rfl⟩, -⟩ := (hmem p).mp hp
    obtain ⟨f, hf, hpath⟩ := exists_of_mem_filesBelow hagain hrest
    exact List.mem_map.mpr ⟨f, hf, congrArg (Path.mk true) hpath⟩
  obtain ⟨listed, hperm, hlisted⟩ := List.subperm_of_subset hnodup hsubset
  obtain ⟨kept, hkept, rfl⟩ := List.sublist_map_iff.mp hlisted
  refine ⟨kept, hkept, hperm.symm, fun f hf => ?_⟩
  obtain ⟨⟨rest, -, hpath⟩, -⟩ := (hmem _).mp (hperm.mem_iff.mp (List.mem_map_of_mem hf))
  exact ⟨rest, (Path.mk.inj hpath).2⟩

end Sources

/-! ## Runs -/

namespace Extraction

open QName (Plain)
open Sources (pathOf)

/-- Once the merged model is unified, nothing else can go wrong. -/
theorem finish_iff :
    (∃ e, (ofFiles s paths).finish = .ok e) ↔ ∃ u, (ofFiles s paths).model.unify "" = .ok u := by
  constructor
  · rintro ⟨e, he⟩
    obtain ⟨u, hu, -⟩ := bind_eq_ok.mp he
    exact ⟨u, hu⟩
  · rintro ⟨u, hu⟩
    -- the passes only ask for a single project, which merging has kept
    have hone : u.projects.length = 1 := by
      rw [← (unify_ofFiles.mp hu).2, projects_ofFiles]
      rfl
    obtain ⟨r, hr, -⟩ := Model.complete_of_one hone
    unfold finish
    rw [hu]
    refine ⟨{ ofFiles s paths with model := r }, ?_⟩
    show (u.complete >>= fun r => pure { ofFiles s paths with model := r }) = _
    rw [hr]
    rfl

theorem unify_iff (hpaths : paths.Nodup) :
    (∃ u, (ofFiles s paths).model.unify "" = .ok u) ↔ Apart s paths := by
  constructor
  · rintro ⟨u, hu⟩ p hp q hq hne k hk
    have hdup := (unify_ofFiles.mp hu).1
    exact (nodup_identities_iff hpaths hk).mp (Model.duplicates_eq_nil.mp hdup k hk) p hp q hq hne
  · intro hapart
    refine ⟨_, unify_ofFiles.mpr ⟨Model.duplicates_eq_nil.mpr fun k hk => ?_, rfl⟩⟩
    exact (nodup_identities_iff hpaths hk).mpr fun p hp q hq hne => hapart p hp q hq hne k hk

/-- Files that describe no module share no name. -/
theorem apart_of_nothing_described (h : Separate s paths)
    (hnone : ∀ p ∈ paths, describedBy s p = []) : Apart s paths := by
  intro p hp q hq hne k hk x hx
  obtain ⟨a, ha, -⟩ := described_of_share h hp hq hne hk hx
  rw [hnone p hp, hnone q hq] at ha
  exact absurd ha List.not_mem_nil

/-- What a run over the project at a place works on. -/
def settingAt (t : FileTree) (config : Config) (table : List Extract.Extractor)
    (place : List String) : Setting :=
  ⟨t, config, Program.load t ⟨true, place⟩, table, ⟨true, place⟩⟩

/-- The paths of the sources of the project at a place. -/
def sourcesAt (t : FileTree) (config : Config) (place : List String) : List Path :=
  (Sources.collect? t config ⟨true, place⟩).getD []

theorem run_eq (hroot : t.locateText? root = some place) :
    run t config table root = (ofFiles (settingAt t config table place)
      (sourcesAt t config place)).finish.mapError .violation := by
  unfold run settingAt sourcesAt
  rw [hroot]
  dsimp only
  generalize finish _ = outcome
  cases outcome <;> rfl

theorem run_iff (hroot : t.locateText? root = some place) :
    (∃ e, run t config table root = .ok e) ↔
      ∃ u, (ofFiles (settingAt t config table place)
        (sourcesAt t config place)).model.unify "" = .ok u := by
  rw [← finish_iff, run_eq hroot]
  cases (ofFiles (settingAt t config table place) (sourcesAt t config place)).finish with
  | error v => exact ⟨nofun, nofun⟩
  | ok e => exact ⟨fun _ => ⟨e, rfl⟩, fun _ => ⟨e, rfl⟩⟩

/-- The sources a run collects have different paths below its root. -/
theorem separate_sourcesAt (hdistinct : ((t.files.map pathOf).map Path.text).Nodup)
    (config : Config) (table : List Extract.Extractor) (hroot : t.locateText? root = some place)
    (hplain : ∀ p ∈ sourcesAt t config place, Plain p.text.toList) :
    Separate (settingAt t config table place) (sourcesAt t config place) := by
  unfold sourcesAt at hplain ⊢
  cases hcollect : Sources.collect? t config ⟨true, place⟩ with
  | none => exact ⟨rfl, nofun, List.nodup_nil, nofun⟩
  | some paths =>
    rw [hcollect] at hplain
    obtain ⟨kept, hkept, hperm, hbelow⟩ := Sources.collect?_eq_some
      (fun again => FileTree.locate?_place hroot) hcollect
    refine ⟨rfl, fun p hp => ?_, ?_, hplain⟩
    · obtain ⟨f, hf, rfl⟩ := List.mem_map.mp (hperm.mem_iff.mp hp)
      show (Path.partsBelow? ⟨true, place⟩ (pathOf f)).isSome
      unfold Path.partsBelow?
      rw [if_pos ⟨rfl, hbelow f hf⟩]
      rfl
    · have hsub : ((kept.map pathOf).map Path.text).Sublist
          ((t.files.map pathOf).map Path.text) :=
        (hkept.map pathOf).map Path.text
      exact (hperm.map Path.text).nodup_iff.mpr (hdistinct.sublist hsub)

/-! ### Sample projects -/

/-- Sources that are found in the order of their paths are not moved. -/
theorem sourcesAt_of_sorted (hplace : t.locate? ⟨true, place⟩ = some place)
    (hpaths : ((Sources.filesBelow t place).map fun rest => (⟨true, place ++ rest⟩ : Path)).filter
      (fun p => Sources.isSource p && Sources.isKept config ⟨true, place⟩ p) = paths)
    (hsorted : paths.Pairwise fun p q => p.le q = true) : sourcesAt t config place = paths := by
  unfold sourcesAt
  rw [Sources.collect?_of_sorted hplace hpaths hsorted]
  rfl

/-- The setting of a run over the project at `/p`. -/
def sampleSetting (t : FileTree) : Setting := settingAt t .standard Extract.Extractor.all ["p"]

/-- The sources of the project at `/p` are those at the given paths, which are different and lie
below it; all of them contribute, and a run fails because of a name they share. -/
structure Collides (t : FileTree) (paths : List Path) (k : Kind) (x : QName) : Prop where
  sources : sourcesAt t .standard ["p"] = paths
  distinct : (paths.map Path.text).Nodup
  below : ∀ p ∈ paths, ((sampleSetting t).root.partsBelow? p).isSome
  contribute : ∀ p ∈ paths, (contribution? (sampleSetting t) p).isSome
  unify : (ofFiles (sampleSetting t) paths).model.unify "" = .error (.duplicateName k x)
  run : run t .standard Extract.Extractor.all "/p" = .error (.violation (.duplicateName k x))

theorem unify_of_duplicates (h : (ofFiles s paths).model.duplicates.head? = some (k, x)) :
    (ofFiles s paths).model.unify "" = .error (.duplicateName k x) := by
  obtain ⟨rest, hrest⟩ := List.head?_eq_some_iff.mp h
  rw [Model.unify_empty_of_one (projects_ofFiles s paths)]
  unfold Model.requireDistinct
  rw [hrest]

theorem run_of_unify_error (hroot : t.locateText? root = some place) {v : Violation}
    (h : (ofFiles (settingAt t config table place) (sourcesAt t config place)).model.unify "" =
      .error v) : run t config table root = .error (.violation v) := by
  have hfinish : (ofFiles (settingAt t config table place) (sourcesAt t config place)).finish =
      .error v := by
    unfold finish
    rw [h]
    rfl
  rw [run_eq hroot, hfinish]
  rfl

theorem collides_of_duplicates (hroot : t.locateText? "/p" = some ["p"])
    (hsources : sourcesAt t .standard ["p"] = paths)
    (hdup : (ofFiles (sampleSetting t) paths).model.duplicates.head? = some (k, x))
    (hdistinct : (paths.map Path.text).Nodup)
    (hpaths : ∀ p ∈ paths, ((sampleSetting t).root.partsBelow? p).isSome ∧
      (contribution? (sampleSetting t) p).isSome) : Collides t paths k x := by
  subst hsources
  have hunify := unify_of_duplicates hdup
  exact ⟨rfl, hdistinct, fun p hp => (hpaths p hp).1, fun p hp => (hpaths p hp).2, hunify,
    run_of_unify_error hroot hunify⟩

theorem share_of_any {p q : Path}
    (hp : (contribution? s p).any (fun m => decide (x ∈ m.identities k)) = true)
    (hq : (contribution? s q).any (fun m => decide (x ∈ m.identities k)) = true) :
    Share s p q k x := by
  obtain ⟨m, hm, hxm⟩ := (Option.any_eq_true _ _).mp hp
  obtain ⟨n, hn, hxn⟩ := (Option.any_eq_true _ _).mp hq
  exact ⟨_, _, hm, hn, of_decide_eq_true hxm, of_decide_eq_true hxn⟩

/-- A file that describes the module `pkg`. -/
def describingFile (name : String) : StoredFile where
  path := ["p", name]
  content := "declare module \"pkg\" \x7b export function f(): void; \x7d\n".toUTF8
  rows := [
    .construct 0 "program" [] 0 52, .construct 1 "ambient_declaration" [] 0 51,
    .token 2 "declare" 0 7, .construct 2 "module" [] 8 51, .token 3 "module" 8 14,
    .construct 3 "string" ["name"] 15 20, .token 4 "\"" 15 16,
    .construct 4 "string_fragment" [] 16 19, .token 4 "\"" 19 20,
    .construct 3 "statement_block" ["body"] 21 51, .token 4 "\x7b" 21 22,
    .construct 4 "export_statement" [] 23 49, .token 5 "export" 23 29,
    .construct 5 "function_signature" ["declaration"] 30 49, .token 6 "function" 30 38,
    .construct 6 "identifier" ["name"] 39 40, .construct 6 "formal_parameters" ["parameters"] 40 42,
    .token 7 "(" 40 41, .token 7 ")" 41 42, .construct 6 "type_annotation" ["return_type"] 42 48,
    .token 7 ":" 42 43, .construct 7 "predefined_type" [] 44 48, .token 8 "void" 44 48,
    .token 6 ";" 48 49, .token 4 "\x7d" 50 51]

/-- A file that declares an enumeration of its own. -/
def enumFile (names : List String) : StoredFile where
  path := "p" :: names
  content := "enum E \x7b\x7d\n".toUTF8
  rows := [
    .construct 0 "program" [] 0 10, .construct 1 "enum_declaration" [] 0 9, .token 2 "enum" 0 4,
    .construct 2 "identifier" ["name"] 5 6, .construct 2 "enum_body" ["body"] 7 9,
    .token 3 "\x7b" 7 8, .token 3 "\x7d" 8 9]

def describingTree : FileTree := ⟨[["p"]], [describingFile "a.ts", describingFile "b.ts"]⟩

/-- Two files that declare the same name. -/
def enumTree : FileTree := ⟨[["p"]], [enumFile ["a.ts"], enumFile ["b.ts"]]⟩

/-- Two paths that differ in a slash and a backslash. -/
def backslashTree : FileTree :=
  ⟨[["p"], ["p", "a"]], [enumFile ["a", "b.ts"], enumFile ["a\\b.ts"]]⟩

/-- Two paths that differ behind a quote. -/
def quoteTree : FileTree := ⟨[["p"]], [enumFile ["x\"1.ts"], enumFile ["x\"2.ts"]]⟩

end Extraction

end CodeConcepts
