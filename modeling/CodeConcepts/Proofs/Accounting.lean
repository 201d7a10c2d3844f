import CodeConcepts.Proofs.Collisions
import CodeConcepts.Proofs.Rebasing

/-!
# Every source is accounted for

A run asks a provider for each of its sources. The provider that `run` works with reads the files of
a tree (`run_eq_runFrom`), but nothing here depends on where the answers come from, as long as the
answer for a path is about the file at that path (`Provider.Faithful`).

A source that gives no model leaves no trace but its line in the report (`model_addOutcome`), and so
the final model is known from the sources that do (`runFrom_accounts`): which modules it has, in
which order, and that it would be the same without the other sources.
-/

namespace CodeConcepts

variable {place rest : List String} {provider : Provider} {table : List Extract.Extractor}
  {root p path : Path} {t : FileTree}

/-- Whether a source contributed. -/
def FileOutcome.isProcessed (f : FileOutcome) : Bool :=
  match f.status with
  | .processed _ => true
  | _ => false

namespace Extraction

/-! ## Providers -/

/-- What a provider knows of a source. -/
structure Provided where
  path : Path
  /-- The module that a specifier in this file denotes. -/
  resolve : String → QName
  tree : Syntax.Tree Note

/-- The source of a project that is extracted. -/
def Provided.source (root : Path) (x : Provided) : Source where
  origin := ⟨.ofModule x.path.text, "./" ++ (x.path.relativeTo root).display, x.resolve⟩
  tree := x.tree

/-- The answers of a provider: for a root and a path what it knows of the source there, or nothing if
the file does not belong to the program. -/
abbrev Provider : Type := Path → Path → Except SourceFault (Option Provided)

/-- The answers are about the files that were asked for. -/
def Provider.Faithful (provider : Provider) : Prop :=
  ∀ root path x, provider root path = .ok (some x) → x.path = path

/-- The provider that reads the files of a tree. -/
def fileProvider (t : FileTree) : Provider := fun root path =>
  if (Program.load t root).contains (path.relativeTo root).display then
    (Source.read t root path).map fun source => some ⟨path, source.origin.resolve, source.tree⟩
  else .ok none

/-- What becomes of the source at a path. -/
def outcome (provider : Provider) (table : List Extract.Extractor) (root path : Path) :
    Except FileFault (Option Model) :=
  match provider root path with
  | .error e => .error (.source e)
  | .ok none => .ok none
  | .ok (some x) =>
    match (x.source root).model table with
    | .error e => .error (.extraction e)
    | .ok m =>
      match m.unify root.text with
      | .error v => .error (.violation v)
      | .ok m => .ok (some m)

/-- Adds what became of one more source. -/
def addOutcome (e : Extraction) (path : Path) : Except FileFault (Option Model) → Extraction
  | .ok (some m) => ⟨e.model.merge m, e.files ++ [⟨path, .processed m.size⟩]⟩
  | .ok none => ⟨e.model, e.files ++ [⟨path, .noProgram⟩]⟩
  | .error fault => ⟨e.model, e.files ++ [⟨path, .failed fault.message⟩]⟩

/-- Asks a provider for all sources of a list. -/
def ofProvider (provider : Provider) (table : List Extract.Extractor) (root : Path)
    (paths : List Path) : Extraction :=
  paths.foldl (fun e path => e.addOutcome path (outcome provider table root path)) ⟨seed root, []⟩

/-- Extracts the project whose root is at an absolute path with the sources of a provider. -/
def runFrom (provider : Provider) (tree : FileTree) (config : Config)
    (table : List Extract.Extractor) (root : String) : Except RunFault Extraction :=
  match tree.locateText? root with
  | none => .error (.inaccessible root)
  | some place => (ofProvider provider table ⟨true, place⟩
      (sourcesAt tree config place)).finish.mapError .violation

/-! ## Runs over the files of a tree -/

theorem fileProvider_faithful (t : FileTree) : (fileProvider t).Faithful := by
  intro root path x h
  unfold fileProvider at h
  split at h
  · obtain ⟨source, -, hx⟩ := map_eq_ok.mp h
    cases hx
    rfl
  · cases h

/-- What was read and then provided is what was read. -/
theorem source_of_read {source : Source} (h : Source.read t root path = .ok source) :
    Provided.source root ⟨path, source.origin.resolve, source.tree⟩ = source := by
  obtain ⟨f, tree, -, -, rfl⟩ := read_eq_ok h
  rfl

theorem outcome_fileProvider (t : FileTree) (config : Config) (table : List Extract.Extractor)
    (place : List String) (path : Path) :
    outcome (fileProvider t) table ⟨true, place⟩ path =
      fileModel? (settingAt t config table place) path := by
  unfold outcome fileModel? source? fileProvider settingAt
  dsimp only
  by_cases hprogram :
    (Program.load t ⟨true, place⟩).contains (path.relativeTo ⟨true, place⟩).display = true
  · rw [if_pos hprogram, if_pos hprogram]
    cases hread : Source.read t ⟨true, place⟩ path with
    | error e => rfl
    | ok source =>
      cases hmodel : source.model table with
      | error e => simp only [Except.map, source_of_read hread, hmodel]
      | ok m =>
        cases hunified : m.unify (⟨true, place⟩ : Path).text with
        | error v | ok m => simp only [Except.map, source_of_read hread, hmodel, hunified]
  · rw [if_neg hprogram, if_neg hprogram]

/-- A run is a run with the provider that reads files. -/
theorem run_eq_runFrom (t : FileTree) (config : Config) (table : List Extract.Extractor)
    (root : String) : run t config table root = runFrom (fileProvider t) t config table root := by
  unfold runFrom
  cases hroot : t.locateText? root with
  | none =>
    unfold run
    rw [hroot]
  | some place =>
    have hfiles : ofFiles (settingAt t config table place) (sourcesAt t config place) =
        ofProvider (fileProvider t) table ⟨true, place⟩ (sourcesAt t config place) := by
      unfold ofFiles ofProvider
      congr 1
      funext e path
      rw [outcome_fileProvider t config]
      rfl
    rw [run_eq hroot, hfiles]

/-! ## The report -/

/-- How a source is reported. -/
def statusOf : Except FileFault (Option Model) → FileStatus
  | .ok (some m) => .processed m.size
  | .ok none => .noProgram
  | .error fault => .failed fault.message

/-- The model that a source contributes, if it does. -/
def modelOf? : Except FileFault (Option Model) → Option Model
  | .ok found => found
  | .error _ => none

theorem files_addOutcome (e : Extraction) (path : Path) (found : Except FileFault (Option Model)) :
    (e.addOutcome path found).files = e.files ++ [⟨path, statusOf found⟩] := by
  cases found with
  | error fault => rfl
  | ok found => cases found <;> rfl

/-- A source without a model leaves the merged model as it was. -/
theorem model_addOutcome (e : Extraction) (path : Path) (found : Except FileFault (Option Model)) :
    (e.addOutcome path found).model = (modelOf? found).elim e.model e.model.merge := by
  cases found with
  | error fault => rfl
  | ok found => cases found <;> rfl

theorem isProcessed_statusOf (path : Path) (found : Except FileFault (Option Model)) :
    FileOutcome.isProcessed ⟨path, statusOf found⟩ = (modelOf? found).isSome := by
  cases found with
  | error fault => rfl
  | ok found => cases found <;> rfl

/-- The paths of the sources that contributed. -/
def processedPaths (e : Extraction) : List Path :=
  (e.files.filter FileOutcome.isProcessed).map (·.path)

section Provider

variable (provider : Provider) (table : List Extract.Extractor) (root : Path)

/-- The report of a list of sources has a line for each of them. -/
theorem files_ofProvider (paths : List Path) : (ofProvider provider table root paths).files =
    paths.map fun path => ⟨path, statusOf (outcome provider table root path)⟩ := by
  have hfold (e : Extraction) : (paths.foldl (fun e path =>
      e.addOutcome path (outcome provider table root path)) e).files = e.files ++
        paths.map fun path => ⟨path, statusOf (outcome provider table root path)⟩ := by
    induction paths generalizing e with
    | nil => exact (List.append_nil _).symm
    | cons path paths ih =>
      rw [List.foldl_cons, ih, files_addOutcome, List.append_assoc]
      rfl
  exact hfold _

theorem processedPaths_ofProvider (paths : List Path) :
    (ofProvider provider table root paths).processedPaths =
      paths.filter fun path => (modelOf? (outcome provider table root path)).isSome := by
  unfold processedPaths
  rw [files_ofProvider, List.filter_map, List.map_map]
  refine (List.map_id _).trans (List.filter_congr fun path _ => ?_)
  exact isProcessed_statusOf path _

theorem get_ofProvider (paths : List Path) (k : Kind) :
    (ofProvider provider table root paths).model.get k = (seed root).get k ++
      (paths.filterMap fun path => modelOf? (outcome provider table root path)).flatMap (·.get k) :=
  get_foldl_of_step (fun e path => model_addOutcome e path (outcome provider table root path)) _
    paths k

/-- Sources that contribute nothing can be left out. -/
theorem model_ofProvider_processed (paths : List Path) :
    (ofProvider provider table root (ofProvider provider table root paths).processedPaths).model =
      (ofProvider provider table root paths).model := by
  apply Model.ext_get
  intro k
  rw [get_ofProvider, get_ofProvider, processedPaths_ofProvider, List.filterMap_filter]
  congr 2
  refine List.filterMap_congr fun path _ => ?_
  cases modelOf? (outcome provider table root path) <;> rfl

theorem files_ofProvider_processed (paths : List Path) :
    (ofProvider provider table root (ofProvider provider table root paths).processedPaths).files =
      (ofProvider provider table root paths).files.filter FileOutcome.isProcessed := by
  rw [files_ofProvider, processedPaths_ofProvider, files_ofProvider, List.filter_map]
  refine congrArg _ (List.filter_congr fun path _ => ?_)
  exact (isProcessed_statusOf path _).symm

end Provider

/-- Only the answers for the sources of the list matter. -/
theorem ofProvider_congr {other : Provider} {paths : List Path}
    (h : ∀ path ∈ paths, other root path = provider root path) :
    ofProvider other table root paths = ofProvider provider table root paths := by
  have houtcome (path : Path) (hpath : path ∈ paths) :
      outcome other table root path = outcome provider table root path := by
    unfold outcome
    rw [h path hpath]
  unfold ofProvider
  exact List.foldl_ext _ _ _ fun e path hpath => by rw [houtcome path hpath]

/-! ## The modules of one source -/

theorem modules_unify {root : String} {m u : Model} (h : m.unify root = .ok u) :
    u.modules = m.modules.map (mapNames (Model.relocate root)) := by
  unfold Model.unify at h
  dsimp only at h
  split at h
  · next hroot =>
    obtain ⟨ps, -, h⟩ := bind_eq_ok.mp h
    obtain ⟨-, rfl⟩ := Model.requireDistinct_eq_ok.mp h
    have hstays (x : Module) : mapNames (Model.relocate root) x = x := by
      show { x with fqn := Model.relocate root x.fqn } = x
      rw [Model.relocate, if_pos hroot]
    show (m.set .project ps).get .module = _
    rw [Model.get_set_of_ne _ _ (by decide), List.map_congr_left fun x _ => hstays x, List.map_id']
    rfl
  · next hroot =>
    obtain ⟨-, rfl⟩ := Model.requireDistinct_eq_ok.mp h
    have hmoves : Model.relocate root = QName.rebase (Model.unifyRoot root) :=
      funext fun n => if_neg hroot
    rw [hmoves]
    exact Model.get_mapNames _ m .module

/-- The source behind a model: it was provided, and its records were unified at the root. -/
theorem outcome_eq_some {m : Model} (h : modelOf? (outcome provider table root path) = some m) :
    ∃ x n, provider root path = .ok (some x) ∧ (x.source root).model table = .ok n ∧
      n.unify root.text = .ok m := by
  unfold outcome at h
  split at h
  · cases h
  · cases h
  · next x hx =>
    split at h
    · cases h
    · next n hn =>
      split at h
      · cases h
      · next u hu =>
        cases h
        exact ⟨x, n, hx, hn, hu⟩

/-- A source contributes no project, and one module, which is its own. -/
theorem get_of_outcome (hprovider : provider.Faithful) {m : Model}
    (h : modelOf? (outcome provider table root path) = some m) :
    m.projects = [] ∧ m.modules = [⟨Model.relocate root.text (.ofModule path.text),
      "./" ++ (path.relativeTo root).display⟩] := by
  obtain ⟨x, n, hx, hn, hu⟩ := outcome_eq_some h
  obtain rfl := hprovider root path x hx
  refine ⟨Model.projects_unify (Extract.projects_fileModel hn) hu, ?_⟩
  rw [modules_unify hu, Extract.modules_fileModel hn]
  rfl

theorem projects_ofProvider (hprovider : provider.Faithful) (table : List Extract.Extractor)
    (root : Path) (paths : List Path) :
    (ofProvider provider table root paths).model.projects = [⟨root.display⟩] := by
  show (ofProvider provider table root paths).model.get .project = _
  rw [get_ofProvider, List.flatMap_eq_nil_iff.mpr, List.append_nil]
  · rfl
  · intro m hm
    obtain ⟨path, -, hpath⟩ := List.mem_filterMap.mp hm
    exact (get_of_outcome hprovider hpath).1

/-- The modules of the merged model are those of the sources that contributed. -/
theorem modules_ofProvider (hprovider : provider.Faithful) (table : List Extract.Extractor)
    (root : Path) (paths : List Path) :
    (ofProvider provider table root paths).model.modules =
      (ofProvider provider table root paths).processedPaths.map fun path =>
        ⟨Model.relocate root.text (.ofModule path.text),
          "./" ++ (path.relativeTo root).display⟩ := by
  show (ofProvider provider table root paths).model.get .module = _
  rw [get_ofProvider, processedPaths_ofProvider, show (seed root).get .module = [] from rfl,
    List.nil_append]
  induction paths with
  | nil => rfl
  | cons path paths ih =>
    rw [List.filterMap_cons, List.filter_cons]
    cases hm : modelOf? (outcome provider table root path) with
    | none => exact ih
    | some m =>
      rw [List.flatMap_cons, ih]
      show m.modules ++ _ = _
      rw [(get_of_outcome hprovider hm).2]
      rfl

end Extraction

/-! ## The module of a path -/

theorem Text.glue_getLast {sep : Char} {ps : List (List Char)} (h : ps ≠ []) :
    ∃ front, glue sep ps = front ++ ps.getLast h := by
  induction ps with
  | nil => exact absurd rfl h
  | cons p ps ih =>
    by_cases hps : ps = []
    · subst hps
      exact ⟨[], rfl⟩
    · obtain ⟨front, hfront⟩ := ih hps
      refine ⟨p ++ sep :: front, ?_⟩
      rw [glue_cons sep p hps, hfront, List.getLast_cons hps, List.append_assoc, List.cons_append]

namespace FileTree

/-- The names that lead to a root are not empty, and they hold no slash. -/
theorem names_of_locateText? {root : String} (h : t.locateText? root = some place) :
    ∀ x ∈ place, x.toList ≠ [] ∧ '/' ∉ x.toList := by
  intro x hx
  rw [locate?_eq_some (Option.filter_eq_some_iff.mp h).1] at hx
  rcases mem_foldl_step hx with hx | ⟨hx, -⟩
  · exact absurd hx List.not_mem_nil
  · obtain ⟨hsegment, hkept⟩ := List.mem_filter.mp hx
    obtain ⟨cs, hcs, rfl⟩ := List.mem_map.mp hsegment
    rw [String.toList_ofList]
    refine ⟨?_, fun hslash => (Text.mem_of_mem_pieces hcs hslash).2 rfl⟩
    rintro rfl
    exact absurd hkept (by decide)

end FileTree

namespace Model

/-- The text of a root that is not the root of all files has no slash at its end. -/
theorem rootText_of_names (hne : place ≠ [])
    (hnames : ∀ x ∈ place, x.toList ≠ [] ∧ '/' ∉ x.toList) :
    rootText ⟨true, place⟩ = (⟨true, place⟩ : Path).text.toList := by
  have hmap : place.map String.toList ≠ [] := by simpa using hne
  obtain ⟨front, hfront⟩ : ∃ front, Text.glue '/' (place.map String.toList) = front ++ _ :=
    Text.glue_getLast hmap
  -- the last character is one of the last name
  obtain ⟨hlast, hslash⟩ := hnames _ (List.getLast_mem hne)
  have hend : (place.getLast hne).toList.getLast hlast ≠ '/' :=
    fun h => hslash (h ▸ List.getLast_mem hlast)
  rw [List.getLast_map] at hfront
  unfold rootText
  rw [Path.toList_text, hfront, ← List.dropLast_append_getLast hlast, ← List.append_assoc,
    ← List.cons_append]
  generalize (place.getLast hne).toList.getLast hlast = c at hend
  generalize '/' :: (front ++ _) = cs
  unfold Text.dropEndWhile
  rw [List.reverse_append]
  show ((c :: cs.reverse).dropWhile _).reverse = _
  rw [List.dropWhile_cons_of_neg (by simpa using hend), List.reverse_cons, List.reverse_reverse]

end Model

/-- The module of a file relative to a root: the name is the path in quotes. -/
def moduleAt (root p : Path) : Module where
  fqn := ⟨"\"" ++ ("./" ++ (p.relativeTo root).text) ++ "\""⟩
  path := "./" ++ (p.relativeTo root).text

namespace Model

open QName (Plain)

/-- The text of a path below a root: a slash stands between the root and the relative path. -/
theorem text_below (hne : place ≠ []) (hrest : rest ≠ []) (hp : p = ⟨true, place ++ rest⟩) :
    p.text.toList =
      (⟨true, place⟩ : Path).text.toList ++ '/' :: (p.relativeTo ⟨true, place⟩).text.toList := by
  have hrelative : (p.relativeTo ⟨true, place⟩).text.toList =
      Text.glue '/' (rest.map String.toList) := by
    unfold Path.relativeTo Path.partsBelow?
    rw [hp, if_pos ⟨rfl, List.prefix_append place rest⟩]
    dsimp only
    rw [List.drop_left]
    exact String.toList_ofList
  rw [hrelative, hp, Path.toList_text, Path.toList_text, List.map_append,
    Text.glue_append (by simpa using hne) (by simpa using hrest)]
  rfl

theorem plain_below (hne : place ≠ []) (hrest : rest ≠ []) (hp : p = ⟨true, place ++ rest⟩)
    (hplain : Plain p.text.toList) :
    Plain (⟨true, place⟩ : Path).text.toList ∧ Plain (p.relativeTo ⟨true, place⟩).text.toList := by
  rw [text_below hne hrest hp] at hplain
  obtain ⟨hquote, hbackslash⟩ := hplain
  rw [List.mem_append, List.mem_cons, not_or, not_or] at hquote hbackslash
  exact ⟨⟨hquote.1, hbackslash.1⟩, ⟨hquote.2.2, hbackslash.2.2⟩⟩

/-- Unifying at a root gives the module of a file below the root its relative path. -/
theorem relocate_below (hne : place ≠ []) (hrest : rest ≠ [])
    (hnames : ∀ x ∈ place, x.toList ≠ [] ∧ '/' ∉ x.toList) (hp : p = ⟨true, place ++ rest⟩)
    (hplain : Plain p.text.toList) :
    (⟨relocate (⟨true, place⟩ : Path).text (.ofModule p.text),
      "./" ++ (p.relativeTo ⟨true, place⟩).display⟩ : Module) = moduleAt ⟨true, place⟩ p := by
  obtain ⟨hroot, hbelow⟩ := plain_below hne hrest hp hplain
  have hend := rootText_of_names hne hnames
  have hdisplay : (p.relativeTo ⟨true, place⟩).display = (p.relativeTo ⟨true, place⟩).text := by
    unfold Path.display Path.slashed
    rw [QName.map_slash_of_plain hbelow.2, String.ofList_toList]
  have hname : relocate (⟨true, place⟩ : Path).text (.ofModule p.text) =
      ⟨"\"" ++ ("./" ++ (p.relativeTo ⟨true, place⟩).text) ++ "\""⟩ := by
    have htext := text_below hne hrest hp
    rw [← hend] at htext
    have hnonempty : rootText ⟨true, place⟩ ≠ [] := by
      rw [hend, Path.toList_text]
      exact List.cons_ne_nil _ _
    rw [relocate_ofModule rfl hplain htext hroot.2 hnonempty (.inr rfl)]
    refine congrArg QName.mk (String.toList_inj.mp ?_)
    show (QName.ofModule _).text.toList = _
    rw [QName.text_ofModule, String.toList_ofList, QName.belowRoot,
      QName.map_slash_of_plain (by simpa using hbelow.2)]
    simp
  unfold moduleAt
  rw [hname, hdisplay]

end Model

namespace Extraction

open QName (Plain)

/-! ## Whole runs -/

/-- The sources of a project whose root is a directory lie below the root, each at its own path. -/
theorem below_sourcesAt {config : Config} {root : String} (hroot : t.locateText? root = some place)
    (hdirectory : t.fileAt? place = none) :
    ∀ p ∈ sourcesAt t config place, ∃ rest, rest ≠ [] ∧ p = ⟨true, place ++ rest⟩ := by
  intro p hp
  unfold sourcesAt at hp
  cases hcollect : Sources.collect? t config ⟨true, place⟩ with
  | none =>
    rw [hcollect] at hp
    exact absurd hp List.not_mem_nil
  | some paths =>
    rw [hcollect] at hp
    obtain ⟨kept, hkept, hperm, hbelow⟩ := Sources.collect?_eq_some
      (fun again => FileTree.locate?_place hroot) hcollect
    obtain ⟨f, hf, rfl⟩ := List.mem_map.mp (hperm.mem_iff.mp hp)
    obtain ⟨rest, hrest⟩ := hbelow f hf
    refine ⟨rest, ?_, congrArg (Path.mk true) hrest.symm⟩
    rintro rfl
    -- the root would be this file
    have := List.find?_eq_none.mp hdirectory f (hkept.subset hf)
    exact this (by rw [← hrest, List.append_nil, beq_self_eq_true])

theorem nodup_sourcesAt {config : Config} {root : String} (hroot : t.locateText? root = some place)
    (hdistinct : (t.files.map (·.path)).Nodup) : (sourcesAt t config place).Nodup := by
  unfold sourcesAt
  cases hcollect : Sources.collect? t config ⟨true, place⟩ with
  | none => exact List.nodup_nil
  | some paths =>
    obtain ⟨kept, hkept, hperm, -⟩ := Sources.collect?_eq_some
      (fun again => FileTree.locate?_place hroot) hcollect
    have hpaths : (kept.map (·.path)).Nodup := hdistinct.sublist (hkept.map _)
    refine hperm.nodup_iff.mpr ?_
    have hmap : kept.map Sources.pathOf = (kept.map (·.path)).map (Path.mk true) := by
      rw [List.map_map]
      rfl
    rw [hmap]
    exact hpaths.map fun a b h => (Path.mk.inj h).2

/-- Finishing looks at the merged model only. -/
theorem finish_eq_ok {e r : Extraction} (h : e.finish = .ok r) :
    ∃ u, e.model.unify "" = .ok u ∧ u.complete = .ok r.model ∧ r.files = e.files := by
  obtain ⟨u, hu, h⟩ := bind_eq_ok.mp h
  obtain ⟨m, hm, h⟩ := bind_eq_ok.mp h
  cases h
  exact ⟨u, hu, hm, rfl⟩

theorem finish_of_model_eq {e d r : Extraction} (h : e.finish = .ok r) (hmodel : d.model = e.model) :
    d.finish = .ok ⟨r.model, d.files⟩ := by
  obtain ⟨u, hu, hm, -⟩ := finish_eq_ok h
  unfold finish
  rw [hmodel, hu]
  show (u.complete >>= fun m => pure ({ d with model := m } : Extraction)) = _
  rw [hm]
  rfl

/-- Finishing a model with one project keeps its modules, if their names have no members. -/
theorem modules_finish {e r : Extraction} {p : Project} (hproject : e.model.projects = [p])
    (hmodules : ∀ x ∈ e.model.modules, x.fqn.memberPath? = none) (h : e.finish = .ok r) :
    r.model.modules = e.model.modules := by
  obtain ⟨u, hu, hcomplete, -⟩ := finish_eq_ok h
  rw [Model.unify_empty_of_one hproject, Model.requireDistinct_eq_ok] at hu
  obtain ⟨-, rfl⟩ := hu
  obtain ⟨m, hm, hkept⟩ := Model.complete_of_one (m := e.model) (by rw [hproject]; rfl)
  rw [hm] at hcomplete
  rw [← Except.ok.inj hcomplete]
  show m.get .module = e.model.get .module
  rw [hkept .module rfl, Model.resolveExports_eq_mapNames, Model.get_mapNames]
  refine Model.map_eq_self.mpr fun x hx => ?_
  show { x with fqn := _ } = x
  rw [ExportTable.resolved_of_unqualified _ (.inr (by
    rw [QName.headMember?, hmodules x hx]
    rfl))]

theorem memberPath?_moduleAt (h : Plain (p.relativeTo root).text.toList) :
    (moduleAt root p).fqn.memberPath? = none := by
  have hsplit : (moduleAt root p).fqn.split? =
      some (("./" ++ (p.relativeTo root).text).toList, []) := by
    refine QName.split?_eq_some.mpr ⟨?_, ?_⟩
    · simp [moduleAt]
    · simp [h.1]
  unfold QName.memberPath?
  rw [hsplit]

/-- What the outcome of a run says of its sources. -/
structure Accounted (provider : Provider) (table : List Extract.Extractor) (place : List String)
    (paths : List Path) (e : Extraction) : Prop where
  /-- Every source is reported, in the order of the sources. -/
  listed : e.files.map (·.path) = paths
  once : (e.files.map (·.path)).Nodup
  status : ∀ f ∈ e.files, f.status = statusOf (outcome provider table ⟨true, place⟩ f.path)
  /-- There is one module for each source that contributed, in the same order. -/
  modules : e.model.modules = e.processedPaths.map (moduleAt ⟨true, place⟩)
  /-- With the sources that contributed alone, and the same answers for them, the run gives the same
  model. -/
  alone : ∀ (other : Provider) (tree : FileTree) (config : Config) (root : String),
    tree.locateText? root = some place → sourcesAt tree config place = e.processedPaths →
    (∀ p ∈ e.processedPaths, other ⟨true, place⟩ p = provider ⟨true, place⟩ p) →
    runFrom other tree config table root = .ok ⟨e.model, e.files.filter FileOutcome.isProcessed⟩

/-- The sources that contribute are those that have a model. -/
theorem Accounted.processedPaths_eq {paths : List Path} {e : Extraction}
    (h : Accounted provider table place paths e) :
    e.processedPaths =
      paths.filter fun p => (modelOf? (outcome provider table ⟨true, place⟩ p)).isSome := by
  rw [← h.listed, List.filter_map]
  unfold processedPaths
  refine congrArg _ (List.filter_congr fun f hf => ?_)
  show f.isProcessed = (modelOf? (outcome provider table ⟨true, place⟩ f.path)).isSome
  rw [← isProcessed_statusOf f.path, ← h.status f hf]

/-- A run that has an outcome accounts for every source. The root is a directory other than the root
of all files, and no path holds a quote or a backslash. -/
theorem runFrom_accounts {provider : Provider} (hprovider : provider.Faithful) {t : FileTree}
    {config : Config} {table : List Extract.Extractor} {root : String} {place : List String}
    (hroot : t.locateText? root = some place) (hdirectory : t.fileAt? place = none)
    (hplace : place ≠ []) (hdistinct : (t.files.map (·.path)).Nodup)
    (hplain : ∀ p ∈ sourcesAt t config place, Plain p.text.toList) {e : Extraction}
    (h : runFrom provider t config table root = .ok e) :
    Accounted provider table place (sourcesAt t config place) e := by
  have hfinish : (ofProvider provider table ⟨true, place⟩ (sourcesAt t config place)).finish =
      .ok e := by
    unfold runFrom at h
    rw [hroot] at h
    dsimp only at h
    generalize finish _ = finished at h
    cases finished with
    | error v => cases h
    | ok r => exact congrArg _ (Except.ok.inj h)
  obtain ⟨-, -, -, hfiles⟩ := finish_eq_ok hfinish
  have hprocessed : e.processedPaths =
      (ofProvider provider table ⟨true, place⟩ (sourcesAt t config place)).processedPaths := by
    unfold processedPaths
    rw [hfiles]
  have hlisted : e.files.map (·.path) = sourcesAt t config place := by
    rw [hfiles, files_ofProvider, List.map_map]
    exact List.map_id _
  constructor
  case listed => exact hlisted
  case once =>
    rw [hlisted]
    exact nodup_sourcesAt hroot hdistinct
  case status =>
    intro f hf
    rw [hfiles, files_ofProvider] at hf
    obtain ⟨p, -, rfl⟩ := List.mem_map.mp hf
    rfl
  case modules =>
    have hsource (p : Path) (hp : p ∈ e.processedPaths) : p ∈ sourcesAt t config place := by
      rw [hprocessed, processedPaths_ofProvider] at hp
      exact (List.mem_filter.mp hp).1
    have hmodules : (ofProvider provider table ⟨true, place⟩
        (sourcesAt t config place)).model.modules = e.processedPaths.map (moduleAt ⟨true, place⟩) := by
      rw [modules_ofProvider hprovider, ← hprocessed]
      refine List.map_congr_left fun p hp => ?_
      obtain ⟨rest, hrest, hpath⟩ := below_sourcesAt hroot hdirectory p (hsource p hp)
      exact Model.relocate_below hplace hrest (FileTree.names_of_locateText? hroot) hpath
        (hplain p (hsource p hp))
    -- following exports changes no name without members
    rw [modules_finish (projects_ofProvider hprovider _ _ _) ?_ hfinish, hmodules]
    rw [hmodules]
    intro x hx
    obtain ⟨p, hp, rfl⟩ := List.mem_map.mp hx
    obtain ⟨rest, hrest, hpath⟩ := below_sourcesAt hroot hdirectory p (hsource p hp)
    exact memberPath?_moduleAt (Model.plain_below hplace hrest hpath (hplain p (hsource p hp))).2
  case alone =>
    intro other tree config' root' hroot' hsources hanswers
    unfold runFrom
    rw [hroot']
    dsimp only
    rw [hsources, ofProvider_congr hanswers, hprocessed,
      finish_of_model_eq hfinish (model_ofProvider_processed provider table _ _),
      files_ofProvider_processed, ← hfiles]
    rfl

/-- A project of three files, of which the second one has no tree. -/
def brokenTree : FileTree :=
  ⟨[["p"]], [enumFile ["a.ts"], ⟨["p", "b.ts"], "(".toUTF8, []⟩, enumFile ["c.ts"]]⟩

/-- The file without a tree is reported as such. The modules are those of the other two, and the
tree of these two gives the same model. -/
theorem runFrom_accounts_broken :
    ∃ e, run brokenTree .standard Extract.Extractor.all "/p" = .ok e ∧
      Accounted (fileProvider brokenTree) Extract.Extractor.all ["p"]
        [⟨true, ["p", "a.ts"]⟩, ⟨true, ["p", "b.ts"]⟩, ⟨true, ["p", "c.ts"]⟩] e ∧
      e.processedPaths = [⟨true, ["p", "a.ts"]⟩, ⟨true, ["p", "c.ts"]⟩] ∧
      e.model.modules = [⟨⟨"\"./a.ts\""⟩, "./a.ts"⟩, ⟨⟨"\"./c.ts\""⟩, "./c.ts"⟩] ∧
      runFrom (fileProvider brokenTree) ⟨[["p"]], [enumFile ["a.ts"], enumFile ["c.ts"]]⟩ .standard
        Extract.Extractor.all "/p" = .ok ⟨e.model, e.files.filter FileOutcome.isProcessed⟩ := by
  have hroot : brokenTree.locateText? "/p" = some ["p"] := by decide +kernel
  have hsources : sourcesAt brokenTree .standard ["p"] =
      [⟨true, ["p", "a.ts"]⟩, ⟨true, ["p", "b.ts"]⟩, ⟨true, ["p", "c.ts"]⟩] :=
    sourcesAt_of_sorted (by decide +kernel) (by decide +kernel) (by decide +kernel)
  obtain ⟨e, he⟩ : ∃ e, run brokenTree .standard Extract.Extractor.all "/p" = .ok e :=
    (run_iff hroot).mpr ⟨_, unify_ofFiles.mpr ⟨by rw [hsources]; decide +kernel, rfl⟩⟩
  have haccounted := runFrom_accounts (fileProvider_faithful brokenTree) hroot (by decide +kernel)
    (by decide) (by decide +kernel) (by rw [hsources]; decide +kernel)
    ((run_eq_runFrom _ _ _ _).symm.trans he)
  rw [hsources] at haccounted
  have hprocessed : e.processedPaths = [⟨true, ["p", "a.ts"]⟩, ⟨true, ["p", "c.ts"]⟩] := by
    rw [haccounted.processedPaths_eq]
    decide +kernel
  refine ⟨e, he, haccounted, hprocessed, ?_, ?_⟩
  · rw [haccounted.modules, hprocessed]
    decide +kernel
  · refine haccounted.alone _ _ _ _ (by decide +kernel) ?_ fun _ _ => rfl
    rw [hprocessed]
    exact sourcesAt_of_sorted (by decide +kernel) (by decide +kernel) (by decide +kernel)

end Extraction

end CodeConcepts
