import CodeConcepts.Proofs.ByteOrder
import CodeConcepts.Proofs.Rebasing
import CodeConcepts.Run.Sources
import Mathlib.Data.List.Nodup

/-!
# Which files are sources

The sources of a project are found by a walk that goes down from the root, does not enter some of
the directories, and lists files in the order in which it comes to them. `mem_walk` says which files
a walk comes to, whatever the order of the entries, and `nodup_walk` that it comes to each of them
once. So the sources are known from the files alone (`Counts`, `mem_collect?`), and they are listed
in the order of their paths, part by part and byte by byte (`increasing_collect?`).
-/

namespace CodeConcepts

variable {t : FileTree} {place rest : List String} {name : String} {root : Path} {c : Config}
  {paths : List Path}

/-! ## Names -/

theorem Text.endsWith_iff {stop s : String} :
    endsWith stop s = true ↔ ∃ stem, s = stem ++ stop := by
  unfold endsWith
  rw [Option.isSome_iff_exists]
  constructor
  · rintro ⟨cs, hcs⟩
    refine ⟨String.ofList cs, String.toList_injective ?_⟩
    rw [String.toList_append, String.toList_ofList, ← beforeEnd?_eq_some, hcs]
  · rintro ⟨stem, rfl⟩
    exact ⟨stem.toList, beforeEnd?_eq_some.mpr String.toList_append⟩

/-- The extension stands behind the last dot, which is not the first character. -/
theorem Path.extensionOf?_eq_some {e : String} : extensionOf? name = some e ↔
    '.' ∉ e.toList ∧ ∃ stem, stem ≠ "" ∧ name = stem ++ "." ++ e := by
  unfold extensionOf?
  constructor
  · intro h
    split at h
    · cases h
    · cases h
    · cases h
    · next last rest hone hdot hsegments =>
      obtain rfl := Option.some.inj h
      have hsplit : Text.segments '.' name = rest.reverse ++ [last] := by
        rw [← List.reverse_cons, ← hsegments, List.reverse_reverse]
      have hfree : ∀ p ∈ Text.segments '.' name, '.' ∉ p.toList := by
        intro p hp hc
        obtain ⟨cs, hcs, rfl⟩ := List.mem_map.mp hp
        rw [String.toList_ofList] at hc
        exact (Text.mem_of_mem_pieces hcs hc).2 rfl
      have hrest : rest.reverse ≠ [] := fun hnil => hone (List.reverse_eq_nil_iff.mp hnil)
      refine ⟨hfree last (by rw [hsplit]; simp), Text.join '.' rest.reverse, ?_, ?_⟩
      · -- a text of no characters has one segment, so there would be nothing but the first dot
        intro hempty
        have hjoin := Text.segments_join hrest fun p hp =>
          hfree p (hsplit ▸ List.mem_append_left _ hp)
        rw [hempty] at hjoin
        exact hdot (List.reverse_eq_iff.mp hjoin.symm)
      · rw [← Text.join_segments '.' name, hsplit]
        refine String.toList_injective ?_
        simp only [Text.join, String.toList_append, String.toList_ofList, List.map_append]
        rw [Text.glue_append (by simpa using hrest) (by simp)]
        simp [Text.glue]
  · rintro ⟨he, stem, hstem, rfl⟩
    have hsplit : (Text.segments '.' (stem ++ "." ++ e)).reverse =
        e :: (Text.segments '.' stem).reverse := by
      have htext : (stem ++ "." ++ e).toList = stem.toList ++ '.' :: e.toList := by simp
      unfold Text.segments
      rw [htext, Text.pieces_append, Text.pieces_of_not_mem he]
      simp
    have hjoin := Text.join_segments '.' stem
    rw [hsplit]
    cases hrest : (Text.segments '.' stem).reverse with
    | nil =>
      refine absurd (List.map_eq_nil_iff.mp (List.reverse_eq_nil_iff.mp hrest)) ?_
      exact Text.pieces_ne_nil '.' stem.toList
    | cons a rest =>
      split
      · cases ‹_ :: _ = []›
      · cases ‹_ :: _ = [_]›
      · next h =>
        cases h
        rw [List.reverse_eq_iff.mp hrest] at hjoin
        exact absurd hjoin.symm hstem
      · next h => rw [(List.cons.inj h).1]

theorem nodup_eraseDups (l : List String) : l.eraseDups.Nodup := by
  cases l with
  | nil => exact List.nodup_nil
  | cons a l =>
    rw [List.eraseDups_cons, List.nodup_cons]
    exact ⟨by simp, nodup_eraseDups _⟩
termination_by l.length
decreasing_by exact Nat.lt_succ_of_le (List.length_filter_le _ _)

/-! ## Places -/

namespace FileTree

theorem isSome_fileAt? : (t.fileAt? place).isSome = true ↔ ∃ f ∈ t.files, f.path = place := by
  simp [fileAt?]

theorem isDirectoryAt_iff :
    t.isDirectoryAt place = true ↔ (∃ d ∈ t.directories, place <+: d) ∨
      ∃ f ∈ t.files, ∃ rest, rest ≠ [] ∧ f.path = place ++ rest := by
  have hbelow (path : List String) :
      (place <+: path ∧ place.length < path.length) ↔ ∃ rest, rest ≠ [] ∧ path = place ++ rest := by
    constructor
    · rintro ⟨⟨rest, rfl⟩, hlt⟩
      refine ⟨rest, ?_, rfl⟩
      rintro rfl
      simp at hlt
    · rintro ⟨rest, hrest, rfl⟩
      exact ⟨List.prefix_append _ _, by simpa using List.length_pos_iff.mpr hrest⟩
  simp [isDirectoryAt, hbelow]

/-- The entries of a directory are the names that lead on from there. -/
theorem mem_entries :
    name ∈ t.entries place ↔
      ∃ path ∈ t.files.map (·.path) ++ t.directories, place ++ [name] <+: path := by
  unfold entries
  rw [List.mem_eraseDups, List.mem_filterMap]
  refine exists_congr fun path => and_congr_right fun _ => ?_
  constructor
  · intro h
    split at h
    · next hprefix =>
      obtain ⟨rest, rfl⟩ := hprefix
      rw [List.drop_left] at h
      obtain ⟨tail, rfl⟩ := List.head?_eq_some_iff.mp h
      exact ⟨tail, by simp⟩
    · cases h
  · rintro ⟨tail, rfl⟩
    simp

theorem length_le_depth {f : StoredFile} (h : f ∈ t.files) : f.path.length ≤ t.depth := by
  unfold depth
  generalize t.files = fs at h
  induction fs with
  | nil => exact absurd h List.not_mem_nil
  | cons g fs ih =>
    rw [List.map_cons, List.foldr_cons]
    rcases List.mem_cons.mp h with rfl | h
    · exact Nat.le_max_left _ _
    · exact Nat.le_trans (ih h) (Nat.le_max_right _ _)

end FileTree

namespace Sources

/-! ## Walks -/

/-- A walk comes to the files below its place that are not deeper than it goes, unless it would have
to enter a directory that is skipped. -/
theorem mem_walk {depth : Nat} :
    rest ∈ walk t place depth ↔ (∃ f ∈ t.files, f.path = place ++ rest) ∧ rest ≠ [] ∧
      rest.length ≤ depth ∧ ∀ d ∈ rest.dropLast, isSkipped d = false := by
  induction depth generalizing place rest with
  | zero =>
    rw [walk]
    exact ⟨fun h => absurd h List.not_mem_nil,
      fun h => absurd (List.eq_nil_of_length_eq_zero (Nat.le_zero.mp h.2.2.1)) h.2.1⟩
  | succ depth ih =>
    rw [walk, List.mem_flatMap]
    constructor
    · rintro ⟨name, -, hrest⟩
      obtain ⟨tail, htail, rfl⟩ := List.mem_map.mp hrest
      rcases List.mem_append.mp htail with htail | htail
      · split at htail
        · next hfile =>
          obtain rfl := List.mem_singleton.mp htail
          exact ⟨FileTree.isSome_fileAt?.mp hfile, by simp, by simp, by simp⟩
        · exact absurd htail List.not_mem_nil
      · split at htail
        · next hentered =>
          rw [Bool.and_eq_true, Bool.not_eq_true'] at hentered
          obtain ⟨⟨f, hf, hpath⟩, hne, hlength, hskip⟩ := ih.mp htail
          refine ⟨⟨f, hf, by simpa using hpath⟩, by simp, by simpa using hlength, ?_⟩
          rw [List.dropLast_cons_of_ne_nil hne]
          exact List.forall_mem_cons.mpr ⟨hentered.2, hskip⟩
        · exact absurd htail List.not_mem_nil
    · rintro ⟨⟨f, hf, hpath⟩, hne, hlength, hskip⟩
      obtain ⟨name, tail, rfl⟩ := List.exists_cons_of_ne_nil hne
      have hentry : name ∈ t.entries place := by
        refine FileTree.mem_entries.mpr ⟨f.path, ?_, tail, by simpa using hpath.symm⟩
        exact List.mem_append_left _ (List.mem_map_of_mem hf)
      refine ⟨name, hentry, List.mem_map_of_mem (List.mem_append.mpr ?_)⟩
      by_cases htail : tail = []
      · subst htail
        rw [if_pos (FileTree.isSome_fileAt?.mpr ⟨f, hf, hpath⟩)]
        exact .inl (List.mem_singleton_self _)
      · rw [List.dropLast_cons_of_ne_nil htail] at hskip
        obtain ⟨hname, hskip⟩ := List.forall_mem_cons.mp hskip
        have hpath' : f.path = place ++ [name] ++ tail := by simpa using hpath
        have hdirectory : t.isDirectoryAt (place ++ [name]) = true :=
          FileTree.isDirectoryAt_iff.mpr (.inr ⟨f, hf, tail, htail, hpath'⟩)
        rw [hdirectory, hname]
        exact .inr (ih.mpr ⟨⟨f, hf, hpath'⟩, htail, by simpa using hlength, hskip⟩)

theorem nodup_walk (t : FileTree) (depth : Nat) (place : List String) :
    (walk t place depth).Nodup := by
  induction depth generalizing place with
  | zero => exact List.nodup_nil
  | succ depth ih =>
    rw [walk, List.nodup_flatMap]
    constructor
    · intro name _
      refine List.Nodup.map List.cons_injective (List.nodup_append'.mpr ⟨?_, ?_, ?_⟩)
      · split <;> simp
      · split
        · exact ih _
        · exact List.nodup_nil
      · -- what lies in a directory has a name of its own
        intro rest hself hbelow
        split at hself
        · obtain rfl := List.mem_singleton.mp hself
          split at hbelow
          · exact (mem_walk.mp hbelow).2.1 rfl
          · exact absurd hbelow List.not_mem_nil
        · exact absurd hself List.not_mem_nil
    · refine (nodup_eraseDups _).imp fun {a b} hne rest ha hb => hne ?_
      obtain ⟨_, -, rfl⟩ := List.mem_map.mp ha
      obtain ⟨_, -, he⟩ := List.mem_map.mp hb
      exact (List.cons.inj he).1.symm

/-! ## Files below a place -/

theorem mem_filesBelow (hplace : t.isDirectoryAt place = true) :
    rest ∈ filesBelow t place ↔ (∃ f ∈ t.files, f.path = place ++ rest) ∧ rest ≠ [] ∧
      ∀ d ∈ rest.dropLast, isSkipped d = false := by
  unfold filesBelow
  rw [if_pos hplace, mem_walk]
  constructor
  · rintro ⟨hfile, hne, -, hskip⟩
    exact ⟨hfile, hne, hskip⟩
  · rintro ⟨⟨f, hf, hpath⟩, hne, hskip⟩
    refine ⟨⟨f, hf, hpath⟩, hne, ?_, hskip⟩
    have hdepth := FileTree.length_le_depth hf
    rw [hpath, List.length_append] at hdepth
    omega

theorem exists_of_mem_filesBelow (hplace : t.locate? root = some place)
    (h : rest ∈ filesBelow t place) : ∃ f ∈ t.files, f.path = place ++ rest := by
  have hsomething := (Option.filter_eq_some_iff.mp hplace).2
  cases hdirectory : t.isDirectoryAt place with
  | true => exact ((mem_filesBelow hdirectory).mp h).1
  | false =>
    rw [hdirectory, Bool.false_or] at hsomething
    unfold filesBelow at h
    rw [hdirectory, if_neg Bool.false_ne_true] at h
    obtain rfl := List.mem_singleton.mp h
    rw [List.append_nil]
    exact FileTree.isSome_fileAt?.mp hsomething

theorem nodup_filesBelow (t : FileTree) (place : List String) : (filesBelow t place).Nodup := by
  unfold filesBelow
  split
  · exact nodup_walk t _ place
  · exact List.nodup_singleton _

end Sources

/-! ## The order of paths -/

namespace Path

theorem partsLe_iff {as bs : List String} : partsLe as bs = true ↔ ¬ bs < as := by
  induction as generalizing bs with
  | nil => simp [partsLe]
  | cons a as ih =>
    cases bs with
    | nil => simp [partsLe]
    | cons b bs =>
      rw [List.not_lt, List.cons_le_cons_iff, ← List.not_lt, ← ih]
      simp [partsLe]

theorem le_trans (p q r : Path) (hpq : le p q = true) (hqr : le q r = true) : le p r = true := by
  have hpq := List.not_lt.mp (partsLe_iff.mp hpq)
  have hqr := List.not_lt.mp (partsLe_iff.mp hqr)
  exact partsLe_iff.mpr (List.not_lt.mpr (List.le_trans hpq hqr))

theorem le_total (p q : Path) : (le p q || le q p) = true := by
  rw [Bool.or_eq_true]
  exact (List.le_total p.parts q.parts).imp (fun h => partsLe_iff.mpr (List.not_lt.mpr h))
    fun h => partsLe_iff.mpr (List.not_lt.mpr h)

end Path

namespace Sources

open CodeConcepts.Path (extensionOf? extensionOf?_eq_some)

/-! ## Sources and their order -/

/-- What is collected at a root: the files below it that are kept, in the order of their paths. -/
theorem collect?_listed (h : collect? t c root = some paths) :
    paths.Nodup ∧ paths.Pairwise (Path.le · · = true) ∧
      ∃ place, t.locate? root = some place ∧ ∀ p, p ∈ paths ↔
        (∃ rest ∈ filesBelow t place, ⟨root.absolute, root.parts ++ rest⟩ = p) ∧
          isSource p = true ∧ isKept c root p = true := by
  obtain ⟨place, hplace, h⟩ := Option.bind_eq_some_iff.mp h
  obtain rfl := Option.some.inj h
  have hperm := List.mergeSort_perm (((filesBelow t place).map fun rest =>
    (⟨root.absolute, root.parts ++ rest⟩ : Path)).filter fun p => isSource p && isKept c root p)
    Path.le
  refine ⟨hperm.nodup_iff.mpr (List.Nodup.filter _ ((nodup_filesBelow t place).map ?_)),
    List.pairwise_mergeSort Path.le_trans Path.le_total _, place, hplace, fun p => ?_⟩
  · intro as bs he
    exact List.append_cancel_left (Path.mk.inj he).2
  · rw [hperm.mem_iff, List.mem_filter, List.mem_map, Bool.and_eq_true]

/-- The name of a source: one of the extensions stands behind the last dot, and the name is not that
of a declaration file. -/
def IsSourceName (name : String) : Prop :=
  (∃ stem, stem ≠ "" ∧ ∃ e ∈ ["ts", "tsx", "mts", "cts"], name = stem ++ "." ++ e) ∧
    ∀ e ∈ [".d.ts", ".d.mts", ".d.cts"], ∀ stem, name ≠ stem ++ e

theorem fileName?_append (h : name ≠ "..") (absolute : Bool) (parts : List String) :
    Path.fileName? ⟨absolute, parts ++ [name]⟩ = some name := by
  simp [Path.fileName?, h]

theorem extension_iff : extensions.contains ((extensionOf? name).getD "") = true ↔
    ∃ stem, stem ≠ "" ∧ ∃ e ∈ ["ts", "tsx", "mts", "cts"], name = stem ++ "." ++ e := by
  have hfree : ∀ e ∈ ["ts", "tsx", "mts", "cts"], '.' ∉ e.toList := by decide
  rw [List.contains_iff_mem]
  constructor
  · intro h
    cases he : extensionOf? name with
    | none =>
      rw [he] at h
      exact absurd h (by decide)
    | some e =>
      rw [he] at h
      obtain ⟨-, stem, hstem, hname⟩ := extensionOf?_eq_some.mp he
      exact ⟨stem, hstem, e, h, hname⟩
  · rintro ⟨stem, hstem, e, he, hname⟩
    rw [extensionOf?_eq_some.mpr ⟨hfree e he, stem, hstem, hname⟩]
    exact he

theorem isDeclarationName_eq_false : isDeclarationName name = false ↔
    ∀ e ∈ [".d.ts", ".d.mts", ".d.cts"], ∀ stem, name ≠ stem ++ e := by
  unfold isDeclarationName
  rw [List.any_eq_false]
  refine forall_congr' fun e => imp_congr_right fun _ => ?_
  rw [Text.endsWith_iff, not_exists]

theorem ne_up_of_isSourceName (h : IsSourceName name) : name ≠ ".." := by
  rintro rfl
  exact absurd (extension_iff.mpr h.1) (by decide)

theorem isSource_iff {absolute : Bool} {parts : List String} :
    isSource ⟨absolute, parts ++ [name]⟩ = true ↔ IsSourceName name := by
  by_cases hname : name = ".."
  · subst hname
    have hnone : Path.fileName? ⟨absolute, parts ++ [".."]⟩ = none := by
      simp [Path.fileName?, Option.filter]
    refine ⟨fun h => ?_, fun h => absurd rfl (ne_up_of_isSourceName h)⟩
    rw [isSource, Path.extension?, hnone] at h
    exact absurd h (by decide)
  · rw [isSource, Path.extension?, fileName?_append hname, Option.getD_some, Option.bind_some,
      Bool.and_eq_true, Bool.not_eq_true', isDeclarationName_eq_false, extension_iff]
    exact and_comm

theorem isSkipped_eq_false :
    isSkipped name = false ↔ name.toList.head? ≠ some '.' ∧ name ≠ "node_modules" := by
  simp [isSkipped]

theorem excludes_eq_false {path : String} : c.excludes path = false ↔
    ∀ pattern ∈ c.excludedPaths, ∀ g, Glob.parse? pattern = some g →
      g.accepts true path = false := by
  unfold Config.excludes Glob.anyAccepts Glob.readable
  rw [List.any_eq_false]
  constructor
  · intro h pattern hpattern g hg
    exact Bool.eq_false_iff.mpr (h g (List.mem_filterMap.mpr ⟨pattern, hpattern, hg⟩))
  · intro h g hg
    obtain ⟨pattern, hpattern, hg⟩ := List.mem_filterMap.mp hg
    exact Bool.eq_false_iff.mp (h pattern hpattern g hg)

theorem relativeTo_append (root : Path) (rest : List String) :
    Path.relativeTo ⟨root.absolute, root.parts ++ rest⟩ root = ⟨false, rest⟩ := by
  simp [Path.relativeTo, Path.partsBelow?]

theorem isKept_iff {directories : List String} (hname : name ≠ "..") :
    isKept c root ⟨root.absolute, root.parts ++ (directories ++ [name])⟩ = true ↔
      c.excludes (Text.join '/' (directories ++ [name])) = false ∧
        (c.includeTestFiles = some false → isTestName name = false) := by
  have htests : (c.includesTests || !isTestName name) = true ↔
      (c.includeTestFiles = some false → isTestName name = false) := by
    unfold Config.includesTests
    cases c.includeTestFiles with
    | none => simp
    | some b => cases b <;> simp
  unfold isKept
  rw [relativeTo_append, ← List.append_assoc, fileName?_append hname, Option.getD_some,
    Bool.and_eq_true, Bool.not_eq_true', htests]
  rfl

/-- What makes a file below a place a source of the project there: it has the name of a source, no
directory on the way to it is hidden or holds installed packages, no readable pattern excludes its
path, and it is no test if tests are left out. -/
structure Counts (t : FileTree) (c : Config) (place directories : List String) (name : String) :
    Prop where
  file : ∃ f ∈ t.files, f.path = place ++ (directories ++ [name])
  source : IsSourceName name
  entered : ∀ d ∈ directories, d.toList.head? ≠ some '.' ∧ d ≠ "node_modules"
  allowed : ∀ pattern ∈ c.excludedPaths, ∀ g, Glob.parse? pattern = some g →
    g.accepts true (Text.join '/' (directories ++ [name])) = false
  noTest : c.includeTestFiles = some false → isTestName name = false

/-- The sources of a project are the files that count. -/
theorem mem_collect? (hroot : t.locate? root = some place)
    (hdirectory : t.isDirectoryAt place = true) (h : collect? t c root = some paths) (p : Path) :
    p ∈ paths ↔ ∃ directories name, p = ⟨root.absolute, root.parts ++ (directories ++ [name])⟩ ∧
      Counts t c place directories name := by
  obtain ⟨-, -, again, hagain, hmem⟩ := collect?_listed h
  obtain rfl := Option.some.inj (hroot.symm.trans hagain)
  rw [hmem]
  constructor
  · rintro ⟨⟨rest, hrest, rfl⟩, hsource, hkept⟩
    obtain ⟨hfile, hne, hskip⟩ := (mem_filesBelow hdirectory).mp hrest
    obtain ⟨directories, name, rfl⟩ : ∃ directories name, rest = directories ++ [name] :=
      ⟨_, _, (List.dropLast_append_getLast hne).symm⟩
    rw [← List.append_assoc] at hsource
    have hsource := isSource_iff.mp hsource
    obtain ⟨hallowed, htest⟩ := (isKept_iff (ne_up_of_isSourceName hsource)).mp hkept
    rw [List.dropLast_concat] at hskip
    exact ⟨directories, name, rfl, hfile, hsource,
      fun d hd => isSkipped_eq_false.mp (hskip d hd), excludes_eq_false.mp hallowed, htest⟩
  · rintro ⟨directories, name, rfl, hcounts⟩
    refine ⟨⟨directories ++ [name],
      (mem_filesBelow hdirectory).mpr ⟨hcounts.file, by simp, ?_⟩, rfl⟩,
      ?_, ?_⟩
    · rw [List.dropLast_concat]
      exact fun d hd => isSkipped_eq_false.mpr (hcounts.entered d hd)
    · rw [← List.append_assoc]
      exact isSource_iff.mpr hcounts.source
    · exact (isKept_iff (ne_up_of_isSourceName hcounts.source)).mpr
        ⟨excludes_eq_false.mpr hcounts.allowed, hcounts.noTest⟩

/-- A root that exists has a list of sources, which may be empty. -/
theorem exists_collect? (c : Config) (hroot : t.locate? root = some place) :
    ∃ paths, collect? t c root = some paths := by
  unfold collect?
  rw [hroot]
  exact ⟨_, rfl⟩

/-- Sources are listed in the order of their paths: the bytes of the first part that differs
decide. -/
theorem increasing_collect? (h : collect? t c root = some paths) :
    paths.Pairwise fun p q => p.parts.map Text.bytes < q.parts.map Text.bytes := by
  obtain ⟨hnodup, hsorted, place, -, hmem⟩ := collect?_listed h
  refine (hsorted.and hnodup).imp_of_mem fun {p q} hp hq hpq => ?_
  refine List.map_lt (fun _ _ => Text.bytes_lt_bytes) ?_
  obtain ⟨⟨as, -, rfl⟩, -⟩ := (hmem p).mp hp
  obtain ⟨⟨bs, -, rfl⟩, -⟩ := (hmem q).mp hq
  have hle := List.le_iff_lt_or_eq.mp (List.not_lt.mp (Path.partsLe_iff.mp hpq.1))
  refine hle.resolve_right fun he => hpq.2 ?_
  exact congrArg (Path.mk root.absolute) he

/-! ## Listings of one tree -/

/-- Two trees have files and directories at the same places, in whatever order they list them. -/
def SamePlaces (t u : FileTree) : Prop :=
  ∀ place, (t.fileAt? place).isSome = (u.fileAt? place).isSome ∧
    t.isDirectoryAt place = u.isDirectoryAt place

theorem locate?_congr {u : FileTree} (h : SamePlaces t u) (p : Path) :
    u.locate? p = t.locate? p := by
  have hfollow (parts : List String) : ∀ place, u.follow place parts = t.follow place parts := by
    induction parts with
    | nil => exact fun _ => rfl
    | cons part parts ih =>
      intro place
      rw [FileTree.follow, FileTree.follow, (h place).2, ih]
  unfold FileTree.locate?
  rw [hfollow]
  refine congrArg (fun q => Option.filter q _) (funext fun place => ?_)
  rw [(h place).1, (h place).2]

theorem Counts.congr {u : FileTree} (h : SamePlaces t u) {directories : List String}
    (hcounts : Counts t c place directories name) :
    Counts u c place directories name where
  file := by
    rw [← FileTree.isSome_fileAt?, ← (h _).1, FileTree.isSome_fileAt?]
    exact hcounts.file
  source := hcounts.source
  entered := hcounts.entered
  allowed := hcounts.allowed
  noTest := hcounts.noTest

theorem samePlaces_of_perm {files : List StoredFile} (h : files.Perm t.files) :
    SamePlaces t { t with files := files } := by
  intro place
  have hmem (f : StoredFile) : f ∈ files ↔ f ∈ t.files := h.mem_iff
  constructor
  · rw [Bool.eq_iff_iff, FileTree.isSome_fileAt?, FileTree.isSome_fileAt?]
    simp [hmem]
  · rw [Bool.eq_iff_iff, FileTree.isDirectoryAt_iff, FileTree.isDirectoryAt_iff]
    simp [hmem]

/-- Files that are found in the order of their paths are not moved. -/
theorem collect?_of_sorted (hroot : t.locate? root = some place)
    (hpaths : ((filesBelow t place).map fun rest =>
      (⟨root.absolute, root.parts ++ rest⟩ : Path)).filter
        (fun p => isSource p && isKept c root p) = paths)
    (hsorted : paths.Pairwise fun p q => p.le q = true) : collect? t c root = some paths := by
  unfold collect?
  rw [hroot]
  show some ((((filesBelow t place).map fun rest =>
    (⟨root.absolute, root.parts ++ rest⟩ : Path)).filter
      fun p => isSource p && isKept c root p).mergeSort Path.le) = some paths
  rw [hpaths, List.mergeSort_of_pairwise hsorted]

/-- A project at `/p` with a directory beside files of like names, and with files that do not
count. -/
def mixedTree : FileTree where
  directories := [["p"]]
  files := [["p", "a", "b.ts"], ["p", "a-b.ts"], ["p", "a.ts"], ["p", "a", "b.test.ts"],
    ["p", "gen", "api.ts"], ["p", "node_modules", "x.ts"], ["p", ".git", "y.ts"],
    ["p", "types.d.ts"], ["p", "readme.md"]].map fun path => ⟨path, .empty, []⟩

end Sources

end CodeConcepts
