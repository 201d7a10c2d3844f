import CodeConcepts.Proofs.GlobMatching
import CodeConcepts.Proofs.Rebasing
import CodeConcepts.Run.Program

/-!
# Directories in a program

A list of inclusions may name directories, each written with or without `./` in front and a slash
behind (`DirectoryEntry`). Such an entry becomes the pattern of its names followed by `/**`
(`patternOf_text`). So the program holds exactly the files that lie in one of the directories
(`directory_entries_cover`), brackets and braces in an entry standing for several directories and
all other names for themselves.

There is one exception. The root, written `./`, has no names in front of `/**`, and that pattern
matches only paths that start with a slash (`root_entry_covers_nothing`).
-/

namespace CodeConcepts

/-- A list of names that may stand between slashes. -/
def Path.Separable (names : List String) : Prop := ∀ n ∈ names, n ≠ "" ∧ '/' ∉ n.toList

instance (names : List String) : Decidable (Path.Separable names) :=
  inferInstanceAs (Decidable (∀ n ∈ names, n ≠ "" ∧ '/' ∉ n.toList))

namespace Program

open CodeConcepts.Path (Separable)

/-- An entry that names a directory. -/
structure DirectoryEntry where
  /-- Whether `./` stands in front of the names. -/
  here : Bool
  /-- The names that lead from the root to the directory. -/
  names : List String
  /-- Whether a slash stands behind the names. -/
  closed : Bool
  separable : Separable names := by decide
  noDot : "." ∉ names := by decide
  noWildcard : ∀ n ∈ names, '*' ∉ n.toList ∧ '?' ∉ n.toList := by decide
  noExtension : ∀ n ∈ names.getLast?, '.' ∉ n.toList := by decide
  /-- The root itself is written `./`. -/
  root : names = [] → here = true ∧ closed = false := by decide

namespace DirectoryEntry

/-- The text of an entry. -/
def text (e : DirectoryEntry) : String :=
  (if e.here then "./" else "") ++ Text.join '/' e.names ++ (if e.closed then "/" else "")

/-- Whether an entry names a directory: the names are a pattern in which brackets and braces have
their meaning. -/
def Names (e : DirectoryEntry) (directory : List String) : Prop :=
  Glob.MatchesDirectory (Text.join '/' e.names) (Text.join '/' directory)

theorem toList_join (names : List String) :
    (Text.join '/' names).toList = Text.glue '/' (names.map String.toList) := String.toList_ofList

theorem separable_toList {names : List String} (h : Separable names) :
    ∀ p ∈ names.map String.toList, p ≠ [] ∧ '/' ∉ p := by
  intro p hp
  obtain ⟨n, hn, rfl⟩ := List.mem_map.mp hp
  exact ⟨fun he => (h n hn).1 (String.toList_injective he), (h n hn).2⟩

/-- What stands behind the last slash of the names is the last of them. -/
theorem exists_front (e : DirectoryEntry) : ∃ front last, '/' ∉ last ∧ '.' ∉ last ∧
    (last = [] → front = []) ∧ (front = [] ∨ ['/'] <:+ front) ∧
    (Text.join '/' e.names).toList = front ++ last := by
  rw [toList_join]
  by_cases hnil : e.names = []
  · rw [hnil]
    exact ⟨[], [], List.not_mem_nil, List.not_mem_nil, fun _ => rfl, .inl rfl, rfl⟩
  · obtain ⟨init, name, hnames⟩ : ∃ init name, e.names = init ++ [name] :=
      ⟨_, _, (List.dropLast_append_getLast hnil).symm⟩
    obtain ⟨hne, hslash⟩ := e.separable name (by rw [hnames]; simp)
    have hdot := e.noExtension name (by rw [hnames]; simp)
    have hlast : name.toList = [] → False := fun he => hne (String.toList_injective he)
    rw [hnames, List.map_append, List.map_singleton]
    by_cases hinit : init = []
    · subst hinit
      exact ⟨[], name.toList, hslash, hdot, fun he => (hlast he).elim, .inl rfl, rfl⟩
    · refine ⟨Text.glue '/' (init.map String.toList) ++ ['/'], name.toList, hslash, hdot,
        fun he => (hlast he).elim, .inr (List.suffix_append _ _), ?_⟩
      rw [Text.glue_append (by simpa using hinit) (by simp), List.append_assoc]
      rfl

/-- Nothing is taken off the start of the names. -/
theorem dropPairs_names (e : DirectoryEntry) (stop : List Char) (hstop : e.names = [] → stop = []) :
    Text.dropPairs '.' '/' ((Text.join '/' e.names).toList ++ stop) =
      (Text.join '/' e.names).toList ++ stop := by
  rw [toList_join]
  cases hnames : e.names with
  | nil =>
    rw [hstop hnames]
    rfl
  | cons name names =>
    obtain ⟨hne, hslash⟩ := e.separable name (by rw [hnames]; exact List.mem_cons_self)
    have hdot : name ≠ "." := by
      rintro rfl
      exact e.noDot (by rw [hnames]; exact List.mem_cons_self)
    obtain ⟨rest, hrest⟩ : ∃ rest, Text.glue '/' ((name :: names).map String.toList) ++ stop =
        name.toList ++ rest := by
      by_cases hnil : names = []
      · subst hnil
        exact ⟨stop, rfl⟩
      · rw [List.map_cons, Text.glue_cons _ _ (by simpa using hnil), List.append_assoc]
        exact ⟨_, rfl⟩
    rw [hrest]
    cases hcs : name.toList with
    | nil => exact absurd (String.toList_injective hcs) hne
    | cons c cs =>
      cases cs with
      | nil =>
        have hc : c ≠ '.' := by
          rintro rfl
          exact hdot (String.toList_injective hcs)
        cases rest with
        | nil => rfl
        | cons d rest => simp [Text.dropPairs, hc]
      | cons d cs =>
        have hd : d ≠ '/' := by
          rintro rfl
          exact hslash (by rw [hcs]; simp)
        simp [Text.dropPairs, hd]

/-- The names are what is left of an entry once `./` and slashes are taken off its ends. -/
theorem trimmed_text (e : DirectoryEntry) :
    Text.dropEndWhile (· == '/') (Text.dropPairs '.' '/' e.text.toList) =
      (Text.join '/' e.names).toList := by
  let stop : List Char := if e.closed then ['/'] else []
  have hstop : ∀ c ∈ stop, (c == '/') = true := by
    cases he : e.closed <;> simp [stop, he]
  have hclosed : e.names = [] → stop = [] := by
    intro hnil
    simp [stop, (e.root hnil).2]
  have htext : e.text.toList = (if e.here then ['.', '/'] else []) ++
      ((Text.join '/' e.names).toList ++ stop) := by
    unfold text
    cases he : e.here <;> cases hc : e.closed <;> simp [stop, hc]
  have hstart : Text.dropPairs '.' '/' e.text.toList = (Text.join '/' e.names).toList ++ stop := by
    rw [htext]
    cases e.here with
    | false | true => exact dropPairs_names e stop hclosed
  obtain ⟨front, last, hslash, -, hempty, -, hnames⟩ := exists_front e
  rw [hstart, Text.dropEndWhile, List.reverse_append,
    List.dropWhile_append_of_pos fun c hc => hstop c (List.mem_reverse.mp hc)]
  -- the last of the names does not end in a slash
  have hdrop : (Text.join '/' e.names).toList.reverse.dropWhile (· == '/') =
      (Text.join '/' e.names).toList.reverse := by
    rw [hnames, List.reverse_append]
    cases hlast : last.reverse with
    | nil => rw [hempty (List.reverse_eq_nil_iff.mp hlast)]; rfl
    | cons c cs =>
      have hc : c ≠ '/' := by
        rintro rfl
        exact hslash (List.mem_reverse.mp (by rw [hlast]; exact List.mem_cons_self))
      rw [List.cons_append, List.dropWhile_cons_of_neg (by simpa using hc)]
  rw [hdrop, List.reverse_reverse]

theorem star_not_mem (e : DirectoryEntry) :
    '*' ∉ (Text.join '/' e.names).toList ∧ '?' ∉ (Text.join '/' e.names).toList := by
  have hfree {c : Char} (hc : c ≠ '/') (h : ∀ n ∈ e.names, c ∉ n.toList) :
      c ∉ (Text.join '/' e.names).toList := by
    rw [toList_join]
    intro hmem
    rcases Text.mem_glue hmem with hsep | ⟨p, hp, hmem⟩
    · exact hc hsep
    · obtain ⟨n, hn, rfl⟩ := List.mem_map.mp hp
      exact h n hn hmem
  exact ⟨hfree (by decide) fun n hn => (e.noWildcard n hn).1,
    hfree (by decide) fun n hn => (e.noWildcard n hn).2⟩

/-- The pattern of an entry stands for all that lies in the directories it names. -/
theorem patternOf_text (e : DirectoryEntry) :
    patternOf e.text = Text.join '/' e.names ++ "/**" := by
  obtain ⟨front, last, hslash, hdot, -, hfront, hnames⟩ := exists_front e
  have hlast : ((Text.join '/' e.names).toList.reverse.takeWhile (· ≠ '/')).reverse = last := by
    have hall : ∀ c ∈ last.reverse, decide (c ≠ '/') = true :=
      fun c hc => decide_eq_true fun he => hslash (he ▸ List.mem_reverse.mp hc)
    rw [hnames, List.reverse_append, List.takeWhile_append_of_pos hall]
    rcases hfront with rfl | ⟨rest, rfl⟩
    · simp
    · simp
  have hwild : (Text.join '/' e.names).toList.any (fun c => c == '*' || c == '?') = false := by
    rw [List.any_eq_false]
    intro c hc
    rw [Bool.or_eq_true, beq_iff_eq, beq_iff_eq]
    rintro (rfl | rfl)
    · exact e.star_not_mem.1 hc
    · exact e.star_not_mem.2 hc
  have hplain : last.contains '.' = false := by
    rw [Bool.eq_false_iff]
    exact fun h => hdot (List.contains_iff_mem.mp h)
  unfold patternOf
  rw [trimmed_text]
  dsimp only
  rw [hlast, hwild, hplain, Bool.or_self, if_neg Bool.false_ne_true, String.ofList_toList]

/-- An entry without brackets, braces and backslashes names one directory. -/
theorem names_iff {e : DirectoryEntry} (h : ∀ n ∈ e.names, ∀ c ∈ n.toList, c ∉ Glob.special)
    {directory : List String} (hdirectory : Separable directory) :
    e.Names directory ↔ directory = e.names := by
  have hplain : ∀ c ∈ (Text.join '/' e.names).toList, c ∉ Glob.special := by
    rw [toList_join]
    intro c hc
    rcases Text.mem_glue hc with rfl | ⟨p, hp, hc⟩
    · decide
    · obtain ⟨n, hn, rfl⟩ := List.mem_map.mp hp
      exact h n hn c hc
  unfold Names
  rw [Glob.matchesDirectory_of_plain hplain]
  constructor
  · intro he
    have hglue := congrArg String.toList he
    rw [toList_join, toList_join] at hglue
    have := Text.glue_injective (separable_toList hdirectory) (separable_toList e.separable) hglue
    exact List.map_injective_iff.mpr (fun _ _ => String.toList_injective) this
  · rintro rfl
    rfl

/-- The names of the root stand for nothing that names can lead to. -/
theorem ne_nil_of_names {e : DirectoryEntry} {directory : List String} (hne : directory ≠ [])
    (hdirectory : Separable directory) (h : e.Names directory) : e.names ≠ [] := by
  intro hnil
  refine hne (((names_iff ?_ hdirectory).mp h).trans hnil)
  rw [hnil]
  exact fun n hn => absurd hn List.not_mem_nil

end DirectoryEntry

/-! ## Programs -/

theorem contains_ofLists (entries : List DirectoryEntry) (path : String) :
    (ofLists none (some (entries.map DirectoryEntry.text)) none).contains path = true ↔
      ∃ e ∈ entries, ∃ g, Glob.parse? (Text.join '/' e.names ++ "/**") = some g ∧
        g.accepts false path = true := by
  have hincluded : (ofLists none (some (entries.map DirectoryEntry.text)) none).contains path =
      Glob.anyAccepts false (globs (entries.map DirectoryEntry.text)) path := rfl
  have hpatterns : (entries.map DirectoryEntry.text).map patternOf =
      entries.map fun e => Text.join '/' e.names ++ "/**" := by
    rw [List.map_map]
    exact List.map_congr_left fun e _ => e.patternOf_text
  rw [hincluded, Glob.anyAccepts, List.any_eq_true, globs, hpatterns, Glob.readable]
  constructor
  · rintro ⟨g, hg, haccepts⟩
    obtain ⟨pattern, hpattern, hparse⟩ := List.mem_filterMap.mp hg
    obtain ⟨e, he, rfl⟩ := List.mem_map.mp hpattern
    exact ⟨e, he, g, hparse, haccepts⟩
  · rintro ⟨e, he, g, hparse, haccepts⟩
    exact ⟨g, List.mem_filterMap.mpr ⟨_, List.mem_map_of_mem he, hparse⟩, haccepts⟩

/-- A path whose text is cut at a slash is cut between two of its names. -/
theorem split_join {parts : List String} (hparts : Separable parts) {d rest : String}
    (h : Text.join '/' parts = d ++ "/" ++ rest) :
    ∃ front back, parts = front ++ back ∧ front ≠ [] ∧ back ≠ [] ∧ d = Text.join '/' front := by
  have htext : Text.glue '/' (parts.map String.toList) = d.toList ++ '/' :: rest.toList := by
    rw [← DirectoryEntry.toList_join, h]
    simp
  have hne : parts.map String.toList ≠ [] := by
    intro hnil
    rw [hnil] at htext
    simp [Text.glue] at htext
  have hpieces : Text.segments '/' (Text.join '/' parts) =
      Text.segments '/' d ++ Text.segments '/' rest := by
    unfold Text.segments
    rw [DirectoryEntry.toList_join, htext, Text.pieces_append, List.map_append]
  rw [Text.segments_join (by simpa using hne) fun p hp => (hparts p hp).2] at hpieces
  refine ⟨_, _, hpieces, ?_, ?_, (Text.join_segments '/' d).symm⟩
  · exact List.map_eq_nil_iff.not.mpr (Text.pieces_ne_nil '/' d.toList)
  · exact List.map_eq_nil_iff.not.mpr (Text.pieces_ne_nil '/' rest.toList)

/-- A program of directories holds a file exactly if the file lies in one of them. An entry in which
no character is special names the directory its names lead to; the root names nothing. -/
theorem directory_entries_cover (entries : List DirectoryEntry) :
    (∀ parts, Separable parts →
      ((ofLists none (some (entries.map DirectoryEntry.text)) none).contains
          (Text.join '/' parts) = true ↔
        ∃ e ∈ entries, e.names ≠ [] ∧ ∃ directory rest, parts = directory ++ rest ∧
          directory ≠ [] ∧ rest ≠ [] ∧ e.Names directory)) ∧
    ∀ e ∈ entries, (∀ n ∈ e.names, ∀ c ∈ n.toList, c ∉ Glob.special) →
      ∀ directory, Separable directory → (e.Names directory ↔ directory = e.names) := by
  refine ⟨fun parts hparts => ?_, fun e _ h directory => DirectoryEntry.names_iff h⟩
  rw [contains_ofLists]
  refine exists_congr fun e => and_congr_right fun _ => ?_
  rw [Glob.accepts_below e.star_not_mem.1]
  constructor
  · rintro ⟨d, rest, hpath, hmatches⟩
    obtain ⟨directory, below, rfl, hdirectory, hbelow, rfl⟩ := split_join hparts hpath
    have hseparable : Separable directory := fun n hn => hparts n (List.mem_append_left _ hn)
    exact ⟨DirectoryEntry.ne_nil_of_names hdirectory hseparable hmatches, directory, below, rfl,
      hdirectory, hbelow, hmatches⟩
  · rintro ⟨-, directory, below, rfl, hdirectory, hbelow, hnames⟩
    refine ⟨Text.join '/' directory, Text.join '/' below, String.toList_injective ?_, hnames⟩
    rw [String.toList_append, String.toList_append, DirectoryEntry.toList_join,
      DirectoryEntry.toList_join, DirectoryEntry.toList_join, List.map_append,
      Text.glue_append (by simpa using hdirectory) (by simpa using hbelow), List.append_assoc]
    rfl

/-- The directory `src`, written with all that may be added. -/
def sourceEntry : DirectoryEntry where
  here := true
  names := ["src"]
  closed := true

/-- Two directories in one entry. -/
def bracedEntry : DirectoryEntry where
  here := false
  names := ["\x7blib,test\x7d"]
  closed := false

/-- The root of the project. -/
def rootEntry : DirectoryEntry where
  here := true
  names := []
  closed := false

theorem directory_entries_cover_braced :
    sourceEntry.text = "./src/" ∧ bracedEntry.text = "\x7blib,test\x7d" ∧
      (ofLists none (some ["./src/", "\x7blib,test\x7d"]) none).contains "test/deep/b.ts" = true ∧
      (ofLists none (some ["./src/", "\x7blib,test\x7d"]) none).contains "src" = false ∧
      ∀ directory, Separable directory → (sourceEntry.Names directory ↔ directory = ["src"]) := by
  obtain ⟨hcovers, hplain⟩ := directory_entries_cover [sourceEntry, bracedEntry]
  refine ⟨by decide, by decide, ?_, by decide +kernel, ?_⟩
  · refine (hcovers ["test", "deep", "b.ts"] (by decide)).mpr ⟨bracedEntry, by simp, by decide,
      ["test"], ["deep", "b.ts"], rfl, by decide, by decide, ?_⟩
    show Glob.MatchesDirectory "\x7blib,test\x7d" "test"
    decide +kernel
  · exact hplain sourceEntry List.mem_cons_self (by simp [sourceEntry, Glob.special])

/-- An entry for the root covers no file of the project, although all of them lie below the root. -/
theorem root_entry_covers_nothing :
    rootEntry.text = "./" ∧
      (ofLists none (some ["./"]) none).contains "a.ts" = false ∧
      (ofLists none (some ["./"]) none).contains "src/b.ts" = false := by
  decide +kernel

end Program

end CodeConcepts
