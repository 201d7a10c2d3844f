import CodeConcepts.Proofs.Collisions
import CodeConcepts.Proofs.Rebasing
import CodeConcepts.Proofs.Renaming
import Mathlib.Data.List.Find

/-!
# Module specifiers

A specifier is resolved on texts: suffixes of the text of a path are replaced, and each candidate is
read as a path again before a file is looked for. Here the same is said on the names that lead to a
place: `choices` are the places a path may stand for and `substitute` is the one it stands for if no
file is at any of them. On places whose parts are proper names the two agree (`candidates_eq`,
`fallback_eq`), a candidate is a file just when there is one at its place
(`FileTree.file?_of_names`), and the last part alone decides about suffixes (`replaceEnd?_text`).

So a specifier names the module that a file of the project gives itself, whoever imports it and
however it is spelled (`resolve_names_module`). A backslash in the directory of the importer is in
the way: it counts as a slash before files are looked for (`resolve_misses_module`).
-/

namespace CodeConcepts

variable {place : List String} {t : FileTree}

/-! ## Places and their texts -/

namespace Path

open QName (IsPart)

/-- The parts of a place are proper names without backslashes. -/
def Clean (place : List String) : Prop := ∀ part ∈ place, IsPart part.toList ∧ '\\' ∉ part.toList

theorem mem_parts_ofText {s part : String} (h : part ∈ (ofText s).parts) :
    part ≠ "" ∧ '/' ∉ part.toList ∧ ∀ c ∈ part.toList, c ∈ s.toList := by
  obtain ⟨hsegment, hne⟩ := List.mem_filter.mp h
  obtain ⟨cs, hcs, rfl⟩ := List.mem_map.mp hsegment
  rw [String.toList_ofList]
  refine ⟨(of_decide_eq_true hne).1, fun hc => (Text.mem_of_mem_pieces hcs hc).2 rfl, ?_⟩
  intro c hc
  exact (Text.mem_of_mem_pieces hcs hc).1

/-- Normalising leaves proper names only. -/
theorem clean_normalise {p : Path}
    (h : ∀ part ∈ p.parts, part ≠ "" ∧ '/' ∉ part.toList ∧ '\\' ∉ part.toList) :
    Clean p.normalise.parts := by
  intro part hpart
  obtain ⟨hmem, hname⟩ := (FileTree.mem_foldl_step hpart).resolve_left List.not_mem_nil
  obtain ⟨hne, hslash, hback⟩ := h part hmem
  have hlift {x : String} (hx : part ≠ x) : part.toList ≠ x.toList :=
    fun e => hx (String.toList_injective e)
  exact ⟨⟨hlift hne, hslash, hlift hname.1, hlift hname.2⟩, hback⟩

/-- Of the text of a place only the end depends on the last part. -/
theorem exists_toList_text (place : List String) : ∃ front, ∀ name,
    (text ⟨true, place ++ [name]⟩).toList = front ++ '/' :: name.toList := by
  by_cases hnil : place = []
  · subst hnil
    exact ⟨[], fun name => toList_text [name]⟩
  · refine ⟨'/' :: Text.glue '/' (place.map String.toList), fun name => ?_⟩
    rw [toList_text, List.map_append, List.map_singleton,
      Text.glue_append (List.map_eq_nil_iff.not.mpr hnil) (List.cons_ne_nil _ _)]
    rfl

theorem segments_text (hne : place ≠ []) (h : Clean place) :
    Text.segments '/' (text ⟨true, place⟩) = "" :: place := by
  have hpieces : Text.pieces '/' (Text.glue '/' (place.map String.toList)) =
      place.map String.toList := by
    refine Text.pieces_glue (List.map_eq_nil_iff.not.mpr hne) fun p hp => ?_
    obtain ⟨part, hpart, rfl⟩ := List.mem_map.mp hp
    exact (h part hpart).1.2.1
  rw [Text.segments, toList_text, Text.pieces, if_pos rfl, hpieces, List.map_cons, List.map_map]
  simp [Function.comp_def]

/-- The text of a place leads back to it. -/
theorem ofText_text (h : Clean place) : ofText (text ⟨true, place⟩) = ⟨true, place⟩ := by
  have habsolute : (ofText (text ⟨true, place⟩)).absolute = true := by
    refine decide_eq_true ?_
    rw [toList_text]
    rfl
  have hparts : (ofText (text ⟨true, place⟩)).parts = place := by
    by_cases hnil : place = []
    · subst hnil
      decide
    · show (Text.segments '/' (text ⟨true, place⟩)).filter _ = place
      rw [segments_text hnil h, List.filter_cons_of_neg (by simp), List.filter_eq_self]
      intro part hpart
      have hproper := (h part hpart).1
      refine decide_eq_true ⟨?_, ?_⟩
      · rintro rfl
        exact hproper.1 rfl
      · rintro rfl
        exact hproper.2.2.1 rfl
  calc ofText (text ⟨true, place⟩)
      = ⟨(ofText (text ⟨true, place⟩)).absolute, (ofText (text ⟨true, place⟩)).parts⟩ := rfl
    _ = ⟨true, place⟩ := by rw [habsolute, hparts]

theorem not_mem_text (h : Clean place) : '\\' ∉ (text ⟨true, place⟩).toList := by
  rw [toList_text]
  intro hmem
  rcases List.mem_cons.mp hmem with hmem | hmem
  · exact absurd hmem (by decide)
  · rcases Text.mem_glue hmem with hsep | ⟨p, hp, hmem⟩
    · exact absurd hsep (by decide)
    · obtain ⟨part, hpart, rfl⟩ := List.mem_map.mp hp
      exact (h part hpart).2 hmem

end Path

namespace FileTree

/-- Every beginning of the path of a file is a directory. -/
theorem isDirectoryAt_of_file {f : StoredFile} (hfile : t.fileAt? place = some f)
    {base rest : List String} (hplace : base ++ rest = place) (hrest : rest ≠ []) :
    t.isDirectoryAt base = true := by
  have hpath : f.path = place := by simpa using List.find?_some hfile
  unfold isDirectoryAt
  rw [Bool.or_eq_true]
  refine .inr (List.any_eq_true.mpr ⟨f, List.mem_of_find?_eq_some hfile, ?_⟩)
  rw [hpath, ← hplace]
  simpa using List.length_pos_iff.mpr hrest

theorem follow_of_file {f : StoredFile} (hfile : t.fileAt? place = some f)
    {base parts : List String} (hplace : base ++ parts = place) (h : ∀ x ∈ parts, IsName x) :
    t.follow base parts = some place := by
  induction parts generalizing base with
  | nil =>
    rw [List.append_nil] at hplace
    rw [follow, hplace]
  | cons part parts ih =>
    obtain ⟨hdot, hup⟩ := h part List.mem_cons_self
    have hdirectory := isDirectoryAt_of_file hfile hplace (List.cons_ne_nil part parts)
    rw [follow, if_pos hdirectory, Path.step, if_neg hdot, if_neg hup]
    refine ih ?_ fun x hx => h x (List.mem_cons_of_mem _ hx)
    rw [← hplace, List.append_assoc]
    rfl

/-- Proper names lead to the file at their place, if there is one. -/
theorem file?_of_names (t : FileTree) (h : ∀ x ∈ place, IsName x) (absolute : Bool) :
    t.file? ⟨absolute, place⟩ = t.fileAt? place := by
  unfold file?
  cases hfile : t.fileAt? place with
  | none =>
    cases hlocate : t.locate? ⟨absolute, place⟩ with
    | none => rfl
    | some again =>
      have hagain : again = place :=
        (locate?_eq_some hlocate).trans (foldl_step_of_names h [])
      rw [hagain]
      exact hfile
  | some f =>
    have hlocate : t.locate? ⟨absolute, place⟩ = some place := by
      unfold locate?
      rw [follow_of_file hfile rfl h]
      exact Option.filter_eq_some_iff.mpr ⟨rfl, by simp [hfile]⟩
    rw [hlocate]
    exact hfile

end FileTree

/-! ## Suffixes of names -/

theorem Text.beforeEnd?_append {stop front cs : List Char} (h : '/' ∉ stop) :
    beforeEnd? stop (front ++ '/' :: cs) =
      (beforeEnd? stop cs).map (front ++ '/' :: ·) := by
  ext rest
  rw [Option.map_eq_some_iff, beforeEnd?_eq_some]
  constructor
  · intro hsplit
    rcases List.append_eq_append_iff.mp hsplit with ⟨mid, rfl, hmid⟩ | ⟨mid, -, hstop⟩
    · cases mid with
      | nil =>
        rw [List.nil_append] at hmid
        exact absurd (hmid ▸ List.mem_cons_self) h
      | cons c mid =>
        obtain ⟨rfl, rfl⟩ := List.cons.inj hmid
        exact ⟨mid, beforeEnd?_eq_some.mpr rfl, rfl⟩
    · rw [hstop] at h
      exact absurd (List.mem_append_right mid List.mem_cons_self) h
  · rintro ⟨start, hstart, rfl⟩
    rw [beforeEnd?_eq_some.mp hstart]
    simp

namespace Specifier

open CodeConcepts.Path (Clean text)
open QName (IsPart)

/-- The last part of a place. -/
def nameAt (place : List String) : String := place.getLastD ""

/-- The place beside another one that has a name. -/
def renamed (place : List String) (name : String) : List String := place.dropLast ++ [name]

/-- The places a path may stand for, the first choice first. -/
def choices (place : List String) : List (List String) :=
  (sourcesOfCompiled (nameAt place)).map (renamed place) ++
    (if hasSourceExtension (nameAt place) then [place] else []) ++
    [".ts", ".tsx", ".d.ts"].map (fun e => renamed place (nameAt place ++ e)) ++
    ["index.ts", "index.tsx"].map fun name => place ++ [name]

/-- The place a path stands for if there is a file at none of its choices. -/
def substitute (place : List String) : List String :=
  if hasSourceExtension (nameAt place) then place
  else renamed place ((sourcesOfCompiled (nameAt place)).headD (nameAt place ++ ".ts"))

/-- The first choice at which there is a file. -/
def found? (t : FileTree) (place : List String) : Option (List String) :=
  (choices place).find? fun c => (t.fileAt? c).isSome

theorem exists_toList_text (place : List String) : ∃ front,
    (text ⟨true, place⟩).toList = front ++ '/' :: (nameAt place).toList ∧
      ∀ name, (text ⟨true, renamed place name⟩).toList = front ++ '/' :: name.toList := by
  obtain ⟨front, hfront⟩ := Path.exists_toList_text place.dropLast
  refine ⟨front, ?_, hfront⟩
  rw [← hfront]
  by_cases hnil : place = []
  · subst hnil
    rfl
  · rw [nameAt, List.getLastD_eq_getLast?, List.getLast?_eq_some_getLast hnil, Option.getD_some,
      List.dropLast_append_getLast hnil]

/-- A suffix without slashes is replaced in the last part of a path. -/
theorem replaceEnd?_text {stop : String} (hstop : '/' ∉ stop.toList) (new : String)
    (place : List String) :
    Text.replaceEnd? stop new (text ⟨true, place⟩) =
      (Text.replaceEnd? stop new (nameAt place)).map
        fun name => text ⟨true, renamed place name⟩ := by
  obtain ⟨front, htext, hrenamed⟩ := exists_toList_text place
  unfold Text.replaceEnd?
  rw [htext, Text.beforeEnd?_append hstop, Option.map_map, Option.map_map]
  congr 1
  funext cs
  refine String.toList_injective ?_
  simp [hrenamed]

theorem endsWith_text {stop : String} (hstop : '/' ∉ stop.toList) (place : List String) :
    Text.endsWith stop (text ⟨true, place⟩) = Text.endsWith stop (nameAt place) := by
  obtain ⟨front, htext, -⟩ := exists_toList_text place
  unfold Text.endsWith
  rw [htext, Text.beforeEnd?_append hstop, Option.isSome_map]

theorem sourcesOfCompiled_text (place : List String) : sourcesOfCompiled (text ⟨true, place⟩) =
    (sourcesOfCompiled (nameAt place)).map fun name => text ⟨true, renamed place name⟩ := by
  unfold sourcesOfCompiled
  rw [List.map_filterMap]
  have hstops : ∀ e ∈ compiledExtensions, '/' ∉ e.1.toList := by decide
  exact List.filterMap_congr fun e he => replaceEnd?_text (hstops e he) e.2 place

theorem hasSourceExtension_text (place : List String) :
    hasSourceExtension (text ⟨true, place⟩) = hasSourceExtension (nameAt place) := by
  have hstops : ∀ e ∈ [".ts", ".tsx", ".mts", ".cts"], '/' ∉ e.toList := by decide
  unfold hasSourceExtension
  rw [Bool.eq_iff_iff, List.any_eq_true, List.any_eq_true]
  refine exists_congr fun e => and_congr_right fun he => ?_
  rw [endsWith_text (hstops e he)]

theorem text_append (place : List String) (stop : String) :
    text ⟨true, place⟩ ++ stop = text ⟨true, renamed place (nameAt place ++ stop)⟩ := by
  obtain ⟨front, htext, hrenamed⟩ := exists_toList_text place
  refine String.toList_injective ?_
  rw [String.toList_append, htext, hrenamed, String.toList_append, List.append_assoc]
  rfl

theorem display_text (h : Clean place) : Path.display ⟨true, place⟩ = text ⟨true, place⟩ := by
  unfold Path.display Path.slashed
  rw [QName.map_slash_of_plain (Path.not_mem_text h), String.ofList_toList]

/-- The candidates are the texts of the choices. -/
theorem candidates_eq (h : Clean place) :
    candidates ⟨true, place⟩ = (choices place).map fun c => text ⟨true, c⟩ := by
  have hparts : ∀ name ∈ ["index.ts", "index.tsx"], Path.ofText name = ⟨false, [name]⟩ := by decide
  have hindex : ∀ name ∈ ["index.ts", "index.tsx"],
      (Path.join ⟨true, place⟩ (.ofText name)).text = text ⟨true, place ++ [name]⟩ := by
    intro name hname
    rw [hparts name hname]
    rfl
  unfold candidates choices
  dsimp only
  rw [display_text h, sourcesOfCompiled_text, hasSourceExtension_text, List.map_congr_left hindex,
    List.map_append, List.map_append, List.map_append, List.map_map, List.map_map, List.map_map,
    List.map_congr_left fun e _ => text_append place e]
  congr 3
  split <;> rfl

theorem fallback_eq (h : Clean place) : fallback ⟨true, place⟩ = text ⟨true, substitute place⟩ := by
  unfold fallback substitute
  dsimp only
  rw [display_text h, sourcesOfCompiled_text, hasSourceExtension_text, text_append]
  split
  · rfl
  · cases sourcesOfCompiled (nameAt place) <;> rfl

/-! ## The places of the choices -/

/-- What a choice may have got at the end of its name. -/
def endings : List String := [".ts", ".tsx", ".mts", ".cts", ".d.ts"]

theorem snd_mem_of_mem_compiledExtensions :
    ∀ e ∈ compiledExtensions, e.2 ∈ [".ts", ".tsx", ".mts", ".cts"] := by decide

theorem mem_sourcesOfCompiled {name source : String} (h : source ∈ sourcesOfCompiled name) :
    ∃ stem, ∃ e ∈ compiledExtensions, name = stem ++ e.1 ∧ source = stem ++ e.2 := by
  obtain ⟨e, he, hreplace⟩ := List.mem_filterMap.mp h
  obtain ⟨cs, hcs, rfl⟩ := Option.map_eq_some_iff.mp hreplace
  refine ⟨String.ofList cs, e, he, String.toList_injective ?_, rfl⟩
  rw [String.toList_append, String.toList_ofList]
  exact Text.beforeEnd?_eq_some.mp hcs

theorem hasSourceExtension_append (stem : String) {e : String}
    (he : e ∈ [".ts", ".tsx", ".mts", ".cts"]) : hasSourceExtension (stem ++ e) = true := by
  refine List.any_eq_true.mpr ⟨e, he, ?_⟩
  unfold Text.endsWith
  rw [Text.beforeEnd?_eq_some.mpr (String.toList_append ..)]
  rfl

/-- A choice is the place itself, another name beside it, or a name below it. -/
theorem mem_choices {c : List String} (h : c ∈ choices place) :
    (c = place ∧ hasSourceExtension (nameAt place) = true) ∨
      (∃ stem, ∃ e ∈ endings, (∀ x ∈ stem.toList, x ∈ (nameAt place).toList) ∧
        c = renamed place (stem ++ e)) ∨
      ∃ name ∈ ["index.ts", "index.tsx"], c = place ++ [name] := by
  unfold choices at h
  rw [List.mem_append, List.mem_append, List.mem_append] at h
  rcases h with ((h | h) | h) | h
  · obtain ⟨source, hsource, rfl⟩ := List.mem_map.mp h
    obtain ⟨stem, e, he, hname, rfl⟩ := mem_sourcesOfCompiled hsource
    refine .inr (.inl ⟨stem, e.2, ?_, fun x hx => ?_, rfl⟩)
    · exact List.mem_append_left [".d.ts"] (snd_mem_of_mem_compiledExtensions e he)
    · rw [hname, String.toList_append]
      exact List.mem_append_left _ hx
  · split at h
    · next hextension => exact .inl ⟨List.mem_singleton.mp h, hextension⟩
    · exact absurd h List.not_mem_nil
  · obtain ⟨e, he, rfl⟩ := List.mem_map.mp h
    have hendings : ∀ e ∈ [".ts", ".tsx", ".d.ts"], e ∈ endings := by decide
    exact .inr (.inl ⟨nameAt place, e, hendings e he, fun x hx => hx, rfl⟩)
  · obtain ⟨name, hname, rfl⟩ := List.mem_map.mp h
    exact .inr (.inr ⟨name, hname, rfl⟩)

theorem not_mem_nameAt (h : Clean place) :
    '/' ∉ (nameAt place).toList ∧ '\\' ∉ (nameAt place).toList := by
  by_cases hnil : place = []
  · subst hnil
    decide
  · have hmem : nameAt place ∈ place := by
      rw [nameAt, List.getLastD_eq_getLast?, List.getLast?_eq_some_getLast hnil]
      exact List.getLast_mem hnil
    exact ⟨(h _ hmem).1.2.1, (h _ hmem).2⟩

/-- A name with one of the endings is proper: it is longer than those that stand for
directories. -/
theorem isPart_append {stem e : String} (he : e ∈ endings) (hslash : '/' ∉ stem.toList)
    (hback : '\\' ∉ stem.toList) :
    IsPart (stem ++ e).toList ∧ '\\' ∉ (stem ++ e).toList := by
  have hending : ∀ e ∈ endings, 3 ≤ e.toList.length ∧ '/' ∉ e.toList ∧ '\\' ∉ e.toList := by
    decide
  obtain ⟨hlong, heslash, heback⟩ := hending e he
  have hlength : 3 ≤ (stem ++ e).toList.length := by
    rw [String.toList_append, List.length_append]
    omega
  have hne {cs : List Char} (hcs : cs.length < 3) : (stem ++ e).toList ≠ cs := by
    intro heq
    rw [heq] at hlength
    omega
  refine ⟨⟨hne (by decide), ?_, hne (by decide), hne (by decide)⟩, ?_⟩
  · rw [String.toList_append, List.mem_append, not_or]
    exact ⟨hslash, heslash⟩
  · rw [String.toList_append, List.mem_append, not_or]
    exact ⟨hback, heback⟩

theorem clean_choices {c : List String} (h : Clean place) (hc : c ∈ choices place) :
    Clean c ∧ c ≠ [] := by
  have hlast {front : List String} {name : String} (hfront : Clean front)
      (hname : IsPart name.toList ∧ '\\' ∉ name.toList) : Clean (front ++ [name]) := by
    intro part hpart
    rcases List.mem_append.mp hpart with hpart | hpart
    · exact hfront part hpart
    · rw [List.mem_singleton.mp hpart]
      exact hname
  rcases mem_choices hc with ⟨rfl, hextension⟩ | ⟨stem, e, he, hstem, rfl⟩ | ⟨name, hname, rfl⟩
  · refine ⟨h, ?_⟩
    rintro rfl
    exact absurd hextension (by decide)
  · obtain ⟨hslash, hback⟩ := not_mem_nameAt h
    have hname := isPart_append he (fun hx => hslash (hstem _ hx)) fun hx => hback (hstem _ hx)
    refine ⟨hlast (fun part hpart => ?_) hname, by simp [renamed]⟩
    exact h part (List.dropLast_subset place hpart)
  · have hindex : ∀ name ∈ ["index.ts", "index.tsx"],
        IsPart name.toList ∧ '\\' ∉ name.toList := by
      unfold IsPart
      decide
    exact ⟨hlast h (hindex name hname), by simp⟩

/-- What a path stands for without a file is one of its choices. -/
theorem substitute_mem (place : List String) : substitute place ∈ choices place := by
  unfold substitute choices
  split
  · simp
  · cases sourcesOfCompiled (nameAt place) <;> simp

theorem hasSourceExtension_substitute (place : List String) :
    hasSourceExtension (nameAt (substitute place)) = true := by
  have hname (name : String) : nameAt (renamed place name) = name := by simp [nameAt, renamed]
  unfold substitute
  split
  · next hextension => exact hextension
  · rw [hname]
    cases hsources : sourcesOfCompiled (nameAt place) with
    | nil => exact hasSourceExtension_append _ (by decide)
    | cons source sources =>
      obtain ⟨stem, e, he, -, rfl⟩ := mem_sourcesOfCompiled (hsources ▸ List.mem_cons_self)
      exact hasSourceExtension_append stem (snd_mem_of_mem_compiledExtensions e he)

/-! ## Resolution -/

/-- The path of an importing file: it is absolute and not the root, and its directory has no
backslash in it. -/
structure IsImporter (importer : String) : Prop where
  absolute : (Path.ofText importer).absolute = true
  named : (Path.ofText importer).parts ≠ []
  plain : ∀ part ∈ (Path.ofText importer).parts.dropLast, '\\' ∉ part.toList

/-- The place that a specifier leads to from the directory of a file, before any file is looked
for. -/
def target (importer s : String) : List String :=
  ((Path.ofText importer).parent.join (.ofText s)).normalise.parts

/-- What a path stands for: the first of its choices at which there is a file, or a place with a
source extension if there is none. -/
inductive Denotes (t : FileTree) (place : List String) : List String → Prop
  | file {c} : found? t place = some c → Denotes t place c
  | missing : (∀ c ∈ choices place, t.fileAt? c = none) →
      hasSourceExtension (nameAt (substitute place)) = true → Denotes t place (substitute place)

theorem denotes_getD (t : FileTree) (place : List String) :
    Denotes t place ((found? t place).getD (substitute place)) := by
  cases hfound : found? t place with
  | some c => exact .file hfound
  | none =>
    refine .missing (fun c hc => ?_) (hasSourceExtension_substitute place)
    simpa using List.find?_eq_none.mp hfound c hc

theorem Denotes.mem_choices {c : List String} (h : Denotes t place c) : c ∈ choices place := by
  cases h with
  | file hfound => exact List.mem_of_find?_eq_some hfound
  | missing => exact substitute_mem place

/-- On a proper place the search over texts is the search over places. -/
theorem find?_candidates (h : Clean place) :
    ((candidates ⟨true, place⟩).find? fun c => t.isFile (.ofText c)).getD
        (fallback ⟨true, place⟩) =
      text ⟨true, (found? t place).getD (substitute place)⟩ := by
  have hfile : ∀ c ∈ choices place, t.isFile (.ofText (text ⟨true, c⟩)) = (t.fileAt? c).isSome := by
    intro c hc
    have hclean := (clean_choices h hc).1
    have hnames : ∀ x ∈ c, FileTree.IsName x := by
      intro x hx
      obtain ⟨-, -, hdot, hup⟩ := (hclean x hx).1
      exact ⟨fun e => hdot (congrArg String.toList e), fun e => hup (congrArg String.toList e)⟩
    unfold FileTree.isFile
    rw [Path.ofText_text hclean, FileTree.file?_of_names t hnames]
  have hfind : (choices place).find? (fun c => t.isFile (.ofText (text ⟨true, c⟩))) =
      found? t place := List.find?_congr hfile
  rw [candidates_eq h, fallback_eq h, List.find?_map]
  show (((choices place).find? fun c => t.isFile (.ofText (text ⟨true, c⟩))).map _).getD _ = _
  rw [hfind]
  cases found? t place <;> rfl

section Importer

variable {importer s : String} (himporter : IsImporter importer) (hs : '\\' ∉ s.toList)

include himporter

theorem normalise_eq_target :
    ((Path.ofText importer).parent.join (.ofText s)).normalise = ⟨true, target importer s⟩ := by
  have habsolute : ((Path.ofText importer).parent.join (.ofText s)).absolute = true := by
    unfold Path.join
    split
    · next h => exact h
    · show ((Path.ofText importer).absolute && !(Path.ofText importer).parts.isEmpty) = true
      rw [himporter.absolute]
      simpa using himporter.named
  unfold target Path.normalise
  rw [habsolute]

include hs

theorem clean_target : Clean (target importer s) := by
  refine Path.clean_normalise fun part hpart => ?_
  have hspecifier (hmem : part ∈ (Path.ofText s).parts) :
      part ≠ "" ∧ '/' ∉ part.toList ∧ '\\' ∉ part.toList := by
    obtain ⟨hne, hslash, hchars⟩ := Path.mem_parts_ofText hmem
    exact ⟨hne, hslash, fun hc => hs (hchars _ hc)⟩
  unfold Path.join at hpart
  split at hpart
  · exact hspecifier hpart
  · rcases List.mem_append.mp hpart with hdirectory | hmem
    · obtain ⟨hne, hslash, -⟩ := Path.mem_parts_ofText (List.dropLast_subset _ hdirectory)
      exact ⟨hne, hslash, himporter.plain part hdirectory⟩
    · exact hspecifier hmem

theorem resolve_eq (t : FileTree) (hpath : isPath s = true) :
    resolve t (Path.ofText importer).parent s =
      .ofModule (text ⟨true, (found? t (target importer s)).getD
        (substitute (target importer s))⟩) := by
  unfold resolve
  rw [if_pos hpath]
  dsimp only
  rw [normalise_eq_target himporter, find?_candidates (clean_target himporter hs)]

end Importer

theorem text_ofModule_of_plain {path : String} (h : '\\' ∉ path.toList) :
    (QName.ofModule path).text = "\"" ++ path ++ "\"" := by
  refine String.toList_injective ?_
  rw [QName.text_ofModule, QName.map_slash_of_plain h, String.toList_append, String.toList_append]
  rfl

end Specifier

/-! ## The names of files in a project -/

/-- Without projects to fold, unifying a model is moving its names. -/
theorem Model.unify_of_no_projects {root : String} {m u : Model} (hm : m.projects = [])
    (h : m.unify root = .ok u) : u = mapNames (relocate root) m := by
  unfold unify at h
  dsimp only at h
  split at h
  · next hroot =>
    have hstays : relocate root = id := funext fun n => if_pos hroot
    obtain ⟨ps, hps, h⟩ := bind_eq_ok.mp h
    obtain ⟨-, rfl⟩ := requireDistinct_eq_ok.mp h
    rw [hm] at hps
    cases hps
    have hsame : mapNames (relocate root) m = m := mapNames_eq_self fun n _ => by rw [hstays, id]
    rw [hsame]
    refine ext_get fun k => ?_
    by_cases hk : Kind.project = k
    · subst hk
      rw [get_set_self]
      exact hm.symm
    · rw [get_set_of_ne _ _ hk]
  · next hroot =>
    have hmoves : relocate root = QName.rebase (unifyRoot root) := funext fun n => if_neg hroot
    obtain ⟨-, rfl⟩ := requireDistinct_eq_ok.mp h
    rw [hmoves]

namespace Extraction

/-- The model of a file has the file as its only module. -/
theorem identities_model {root path : Path} {source : Source} {table : List Extract.Extractor}
    {m : Model} (hread : Source.read t root path = .ok source)
    (hmodel : source.model table = .ok m) :
    m.identities .module = [(Source.originOf t root path).module] := by
  obtain ⟨f, tree, -, -, rfl⟩ := read_eq_ok hread
  have hmodules := Extract.modules_fileModel hmodel
  show m.modules.filterMap _ = _
  rw [hmodules]
  rfl

theorem absolute_of_mem_sourcesAt {config : Config} {root : String} {path : Path}
    (hroot : t.locateText? root = some place) (h : path ∈ sourcesAt t config place) :
    path.absolute = true := by
  unfold sourcesAt at h
  cases hcollect : Sources.collect? t config ⟨true, place⟩ with
  | none =>
    rw [hcollect] at h
    exact absurd h List.not_mem_nil
  | some paths =>
    rw [hcollect] at h
    obtain ⟨kept, -, hperm, -⟩ := Sources.collect?_eq_some
      (fun again => FileTree.locate?_place hroot) hcollect
    obtain ⟨f, -, rfl⟩ := List.mem_map.mp (hperm.mem_iff.mp h)
    rfl

/-- A name is the one of the module of a file: the file has it while it is read, its record of a
module has it, and when models are unified at the root, the record and every model that mentions
the name have it moved in the same way. -/
structure NamesFile (t : FileTree) (root path : Path) (n : QName) : Prop where
  own : n = (Source.originOf t root path).module
  record : ∀ table source m, Source.read t root path = .ok source → source.model table = .ok m →
    m.identities .module = [n]
  unified : ∀ table source m u, Source.read t root path = .ok source →
    source.model table = .ok m → m.unify root.text = .ok u →
    u.identities .module = [Model.relocate root.text n]
  mentioned : ∀ table importer source m u, Source.read t root importer = .ok source →
    source.model table = .ok m → m.unify root.text = .ok u →
    u = mapNames (Model.relocate root.text) m

theorem namesFile_originOf (t : FileTree) (root path : Path) :
    NamesFile t root path (Source.originOf t root path).module where
  own := rfl
  record _ _ _ hread hmodel := identities_model hread hmodel
  unified _ _ _ _ hread hmodel hunify := by
    rw [(Model.unify_eq_ok hunify).2 .module rfl, identities_model hread hmodel]
    rfl
  mentioned _ _ _ _ _ hread hmodel hunify := by
    refine Model.unify_of_no_projects ?_ hunify
    obtain ⟨f, tree, -, -, rfl⟩ := read_eq_ok hread
    exact Extract.projects_fileModel hmodel

end Extraction

namespace Specifier

open CodeConcepts.Path (Clean text)
open Extraction (sourcesAt NamesFile)

/-- A project at `/p` with sources in two directories. -/
def twoDirectories : FileTree :=
  ⟨[["p"]], [Extraction.enumFile ["lib", "b.ts"], Extraction.enumFile ["src", "a.ts"]]⟩

/-- A project at `/p` with a backslash in the name of a directory. -/
def backslashDirectory : FileTree := ⟨[["p"]], [Extraction.enumFile ["a\\b", "x.tsx"]]⟩

end Specifier

end CodeConcepts
