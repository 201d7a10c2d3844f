import CodeConcepts.Files.Specifier
import Mathlib.Data.List.Basic

/-!
# Normal paths

A path is normalised by following its parts from the start: a name leads further down, `..` back by
one, and at the start there is nothing to go back to. What has been followed is made of names
(`FileTree.mem_foldl_step`), and following names only adds them (`FileTree.foldl_step_of_names`).
So a path may be normalised at any place on the way without changing where it leads
(`Path.normalise_join`), and a specifier denotes the same module however the directory of the file
is spelled.
-/

namespace CodeConcepts

variable {parts base : List String}

namespace FileTree

/-- A part that leads further down. -/
def IsName (part : String) : Prop := part ≠ "." ∧ part ≠ ".."

/-- What one more part leads to holds nothing but what was there and the part, if it is a name. -/
theorem mem_step {part x : String} (h : x ∈ Path.step base part) :
    x ∈ base ∨ x = part ∧ IsName x := by
  unfold Path.step at h
  split at h
  · exact .inl h
  · next hdot =>
    split at h
    · exact .inl (List.dropLast_subset base h)
    · next hup =>
      rcases List.mem_append.mp h with h | h
      · exact .inl h
      · rw [List.mem_singleton] at h
        exact .inr ⟨h, h ▸ ⟨hdot, hup⟩⟩

theorem mem_foldl_step {x : String} (h : x ∈ parts.foldl Path.step base) :
    x ∈ base ∨ x ∈ parts ∧ IsName x := by
  induction parts generalizing base with
  | nil => exact .inl h
  | cons part parts ih =>
    rcases ih h with h | ⟨h, hname⟩
    · rcases mem_step h with h | ⟨rfl, hname⟩
      · exact .inl h
      · exact .inr ⟨List.mem_cons_self, hname⟩
    · exact .inr ⟨List.mem_cons_of_mem _ h, hname⟩

theorem foldl_step_of_names (h : ∀ x ∈ parts, IsName x) (base : List String) :
    parts.foldl Path.step base = base ++ parts := by
  induction parts generalizing base with
  | nil => exact (List.append_nil base).symm
  | cons part parts ih =>
    obtain ⟨hdot, hup⟩ := h part List.mem_cons_self
    rw [List.foldl_cons, Path.step, if_neg hdot, if_neg hup,
      ih fun x hx => h x (List.mem_cons_of_mem _ hx), List.append_assoc]
    rfl

end FileTree

namespace Path

open FileTree (IsName)

variable {a b : Path}

theorem isName_of_mem_normalise {part : String} (h : part ∈ a.normalise.parts) : IsName part :=
  ((FileTree.mem_foldl_step h).resolve_left List.not_mem_nil).2

/-- A path in normal form stays as it is. -/
theorem normalise_normalise (a : Path) : a.normalise.normalise = a.normalise :=
  congrArg (Path.mk a.absolute)
    (FileTree.foldl_step_of_names (fun _ h => isName_of_mem_normalise h) [])

theorem normalise_join_of_relative (hb : b.absolute = false) :
    (a.join b).normalise = ⟨a.absolute, b.parts.foldl step a.normalise.parts⟩ := by
  rw [join, hb]
  exact congrArg (Path.mk a.absolute) List.foldl_append

/-- A path may be normalised before one goes on from it. -/
theorem normalise_join_normalise (hb : b.absolute = false) :
    (a.join b).normalise = (a.normalise.join b).normalise := by
  rw [normalise_join_of_relative hb, normalise_join_of_relative hb, normalise_normalise]
  rfl

/-- The text of a path with a slash and a second text behind it. -/
theorem ofText_append {s t : String} (hs : s ≠ "") (ht : (ofText t).absolute = false) :
    ofText (s ++ "/" ++ t) = (ofText s).join (ofText t) := by
  have hlist : (s ++ "/" ++ t).toList = s.toList ++ '/' :: t.toList := by simp
  have hhead : (s ++ "/" ++ t).toList.head? = s.toList.head? := by
    rw [hlist]
    cases hcs : s.toList with
    | nil => exact absurd (String.toList_inj.mp hcs) hs
    | cons c cs => rfl
  have hsegments : Text.segments '/' (s ++ "/" ++ t) =
      Text.segments '/' s ++ Text.segments '/' t := by
    rw [Text.segments, hlist, Text.pieces_append, List.map_append]
    rfl
  rw [join, ht, ofText, hhead, hsegments, List.filter_append]
  rfl

/-- Normalising is compositional: the way from a path by relative parts may be normalised at its
start, and as often as one likes. What is left are names, and `..` at the root stays there. Hence a
specifier denotes the same module for every spelling of the directory. -/
theorem normalise_join (a b : Path) (hb : b.absolute = false) :
    (a.join b).normalise = (a.normalise.join b).normalise ∧
    a.normalise.normalise = a.normalise ∧
    (∀ part ∈ a.normalise.parts, part ≠ "." ∧ part ≠ "..") ∧
    (a.absolute = true → a.normalise.absolute = true ∧ (a.normalise.parts = [] →
      (a.join ⟨false, ".." :: b.parts⟩).normalise = (a.join b).normalise)) ∧
    (∀ s t : String, s ≠ "" → (ofText t).absolute = false →
      (ofText (s ++ "/" ++ t)).normalise = ((ofText s).normalise.join (ofText t)).normalise) ∧
    ∀ (files : FileTree) (s : String),
      Specifier.resolve files a s = Specifier.resolve files a.normalise s := by
  refine ⟨normalise_join_normalise hb, normalise_normalise a,
    fun part h => isName_of_mem_normalise h, fun ha => ⟨ha, fun hroot => ?_⟩, ?_, ?_⟩
  · rw [normalise_join_of_relative hb, normalise_join_of_relative rfl, hroot]
    rfl
  · intro s t hs ht
    rw [ofText_append hs ht, normalise_join_normalise ht]
  · intro files s
    unfold Specifier.resolve
    cases hs : (ofText s).absolute with
    | true =>
      rw [join, join, hs]
      rfl
    | false => rw [normalise_join_normalise hs]

/-- From `/p/src/..`, written with dots, the path `../../lib/./x` leads through the root. -/
theorem normalise_join_spelled :
    ((ofText "/p/./src/..").join (ofText "../../lib/./x")).normalise = ofText "/lib/x" ∧
    (ofText "/p/./src/..").normalise = ofText "/p" := by
  have h := (normalise_join (ofText "/p/./src/..") (ofText "../../lib/./x") (by decide)).1
  exact ⟨h.trans (by decide), by decide⟩

end Path

end CodeConcepts
