/-!
# Segments

Cutting a text at every occurrence of a separator and joining the pieces again. `join_segments`
says that nothing is lost, and `segments_join` that pieces free of the separator come back as they
went in.
-/

namespace CodeConcepts.Text

/-- The pieces between the occurrences of `sep`; there is always at least one. -/
def pieces (sep : Char) : List Char → List (List Char)
  | [] => [[]]
  | c :: cs =>
    if c = sep then [] :: pieces sep cs
    else
      match pieces sep cs with
      | [] => [[c]]
      | p :: ps => (c :: p) :: ps

/-- The pieces with `sep` between them. -/
def glue (sep : Char) : List (List Char) → List Char
  | [] => []
  | [p] => p
  | p :: ps => p ++ sep :: glue sep ps

theorem pieces_ne_nil (sep : Char) (cs : List Char) : pieces sep cs ≠ [] := by
  cases cs with
  | nil => simp [pieces]
  | cons c cs =>
    simp only [pieces]
    split
    · simp
    · split <;> simp

theorem glue_cons (sep : Char) (p : List Char) {ps : List (List Char)} (h : ps ≠ []) :
    glue sep (p :: ps) = p ++ sep :: glue sep ps := by
  cases ps with
  | nil => exact absurd rfl h
  | cons q qs => rfl

/-- Gluing the pieces of a text gives the text back. -/
theorem glue_pieces (sep : Char) (cs : List Char) : glue sep (pieces sep cs) = cs := by
  induction cs with
  | nil => rfl
  | cons c cs ih =>
    simp only [pieces]
    split
    · next h => rw [glue_cons sep [] (pieces_ne_nil sep cs), ih, h]; rfl
    · next h =>
      split
      · next hp => exact absurd hp (pieces_ne_nil sep cs)
      · next p ps hp =>
        rw [hp] at ih
        cases ps with
        | nil => simpa [glue] using ih
        | cons q qs =>
          rw [glue_cons sep _ (by simp)] at ih ⊢
          simp [← ih]

/-- A piece without the separator stays whole. -/
theorem pieces_of_not_mem {sep : Char} {p : List Char} (h : sep ∉ p) : pieces sep p = [p] := by
  induction p with
  | nil => rfl
  | cons c cs ih =>
    have hc : c ≠ sep := fun e => h (by simp [e])
    have hcs : sep ∉ cs := fun m => h (List.mem_cons_of_mem _ m)
    simp [pieces, hc, ih hcs]

/-- A piece without the separator is cut off at the separator that follows it. -/
theorem pieces_append_sep {sep : Char} {p : List Char} (h : sep ∉ p) (cs : List Char) :
    pieces sep (p ++ sep :: cs) = p :: pieces sep cs := by
  induction p with
  | nil => simp [pieces]
  | cons c p ih =>
    have hc : c ≠ sep := fun e => h (by simp [e])
    have hp : sep ∉ p := fun m => h (List.mem_cons_of_mem _ m)
    simp [pieces, hc, ih hp]

/-- A separator cuts a text in two. -/
theorem pieces_append (sep : Char) (cs ds : List Char) :
    pieces sep (cs ++ sep :: ds) = pieces sep cs ++ pieces sep ds := by
  induction cs with
  | nil => simp [pieces]
  | cons c cs ih =>
    rw [List.cons_append, pieces, pieces]
    split
    · rw [ih, List.cons_append]
    · cases hp : pieces sep cs with
      | nil => exact absurd hp (pieces_ne_nil sep cs)
      | cons p ps => rw [ih, hp, List.cons_append, List.cons_append]

/-- Pieces free of the separator come back as they went in. -/
theorem pieces_glue {sep : Char} {ps : List (List Char)} (hne : ps ≠ [])
    (h : ∀ p ∈ ps, sep ∉ p) : pieces sep (glue sep ps) = ps := by
  induction ps with
  | nil => exact absurd rfl hne
  | cons p ps ih =>
    have hp : sep ∉ p := h p (by simp)
    cases ps with
    | nil => simpa [glue] using pieces_of_not_mem hp
    | cons q qs =>
      rw [glue_cons sep p (by simp), pieces_append_sep hp,
        ih (by simp) (fun r hr => h r (List.mem_cons_of_mem _ hr))]

/-- The segments of a text between the occurrences of `sep`. -/
def segments (sep : Char) (s : String) : List String :=
  (pieces sep s.toList).map String.ofList

/-- The segments joined by `sep`. -/
def join (sep : Char) (ps : List String) : String :=
  String.ofList (glue sep (ps.map String.toList))

/-- Joining the segments of a text gives the text back. -/
theorem join_segments (sep : Char) (s : String) : join sep (segments sep s) = s := by
  simp [join, segments, Function.comp_def, glue_pieces]

/-- Segments free of the separator come back as they went in. -/
theorem segments_join {sep : Char} {ps : List String} (hne : ps ≠ [])
    (h : ∀ p ∈ ps, sep ∉ p.toList) : segments sep (join sep ps) = ps := by
  have hp : pieces sep (glue sep (ps.map String.toList)) = ps.map String.toList :=
    pieces_glue (by simpa using hne) (by simpa using h)
  simp [join, segments, hp, Function.comp_def]

/-- The part before the first occurrence of `sep`. -/
def headSegment (sep : Char) (s : String) : String :=
  String.ofList (s.toList.takeWhile (· ≠ sep))

/-- The part after the first occurrence of `sep`, if there is one. -/
def afterFirst? (sep : Char) (s : String) : Option String :=
  match s.toList.dropWhile (· ≠ sep) with
  | [] => none
  | _ :: rest => some (String.ofList rest)

end CodeConcepts.Text
