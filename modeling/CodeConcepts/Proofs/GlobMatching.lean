import CodeConcepts.Glob.Match
import CodeConcepts.Proofs.ByteOrder
import Mathlib.Data.List.Infix

/-!
# What patterns match

A pattern is matched by handing on what is left of a text from piece to piece. What a piece leaves
behind depends only on what it takes away (`mem_left`), so a list of pieces matches a text if the
text can be cut into parts that the pieces stand for, one by one (`mem_leftOfAll_append`).

A pattern without stars is read alike with `/` and with `/**` behind it, but for the last piece
(`pieces?_directory`). So with `/**` it matches exactly the texts that begin with a directory which
it matches with `/`, and a slash (`accepts_below`).
-/

namespace CodeConcepts.Glob

variable {ps : List Piece} {crossing : Bool} {path : String}

/-! ## Ends -/

theorem mem_ends {bs r : List UInt8} : r ∈ ends bs ↔ ∃ u, bs = u ++ r := by
  induction bs with
  | nil => simp [ends]
  | cons b bs ih =>
    rw [ends, List.mem_cons, ih]
    constructor
    · rintro (rfl | ⟨u, rfl⟩)
      · exact ⟨[], rfl⟩
      · exact ⟨b :: u, rfl⟩
    · rintro ⟨u, hu⟩
      cases u with
      | nil => exact .inl hu.symm
      | cons c u => exact .inr ⟨u, (List.cons.inj hu).2⟩

theorem mem_endsBehindSlash {bs r : List UInt8} :
    r ∈ endsBehindSlash bs ↔ ∃ u, bs = u ++ slash :: r := by
  induction bs with
  | nil => simp [endsBehindSlash]
  | cons b bs ih =>
    have hstep : (∃ u, b :: bs = u ++ slash :: r) ↔
        (b = slash ∧ bs = r) ∨ ∃ u, bs = u ++ slash :: r := by
      constructor
      · rintro ⟨u, hu⟩
        cases u with
        | nil => exact .inl (List.cons.inj hu)
        | cons c u => exact .inr ⟨u, (List.cons.inj hu).2⟩
      · rintro (⟨rfl, rfl⟩ | ⟨u, rfl⟩)
        · exact ⟨[], rfl⟩
        · exact ⟨b :: u, rfl⟩
    rw [endsBehindSlash, hstep]
    split
    · next hb => rw [List.mem_cons, ih]; simp [hb, eq_comm]
    · next hb => rw [ih]; simp [hb]

theorem mem_endsWithinName {bs r : List UInt8} :
    r ∈ endsWithinName bs ↔ ∃ u, bs = u ++ r ∧ slash ∉ u := by
  induction bs with
  | nil => simp [endsWithinName]
  | cons b bs ih =>
    rw [endsWithinName]
    split
    · next hb =>
      subst hb
      rw [List.mem_singleton]
      constructor
      · rintro rfl
        exact ⟨[], rfl, List.not_mem_nil⟩
      · rintro ⟨u, hu, hslash⟩
        cases u with
        | nil => exact hu.symm
        | cons c u => exact absurd (List.mem_cons.mpr (.inl (List.cons.inj hu).1)) hslash
    · next hb =>
      rw [List.mem_cons, ih]
      constructor
      · rintro (rfl | ⟨u, rfl, hslash⟩)
        · exact ⟨[], rfl, List.not_mem_nil⟩
        · exact ⟨b :: u, rfl, by simp [Ne.symm hb, hslash]⟩
      · rintro ⟨u, hu, hslash⟩
        cases u with
        | nil => exact .inl hu.symm
        | cons c u =>
          exact .inr ⟨u, (List.cons.inj hu).2, fun h => hslash (List.mem_cons_of_mem c h)⟩

theorem mem_behind {start bs r : List UInt8} : r ∈ behind start bs ↔ bs = start ++ r := by
  fun_induction behind start bs with
  | case1 => simp [eq_comm]
  | case2 => simp
  | case3 ss b bs ih => simp [ih]
  | case4 s ss b bs h => simp [Ne.symm h]

/-! ## Pieces -/

theorem mem_leftOfAll {rests : List (List UInt8)} {r : List UInt8} :
    r ∈ leftOfAll crossing rests ps ↔ ∃ bs ∈ rests, r ∈ leftOfAll crossing [bs] ps := by
  induction ps generalizing rests with
  | nil => simp [leftOfAll]
  | cons p ps ih =>
    simp only [leftOfAll]
    rw [ih]
    simp only [List.mem_eraseDups, List.mem_flatMap]
    constructor
    · rintro ⟨mid, ⟨bs, hbs, hmid⟩, hr⟩
      exact ⟨bs, hbs, ih.mpr ⟨mid, by simpa using hmid, hr⟩⟩
    · rintro ⟨bs, hbs, hr⟩
      obtain ⟨mid, hmid, hr⟩ := ih.mp hr
      exact ⟨mid, ⟨bs, hbs, by simpa using hmid⟩, hr⟩

theorem mem_leftOfAll_cons {p : Piece} {bs r : List UInt8} :
    r ∈ leftOfAll crossing [bs] (p :: ps) ↔
      ∃ mid ∈ p.left crossing bs, r ∈ leftOfAll crossing [mid] ps := by
  rw [leftOfAll, mem_leftOfAll]
  simp

/-- What a list of pieces leaves is handed on to the next pieces. -/
theorem mem_leftOfAll_append {qs : List Piece} {bs r : List UInt8} :
    r ∈ leftOfAll crossing [bs] (ps ++ qs) ↔
      ∃ mid ∈ leftOfAll crossing [bs] ps, r ∈ leftOfAll crossing [mid] qs := by
  induction ps generalizing bs with
  | nil => simp [leftOfAll]
  | cons p ps ih =>
    rw [List.cons_append, mem_leftOfAll_cons]
    simp only [mem_leftOfAll_cons, ih]
    constructor
    · rintro ⟨first, hfirst, mid, hmid, hr⟩
      exact ⟨mid, ⟨first, hfirst, hmid⟩, hr⟩
    · rintro ⟨mid, ⟨first, hfirst, hmid⟩, hr⟩
      exact ⟨first, hfirst, mid, hmid, hr⟩

section Takes

variable {crossing negated : Bool} {ranges : List (Char × Char)} {bs r : List UInt8}

theorem mem_first {q : UInt8 → Bool} {b : UInt8} :
    r ∈ (if q b then [bs] else []) ↔ ∃ a, b :: bs = a :: r ∧ q a = true := by
  constructor
  · intro h
    split at h
    · next hb => exact ⟨b, by rw [List.mem_singleton.mp h], hb⟩
    · exact absurd h List.not_mem_nil
  · rintro ⟨a, he, ha⟩
    obtain ⟨rfl, rfl⟩ := List.cons.inj he
    rw [if_pos ha]
    exact List.mem_singleton_self _

theorem mem_left_one : r ∈ Piece.left crossing bs .one ↔
    ∃ b, bs = b :: r ∧ (crossing || b ≠ slash) = true := by
  cases bs with
  | nil => simp [Piece.left]
  | cons b bs => exact mem_first (q := fun b => crossing || b ≠ slash)

theorem mem_left_oneOf : r ∈ Piece.left crossing bs (.oneOf negated ranges) ↔
    ∃ b, bs = b :: r ∧ (holds negated ranges b && (crossing || b ≠ slash)) = true := by
  cases bs with
  | nil => simp [Piece.left]
  | cons b bs => exact mem_first (q := fun b => holds negated ranges b && (crossing || b ≠ slash))

theorem mem_left_leading : r ∈ Piece.left crossing bs .leading ↔
    bs = r ∨ ∃ u, bs = u ++ slash :: r := by
  simp only [Piece.left]
  rw [List.mem_cons, mem_endsBehindSlash, eq_comm]

theorem mem_left_trailing : r ∈ Piece.left crossing bs .trailing ↔ ∃ u, bs = slash :: (u ++ r) := by
  cases bs with
  | nil => simp [Piece.left]
  | cons b bs =>
    simp only [Piece.left]
    split
    · next hb => rw [mem_ends]; simp [hb]
    · next hb => simp [hb]

theorem mem_left_between : r ∈ Piece.left crossing bs .between ↔
    bs = slash :: r ∨ ∃ u, bs = slash :: (u ++ slash :: r) := by
  cases bs with
  | nil => simp [Piece.left]
  | cons b bs =>
    simp only [Piece.left]
    split
    · next hb => rw [List.mem_cons, mem_endsBehindSlash]; simp [hb, eq_comm]
    · next hb => simp [hb]

end Takes

mutual

/-- What a piece leaves depends only on what it takes. -/
theorem mem_left (crossing : Bool) : ∀ (p : Piece) (bs r : List UInt8),
    r ∈ p.left crossing bs ↔ ∃ u, bs = u ++ r ∧ [] ∈ p.left crossing u
  | .literal c, bs, r => by simp [Piece.left, mem_behind]
  | .one, bs, r => by
    simp only [mem_left_one]
    constructor
    · rintro ⟨b, rfl, hb⟩
      exact ⟨[b], rfl, b, rfl, hb⟩
    · rintro ⟨u, rfl, b, rfl, hb⟩
      exact ⟨b, rfl, hb⟩
  | .many, bs, r => by
    cases crossing with
    | true => simp [Piece.left, mem_ends]
    | false => simp [Piece.left, mem_endsWithinName]
  | .leading, bs, r => by
    simp only [mem_left_leading]
    constructor
    · rintro (rfl | ⟨u, rfl⟩)
      · exact ⟨[], rfl, .inl rfl⟩
      · exact ⟨u ++ [slash], by simp, .inr ⟨u, rfl⟩⟩
    · rintro ⟨_, rfl, rfl | ⟨u, rfl⟩⟩
      · exact .inl rfl
      · exact .inr ⟨u, by simp⟩
  | .trailing, bs, r => by
    simp only [mem_left_trailing]
    constructor
    · rintro ⟨u, rfl⟩
      exact ⟨slash :: u, rfl, u, by simp⟩
    · rintro ⟨_, rfl, u, rfl⟩
      exact ⟨u, by simp⟩
  | .between, bs, r => by
    simp only [mem_left_between]
    constructor
    · rintro (rfl | ⟨u, rfl⟩)
      · exact ⟨[slash], rfl, .inl rfl⟩
      · exact ⟨slash :: (u ++ [slash]), by simp, .inr ⟨u, rfl⟩⟩
    · rintro ⟨_, rfl, rfl | ⟨u, rfl⟩⟩
      · exact .inl rfl
      · exact .inr ⟨u, by simp⟩
  | .oneOf negated ranges, bs, r => by
    simp only [mem_left_oneOf]
    constructor
    · rintro ⟨b, rfl, hb⟩
      exact ⟨[b], rfl, b, rfl, hb⟩
    · rintro ⟨u, rfl, b, rfl, hb⟩
      exact ⟨b, rfl, hb⟩
  | .alternatives branches, bs, r => by
    simp only [Piece.left]
    split
    · simp [eq_comm]
    · exact mem_leftOfAny crossing branches bs r

theorem mem_leftOfAll_iff (crossing : Bool) : ∀ (ps : List Piece) (bs r : List UInt8),
    r ∈ leftOfAll crossing [bs] ps ↔ ∃ u, bs = u ++ r ∧ [] ∈ leftOfAll crossing [u] ps
  | [], bs, r => by simp [leftOfAll, eq_comm]
  | p :: ps, bs, r => by
    simp only [mem_leftOfAll_cons]
    constructor
    · rintro ⟨mid, hmid, hr⟩
      obtain ⟨u, rfl, hu⟩ := (mem_left crossing p bs mid).mp hmid
      obtain ⟨v, rfl, hv⟩ := (mem_leftOfAll_iff crossing ps mid r).mp hr
      refine ⟨u ++ v, by simp, v, ?_, hv⟩
      exact (mem_left crossing p (u ++ v) v).mpr ⟨u, rfl, hu⟩
    · rintro ⟨w, rfl, mid, hmid, hr⟩
      obtain ⟨u, rfl, hu⟩ := (mem_left crossing p w mid).mp hmid
      refine ⟨mid ++ r, (mem_left crossing p _ _).mpr ⟨u, by simp, hu⟩, ?_⟩
      exact (mem_leftOfAll_iff crossing ps _ r).mpr ⟨mid, rfl, hr⟩

theorem mem_leftOfAny (crossing : Bool) : ∀ (branches : List (List Piece)) (bs r : List UInt8),
    r ∈ leftOfAny crossing bs branches ↔
      ∃ u, bs = u ++ r ∧ [] ∈ leftOfAny crossing u branches
  | [], bs, r => by simp [leftOfAny]
  | b :: branches, bs, r => by
    have hb (bs r : List UInt8) :
        r ∈ (if areVoid b then [] else leftOfAll crossing [bs] b) ↔
          ∃ u, bs = u ++ r ∧ [] ∈ (if areVoid b then [] else leftOfAll crossing [u] b) := by
      split
      · simp
      · exact mem_leftOfAll_iff crossing b bs r
    simp only [leftOfAny, List.mem_append]
    rw [hb, mem_leftOfAny crossing branches bs r, ← exists_or]
    exact exists_congr fun u => and_or_left.symm

end

/-! ## Reading a pattern for what lies below -/

theorem classRanges?_eq_none {first inRange : Bool} {ranges : List (Char × Char)} {cs : List Char}
    (h : ']' ∉ cs) : classRanges? first inRange ranges cs = none := by
  fun_induction classRanges? first inRange ranges cs with
  | case1 => rfl
  | case2 => simp_all
  | case3 _ _ _ _ _ _ _ ih => exact ih fun hmem => h (List.mem_cons_of_mem _ hmem)
  | case4 => rfl
  | case5 _ _ _ _ _ _ _ _ ih | case6 _ _ _ _ _ _ _ _ ih =>
    exact ih fun hmem => h (List.mem_cons_of_mem _ hmem)

/-- Text behind a class does not change it, and a class that does not end is not ended by text
without a bracket. -/
theorem classRanges?_append {tail : List Char} (htail : ']' ∉ tail) (first inRange : Bool)
    (ranges : List (Char × Char)) (cs : List Char) :
    classRanges? first inRange ranges (cs ++ tail) =
      (classRanges? first inRange ranges cs).map fun p => (p.1, p.2 ++ tail) := by
  fun_induction classRanges? first inRange ranges cs with
  | case1 => exact classRanges?_eq_none htail
  | case2 _ _ _ _ _ hend => rw [List.cons_append, classRanges?, if_pos hend]; rfl
  | case3 _ _ _ _ hend _ hrange ih =>
    rw [List.cons_append, classRanges?, if_neg hend, if_pos rfl, hrange]
    exact ih
  | case4 _ _ _ _ hend hrange =>
    rw [List.cons_append, classRanges?, if_neg hend, if_pos rfl, hrange]
    rfl
  | case5 _ _ _ _ _ hend hrange hdash ih =>
    rw [List.cons_append, classRanges?, if_neg hend, if_neg hrange, if_pos hdash]
    exact ih
  | case6 _ _ _ _ _ hend hrange hdash ih =>
    rw [List.cons_append, classRanges?, if_neg hend, if_neg hrange, if_neg hdash]
    exact ih

theorem suffix_classRanges? {first inRange : Bool} {ranges rs : List (Char × Char)}
    {cs rest : List Char} (h : classRanges? first inRange ranges cs = some (rs, rest)) :
    rest <:+ cs := by
  fun_induction classRanges? first inRange ranges cs with
  | case1 => cases h
  | case2 => cases h; exact List.suffix_cons _ _
  | case3 _ _ _ _ _ _ _ ih => exact (ih h).trans (List.suffix_cons _ _)
  | case4 => cases h
  | case5 _ _ _ _ _ _ _ _ ih | case6 _ _ _ _ _ _ _ _ ih => exact (ih h).trans (List.suffix_cons _ _)

theorem class?_append {tail : List Char} (htail : ']' ∉ tail) (cs : List Char) :
    class? (cs ++ tail) = (class? cs).map fun p => (p.1, p.2 ++ tail) := by
  have hranges (negated : Bool) (cs : List Char) :
      ((classRanges? true false [] (cs ++ tail)).map fun p => (Piece.oneOf negated p.1, p.2)) =
        ((classRanges? true false [] cs).map fun p => (Piece.oneOf negated p.1, p.2)).map
          fun p => (p.1, p.2 ++ tail) := by
    rw [classRanges?_append htail, Option.map_map, Option.map_map]
    rfl
  cases cs with
  | nil =>
    rw [List.nil_append]
    unfold class?
    split
    · rw [classRanges?_eq_none fun h => htail (List.mem_cons_of_mem _ h)]
      rfl
    · rw [classRanges?_eq_none fun h => htail (List.mem_cons_of_mem _ h)]
      rfl
    · rw [classRanges?_eq_none htail]
      rfl
  | cons c cs =>
    by_cases hbang : c = '!'
    · subst hbang
      exact hranges true cs
    · by_cases hcaret : c = '^'
      · subst hcaret
        exact hranges true cs
      · have hplain (ds : List Char) : class? (c :: ds) =
            (classRanges? true false [] (c :: ds)).map fun p => (.oneOf false p.1, p.2) := by
          unfold class?
          split
          · next h => exact absurd (List.cons.inj h).1 hbang
          · next h => exact absurd (List.cons.inj h).1 hcaret
          · rfl
        rw [List.cons_append, hplain, hplain]
        exact hranges false (c :: cs)

theorem suffix_class? {cs rest : List Char} {p : Piece} (h : class? cs = some (p, rest)) :
    rest <:+ cs := by
  unfold class? at h
  split at h
  · obtain ⟨⟨rs, r⟩, hr, e⟩ := Option.map_eq_some_iff.1 h
    cases e
    exact (suffix_classRanges? hr).trans (List.suffix_cons _ _)
  · obtain ⟨⟨rs, r⟩, hr, e⟩ := Option.map_eq_some_iff.1 h
    cases e
    exact (suffix_classRanges? hr).trans (List.suffix_cons _ _)
  · obtain ⟨⟨rs, r⟩, hr, e⟩ := Option.map_eq_some_iff.1 h
    cases e
    exact suffix_classRanges? hr

/-- Characters that mean something wherever they stand in a pattern. A comma does so in braces. -/
def special : List Char := ['?', '*', '[', '{', '}', '\\']

theorem pieces?_plain {c : Char} (h : c ∉ special) (last : Option Char) (done : List Piece)
    {groups : List Group} (hcomma : c ≠ ',' ∨ groups = []) (cs : List Char) :
    pieces? last done groups (c :: cs) = pieces? (some c) (.literal c :: done) groups cs := by
  simp only [special, List.mem_cons, List.not_mem_nil, or_false, not_or] at h
  obtain ⟨hone, hmany, hclass, hopen, hclose, hescape⟩ := h
  by_cases hc : c = ','
  · obtain rfl := hcomma.resolve_left (not_not_intro hc)
    subst hc
    rw [pieces?]
  · rw [pieces?]
    all_goals simp_all

/-- How a pattern for a directory may end, with the piece that is read there: a slash for the
directory itself, and `/**` for what lies in it. -/
def directoryEnds : List (List Char × Piece) :=
  [(['/'], .literal '/'), (['/', '*', '*'], .trailing)]

theorem pieces?_directoryEnd (last : Option Char) (done : List Piece) (groups : List Group) :
    ∀ e ∈ directoryEnds, pieces? last done groups e.1 =
      if groups.isEmpty then some (done.reverse ++ [e.2]) else none := by
  have hstars : stars (some '/') (.literal '/' :: done) groups [] =
      (some '*', .trailing :: done, []) := rfl
  refine List.forall_mem_cons.mpr ⟨?_, List.forall_mem_singleton.mpr ?_⟩
  · rw [pieces?_plain (by decide) _ _ (.inl (by decide)), pieces?, List.reverse_cons]
  · rw [pieces?_plain (by decide) _ _ (.inl (by decide)), pieces?, hstars, pieces?,
      List.reverse_cons]

/-- A pattern without stars is read in the same way whether it stands for a directory or for what
lies in it; a backslash at its end takes the slash, which stays a slash. -/
theorem pieces?_directory (last : Option Char) (done : List Piece) (groups : List Group)
    {cs : List Char} (hstar : '*' ∉ cs) :
    ∃ front : Option (List Piece), ∀ e ∈ directoryEnds,
      pieces? last done groups (cs ++ e.1) = front.map (· ++ [e.2]) := by
  have hends : ∀ e ∈ directoryEnds, ']' ∉ e.1 := by decide
  have hrest {c : Char} {ds : List Char} (h : '*' ∉ c :: ds) : '*' ∉ ds :=
    fun hmem => h (List.mem_cons_of_mem _ hmem)
  fun_induction pieces? last done groups cs with
  | case1 last done groups hgroups =>
    refine ⟨some done.reverse, fun e he => ?_⟩
    rw [List.nil_append, pieces?_directoryEnd last done groups e he, if_pos hgroups]
    rfl
  | case2 last done groups hgroups =>
    refine ⟨none, fun e he => ?_⟩
    rw [List.nil_append, pieces?_directoryEnd last done groups e he, if_neg hgroups]
    rfl
  | case3 _ _ _ cs ih =>
    obtain ⟨front, hfront⟩ := ih (hrest hstar)
    exact ⟨front, fun e he => by rw [List.cons_append, pieces?, hfront e he]⟩
  | case4 | case5 => exact absurd List.mem_cons_self hstar
  | case6 _ _ _ cs p rest hclass _ ih =>
    obtain ⟨front, hfront⟩ := ih fun hmem => hrest hstar ((suffix_class? hclass).subset hmem)
    refine ⟨front, fun e he => ?_⟩
    have hclass' : class? (cs ++ e.1) = some (p, rest ++ e.1) := by
      rw [class?_append (hends e he), hclass]
      rfl
    rw [List.cons_append, pieces?]
    split
    · next h =>
      cases hclass'.symm.trans h
      exact hfront e he
    · next h => cases hclass'.symm.trans h
  | case7 _ _ _ cs hclass =>
    refine ⟨none, fun e he => ?_⟩
    have hclass' : class? (cs ++ e.1) = none := by
      rw [class?_append (hends e he), hclass]
      rfl
    rw [List.cons_append, pieces?]
    split
    · next h => cases hclass'.symm.trans h
    · rfl
  | case8 _ _ _ cs ih =>
    obtain ⟨front, hfront⟩ := ih (hrest hstar)
    exact ⟨front, fun e he => by rw [List.cons_append, pieces?, hfront e he]⟩
  | case9 _ _ cs g gs ih =>
    obtain ⟨front, hfront⟩ := ih (hrest hstar)
    refine ⟨front, fun e he => ?_⟩
    rw [List.cons_append, pieces?, ← hfront e he]
    simp
  | case10 => exact ⟨none, fun e _ => by rw [List.cons_append, pieces?]; rfl⟩
  | case11 _ _ cs g gs ih =>
    obtain ⟨front, hfront⟩ := ih (hrest hstar)
    refine ⟨front, fun e he => ?_⟩
    rw [List.cons_append, pieces?, ← hfront e he]
    simp
  | case12 _ _ cs ih =>
    obtain ⟨front, hfront⟩ := ih (hrest hstar)
    exact ⟨front, fun e he => by rw [List.cons_append, pieces?, hfront e he]⟩
  | case13 last done groups =>
    refine ⟨if groups.isEmpty then some done.reverse else none, ?_⟩
    have hslash : stars (some '/') (.literal '/' :: done) groups [] =
        (some '*', .trailing :: done, []) := rfl
    refine List.forall_mem_cons.mpr ⟨?_, List.forall_mem_singleton.mpr ?_⟩
    · show pieces? last done groups ['\\', '/'] = _
      rw [pieces?, pieces?, List.reverse_cons]
      split <;> rfl
    · show pieces? last done groups ['\\', '/', '*', '*'] = _
      rw [pieces?, pieces?, hslash, pieces?, List.reverse_cons]
      split <;> rfl
  | case14 _ _ _ c cs ih =>
    obtain ⟨front, hfront⟩ := ih (hrest (hrest hstar))
    exact ⟨front, fun e he => by rw [List.cons_append, List.cons_append, pieces?, hfront e he]⟩
  | case15 last done groups c cs hone _ hmany hclass hopen hclose hcomma hlast hescape ih =>
    obtain ⟨front, hfront⟩ := ih (hrest hstar)
    have hbackslash : c ≠ '\\' := by
      rintro rfl
      cases cs with
      | nil => exact hlast rfl rfl
      | cons d ds => exact hescape d ds rfl rfl
    have hplain : c ∉ special := by
      simp only [special, List.mem_cons, List.not_mem_nil, or_false, not_or]
      exact ⟨hone, hmany, hclass, hopen, hclose, hbackslash⟩
    refine ⟨front, fun e he => ?_⟩
    rw [List.cons_append, pieces?_plain hplain _ _ (.inl hcomma), hfront e he]

/-! ## What lies below -/

theorem eq_slash_of_mem_encode {c : Char} (h : slash ∈ String.utf8EncodeChar c) : c = '/' := by
  have hc := Text.char_lt_bound c
  have hslash : slash = UInt8.ofNat 47 := rfl
  have hval : c.val.toNat = 47 := by
    unfold String.utf8EncodeChar at h
    generalize c.val.toNat = a at h hc
    rw [hslash] at h
    dsimp only at h
    repeat' split at h
    all_goals
      simp (disch := omega) only [List.mem_cons, List.not_mem_nil, or_false,
        Text.ofNat_eq_ofNat] at h
      omega
  exact Char.ext (UInt32.toNat_inj.mp hval)

/-- A slash among the bytes of a text is one of its characters. -/
theorem split_at_slash {u v : List UInt8} (h : Text.bytes path = u ++ slash :: v) :
    ∃ d rest : String, path = d ++ "/" ++ rest ∧ Text.bytes d = u := by
  have hchars : ∀ (cs : List Char) (u : List UInt8),
      cs.flatMap String.utf8EncodeChar = u ++ slash :: v →
        ∃ ds es, cs = ds ++ '/' :: es ∧ ds.flatMap String.utf8EncodeChar = u := by
    intro cs
    induction cs with
    | nil =>
      intro u hu
      simp at hu
    | cons c cs ih =>
      intro u hu
      rw [List.flatMap_cons] at hu
      rcases List.append_eq_append_iff.mp hu with ⟨mid, rfl, hmid⟩ | ⟨mid, hc, hmid⟩
      · obtain ⟨ds, es, rfl, rfl⟩ := ih mid hmid
        exact ⟨c :: ds, es, rfl, rfl⟩
      · cases mid with
        | nil =>
          obtain ⟨ds, es, rfl, hds⟩ := ih [] hmid.symm
          refine ⟨c :: ds, es, rfl, ?_⟩
          rw [List.flatMap_cons, hds, hc, List.append_nil, List.append_nil]
        | cons b mid =>
          obtain ⟨rfl, -⟩ := List.cons.inj hmid
          obtain rfl := eq_slash_of_mem_encode (c := c) (by rw [hc]; simp)
          -- a slash is encoded by one byte, so nothing is in front of it
          have hnil : u = [] := by
            have := congrArg List.length hc
            simp [String.utf8EncodeChar] at this
            exact List.length_eq_zero_iff.mp (by omega)
          exact ⟨[], cs, rfl, hnil.symm⟩
  rw [Text.bytes_eq_flatMap] at h
  obtain ⟨ds, es, hcs, hds⟩ := hchars path.toList u h
  refine ⟨String.ofList ds, String.ofList es, String.toList_injective ?_, ?_⟩
  · rw [hcs]
    simp
  · rw [Text.bytes_eq_flatMap, String.toList_ofList, hds]

theorem bytes_append (s t : String) : Text.bytes (s ++ t) = Text.bytes s ++ Text.bytes t := by
  simp [Text.bytes_eq_flatMap]

theorem accepts_directoryEnd {text : String} :
    ∀ e ∈ directoryEnds, (accepts false ⟨ps ++ [e.2]⟩ text = true ↔
      [] ∈ leftOfAll false [Text.bytes text] (ps ++ [e.2])) := by
  intro e he
  have hpiece : e.2 ≠ .leading ∧ endsInDot (ps ++ [e.2]) = false := by
    rcases List.mem_cons.mp he with rfl | he
    · exact ⟨nofun, by simp [endsInDot]⟩
    · obtain rfl := List.mem_singleton.mp he
      exact ⟨nofun, by simp [endsInDot]⟩
  unfold accepts
  split
  · next h =>
    have hlast := congrArg List.getLast? h
    simp at hlast
    exact absurd hlast hpiece.1
  · rw [hpiece.2, Bool.false_and, if_neg Bool.false_ne_true, List.contains_iff_mem]
    rfl

/-- Pieces and a slash match a directory, written with a slash at its end, if the pieces match its
name. -/
theorem accepts_slash {d : String} :
    accepts false ⟨ps ++ [.literal '/']⟩ (d ++ "/") = true ↔
      [] ∈ leftOfAll false [Text.bytes d] ps := by
  have hslash (bs : List UInt8) : [] ∈ leftOfAll false [bs] [.literal '/'] ↔ bs = [slash] := by
    rw [mem_leftOfAll_cons]
    simp only [Piece.left, mem_behind, leftOfAll]
    simp
    rfl
  rw [accepts_directoryEnd (['/'], .literal '/') List.mem_cons_self, mem_leftOfAll_append,
    bytes_append]
  simp only [hslash]
  constructor
  · rintro ⟨mid, hmid, rfl⟩
    obtain ⟨u, hu, hps⟩ := (mem_leftOfAll_iff false ps _ _).mp hmid
    rw [List.append_cancel_right hu]
    exact hps
  · intro hps
    exact ⟨[slash], (mem_leftOfAll_iff false ps _ _).mpr ⟨_, rfl, hps⟩, rfl⟩

theorem accepts_trailing :
    accepts false ⟨ps ++ [.trailing]⟩ path = true ↔
      ∃ d rest : String, path = d ++ "/" ++ rest ∧ [] ∈ leftOfAll false [Text.bytes d] ps := by
  rw [accepts_directoryEnd (['/', '*', '*'], .trailing) (List.mem_cons_of_mem _ List.mem_cons_self),
    mem_leftOfAll_append]
  constructor
  · rintro ⟨mid, hmid, hlast⟩
    obtain ⟨u, hu, hps⟩ := (mem_leftOfAll_iff false ps _ mid).mp hmid
    obtain ⟨rest, hrest, -⟩ := mem_leftOfAll_cons.mp hlast
    obtain ⟨v, rfl⟩ := mem_left_trailing.mp hrest
    obtain ⟨d, rest, rfl, rfl⟩ := split_at_slash hu
    exact ⟨d, rest, rfl, hps⟩
  · rintro ⟨d, rest, rfl, hps⟩
    refine ⟨slash :: Text.bytes rest, (mem_leftOfAll_iff false ps _ _).mpr ⟨_, ?_, hps⟩, ?_⟩
    · rw [bytes_append, bytes_append, List.append_assoc]
      rfl
    · refine mem_leftOfAll_cons.mpr ⟨[], mem_left_trailing.mpr ⟨Text.bytes rest, by simp⟩, ?_⟩
      exact List.mem_singleton_self _

/-- Whether a pattern stands for a directory, which is written with a slash at its end. -/
def MatchesDirectory (pattern d : String) : Prop :=
  ∃ g, parse? (pattern ++ "/") = some g ∧ g.accepts false (d ++ "/") = true

instance (pattern d : String) : Decidable (MatchesDirectory pattern d) :=
  decidable_of_iff ((parse? (pattern ++ "/")).any (·.accepts false (d ++ "/")) = true)
    (Option.any_eq_true _ _)

/-- A pattern without stars, followed by `/**`, matches exactly what lies in the directories that
the pattern stands for. -/
theorem accepts_below {pattern : String} (hstar : '*' ∉ pattern.toList) :
    (∃ g, parse? (pattern ++ "/**") = some g ∧ g.accepts false path = true) ↔
      ∃ d rest : String, path = d ++ "/" ++ rest ∧ MatchesDirectory pattern d := by
  obtain ⟨front, hfront⟩ := pieces?_directory none [] [] hstar
  have hparse (stop : String) : ∀ e ∈ directoryEnds, stop.toList = e.1 →
      parse? (pattern ++ stop) = front.map fun ps => ⟨ps ++ [e.2]⟩ := by
    intro e he hstop
    unfold parse?
    rw [String.toList_append, hstop, hfront e he, Option.map_map]
    rfl
  unfold MatchesDirectory
  rw [hparse "/" (['/'], .literal '/') List.mem_cons_self rfl,
    hparse "/**" (['/', '*', '*'], .trailing) (List.mem_cons_of_mem _ List.mem_cons_self) rfl]
  cases front with
  | none => simp
  | some ps => simp only [Option.map_some, Option.some.injEq, exists_eq_left', accepts_trailing,
      accepts_slash]

theorem pieces?_of_plain {cs : List Char} (h : ∀ c ∈ cs, c ∉ special) (last : Option Char)
    (done : List Piece) :
    pieces? last done [] cs = some (done.reverse ++ cs.map .literal) := by
  induction cs generalizing last done with
  | nil => simp [pieces?]
  | cons c cs ih =>
    obtain ⟨hc, hcs⟩ := List.forall_mem_cons.mp h
    rw [pieces?_plain hc _ _ (.inr rfl), ih hcs]
    simp

theorem mem_leftOfAll_literals {cs : List Char} {bs : List UInt8} :
    [] ∈ leftOfAll false [bs] (cs.map .literal) ↔ bs = cs.flatMap String.utf8EncodeChar := by
  induction cs generalizing bs with
  | nil => simp [leftOfAll, eq_comm]
  | cons c cs ih =>
    rw [List.map_cons, mem_leftOfAll_cons]
    simp only [Piece.left, mem_behind, ih]
    simp

/-- A pattern in which no character is special stands for itself. -/
theorem matchesDirectory_of_plain {pattern d : String} (h : ∀ c ∈ pattern.toList, c ∉ special) :
    MatchesDirectory pattern d ↔ d = pattern := by
  have hparse : parse? (pattern ++ "/") =
      some ⟨pattern.toList.map .literal ++ [.literal '/']⟩ := by
    have hplain : ∀ c ∈ pattern.toList ++ ['/'], c ∉ special := by
      intro c hc
      rcases List.mem_append.mp hc with hc | hc
      · exact h c hc
      · rw [List.mem_singleton.mp hc]
        decide
    unfold parse?
    rw [String.toList_append]
    show (pieces? none [] [] (pattern.toList ++ ['/'])).map Glob.mk = _
    rw [pieces?_of_plain hplain]
    simp
  unfold MatchesDirectory
  rw [hparse]
  simp only [Option.some.injEq, exists_eq_left', accepts_slash, mem_leftOfAll_literals]
  rw [← Text.bytes_eq_flatMap]
  constructor
  · intro hbytes
    exact String.toByteArray_inj.mp (ByteArray.ext (Array.toList_inj.mp hbytes))
  · rintro rfl
    rfl

end CodeConcepts.Glob
