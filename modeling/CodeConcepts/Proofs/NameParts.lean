import CodeConcepts.Proofs.ModulePaths

/-!
# Names taken apart

A name is built from a module path by nesting names in it, one after the other, and held as one
text. Each accessor reads its part out of this text again (`accessors_decode`): nesting names one
after the other is nesting their joined path (`foldl_child`), the first quote behind the opening one
ends the module path (`split?_nested`), and the first dot behind that ends the head of the nesting
path (`headSegment_join`, `afterFirst?_join`).

The module part is cut out at byte offsets. Whatever the text is, these are offsets of characters in
it (`exists_cut`).
-/

namespace CodeConcepts

namespace Text

variable {sep : Char}

theorem takeWhile_of_not_mem {p : List Char} (h : sep ∉ p) : p.takeWhile (· ≠ sep) = p := by
  rw [List.takeWhile_eq_self_iff]
  intro c hc
  exact decide_eq_true fun e => h (e ▸ hc)

theorem dropWhile_of_not_mem {p : List Char} (h : sep ∉ p) : p.dropWhile (· ≠ sep) = [] := by
  rw [List.dropWhile_eq_nil_iff]
  intro c hc
  exact decide_eq_true fun e => h (e ▸ hc)

theorem join_singleton (p : String) : join sep [p] = p := String.ofList_toList

theorem toList_join_cons (p : String) {ps : List String} (h : ps ≠ []) :
    (join sep (p :: ps)).toList = p.toList ++ sep :: (join sep ps).toList := by
  rw [join, join, String.toList_ofList, String.toList_ofList, List.map_cons,
    glue_cons sep _ (List.map_eq_nil_iff.not.mpr h)]

theorem headSegment_join {p : String} (h : sep ∉ p.toList) (ps : List String) :
    headSegment sep (join sep (p :: ps)) = p := by
  rw [headSegment]
  by_cases hps : ps = []
  · rw [hps, join_singleton, takeWhile_of_not_mem h, String.ofList_toList]
  · rw [toList_join_cons p hps, List.takeWhile_append_of_pos, List.takeWhile_cons_of_neg (by simp),
      List.append_nil, String.ofList_toList]
    intro c hc
    exact decide_eq_true fun e => h (e ▸ hc)

theorem afterFirst?_join {p : String} (h : sep ∉ p.toList) (ps : List String) :
    afterFirst? sep (join sep (p :: ps)) = if ps = [] then none else some (join sep ps) := by
  rw [afterFirst?]
  by_cases hps : ps = []
  · rw [hps, join_singleton, dropWhile_of_not_mem h, if_pos rfl]
  · rw [toList_join_cons p hps, List.dropWhile_append_of_pos, List.dropWhile_cons_of_neg (by simp),
      if_neg hps]
    · exact congrArg some String.ofList_toList
    · intro c hc
      exact decide_eq_true fun e => h (e ▸ hc)

end Text

namespace QName

variable {n : QName} {path : String} {names : List String}

/-- To nest names one after the other is to nest the path of them. -/
theorem foldl_child (n : QName) (h : names ≠ []) :
    names.foldl child n = n.child (Text.join '.' names) := by
  induction names generalizing n with
  | nil => exact absurd rfl h
  | cons name names ih =>
    by_cases hnames : names = []
    · rw [hnames, Text.join_singleton]
      rfl
    · rw [List.foldl_cons, ih (n.child name) hnames]
      refine congrArg QName.mk (String.toList_inj.mp ?_)
      simp [child, Text.toList_join_cons name hnames]

/-- The name of what is nested in a module under some names, the outermost first. -/
def nested (path : String) (names : List String) : QName := names.foldl child (ofModule path)

section Nested

variable (hpath : Plain path.toList)

include hpath

theorem split?_nested (hne : names ≠ []) :
    (nested path names).split? = some (path.toList, '.' :: (Text.join '.' names).toList) := by
  rw [nested, foldl_child _ hne, split?_child (split?_ofModule hpath)]
  rfl

theorem modulePath?_nested (names : List String) : (nested path names).modulePath? = some path := by
  rw [modulePath?]
  by_cases hnil : names = []
  · subst hnil
    rw [nested, List.foldl_nil, split?_ofModule hpath]
    exact congrArg some String.ofList_toList
  · rw [split?_nested hpath hnil]
    exact congrArg some String.ofList_toList

theorem moduleName?_nested (names : List String) :
    (nested path names).moduleName? = some (ofModule path) := by
  rw [moduleName?, modulePath?_nested hpath]
  rfl

theorem memberPath?_nested (hne : names ≠ []) :
    (nested path names).memberPath? = some (Text.join '.' names) := by
  rw [memberPath?, split?_nested hpath hne]
  exact congrArg some String.ofList_toList

variable {first : String} (hfirst : '.' ∉ first.toList) (rest : List String)

include hfirst

theorem headMember?_nested : (nested path (first :: rest)).headMember? = some first := by
  rw [headMember?, memberPath?_nested hpath (List.cons_ne_nil _ _), Option.map_some,
    Text.headSegment_join hfirst]

theorem withHead_nested (target : QName) :
    (nested path (first :: rest)).withHead target = rest.foldl child target := by
  rw [withHead, memberPath?_nested hpath (List.cons_ne_nil _ _), Option.bind_some,
    Text.afterFirst?_join hfirst]
  by_cases hrest : rest = []
  · rw [if_pos hrest, hrest]
    rfl
  · rw [if_neg hrest, foldl_child target hrest]

end Nested

/-- Where the module part of a text is cut out, in bytes: behind the opening quote, in front of the
closing one and behind it. These are offsets of characters. The nesting path is read from what is
left, and nothing is left just for the name of a module. -/
structure Cut (n : QName) (path rest : String) : Prop where
  text : n.text = "\"" ++ (path ++ ("\"" ++ rest))
  inside : String.Pos.Raw.IsValid (path ++ ("\"" ++ rest)) ⟨path.utf8ByteSize⟩
  behind : String.Pos.Raw.IsValid n.text ⟨path.utf8ByteSize + 2⟩
  members : n.memberPath? = (Text.afterStart? ['.'] rest.toList).map String.ofList
  whole : n.isModule = true ↔ path.utf8ByteSize + 2 = n.text.utf8ByteSize

theorem exists_cut (h : n.modulePath? = some path) : ∃ rest, n.Cut path rest := by
  obtain ⟨⟨cs, rest⟩, hsplit, hpath⟩ := Option.map_eq_some_iff.mp h
  obtain rfl : String.ofList cs = path := hpath
  have htext : n.text = "\"" ++ (String.ofList cs ++ ("\"" ++ String.ofList rest)) := by
    refine String.toList_inj.mp ?_
    simpa using (split?_eq_some.mp hsplit).1
  have hquote : "\"".utf8ByteSize = 1 := by decide
  refine ⟨String.ofList rest, htext, ?_, ?_, ?_, ?_⟩
  · exact String.Pos.Raw.isValid_iff_exists_append.mpr ⟨_, _, rfl, rfl⟩
  · refine String.Pos.Raw.isValid_iff_exists_append.mpr
      ⟨"\"" ++ (String.ofList cs ++ "\""), String.ofList rest, ?_, ?_⟩
    · rw [htext, String.append_assoc, String.append_assoc]
    · rw [String.Pos.Raw.ext_iff, String.byteIdx_rawEndPos, String.utf8ByteSize_append,
        String.utf8ByteSize_append, hquote]
      exact Nat.add_comm _ 1 ▸ rfl
  · rw [memberPath?, hsplit, String.toList_ofList]
    cases rest with
    | nil => rfl
    | cons c rest =>
      by_cases hc : '.' = c
      · subst hc
        rfl
      · rw [Text.afterStart?, if_neg hc]
        simp [Ne.symm hc]
  · have hsize : n.text.utf8ByteSize =
        (String.ofList cs).utf8ByteSize + 2 + (String.ofList rest).utf8ByteSize := by
      rw [htext, String.utf8ByteSize_append, String.utf8ByteSize_append, String.utf8ByteSize_append,
        hquote]
      omega
    rw [hsize, isModule, hsplit, Nat.left_eq_add, String.utf8ByteSize_eq_zero_iff]
    cases rest with
    | nil => simp
    | cons c rest => simp [← String.toList_inj]

/-- Each part of a name comes back as it went in, and what is nested below the head of a name is
nested below any other name in its place. Of no text is a part cut out outside of the text or inside
of a character. -/
theorem accessors_decode (hpath : Plain path.toList) (hnames : ∀ name ∈ names, '.' ∉ name.toList)
    (target : QName) :
    (nested path names).modulePath? = some path ∧
    (nested path names).moduleName? = some (ofModule path) ∧
    ((nested path names).isModule = true ↔ names = []) ∧
    (nested path names).memberPath? = (if names = [] then none else some (Text.join '.' names)) ∧
    (nested path names).headMember? = names.head? ∧
    (∀ first rest, names = first :: rest →
      (nested path names).withHead target = rest.foldl child target ∧
      (nested path names).withHead ((ofModule path).child first) = nested path names) ∧
    ∀ (raw : QName) (p : String), raw.modulePath? = some p → ∃ rest, raw.Cut p rest := by
  refine ⟨modulePath?_nested hpath names, moduleName?_nested hpath names, ?_, ?_, ?_, ?_,
    fun raw p h => exists_cut h⟩
  · by_cases hnil : names = []
    · subst hnil
      rw [isModule, nested, List.foldl_nil, split?_ofModule hpath]
      simp
    · rw [isModule, split?_nested hpath hnil]
      simp [hnil]
  · by_cases hnil : names = []
    · subst hnil
      rw [if_pos rfl, memberPath?, nested, List.foldl_nil, split?_ofModule hpath]
    · rw [if_neg hnil, memberPath?_nested hpath hnil]
  · cases names with
    | nil =>
      rw [headMember?, memberPath?, nested, List.foldl_nil, split?_ofModule hpath]
      rfl
    | cons first rest => exact headMember?_nested hpath (hnames first List.mem_cons_self) rest
  · rintro first rest rfl
    have hfirst := hnames first List.mem_cons_self
    exact ⟨withHead_nested hpath hfirst rest target, withHead_nested hpath hfirst rest _⟩

/-- A name may hold quotes, and more than one byte for a character. -/
theorem accessors_decode_quotes :
    let f := nested "./src/größe.ts" ["\"a\"", "ß", "c"]
    f.text = "\"./src/größe.ts\".\"a\".ß.c" ∧ f.modulePath? = some "./src/größe.ts" ∧
      f.memberPath? = some "\"a\".ß.c" ∧ f.withHead ⟨"x"⟩ = ⟨"x.ß.c"⟩ := by
  have hpath : Plain "./src/größe.ts".toList := by decide
  have hnames : ∀ name ∈ ["\"a\"", "ß", "c"], '.' ∉ name.toList := by decide
  obtain ⟨hmodule, -, -, hmembers, -, hreplace, -⟩ := accessors_decode hpath hnames ⟨"x"⟩
  exact ⟨by decide, hmodule, hmembers, (hreplace _ _ rfl).1⟩

end QName

end CodeConcepts
