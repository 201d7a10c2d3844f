import CodeConcepts.Proofs.ModulePaths

/-!
# Names relative to a root

`QName.rebase` writes the module path of a name relative to a root. Three kinds of paths meet in one
space of texts: paths below the root (`./…`), other absolute paths (`../…`), and the names of
packages, which are left alone.

* A relative path is made of the parts of the path and of dots (`relativePath?_glue`), so it has no
  character that would end it (`mem_relativePath?`), and it is not absolute (`head?_relativePath?`).
  Hence a second rebasing changes nothing (`rebase_rebase`).
* The dots in front of a relative path tell how much of the root was left, and so the path can be
  recovered (`relativeParts_injective`). Names that are well formed therefore stay apart
  (`rebase_keeps_apart`).
-/

namespace CodeConcepts

variable {path root relative p : List Char} {ps : List (List Char)} {sep c : Char}

/-! ## Pieces -/

namespace Text

theorem mem_glue (h : c ∈ glue sep ps) : c = sep ∨ ∃ p ∈ ps, c ∈ p := by
  induction ps with
  | nil => exact absurd h List.not_mem_nil
  | cons p ps ih =>
    by_cases hps : ps = []
    · subst hps
      exact .inr ⟨p, List.mem_cons_self, h⟩
    · rw [glue_cons sep p hps, List.mem_append, List.mem_cons] at h
      rcases h with h | rfl | h
      · exact .inr ⟨p, List.mem_cons_self, h⟩
      · exact .inl rfl
      · rcases ih h with rfl | ⟨q, hq, hc⟩
        · exact .inl rfl
        · exact .inr ⟨q, List.mem_cons_of_mem _ hq, hc⟩

/-- A piece holds characters of the text other than the separator. -/
theorem mem_of_mem_pieces {cs : List Char} (hp : p ∈ pieces sep cs) (hc : c ∈ p) :
    c ∈ cs ∧ c ≠ sep := by
  induction cs generalizing p with
  | nil =>
    rw [pieces, List.mem_singleton] at hp
    rw [hp] at hc
    exact absurd hc List.not_mem_nil
  | cons d cs ih =>
    rw [pieces] at hp
    split at hp
    · rcases List.mem_cons.mp hp with rfl | hp
      · exact absurd hc List.not_mem_nil
      · exact ⟨List.mem_cons_of_mem _ (ih hp hc).1, (ih hp hc).2⟩
    · next hd =>
      split at hp
      · next hnil => exact absurd hnil (pieces_ne_nil sep cs)
      · next q qs hqs =>
        rw [hqs] at ih
        rcases List.mem_cons.mp hp with rfl | hp
        · rcases List.mem_cons.mp hc with rfl | hc
          · exact ⟨List.mem_cons_self, hd⟩
          · have := ih List.mem_cons_self hc
            exact ⟨List.mem_cons_of_mem _ this.1, this.2⟩
        · have := ih (List.mem_cons_of_mem _ hp) hc
          exact ⟨List.mem_cons_of_mem _ this.1, this.2⟩

/-- Lists of pieces that are neither empty nor hold the separator are known by their text. -/
theorem glue_injective {qs : List (List Char)} (hps : ∀ p ∈ ps, p ≠ [] ∧ sep ∉ p)
    (hqs : ∀ q ∈ qs, q ≠ [] ∧ sep ∉ q) (h : glue sep ps = glue sep qs) : ps = qs := by
  have hnil {rs : List (List Char)} (hrs : ∀ r ∈ rs, r ≠ [] ∧ sep ∉ r) (hglue : glue sep rs = []) :
      rs = [] := by
    cases rs with
    | nil => rfl
    | cons r rs =>
      have hr := (hrs r List.mem_cons_self).1
      cases rs with
      | nil => exact absurd hglue hr
      | cons s rs =>
        rw [glue_cons sep r (by simp)] at hglue
        simp at hglue
  by_cases hp : ps = []
  · rw [hp] at h ⊢
    exact (hnil hqs h.symm).symm
  · have hq : qs ≠ [] := by
      rintro rfl
      exact hp (hnil hps h)
    rw [← pieces_glue hp fun p hmem => (hps p hmem).2, h,
      pieces_glue hq fun q hmem => (hqs q hmem).2]

theorem head?_glue_ne (h : ∀ p ∈ ps, p ≠ [] ∧ sep ∉ p) : (glue sep ps).head? ≠ some sep := by
  cases ps with
  | nil => simp [glue]
  | cons p ps =>
    obtain ⟨hne, hsep⟩ := h p List.mem_cons_self
    cases p with
    | nil => exact absurd rfl hne
    | cons c p =>
      have hc : c ≠ sep := fun e => hsep (e ▸ List.mem_cons_self)
      by_cases hps : ps = []
      · subst hps
        simpa [glue] using hc
      · rw [glue_cons sep _ hps]
        simpa using hc

end Text

namespace QName

/-! ## Names by their parts -/

/-- The name with a module path and, possibly, a nesting path. -/
def quoted (path : List Char) (members : Option (List Char)) : QName :=
  ⟨String.ofList ('"' :: (path ++ '"' :: members.elim [] ('.' :: ·)))⟩

theorem split?_quoted (hpath : '"' ∉ path) (members : Option (List Char)) :
    (quoted path members).split? = some (path, members.elim [] ('.' :: ·)) :=
  split?_eq_some.mpr ⟨String.toList_ofList, hpath⟩

theorem modulePath?_quoted (hpath : '"' ∉ path) (members : Option (List Char)) :
    (quoted path members).modulePath? = some (String.ofList path) := by
  rw [modulePath?, split?_quoted hpath]
  rfl

theorem memberPath?_quoted (hpath : '"' ∉ path) (members : Option (List Char)) :
    (quoted path members).memberPath? = members.map String.ofList := by
  rw [memberPath?, split?_quoted hpath]
  cases members <;> rfl

theorem quoted_injective {path' : List Char} (hpath : '"' ∉ path) (hpath' : '"' ∉ path')
    {members members' : Option (List Char)} (h : quoted path members = quoted path' members') :
    path = path' ∧ members = members' := by
  have hsplit := congrArg split? h
  rw [split?_quoted hpath, split?_quoted hpath', Option.some.injEq, Prod.mk.injEq] at hsplit
  refine ⟨hsplit.1, ?_⟩
  have hmembers := hsplit.2
  cases members <;> cases members' <;> simp_all

theorem child_quoted (path : List Char) (members : Option (List Char)) (name : String) :
    (quoted path members).child name =
      quoted path (some (members.elim name.toList (· ++ '.' :: name.toList))) := by
  have htext : ((quoted path members).child name).text.toList =
      (quoted path (some (members.elim name.toList (· ++ '.' :: name.toList)))).text.toList := by
    show ((quoted path members).text ++ "." ++ name).toList = _
    rw [String.toList_append, String.toList_append, quoted, quoted]
    cases members <;> simp
  exact congrArg QName.mk (String.toList_inj.mp htext)

/-! ## Relative paths -/

theorem stripStart?_eq_some {start cs rest : List Char} :
    stripStart? start cs = some rest ↔ cs = start ++ rest := by
  constructor
  · intro h
    fun_induction stripStart? start cs with
    | case1 => exact (Option.some.inj h).symm ▸ rfl
    | case2 => cases h
    | case3 start c cs ih => rw [ih h, List.cons_append]
    | case4 => cases h
  · rintro rfl
    exact stripStart?_append start rest

/-- A component of a path holds characters of the path other than slashes, at least one. -/
theorem mem_components (h : p ∈ components path) : p ≠ [] ∧ '/' ∉ p ∧ ∀ c ∈ p, c ∈ path := by
  obtain ⟨hp, hne⟩ := List.mem_filter.mp h
  refine ⟨by simpa using hne, fun hslash => (Text.mem_of_mem_pieces hp hslash).2 rfl, ?_⟩
  intro c hc
  exact (Text.mem_of_mem_pieces hp hc).1

/-- What is dropped from two lists is a common beginning. -/
theorem dropCommon_spec (as bs : List (List Char)) :
    ∃ common, as = common ++ (dropCommon as bs).1 ∧ bs = common ++ (dropCommon as bs).2 := by
  fun_induction dropCommon as bs with
  | case1 as b bs ih =>
    obtain ⟨common, has, hbs⟩ := ih
    exact ⟨b :: common, congrArg (b :: ·) has, congrArg (b :: ·) hbs⟩
  | case2 | case3 => exact ⟨[], rfl, rfl⟩

theorem dropCommon_append (as bs : List (List Char)) : dropCommon (as ++ bs) as = (bs, []) := by
  induction as with
  | nil => cases bs <;> rfl
  | cons a as ih => rw [List.cons_append, dropCommon, if_pos rfl, ih]

/-- The parts of the way from a directory to a path that is not below it. -/
def outsideParts (ps rs : List (List Char)) : List (List Char) :=
  (dropCommon ps rs).2.map (fun _ => ['.', '.']) ++ (dropCommon ps rs).1

theorem outside_eq (path root : List Char) :
    outside path root = Text.glue '/' (outsideParts (components path) (components root)) := rfl

theorem mem_outsideParts {rs : List (List Char)} (h : p ∈ outsideParts ps rs) :
    p = ['.', '.'] ∨ p ∈ ps := by
  rcases List.mem_append.mp h with h | h
  · obtain ⟨-, -, rfl⟩ := List.mem_map.mp h
    exact .inl rfl
  · obtain ⟨common, hps, -⟩ := dropCommon_spec ps rs
    rw [hps]
    exact .inr (List.mem_append_right _ h)

/-- A relative path has no characters of its own but dots and slashes. -/
theorem mem_relativePath? (h : relativePath? path root = some relative) (hc : c ∈ relative) :
    c = '.' ∨ c = '/' ∨ c ∈ path := by
  unfold relativePath? at h
  split at h
  · next below hbelow =>
    obtain ⟨rest, hrest, hslash⟩ := Option.bind_eq_some_iff.mp hbelow
    rw [stripStart?_eq_some] at hrest hslash
    cases h
    rcases List.mem_cons.mp hc with rfl | hc
    · exact .inl rfl
    · rcases List.mem_cons.mp hc with rfl | hc
      · exact .inr (.inl rfl)
      · refine .inr (.inr ?_)
        rw [hrest, hslash]
        exact List.mem_append_right _ (List.mem_append_right _ hc)
  · split at h
    · cases h
      rcases Text.mem_glue hc with rfl | ⟨p, hp, hcp⟩
      · exact .inr (.inl rfl)
      · rcases mem_outsideParts hp with rfl | hp
        · exact .inl (by simpa using hcp)
        · exact .inr (.inr ((mem_components hp).2.2 c hcp))
    · cases h

theorem not_mem_relativePath? (hpath : c ∉ path) (hdot : c ≠ '.') (hslash : c ≠ '/')
    (h : relativePath? path root = some relative) : c ∉ relative := by
  intro hc
  rcases mem_relativePath? h hc with hc | hc | hc
  · exact hdot hc
  · exact hslash hc
  · exact hpath hc

/-- A relative path is not absolute. -/
theorem head?_relativePath? (h : relativePath? path root = some relative) :
    relative.head? ≠ some '/' := by
  unfold relativePath? at h
  split at h
  · cases h
    simp
  · split at h
    · cases h
      rw [outside_eq]
      refine Text.head?_glue_ne fun p hp => ?_
      rcases mem_outsideParts hp with rfl | hp
      · exact ⟨by simp, by decide⟩
      · exact ⟨(mem_components hp).1, (mem_components hp).2.1⟩
    · cases h

/-- With an absolute root, the paths that are not affected are those that are not absolute. -/
theorem relativePath?_eq_none (hroot : root.head? = some '/') :
    relativePath? path root = none ↔ path.head? ≠ some '/' := by
  unfold relativePath?
  cases root with
  | nil => cases hroot
  | cons r root =>
    cases hroot
    constructor
    · intro h hpath
      cases path with
      | nil => cases hpath
      | cons c path =>
        cases hpath
        split at h <;> cases h
    · intro hpath
      have hstrip : stripStart? ('/' :: root) path = none := by
        cases hrest : stripStart? ('/' :: root) path with
        | none => rfl
        | some rest =>
          rw [stripStart?_eq_some] at hrest
          rw [hrest] at hpath
          exact absurd rfl hpath
      rw [hstrip, Option.bind_none]
      dsimp only
      split
      · exact absurd rfl hpath
      · rfl

/-! ## Rebasing -/

/-- The members that a name keeps when it is rebased, from what follows its module path. -/
def membersOf : List Char → Option (List Char)
  | '.' :: members => some members
  | _ => none

theorem rebase_of_relative {root : String} {n : QName} {rest : List Char}
    (hsplit : n.split? = some (path, rest)) (hplain : '\\' ∉ path) (hroot : trimRoot root ≠ [])
    (h : relativePath? path (trimRoot root) = some relative) :
    rebase root n = quoted relative (membersOf rest) := by
  have hslashes : '\\' ∉ relative := not_mem_relativePath? hplain (by decide) (by decide) h
  have hmodule : ofModule (String.ofList relative) = quoted relative none := by
    rw [ofModule, String.toList_ofList, map_slash_of_plain hslashes]
    rfl
  have hmembers : n.memberPath? = (membersOf rest).map String.ofList := by
    rw [memberPath?, hsplit]
    unfold membersOf
    split <;> simp_all
  rw [rebase_of_inside hsplit hroot h, hmembers, hmodule]
  cases membersOf rest with
  | none => rfl
  | some members => exact (child_quoted _ _ _).trans (by rw [String.toList_ofList]; rfl)

section Absolute

variable {root : String} (hroot : (trimRoot root).head? = some '/') {n : QName}

include hroot

theorem trimRoot_ne_nil : trimRoot root ≠ [] := by
  intro h
  rw [h] at hroot
  cases hroot

/-- Relative to an absolute root no module path is absolute. -/
theorem head?_modulePath?_rebase (hplain : ∀ p ∈ n.modulePath?, '\\' ∉ p.toList) :
    ∀ p ∈ (rebase root n).modulePath?, p.toList.head? ≠ some '/' := by
  intro p hp
  cases hsplit : n.split? with
  | none =>
    rw [rebase_of_no_module hsplit, modulePath?, hsplit] at hp
    cases hp
  | some parts =>
    obtain ⟨path, rest⟩ := parts
    have hpath : n.modulePath? = some (String.ofList path) := by rw [modulePath?, hsplit]; rfl
    cases hrelative : relativePath? path (trimRoot root) with
    | none =>
      rw [rebase_of_outside hsplit (.inr hrelative), hpath] at hp
      cases hp
      rw [String.toList_ofList]
      exact (relativePath?_eq_none hroot).mp hrelative
    | some relative =>
      have hquote : '"' ∉ relative := not_mem_relativePath? (split?_eq_some.mp hsplit).2
        (by decide) (by decide) hrelative
      have hslashes : '\\' ∉ path := by
        simpa using hplain _ hpath
      rw [rebase_of_relative hsplit hslashes (trimRoot_ne_nil hroot) hrelative,
        modulePath?_quoted hquote] at hp
      cases hp
      rw [String.toList_ofList]
      exact head?_relativePath? hrelative

/-- A name without an absolute module path stays as it is. -/
theorem rebase_eq_self (h : ∀ p ∈ n.modulePath?, p.toList.head? ≠ some '/') :
    rebase root n = n := by
  cases hsplit : n.split? with
  | none => exact rebase_of_no_module hsplit
  | some parts =>
    obtain ⟨path, rest⟩ := parts
    have hpath : n.modulePath? = some (String.ofList path) := by rw [modulePath?, hsplit]; rfl
    have hhead := h _ hpath
    rw [String.toList_ofList] at hhead
    exact rebase_of_outside hsplit (.inr ((relativePath?_eq_none hroot).mpr hhead))

/-- Rebasing twice is rebasing once. -/
theorem rebase_rebase (hplain : ∀ p ∈ n.modulePath?, '\\' ∉ p.toList) :
    rebase root (rebase root n) = rebase root n :=
  rebase_eq_self hroot (head?_modulePath?_rebase hroot hplain)

end Absolute

/-! ## Well-formed names -/

/-- A part of a normalised path: a name, neither of the two that stand for directories. -/
def IsPart (p : List Char) : Prop := p ≠ [] ∧ '/' ∉ p ∧ p ≠ ['.'] ∧ p ≠ ['.', '.']

/-- An absolute path that is normalised. -/
def NormalPath (path : List Char) : Prop :=
  ∃ ps, (∀ p ∈ ps, IsPart p) ∧ path = '/' :: Text.glue '/' ps

/-- The specifier of a package: it is not a path, neither absolute nor relative. -/
structure PackagePath (path : List Char) : Prop where
  ne_nil : path ≠ []
  ne_dot : path ≠ ['.']
  ne_dots : path ≠ ['.', '.']
  not_absolute : ¬ ['/'] <+: path
  not_below : ¬ ['.', '/'] <+: path
  not_above : ¬ ['.', '.', '/'] <+: path

/-- The path of a module as a file is read: that of a file or that of a package. -/
structure ModulePath (path : List Char) : Prop where
  plain : Plain path
  shape : NormalPath path ∨ PackagePath path

/-- A name as a file is read: without module, or in the module of a file or a package. -/
inductive WellFormed : QName → Prop
  | bare {n} : n.text.toList.head? ≠ some '"' → WellFormed n
  | quoted {path members} : ModulePath path → WellFormed (quoted path members)

/-- A path lies below a directory, and is not the directory itself. -/
def StrictlyBelow (root path : List Char) : Prop :=
  path.head? = some '/' ∧ ∃ rest, rest ≠ [] ∧ components path = components root ++ rest

/-- The parts of a path relative to a root, from the parts of both. -/
def relativeParts (ps rs : List (List Char)) : List (List Char) :=
  if (dropCommon ps rs).2 = [] ∧ (dropCommon ps rs).1 ≠ [] then ['.'] :: (dropCommon ps rs).1
  else outsideParts ps rs

section Parts

variable {ps qs rs : List (List Char)}

theorem components_glue (hps : ∀ p ∈ ps, IsPart p) : components ('/' :: Text.glue '/' ps) = ps := by
  unfold components
  rw [Text.pieces, if_pos rfl, List.filter_cons_of_neg (by simp)]
  by_cases hnil : ps = []
  · subst hnil
    rfl
  · rw [Text.pieces_glue hnil fun p hp => (hps p hp).2.1, List.filter_eq_self]
    intro p hp
    simpa using (hps p hp).1

/-- A path below a directory, as text. -/
theorem parts_of_strip (hps : ∀ p ∈ ps, IsPart p) (hrs : ∀ r ∈ rs, IsPart r) (hne : rs ≠ [])
    {below : List Char} (h : Text.glue '/' ps = Text.glue '/' rs ++ '/' :: below) :
    ∃ b, b ≠ [] ∧ ps = rs ++ b := by
  have hnil : ps ≠ [] := by
    rintro rfl
    simp [Text.glue] at h
  have hcut (xs : List (List Char)) (hxs : ∀ x ∈ xs, IsPart x) (hxne : xs ≠ []) :
      Text.pieces '/' (Text.glue '/' xs ++ '/' :: below) = xs ++ Text.pieces '/' below := by
    induction xs with
    | nil => exact absurd rfl hxne
    | cons x xs ih =>
      have hx := (hxs x List.mem_cons_self).2.1
      by_cases hxs' : xs = []
      · subst hxs'
        exact Text.pieces_append_sep hx below
      · rw [Text.glue_cons '/' x hxs', List.append_assoc, List.cons_append,
          Text.pieces_append_sep hx, ih (fun y hy => hxs y (List.mem_cons_of_mem _ hy)) hxs',
          List.cons_append]
  refine ⟨Text.pieces '/' below, Text.pieces_ne_nil '/' below, ?_⟩
  rw [← hcut rs hrs hne, ← h, Text.pieces_glue hnil fun p hp => (hps p hp).2.1]

theorem relativePath?_glue (hps : ∀ p ∈ ps, IsPart p) (hrs : ∀ r ∈ rs, IsPart r) (hne : rs ≠ []) :
    relativePath? ('/' :: Text.glue '/' ps) ('/' :: Text.glue '/' rs) =
      some (Text.glue '/' (relativeParts ps rs)) := by
  by_cases hbelow : ∃ b, b ≠ [] ∧ ps = rs ++ b
  · obtain ⟨b, hb, rfl⟩ := hbelow
    rw [relativeParts, dropCommon_append, if_pos ⟨rfl, hb⟩, Text.glue_cons '/' _ hb,
      Text.glue_append hne hb, relativePath?, ← List.cons_append, stripStart?_append,
      Option.bind_some]
    rfl
  · have hnone : (stripStart? ('/' :: Text.glue '/' rs) ('/' :: Text.glue '/' ps)).bind
        (stripStart? ['/']) = none := by
      rw [Option.bind_eq_none_iff]
      intro rest hrest
      rw [stripStart?_eq_some, List.cons_append, List.cons.injEq] at hrest
      cases hslash : stripStart? ['/'] rest with
      | none => rfl
      | some below =>
        rw [stripStart?_eq_some] at hslash
        rw [hslash] at hrest
        exact absurd (parts_of_strip hps hrs hne hrest.2) hbelow
    have houtside : ¬ ((dropCommon ps rs).2 = [] ∧ (dropCommon ps rs).1 ≠ []) := by
      rintro ⟨hup, hdown⟩
      obtain ⟨common, hps', hrs'⟩ := dropCommon_spec ps rs
      rw [hup, List.append_nil] at hrs'
      exact hbelow ⟨_, hdown, hrs' ▸ hps'⟩
    rw [relativeParts, if_neg houtside, relativePath?, hnone]
    show some (outside _ _) = _
    rw [outside_eq, components_glue hps, components_glue hrs]

theorem mem_relativeParts (hps : ∀ p ∈ ps, IsPart p) :
    ∀ p ∈ relativeParts ps rs, p ≠ [] ∧ '/' ∉ p := by
  have hdots : ∀ p ∈ outsideParts ps rs, p ≠ [] ∧ '/' ∉ p := by
    intro p hp
    rcases mem_outsideParts hp with rfl | hp
    · exact ⟨by simp, by decide⟩
    · exact ⟨(hps p hp).1, (hps p hp).2.1⟩
  intro p hp
  unfold relativeParts at hp
  split at hp
  · rcases List.mem_cons.mp hp with rfl | hp
    · exact ⟨by simp, by decide⟩
    · exact hdots p (List.mem_append_right _ hp)
  · exact hdots p hp

/-- How many times a path goes up can be read off it, if no part of it is a name for that. -/
theorem dots_injective {a b : List (List Char)} {down down' : List (List Char)}
    (hdown : ['.', '.'] ∉ down) (hdown' : ['.', '.'] ∉ down')
    (h : a.map (fun _ => ['.', '.']) ++ down = b.map (fun _ => ['.', '.']) ++ down') :
    a.length = b.length ∧ down = down' := by
  induction a generalizing b with
  | nil =>
    cases b with
    | nil => exact ⟨rfl, h⟩
    | cons _ b =>
      rw [List.map_nil, List.nil_append] at h
      rw [h] at hdown
      exact absurd List.mem_cons_self hdown
  | cons _ a ih =>
    cases b with
    | nil =>
      rw [List.map_nil, List.nil_append] at h
      rw [← h] at hdown'
      exact absurd List.mem_cons_self hdown'
    | cons _ b =>
      rw [List.map_cons, List.map_cons, List.cons_append, List.cons_append] at h
      obtain ⟨hlength, heq⟩ := ih (List.cons.inj h).2
      exact ⟨congrArg (· + 1) hlength, heq⟩

/-- Different paths are different relative to one root. -/
theorem relativeParts_injective (hps : ∀ p ∈ ps, IsPart p) (hqs : ∀ q ∈ qs, IsPart q)
    (h : relativeParts ps rs = relativeParts qs rs) : ps = qs := by
  obtain ⟨common, hps', hrs⟩ := dropCommon_spec ps rs
  obtain ⟨common', hqs', hrs'⟩ := dropCommon_spec qs rs
  have hdown : ['.', '.'] ∉ (dropCommon ps rs).1 := by
    intro hmem
    rw [hps'] at hps
    exact (hps _ (List.mem_append_right _ hmem)).2.2.2 rfl
  have hdown' : ['.', '.'] ∉ (dropCommon qs rs).1 := by
    intro hmem
    rw [hqs'] at hqs
    exact (hqs _ (List.mem_append_right _ hmem)).2.2.2 rfl
  -- it is enough that the paths leave the root at the same place and go on alike
  have hsame (hup : (dropCommon ps rs).2.length = (dropCommon qs rs).2.length)
      (hrest : (dropCommon ps rs).1 = (dropCommon qs rs).1) : ps = qs := by
    have hcommon := (List.append_inj' (hrs.symm.trans hrs') hup).1
    rw [hps', hqs', hcommon, hrest]
  have hmixed {xs : List (List Char)} (hxs : ∀ x ∈ xs, IsPart x) {down : List (List Char)} :
      ['.'] :: down ≠ outsideParts xs rs := by
    intro heq
    rcases mem_outsideParts (heq ▸ List.mem_cons_self) with hdot | hdot
    · cases hdot
    · exact (hxs _ hdot).2.2.1 rfl
  unfold relativeParts at h
  split at h
  · next hbelow =>
    split at h
    · next hbelow' => exact hsame (by rw [hbelow.1, hbelow'.1]) (List.cons.inj h).2
    · exact absurd h (hmixed hqs)
  · split at h
    · exact absurd h.symm (hmixed hps)
    · obtain ⟨hup, hrest⟩ := dots_injective hdown hdown' h
      exact hsame hup hrest

/-- A relative path starts with one dot if the path is below the root. Otherwise it starts with two
dots, unless it is empty. -/
theorem relativeParts_cases (ps rs : List (List Char)) :
    (∃ b, b ≠ [] ∧ ps = rs ++ b ∧ relativeParts ps rs = ['.'] :: b) ∨
      (¬ ∃ b, b ≠ [] ∧ ps = rs ++ b) ∧
        (relativeParts ps rs = [] ∨ ∃ rest, relativeParts ps rs = ['.', '.'] :: rest) := by
  by_cases hbelow : ∃ b, b ≠ [] ∧ ps = rs ++ b
  · obtain ⟨b, hb, rfl⟩ := hbelow
    refine .inl ⟨b, hb, rfl, ?_⟩
    rw [relativeParts, dropCommon_append, if_pos ⟨rfl, hb⟩]
  · refine .inr ⟨hbelow, ?_⟩
    obtain ⟨common, hps, hrs⟩ := dropCommon_spec ps rs
    unfold relativeParts outsideParts
    cases hup : (dropCommon ps rs).2 with
    | nil =>
      rw [hup, List.append_nil] at hrs
      have hdown : (dropCommon ps rs).1 = [] := by
        by_contra hdown
        exact hbelow ⟨_, hdown, hrs ▸ hps⟩
      rw [hdown]
      exact .inl rfl
    | cons r up =>
      rw [if_neg fun h => List.cons_ne_nil r up h.1]
      exact .inr ⟨_, rfl⟩

theorem isPrefix_glue_relativeParts :
    ['.', '/'] <+: Text.glue '/' (relativeParts ps rs) ↔ ∃ b, b ≠ [] ∧ ps = rs ++ b := by
  rcases relativeParts_cases ps rs with ⟨b, hb, hbelow, hparts⟩ | ⟨hbelow, hparts⟩
  · rw [hparts, Text.glue_cons '/' _ hb]
    exact ⟨fun _ => ⟨b, hb, hbelow⟩, fun _ => ⟨_, rfl⟩⟩
  · refine iff_of_false ?_ hbelow
    rintro ⟨cs, hcs⟩
    rcases hparts with hparts | ⟨rest, hparts⟩
    · rw [hparts] at hcs
      cases hcs
    · rw [hparts] at hcs
      cases rest <;> cases hcs

/-- The specifier of a package is no relative path. -/
theorem PackagePath.ne_relative (h : PackagePath path) :
    path ≠ Text.glue '/' (relativeParts ps rs) := by
  rintro rfl
  rcases relativeParts_cases ps rs with ⟨b, hb, -, hparts⟩ | ⟨-, hparts | ⟨rest, hparts⟩⟩
  · refine h.not_below ?_
    rw [hparts, Text.glue_cons '/' _ hb]
    exact ⟨_, rfl⟩
  · exact h.ne_nil (by rw [hparts]; rfl)
  · cases rest with
    | nil => exact h.ne_dots (by rw [hparts]; rfl)
    | cons p rest =>
      refine h.not_above ?_
      rw [hparts]
      exact ⟨_, rfl⟩

end Parts

/-! ## Well-formed names relative to a root -/

theorem split?_of_head {n : QName} (h : n.text.toList.head? ≠ some '"') : n.split? = none := by
  cases hsplit : n.split? with
  | none => rfl
  | some parts =>
    rw [(split?_eq_some.mp hsplit).1] at h
    exact absurd rfl h

theorem head?_child_of_head {n : QName} (h : n.text.toList.head? ≠ some '"') (name : String) :
    (n.child name).text.toList.head? ≠ some '"' := by
  show (n.text ++ "." ++ name).toList.head? ≠ some '"'
  rw [String.toList_append, String.toList_append]
  cases htext : n.text.toList with
  | nil => simp
  | cons c cs =>
    rw [htext] at h
    simpa using h

theorem isProjectLocal_quoted (hpath : '"' ∉ path) (members : Option (List Char)) :
    (quoted path members).isProjectLocal = true ↔ ['.', '/'] <+: path := by
  rw [isProjectLocal, split?_quoted hpath]
  constructor
  · intro h
    split at h
    · next hshape =>
      cases hshape
      exact ⟨_, rfl⟩
    · cases h
  · rintro ⟨rest, rfl⟩
    rfl

theorem membersOf_elim (members : Option (List Char)) :
    membersOf (members.elim [] ('.' :: ·)) = members := by
  cases members <;> rfl

theorem trimRoot_glue {root : String} {rs : List (List Char)}
    (hroot : root.toList = '/' :: Text.glue '/' rs) (hrs : ∀ r ∈ rs, IsPart r) (hne : rs ≠ []) :
    trimRoot root = root.toList := by
  -- the last character belongs to the last part
  obtain ⟨front, c, hc, hlast⟩ : ∃ front c, c ≠ '/' ∧ root.toList = front ++ [c] := by
    obtain ⟨init, last, rfl⟩ := (List.eq_nil_or_concat rs).resolve_left hne
    obtain ⟨hlast, hslash, -⟩ := hrs last (by simp)
    obtain ⟨front, c, rfl⟩ := (List.eq_nil_or_concat last).resolve_left hlast
    have hc : c ≠ '/' := fun e => hslash (by simp [e])
    by_cases hinit : init = []
    · subst hinit
      exact ⟨'/' :: front, c, hc, by rw [hroot]; simp [Text.glue]⟩
    · refine ⟨'/' :: (Text.glue '/' init ++ '/' :: front), c, hc, ?_⟩
      rw [hroot, List.concat_eq_append, Text.glue_append hinit (by simp)]
      simp [Text.glue]
  unfold trimRoot Text.dropEndWhile
  rw [hlast, List.reverse_append, List.reverse_singleton, List.singleton_append,
    List.dropWhile_cons_of_neg (by simpa using hc), List.reverse_cons, List.reverse_reverse]

/-- A module path relative to a root, if it is affected. -/
def relativeTo (root path : List Char) : List Char := (relativePath? path root).getD path

section Root

variable {root : String} (hroot : NormalPath root.toList) (hne : root ≠ "/")

include hroot hne

/-- A root that is normalised and not the root of all paths has parts, and nothing to trim. -/
theorem parts_of_root : ∃ rs, rs ≠ [] ∧ (∀ r ∈ rs, IsPart r) ∧
    root.toList = '/' :: Text.glue '/' rs ∧ trimRoot root = '/' :: Text.glue '/' rs := by
  obtain ⟨rs, hrs, htext⟩ := hroot
  have hrsne : rs ≠ [] := by
    rintro rfl
    exact hne (String.toList_inj.mp htext)
  exact ⟨rs, hrsne, hrs, htext, (trimRoot_glue htext hrs hrsne).trans htext⟩

theorem head?_trimRoot : (trimRoot root).head? = some '/' := by
  obtain ⟨rs, -, -, -, htrim⟩ := parts_of_root hroot hne
  rw [htrim]
  rfl

theorem relativeTo_normal (hps : ∀ p ∈ ps, IsPart p) :
    relativeTo (trimRoot root) ('/' :: Text.glue '/' ps) =
      Text.glue '/' (relativeParts ps (components root.toList)) := by
  obtain ⟨rs, hrsne, hrs, htext, htrim⟩ := parts_of_root hroot hne
  rw [relativeTo, htrim, htext, relativePath?_glue hps hrs hrsne, components_glue hrs]
  rfl

theorem relativeTo_package (h : PackagePath path) : relativeTo (trimRoot root) path = path := by
  have hnone : relativePath? path (trimRoot root) = none := by
    refine (relativePath?_eq_none (head?_trimRoot hroot hne)).mpr fun hhead => ?_
    obtain ⟨rest, rfl⟩ := List.head?_eq_some_iff.mp hhead
    exact h.not_absolute ⟨rest, rfl⟩
  rw [relativeTo, hnone]
  rfl

/-- Module paths that differ, differ relative to a root. -/
theorem relativeTo_injective {path' : List Char} (hpath : ModulePath path)
    (hpath' : ModulePath path')
    (h : relativeTo (trimRoot root) path = relativeTo (trimRoot root) path') : path = path' := by
  rcases hpath.shape with ⟨ps, hps, rfl⟩ | hpackage
  · rw [relativeTo_normal hroot hne hps] at h
    rcases hpath'.shape with ⟨qs, hqs, rfl⟩ | hpackage'
    · rw [relativeTo_normal hroot hne hqs] at h
      have hparts := Text.glue_injective (mem_relativeParts hps) (mem_relativeParts hqs) h
      rw [relativeParts_injective hps hqs hparts]
    · rw [relativeTo_package hroot hne hpackage'] at h
      exact absurd h.symm hpackage'.ne_relative
  · rw [relativeTo_package hroot hne hpackage] at h
    rcases hpath'.shape with ⟨qs, hqs, rfl⟩ | hpackage'
    · rw [relativeTo_normal hroot hne hqs] at h
      exact absurd h hpackage.ne_relative
    · rwa [relativeTo_package hroot hne hpackage'] at h

/-- Just the paths below the root start with one dot. -/
theorem isPrefix_relativeTo (hpath : ModulePath path) :
    ['.', '/'] <+: relativeTo (trimRoot root) path ↔ StrictlyBelow root.toList path := by
  rcases hpath.shape with ⟨ps, hps, rfl⟩ | hpackage
  · rw [relativeTo_normal hroot hne hps, isPrefix_glue_relativeParts, StrictlyBelow,
      components_glue hps]
    exact ⟨fun h => ⟨rfl, h⟩, fun h => h.2⟩
  · rw [relativeTo_package hroot hne hpackage]
    refine iff_of_false hpackage.not_below fun h => ?_
    obtain ⟨rest, rfl⟩ := List.head?_eq_some_iff.mp h.1
    exact hpackage.not_absolute ⟨rest, rfl⟩

theorem rebase_quoted (hpath : ModulePath path) (members : Option (List Char)) :
    rebase root (quoted path members) = quoted (relativeTo (trimRoot root) path) members := by
  have hsplit := split?_quoted hpath.plain.1 members
  unfold relativeTo
  cases hrelative : relativePath? path (trimRoot root) with
  | none => exact rebase_of_outside hsplit (.inr hrelative)
  | some relative =>
    rw [rebase_of_relative hsplit hpath.plain.2 (trimRoot_ne_nil (head?_trimRoot hroot hne))
      hrelative, membersOf_elim]
    rfl

end Root

theorem quote_not_mem_relativeTo (hpath : '"' ∉ path) : '"' ∉ relativeTo root path := by
  unfold relativeTo
  cases hrelative : relativePath? path root with
  | none => exact hpath
  | some relative => exact not_mem_relativePath? hpath (by decide) (by decide) hrelative

/-- Rebasing keeps well-formed names apart, keeps their members and commutes with nesting, and what
it makes local to the project are just the names of modules below the root. -/
theorem rebase_keeps_apart {root : String} (hroot : NormalPath root.toList) (hne : root ≠ "/")
    {f g : QName} (hf : f.WellFormed) (hg : g.WellFormed) :
    (f.rebase root = g.rebase root → f = g) ∧
      (f.rebase root).memberPath? = f.memberPath? ∧
      (∀ name, (f.child name).rebase root = (f.rebase root).child name) ∧
      ((f.rebase root).isProjectLocal = true ↔
        ∃ path, f.modulePath? = some path ∧ StrictlyBelow root.toList path.toList) := by
  have hbare {n : QName} (hn : n.text.toList.head? ≠ some '"') : n.rebase root = n :=
    rebase_of_no_module (split?_of_head hn)
  refine ⟨fun h => ?_, ?_, fun name => ?_, ?_⟩
  · cases hf with
    | bare hf =>
        rw [hbare hf] at h
        cases hg with
        | bare hg => rwa [hbare hg] at h
        | quoted hpath =>
            rw [rebase_quoted hroot hne hpath] at h
            rw [h, quoted, String.toList_ofList] at hf
            exact absurd rfl hf
    | quoted hpath =>
        rw [rebase_quoted hroot hne hpath] at h
        cases hg with
        | bare hg =>
            rw [hbare hg] at h
            rw [← h, quoted, String.toList_ofList] at hg
            exact absurd rfl hg
        | quoted hpath' =>
            rw [rebase_quoted hroot hne hpath'] at h
            obtain ⟨hrelative, rfl⟩ := quoted_injective
              (quote_not_mem_relativeTo hpath.plain.1) (quote_not_mem_relativeTo hpath'.plain.1) h
            rw [relativeTo_injective hroot hne hpath hpath' hrelative]
  · cases hf with
    | bare hf => rw [hbare hf]
    | quoted hpath =>
        rw [rebase_quoted hroot hne hpath, memberPath?_quoted hpath.plain.1,
          memberPath?_quoted (quote_not_mem_relativeTo hpath.plain.1)]
  · cases hf with
    | bare hf => rw [hbare hf, hbare (head?_child_of_head hf name)]
    | quoted hpath =>
        rw [child_quoted, rebase_quoted hroot hne hpath, rebase_quoted hroot hne hpath,
          child_quoted]
  · cases hf with
    | bare hf =>
        have hsplit := split?_of_head hf
        rw [hbare hf, isProjectLocal, modulePath?, hsplit]
        simp
    | quoted hpath =>
        rw [rebase_quoted hroot hne hpath,
          isProjectLocal_quoted (quote_not_mem_relativeTo hpath.plain.1),
          isPrefix_relativeTo hroot hne hpath, modulePath?_quoted hpath.plain.1]
        simp

/-- A file below the root and one in a directory whose name starts like that of the root. -/
theorem rebase_keeps_apart_siblings :
    let below := quoted "/work/app/a.ts".toList (some ['A'])
    let beside := quoted "/work/application/a.ts".toList (some ['A'])
    (NormalPath "/work/app".toList ∧ "/work/app" ≠ "/" ∧ below.WellFormed ∧ beside.WellFormed) ∧
      below.rebase "/work/app" = ⟨"\"./a.ts\".A"⟩ ∧
      beside.rebase "/work/app" = ⟨"\"../application/a.ts\".A"⟩ ∧
      (below.rebase "/work/app" = beside.rebase "/work/app" → below = beside) ∧
      (beside.rebase "/work/app").memberPath? = some "A" ∧
      (beside.child "b").rebase "/work/app" = (beside.rebase "/work/app").child "b" ∧
      (∃ path, below.modulePath? = some path ∧ StrictlyBelow "/work/app".toList path.toList) ∧
      ¬ ∃ path, beside.modulePath? = some path ∧
        StrictlyBelow "/work/app".toList path.toList := by
  intro below beside
  have hroot : NormalPath "/work/app".toList :=
    ⟨["work".toList, "app".toList], by unfold IsPart; decide, by decide⟩
  have hbelow : below.WellFormed :=
    .quoted ⟨by decide, .inl ⟨["work".toList, "app".toList, "a.ts".toList],
      by unfold IsPart; decide, by decide⟩⟩
  have hbeside : beside.WellFormed :=
    .quoted ⟨by decide, .inl ⟨["work".toList, "application".toList, "a.ts".toList],
      by unfold IsPart; decide, by decide⟩⟩
  have h := rebase_keeps_apart hroot (by decide) hbelow hbeside
  have h' := rebase_keeps_apart hroot (by decide) hbeside hbelow
  exact ⟨⟨hroot, by decide, hbelow, hbeside⟩, by decide, by decide, h.1,
    h'.2.1.trans (by decide), h'.2.2.1 "b", h.2.2.2.mp (by decide),
    fun hpath => absurd (h'.2.2.2.mpr hpath) (by decide)⟩

end QName

end CodeConcepts
