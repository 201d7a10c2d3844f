import CodeConcepts.Files.Path
import CodeConcepts.Model.Unify
import Mathlib.Data.List.DropRight

/-!
# Module paths

Two names belong to the same module if their module paths agree. What is nested in a name belongs to
its module (`modulePath?_child`), and names of one module are still names of one module when they
are expressed relative to a root (`modulePath?_rebase_congr`).

For paths below a root that hold neither quotes nor backslashes, the names of modules stay apart:
different paths give different modules, before and after they are expressed relative to the root
(`ownPath_injective`).
-/

namespace CodeConcepts

variable {root p : Path} {n : QName} {cs : List Char} {path : String}

namespace QName

variable {root : String}

/-! ## The module part -/

theorem cut_at_quote {path rest : List Char} :
    (match cs.dropWhile (· ≠ '"') with
      | _ :: rest => some (cs.takeWhile (· ≠ '"'), rest)
      | [] => none) = some (path, rest) ↔ cs = path ++ '"' :: rest ∧ '"' ∉ path := by
  constructor
  · intro h
    split at h
    · next d rest' hdrop =>
      cases h
      have hhead := List.head?_dropWhile_not (· ≠ '"') cs
      rw [hdrop] at hhead
      obtain rfl : d = '"' := by simpa using hhead
      refine ⟨?_, fun hmem => by simpa using List.mem_takeWhile_imp hmem⟩
      rw [← hdrop, List.takeWhile_append_dropWhile]
    · cases h
  · rintro ⟨rfl, hpath⟩
    have hall : ∀ c ∈ path, decide (c ≠ '"') = true :=
      fun c hc => decide_eq_true (ne_of_mem_of_not_mem hc hpath)
    rw [List.dropWhile_append_of_pos hall, List.takeWhile_append_of_pos hall]
    simp

theorem split?_eq_some {path rest : List Char} :
    n.split? = some (path, rest) ↔ n.text.toList = '"' :: (path ++ '"' :: rest) ∧ '"' ∉ path := by
  unfold split?
  constructor
  · intro h
    split at h
    · next cs htext =>
      obtain ⟨hcs, hpath⟩ := cut_at_quote.mp h
      exact ⟨by rw [htext, hcs], hpath⟩
    · cases h
  · rintro ⟨htext, hpath⟩
    rw [htext]
    exact cut_at_quote.mpr ⟨rfl, hpath⟩

theorem split?_child {path rest : List Char} (h : n.split? = some (path, rest)) (name : String) :
    (n.child name).split? = some (path, rest ++ '.' :: name.toList) := by
  obtain ⟨htext, hpath⟩ := split?_eq_some.mp h
  refine split?_eq_some.mpr ⟨?_, hpath⟩
  show (n.text ++ "." ++ name).toList = _
  rw [String.toList_append, String.toList_append, htext]
  simp

/-- What is nested in a name belongs to its module. -/
theorem modulePath?_child (h : n.modulePath?.isSome) (name : String) :
    (n.child name).modulePath? = n.modulePath? := by
  unfold modulePath? at h ⊢
  cases hsplit : n.split? with
  | none =>
    rw [hsplit] at h
    cases h
  | some parts =>
    obtain ⟨path, rest⟩ := parts
    rw [split?_child hsplit]
    rfl

theorem text_ofModule (path : String) : (ofModule path).text.toList =
    '"' :: (path.toList.map (fun c => if c = '\\' then '/' else c) ++ ['"']) :=
  String.toList_ofList

/-- The name of a module has a module path, whatever the path holds. -/
theorem isSome_modulePath?_ofModule (path : String) : (ofModule path).modulePath?.isSome := by
  obtain ⟨front, back, hsplit, hfront⟩ := List.eq_append_cons_of_mem
    (List.mem_append_right (path.toList.map fun c => if c = '\\' then '/' else c)
      (List.mem_singleton_self '"'))
  unfold modulePath?
  rw [split?_eq_some.mpr ⟨(text_ofModule path).trans (congrArg _ hsplit), hfront⟩]
  rfl

/-! ## Names relative to a root -/

theorem rebase_of_no_module (h : n.split? = none) : rebase root n = n := by
  unfold rebase
  rw [h]
  cases trimRoot root <;> rfl

/-- A name relative to a root, once its module path is. -/
theorem rebase_of_inside {path rest relative : List Char} (hsplit : n.split? = some (path, rest))
    (hroot : trimRoot root ≠ []) (h : relativePath? path (trimRoot root) = some relative) :
    rebase root n = n.memberPath?.elim (ofModule (String.ofList relative))
      (ofModule (String.ofList relative)).child := by
  unfold rebase
  rw [hsplit]
  cases htrim : trimRoot root with
  | nil => exact absurd htrim hroot
  | cons r rs =>
    rw [htrim] at h
    dsimp only
    rw [h]
    cases n.memberPath? <;> rfl

/-- Members do not matter for the module of a name, relative to a root either. -/
theorem modulePath?_rebase {path rest relative : List Char} (hsplit : n.split? = some (path, rest))
    (hroot : trimRoot root ≠ []) (h : relativePath? path (trimRoot root) = some relative) :
    (rebase root n).modulePath? = (ofModule (String.ofList relative)).modulePath? := by
  rw [rebase_of_inside hsplit hroot h]
  cases n.memberPath? with
  | none => rfl
  | some members => exact modulePath?_child (isSome_modulePath?_ofModule _) members

theorem rebase_of_outside {path rest : List Char} (hsplit : n.split? = some (path, rest))
    (h : trimRoot root = [] ∨ relativePath? path (trimRoot root) = none) : rebase root n = n := by
  unfold rebase
  rw [hsplit]
  rcases h with h | h
  · rw [h]
  · cases htrim : trimRoot root with
    | nil => rfl
    | cons r rs =>
      rw [htrim] at h
      dsimp only
      rw [h]

/-- Names of one module are names of one module relative to any root. -/
theorem modulePath?_rebase_congr (root : String) {a b : QName} (h : a.modulePath? = b.modulePath?) :
    (rebase root a).modulePath? = (rebase root b).modulePath? := by
  cases ha : a.split? with
  | none =>
    cases hb : b.split? with
    | none => rw [rebase_of_no_module ha, rebase_of_no_module hb, h]
    | some parts => simp [modulePath?, ha, hb] at h
  | some partsA =>
    cases hb : b.split? with
    | none => simp [modulePath?, ha, hb] at h
    | some partsB =>
      obtain ⟨path, restA⟩ := partsA
      obtain ⟨pathB, restB⟩ := partsB
      -- the two names differ behind the module path at most
      obtain rfl : path = pathB := by
        have h : some (String.ofList path) = some (String.ofList pathB) := by
          simpa [modulePath?, ha, hb] using h
        exact String.ofList_injective (Option.some.inj h)
      by_cases hroot : trimRoot root = []
      · rw [rebase_of_outside ha (.inl hroot), rebase_of_outside hb (.inl hroot), h]
      · cases hrelative : relativePath? path (trimRoot root) with
        | none =>
          rw [rebase_of_outside ha (.inr hrelative), rebase_of_outside hb (.inr hrelative), h]
        | some relative =>
          rw [modulePath?_rebase ha hroot hrelative, modulePath?_rebase hb hroot hrelative]

/-- Characters that neither end a module path nor are changed in it. -/
def Plain (cs : List Char) : Prop := '"' ∉ cs ∧ '\\' ∉ cs

instance (cs : List Char) : Decidable (Plain cs) := inferInstanceAs (Decidable (_ ∧ _))

theorem map_slash_of_plain (h : '\\' ∉ cs) :
    cs.map (fun c => if c = '\\' then '/' else c) = cs := by
  refine (List.map_congr_left fun c hc => ?_).trans (List.map_id cs)
  rw [if_neg fun e : c = '\\' => h (e ▸ hc)]
  rfl

theorem split?_ofModule (h : Plain path.toList) :
    (ofModule path).split? = some (path.toList, []) := by
  refine split?_eq_some.mpr ⟨?_, h.1⟩
  rw [text_ofModule, map_slash_of_plain h.2]

theorem modulePath?_ofModule (h : Plain path.toList) : (ofModule path).modulePath? = some path := by
  unfold modulePath?
  rw [split?_ofModule h]
  exact congrArg some String.ofList_toList

/-- The name of a module relative to a root, once its path is. -/
theorem rebase_ofModule {relative : List Char} (hpath : Plain path.toList)
    (hroot : trimRoot root ≠ []) (h : relativePath? path.toList (trimRoot root) = some relative) :
    rebase root (ofModule path) = ofModule (String.ofList relative) := by
  rw [rebase_of_inside (split?_ofModule hpath) hroot h, memberPath?, split?_ofModule hpath]
  rfl

theorem stripStart?_append (start rest : List Char) :
    stripStart? start (start ++ rest) = some rest := by
  induction start with
  | nil => rfl
  | cons c start ih => rw [List.cons_append, stripStart?, if_pos rfl, ih]

theorem dropCommon_self (xs : List (List Char)) : dropCommon xs xs = ([], []) := by
  induction xs with
  | nil => rfl
  | cons x xs ih => rw [dropCommon, if_pos rfl, ih]

/-- What is left of a path behind the root, relative to the root. -/
def belowRoot : List Char → List Char
  | [] => []
  | _ :: rest => '.' :: '/' :: rest

theorem plain_belowRoot (h : Plain cs) : Plain (belowRoot cs) := by
  cases cs with
  | nil => exact h
  | cons c cs =>
    obtain ⟨hquote, hbackslash⟩ := h
    rw [List.mem_cons, not_or] at hquote hbackslash
    refine ⟨?_, ?_⟩
    · simp [belowRoot, hquote.2]
    · simp [belowRoot, hbackslash.2]

theorem relativePath?_append {root rest : List Char} (hroot : root.head? = some '/')
    (hrest : rest.head? = none ∨ rest.head? = some '/') :
    relativePath? (root ++ rest) root = some (belowRoot rest) := by
  unfold relativePath?
  rw [stripStart?_append, Option.bind_some]
  cases rest with
  | nil =>
    cases root with
    | nil => cases hroot
    | cons r rs =>
      cases hroot
      show some (outside ('/' :: rs ++ []) ('/' :: rs)) = some []
      rw [List.append_nil, outside, dropCommon_self]
      rfl
  | cons c rest =>
    rcases hrest with h | h
    · cases h
    · cases h
      rfl

end QName

/-! ## Paths below a root -/

theorem Text.glue_append {sep : Char} {ps qs : List (List Char)} (hp : ps ≠ []) (hq : qs ≠ []) :
    glue sep (ps ++ qs) = glue sep ps ++ sep :: glue sep qs := by
  induction ps with
  | nil => exact absurd rfl hp
  | cons p ps ih =>
    cases ps with
    | nil => exact glue_cons sep p hq
    | cons r rs =>
      rw [List.cons_append, glue_cons sep p (by simp), ih (by simp), glue_cons sep p (by simp),
        List.append_assoc, List.cons_append]

theorem Text.dropEndWhile_append (p : Char → Bool) (cs : List Char) :
    ∃ tail, cs = dropEndWhile p cs ++ tail ∧ ∀ c ∈ tail, p c = true := by
  refine ⟨(cs.reverse.takeWhile p).reverse, ?_, fun c hc => ?_⟩
  · rw [dropEndWhile, ← List.reverse_append, List.takeWhile_append_dropWhile, List.reverse_reverse]
  · exact List.mem_takeWhile_imp (List.mem_reverse.mp hc)

theorem Text.dropEndWhile_idem (p : Char → Bool) (cs : List Char) :
    dropEndWhile p (dropEndWhile p cs) = dropEndWhile p cs := by
  unfold dropEndWhile
  rw [List.reverse_reverse, List.dropWhile_idempotent]

namespace Path

theorem toList_text_of_absolute (h : p.absolute = true) :
    p.text.toList = '/' :: Text.glue '/' (p.parts.map String.toList) := by
  unfold text Text.join
  dsimp only
  rw [if_pos h, String.toList_append]
  exact congrArg (['/'] ++ ·) String.toList_ofList

theorem toList_text (place : List String) :
    (text ⟨true, place⟩).toList = '/' :: Text.glue '/' (place.map String.toList) :=
  toList_text_of_absolute rfl

/-- The text of an absolute path below a root starts with the text of the root. -/
theorem text_of_below {rest : List String} (hroot : root.absolute = true)
    (h : partsBelow? root p = some rest) :
    ∃ tail, p.text.toList = root.text.toList ++ tail ∧
      (root.parts ≠ [] → tail.head? = none ∨ tail.head? = some '/') := by
  unfold partsBelow? at h
  split at h
  · next hbelow =>
    obtain ⟨habs, qs, hqs⟩ := hbelow
    rw [toList_text_of_absolute (habs ▸ hroot), toList_text_of_absolute hroot, ← hqs,
      List.map_append]
    by_cases hparts : root.parts = []
    · rw [hparts]
      exact ⟨_, rfl, fun hne => absurd rfl hne⟩
    · by_cases hnone : qs = []
      · rw [hnone, List.map_nil, List.append_nil]
        exact ⟨[], (List.append_nil _).symm, fun _ => .inl rfl⟩
      · rw [Text.glue_append (by simpa using hparts) (by simpa using hnone)]
        exact ⟨_, rfl, fun _ => .inr rfl⟩
  · cases h

end Path

namespace Model

open QName

/-- What unifying at a root does to a name. -/
def relocate (root : String) (n : QName) : QName :=
  if (unifyRoot root).isEmpty then n else n.rebase (unifyRoot root)

theorem modulePath?_relocate_congr (root : String) {a b : QName}
    (h : a.modulePath? = b.modulePath?) :
    (relocate root a).modulePath? = (relocate root b).modulePath? := by
  unfold relocate
  split
  · exact h
  · exact modulePath?_rebase_congr _ h

/-- The text of a root without the slashes at its end. -/
def rootText (root : Path) : List Char := Text.dropEndWhile (· == '/') root.text.toList

theorem unifyRoot_of_plain (h : '\\' ∉ root.text.toList) :
    unifyRoot root.text = String.ofList (rootText root) := by
  unfold unifyRoot rootText
  rw [map_slash_of_plain h]

/-- The text of a path below a root, cut behind the root: a slash follows, if anything does. -/
theorem text_eq_rootText_append {rest : List String} (hroot : root.absolute = true)
    (h : root.partsBelow? p = some rest) :
    ∃ tail, p.text.toList = rootText root ++ tail ∧
      (rootText root ≠ [] → tail.head? = none ∨ tail.head? = some '/') := by
  obtain ⟨tail, htail, hhead⟩ := Path.text_of_below hroot h
  obtain ⟨slashes, hslashes, hall⟩ := Text.dropEndWhile_append (· == '/') root.text.toList
  refine ⟨slashes ++ tail, ?_, fun hne => ?_⟩
  · rw [htail, ← List.append_assoc]
    exact congrArg (· ++ tail) hslashes
  · cases slashes with
    | cons c cs =>
      have hc : c = '/' := by simpa using hall c List.mem_cons_self
      exact .inr (by rw [hc]; rfl)
    | nil =>
      refine hhead fun hparts => hne ?_
      -- a root without parts is a single slash, of which nothing is left
      have htext : root.text = "/" := by
        unfold Path.text
        rw [hparts, if_pos hroot]
        rfl
      unfold rootText
      rw [htext]
      decide

theorem head?_rootText (hroot : root.absolute = true) (hne : rootText root ≠ []) :
    (rootText root).head? = some '/' := by
  obtain ⟨slashes, hslashes, -⟩ := Text.dropEndWhile_append (· == '/') root.text.toList
  have htext : root.text.toList.head? = some '/' := by
    rw [Path.toList_text_of_absolute hroot, List.head?_cons]
  rw [hslashes, List.head?_append] at htext
  cases hhead : (rootText root).head? with
  | none => exact absurd (List.head?_eq_none_iff.mp hhead) hne
  | some c =>
    unfold rootText at hhead
    rw [hhead] at htext
    exact htext

/-- The module of a file below a root, once it is unified there. -/
theorem relocate_ofModule {tail : List Char} (hroot : root.absolute = true)
    (hplain : Plain p.text.toList) (htext : p.text.toList = rootText root ++ tail)
    (hbackslash : '\\' ∉ root.text.toList) (hne : rootText root ≠ [])
    (hhead : tail.head? = none ∨ tail.head? = some '/') :
    relocate root.text (ofModule p.text) = ofModule (String.ofList (belowRoot tail)) := by
  unfold relocate
  rw [unifyRoot_of_plain hbackslash, if_neg (by simpa using hne)]
  have htrim : trimRoot (String.ofList (rootText root)) = rootText root := by
    unfold trimRoot
    rw [String.toList_ofList]
    exact Text.dropEndWhile_idem _ _
  refine rebase_ofModule hplain (by rw [htrim]; exact hne) ?_
  rw [htrim, htext]
  exact relativePath?_append (head?_rootText hroot hne) hhead

/-- The module path of a file below a root, once it is unified there. -/
theorem modulePath?_relocate {tail : List Char} (hroot : root.absolute = true)
    (hplain : Plain p.text.toList) (htext : p.text.toList = rootText root ++ tail)
    (hbackslash : '\\' ∉ root.text.toList)
    (hhead : rootText root ≠ [] → tail.head? = none ∨ tail.head? = some '/') :
    (relocate root.text (ofModule p.text)).modulePath? =
      some (String.ofList (if rootText root = [] then tail else belowRoot tail)) := by
  by_cases hempty : rootText root = []
  · unfold relocate
    rw [hempty, List.nil_append] at htext
    rw [unifyRoot_of_plain hbackslash, if_pos hempty, hempty]
    rw [if_pos (by decide), modulePath?_ofModule hplain, ← htext, String.ofList_toList]
  · have hbelow : Plain (belowRoot tail) := by
      rw [htext] at hplain
      exact plain_belowRoot ⟨fun h => hplain.1 (List.mem_append_right _ h),
        fun h => hplain.2 (List.mem_append_right _ h)⟩
    rw [if_neg hempty, relocate_ofModule hroot hplain htext hbackslash hempty (hhead hempty),
      modulePath?_ofModule (by rw [String.toList_ofList]; exact hbelow)]

theorem belowRoot_injective {a b : List Char} (ha : a.head? = none ∨ a.head? = some '/')
    (hb : b.head? = none ∨ b.head? = some '/') (h : belowRoot a = belowRoot b) : a = b := by
  cases a with
  | nil =>
    cases b with
    | nil => rfl
    | cons d b => cases h
  | cons c a =>
    cases b with
    | nil => cases h
    | cons d b =>
      have htails : a = b := by
        simpa [belowRoot] using h
      rcases ha with ha | ha
      · cases ha
      · rcases hb with hb | hb
        · cases hb
        · cases ha
          cases hb
          rw [htails]

/-- Files below one root whose modules have the same path are the same file. -/
theorem ownPath_injective {q : Path} (hroot : root.absolute = true)
    (hp : (root.partsBelow? p).isSome) (hq : (root.partsBelow? q).isSome)
    (hplain : Plain p.text.toList) (hplain' : Plain q.text.toList)
    (h : (relocate root.text (ofModule p.text)).modulePath? =
      (relocate root.text (ofModule q.text)).modulePath?) : p.text = q.text := by
  obtain ⟨restP, hrestP⟩ := Option.isSome_iff_exists.mp hp
  obtain ⟨restQ, hrestQ⟩ := Option.isSome_iff_exists.mp hq
  -- the root is the start of a plain path
  have hbackslash : '\\' ∉ root.text.toList := by
    obtain ⟨tail, htail, -⟩ := Path.text_of_below hroot hrestP
    rw [htail] at hplain
    exact fun hmem => hplain.2 (List.mem_append_left _ hmem)
  obtain ⟨tailP, htextP, hheadP⟩ := text_eq_rootText_append hroot hrestP
  obtain ⟨tailQ, htextQ, hheadQ⟩ := text_eq_rootText_append hroot hrestQ
  rw [modulePath?_relocate hroot hplain htextP hbackslash hheadP,
    modulePath?_relocate hroot hplain' htextQ hbackslash hheadQ] at h
  have h := String.ofList_injective (Option.some.inj h)
  have htails : tailP = tailQ := by
    by_cases hempty : rootText root = []
    · rwa [if_pos hempty, if_pos hempty] at h
    · rw [if_neg hempty, if_neg hempty] at h
      exact belowRoot_injective (hheadP hempty) (hheadQ hempty) h
  rw [← String.toList_inj, htextP, htextQ, htails]

end Model

end CodeConcepts
