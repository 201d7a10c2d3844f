import CodeConcepts.Proofs.Collisions
import CodeConcepts.Proofs.Completion
import CodeConcepts.Proofs.RecordNesting

/-!
# Reading back the model of a run

The reader refuses a text whose arrays and objects are nested more than 127 levels deep, while a
file is accepted if its tree is at most 400 levels deep. A level of a tree can become two levels of
the text. So the model of every run whose trees are at most 62 levels deep is read back, and a model
that nests deeper than the reader allows is not, in either style (`Extraction.run_reads_back`).
-/

namespace CodeConcepts

variable {e : Extraction}

theorem Model.ofText_render_eq {m : Model} (hvalues : m.ValuesOrdered) (hexact : m.encode.Exact)
    (style : Json.Style) : ofText (m.render style) =
      if m.encode.depth < 128 then .ok m else .error .malformed := by
  have hlimit : m.encode.depth ≤ Json.nestingLimit ↔ m.encode.depth < 128 := Nat.lt_succ_iff.symm
  rw [ofText, render, Json.parse?_render_eq hexact (ordered_encode hvalues) style]
  by_cases hdepth : m.encode.depth < 128
  · rw [if_pos hdepth, if_pos (hlimit.mpr hdepth)]
    exact decode_encode hvalues hexact
  · rw [if_neg hdepth, if_neg (mt hlimit.mp hdepth)]

/-- All records of a model nest at most `b` levels deep and have their values in order. -/
def Model.Legible (b : Nat) (m : Model) : Prop := ∀ k, ∀ r ∈ m.get k, k.Legible b r

namespace Model

variable {b : Nat} {m u : Model}

theorem Legible.valuesOrdered (h : m.Legible b) : m.ValuesOrdered :=
  fun k r hr => (h k r hr).ordered

theorem Legible.depth_le (h : m.Legible b) : m.encode.depth ≤ b + 2 :=
  depth_encode_le fun k r hr => (h k r hr).depth_le

theorem Legible.mapNames (h : m.Legible b) (f : QName → QName) :
    (HasNames.mapNames f m : Model).Legible b := by
  intro k r hr
  rw [get_mapNames] at hr
  obtain ⟨s, hs, rfl⟩ := List.mem_map.mp hr
  exact (h k s hs).mapNames f

/-- A model is legible if its records that hold types or values are. -/
theorem legible_of_not_flat (hb : 1 ≤ b)
    (h : ∀ k, k.isFlat = false → ∀ r ∈ m.get k, k.Legible b r) : m.Legible b := by
  intro k r hr
  cases hflat : k.isFlat with
  | true => exact .of_isFlat hflat hb
  | false => exact h k hflat r hr

theorem Legible.unify (hb : 1 ≤ b) (h : m.Legible b) {root : String} (hu : m.unify root = .ok u) :
    u.Legible b := by
  unfold Model.unify at hu
  dsimp only at hu
  split at hu
  · obtain ⟨ps, -, hu⟩ := bind_eq_ok.mp hu
    obtain ⟨-, rfl⟩ := requireDistinct_eq_ok.mp hu
    refine legible_of_not_flat hb fun k hflat => ?_
    have hne : Kind.project ≠ k := by
      rintro rfl
      cases hflat
    rw [get_set_of_ne _ _ hne]
    exact h k
  · obtain ⟨-, rfl⟩ := requireDistinct_eq_ok.mp hu
    exact h.mapNames _

theorem isIdentified_of_not_flat {k : Kind} (h : k.isFlat = false) : k.isIdentified = true := by
  cases k <;> first | rfl | cases h

theorem Legible.complete (hb : 1 ≤ b) (h : m.Legible b) (hone : m.projects.length = 1)
    (hu : m.complete = .ok u) : u.Legible b := by
  obtain ⟨r, hr, hget⟩ := complete_of_one hone
  cases hr.symm.trans hu
  refine legible_of_not_flat hb fun k hflat => ?_
  rw [hget k (isIdentified_of_not_flat hflat), resolveExports_eq_mapNames]
  exact h.mapNames _ k

end Model

namespace Extraction

variable {b : Nat} {s : Setting}

theorem legible_ofFiles {paths : List Path} (hb : 1 ≤ b)
    (h : ∀ p ∈ paths, ∀ m, contribution? s p = some m → m.Legible b) :
    (ofFiles s paths).model.Legible b := by
  refine Model.legible_of_not_flat hb fun k hflat r hr => ?_
  have hseed : (seed s.root).get k = [] := by cases k <;> first | rfl | cases hflat
  unfold ofFiles at hr
  rw [get_foldl_addFile] at hr
  dsimp only at hr
  rw [hseed, List.nil_append] at hr
  obtain ⟨m, hm, hr⟩ := List.mem_flatMap.mp hr
  obtain ⟨p, hp, hm⟩ := List.mem_filterMap.mp hm
  exact h p hp m hm k r hr

theorem legible_finish {paths : List Path} (hb : 1 ≤ b) (h : (ofFiles s paths).model.Legible b)
    (he : (ofFiles s paths).finish = .ok e) : e.model.Legible b := by
  unfold finish at he
  obtain ⟨u, hu, he⟩ := bind_eq_ok.mp he
  obtain ⟨c, hc, he⟩ := bind_eq_ok.mp he
  cases he
  obtain ⟨-, rfl⟩ := unify_ofFiles.mp hu
  exact h.complete hb (by rw [projects_ofFiles]; rfl) hc

/-- A file contributes records that nest at most `2 * d + 1` levels deep if its tree is at most `d`
levels deep. -/
theorem legible_contribution {d : Nat} {p : Path} {m : Model}
    (hdepth : ∀ f t, s.tree.file? p = some f → Source.parse f = .ok t → t.exceedsDepth d = false)
    (h : contribution? s p = some m) : m.Legible (2 * d + 1) := by
  obtain ⟨source, n, hread, hn, hu⟩ := contribution?_eq_some h
  obtain ⟨f, t, hf, ht, rfl⟩ := read_eq_ok hread
  have hheight := Syntax.Tree.exceedsDepth_eq_false_iff.mp
    ((exceedsDepth_analyse (Source.originOf s.tree s.root p).resolve (.ofModule p.text) d t).trans
      (hdepth f t hf ht))
  have hlegible : n.Legible (2 * d + 1) := fun k r hr =>
    (Extract.legible_fileModel hn k r hr).mono (by dsimp only; omega)
  exact hlegible.unify (by omega) hu

theorem run_eq_ok {tree : FileTree} {config : Config} {table : List Extract.Extractor}
    {root : String} (h : run tree config table root = .ok e) :
    ∃ place, (ofFiles (settingAt tree config table place)
      (sourcesAt tree config place)).finish = .ok e := by
  cases hroot : tree.locateText? root with
  | none =>
    unfold run at h
    rw [hroot] at h
    cases h
  | some place =>
    refine ⟨place, ?_⟩
    rw [run_eq hroot] at h
    cases hfinish : (ofFiles (settingAt tree config table place)
      (sourcesAt tree config place)).finish with
    | error v =>
      rw [hfinish] at h
      cases h
    | ok e' =>
      rw [hfinish] at h
      cases h
      rfl

theorem legible_run {tree : FileTree} {config : Config} {table : List Extract.Extractor}
    {root : String} (hrun : run tree config table root = .ok e) {d : Nat}
    (hdepth : ∀ p f t, tree.file? p = some f → Source.parse f = .ok t → t.exceedsDepth d = false) :
    e.model.Legible (2 * d + 1) := by
  obtain ⟨place, hfinish⟩ := run_eq_ok hrun
  refine legible_finish (by omega) (legible_ofFiles (by omega) fun p _ m hm => ?_) hfinish
  exact legible_contribution (hdepth p) hm

theorem exceedsDepth_of_parse {f : StoredFile} {t : Syntax.Tree Unit} (h : Source.parse f = .ok t) :
    t.exceedsDepth Extract.depthLimit = false := by
  unfold Source.parse at h
  split at h
  case h_1 => cases h
  case h_2 u hu =>
    split at h
    case isTrue => cases h
    case isFalse hdepth =>
      split at h
      case h_1 => cases h
      case h_2 =>
        cases h
        exact Bool.eq_false_iff.mpr hdepth

/-- The model of a run is read back from its text, in either style, just when it nests less than 128
levels deep. Trees that are `d` levels deep make a model of at most `2 * d + 3` levels, so the model
of a run over trees of at most 62 levels is read back. -/
theorem run_reads_back {tree : FileTree} {config : Config} {table : List Extract.Extractor}
    {root : String} {e : Extraction} (hrun : run tree config table root = .ok e)
    (hexact : e.model.encode.Exact) :
    (∀ style, Model.ofText (e.model.render style) =
      if e.model.encode.depth < 128 then .ok e.model else .error .malformed) ∧
    (∀ d, (∀ p f t, tree.file? p = some f → Source.parse f = .ok t → t.exceedsDepth d = false) →
      e.model.encode.depth ≤ 2 * d + 3) ∧
    ((∀ p f t, tree.file? p = some f → Source.parse f = .ok t → t.exceedsDepth 62 = false) →
      ∀ style, Model.ofText (e.model.render style) = .ok e.model) := by
  have hlegible : e.model.Legible _ := legible_run hrun fun _ _ _ _ => exceedsDepth_of_parse
  have hread := Model.ofText_render_eq hlegible.valuesOrdered hexact
  refine ⟨hread, fun d hdepth => (legible_run hrun hdepth).depth_le, fun hdepth style => ?_⟩
  have hmodel : e.model.encode.depth ≤ 127 := (legible_run hrun hdepth).depth_le
  rw [hread style, if_pos (by omega)]

/-- The rows of a type in a number of nested tuples, at a depth and a position. -/
def tupleRows : Nat → Nat → Nat → List String → List Syntax.Row
  | 0, depth, start, roles => [.construct depth "type_identifier" roles start (start + 1)]
  | k + 1, depth, start, roles =>
    .construct depth "tuple_type" roles start (start + 2 * k + 3) ::
      .token (depth + 1) "[" start (start + 1) ::
      tupleRows k (depth + 1) (start + 1) [] ++
        [.token (depth + 1) "]" (start + 2 * k + 2) (start + 2 * k + 3)]

/-- A project with one file, which declares a type in `k` nested tuples. -/
def tupleTree (k : Nat) : FileTree where
  directories := [["p"]]
  files := [{
    path := ["p", "a.ts"]
    content := ("type T = " ++ String.ofList (List.replicate k '[') ++ "X" ++
      String.ofList (List.replicate k ']') ++ ";\n").toUTF8
    rows :=
      .construct 0 "program" [] 0 (2 * k + 12) ::
        .construct 1 "type_alias_declaration" [] 0 (2 * k + 11) :: .token 2 "type" 0 4 ::
        .construct 2 "type_identifier" ["name"] 5 6 :: .token 2 "=" 7 8 ::
        tupleRows k 2 9 ["value"] ++ [.token 2 ";" (2 * k + 10) (2 * k + 11)] }]

/-- A run over a file whose tree has 64 levels, far fewer than are allowed, has an outcome that is
not read back in either style. -/
theorem run_reads_back_deep_tuple :
    ∃ e, run (tupleTree 62) .standard Extract.Extractor.all "/p" = .ok e ∧
      e.model.encode.Exact ∧
      ∀ style, Model.ofText (e.model.render style) = .error .malformed := by
  have hroot : (tupleTree 62).locateText? "/p" = some ["p"] := by decide +kernel
  have hsources : sourcesAt (tupleTree 62) .standard ["p"] = [⟨true, ["p", "a.ts"]⟩] :=
    sourcesAt_of_sorted (by decide +kernel) (by decide +kernel) (by decide +kernel)
  have hdeep : (ofFiles (sampleSetting (tupleTree 62)) [⟨true, ["p", "a.ts"]⟩]).finish.toOption.any
      (fun e => decide (e.model.encode.Exact ∧ ¬ e.model.encode.depth < 128)) = true := by
    decide +kernel
  cases hfinish : (ofFiles (sampleSetting (tupleTree 62)) [⟨true, ["p", "a.ts"]⟩]).finish with
  | error v =>
      rw [hfinish] at hdeep
      cases hdeep
  | ok e =>
      rw [hfinish] at hdeep
      obtain ⟨hexact, hdepth⟩ := of_decide_eq_true hdeep
      have hrun : run (tupleTree 62) .standard Extract.Extractor.all "/p" = .ok e := by
        rw [run_eq hroot, hsources]
        exact congrArg (Except.mapError RunFault.violation) hfinish
      refine ⟨e, hrun, hexact, fun style => ?_⟩
      rw [(run_reads_back hrun hexact).1 style, if_neg hdepth]

end Extraction

end CodeConcepts
