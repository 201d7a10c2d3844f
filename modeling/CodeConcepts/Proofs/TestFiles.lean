import CodeConcepts.Proofs.Enumeration
import Mathlib.Data.List.TakeWhile

/-!
# Which tests are left out

A project may leave out its tests, the files whose names end in `.test` or `.spec` and an extension
of sources (`IsTestForm`). The setting looks for such a mark behind the first dot of a name
(`MarkedFirst`), not in front of the extension. The two agree on names with at most two dots
(`markedFirst_iff_of_count_le`), and for these the setting drops exactly the tests
(`test_files_left_out`). With a dot in the stem a test is kept, and a file that has a mark in the
middle of its name is dropped (`dotted_tests_kept`).
-/

namespace CodeConcepts

variable {name : String}

theorem Text.startsWith_iff {start s : String} :
    startsWith start s = true ↔ ∃ rest, s = start ++ rest := by
  unfold startsWith
  rw [Option.isSome_iff_exists]
  constructor
  · rintro ⟨cs, hcs⟩
    refine ⟨String.ofList cs, String.toList_injective ?_⟩
    rw [String.toList_append, String.toList_ofList]
    exact afterStart?_eq_some.mp hcs
  · rintro ⟨rest, rfl⟩
    exact ⟨rest.toList, afterStart?_eq_some.mpr String.toList_append⟩

namespace Sources

/-- What marks the name of a test. -/
def marks : List String := ["test", "spec"]

/-- The name of a test: any stem, a mark, and an extension of sources. -/
def IsTestForm (name : String) : Prop :=
  ∃ stem, ∃ mark ∈ marks, ∃ e ∈ ["ts", "tsx", "mts", "cts"],
    name = stem ++ "." ++ mark ++ "." ++ e

/-- A name with a mark between its first two dots. -/
def MarkedFirst (name : String) : Prop :=
  ∃ stem, ∃ mark ∈ marks, ∃ rest, '.' ∉ stem.toList ∧ name = stem ++ "." ++ mark ++ "." ++ rest

theorem isTestName_iff : isTestName name = true ↔ MarkedFirst name := by
  have hmarks : isTestName name = true ↔ ∃ mark ∈ marks, ∃ rest : String,
      name.toList.dropWhile (· ≠ '.') = '.' :: (mark.toList ++ '.' :: rest.toList) := by
    simp only [isTestName, Bool.or_eq_true, Text.startsWith_iff, marks, String.ext_iff,
      String.toList_append, String.toList_ofList]
    simp
  rw [hmarks]
  constructor
  · rintro ⟨mark, hmark, rest, hrest⟩
    refine ⟨String.ofList (name.toList.takeWhile (· ≠ '.')), mark, hmark, rest, ?_, ?_⟩
    · rw [String.toList_ofList]
      intro hdot
      simpa using List.mem_takeWhile_imp hdot
    · have hsplit : name.toList =
          name.toList.takeWhile (· ≠ '.') ++ name.toList.dropWhile (· ≠ '.') :=
        List.takeWhile_append_dropWhile.symm
      rw [hrest] at hsplit
      exact String.toList_injective (hsplit.trans (by simp))
  · rintro ⟨stem, mark, hmark, rest, hstem, rfl⟩
    refine ⟨mark, hmark, rest, ?_⟩
    have hall : ∀ c ∈ stem.toList, decide (c ≠ '.') = true :=
      fun c hc => decide_eq_true fun e => hstem (e ▸ hc)
    have htext : (stem ++ "." ++ mark ++ "." ++ rest).toList =
        stem.toList ++ '.' :: (mark.toList ++ '.' :: rest.toList) := by simp
    rw [htext, List.dropWhile_append_of_pos hall, List.dropWhile_cons_of_neg (by simp)]

theorem count_marked (stem mark rest : String) (hmark : '.' ∉ mark.toList) :
    (stem ++ "." ++ mark ++ "." ++ rest).toList.count '.' =
      stem.toList.count '.' + rest.toList.count '.' + 2 := by
  have htext : (stem ++ "." ++ mark ++ "." ++ rest).toList =
      stem.toList ++ '.' :: (mark.toList ++ '.' :: rest.toList) := by simp
  rw [htext, List.count_append, List.count_cons_self, List.count_append, List.count_cons_self,
    List.count_eq_zero_of_not_mem hmark]
  omega

/-- On the name of a source with at most two dots a mark behind the first one stands in front of the
extension. -/
theorem markedFirst_iff_of_count_le (hsource : IsSourceName name)
    (hdots : name.toList.count '.' ≤ 2) : MarkedFirst name ↔ IsTestForm name := by
  have hmarks : ∀ mark ∈ marks, '.' ∉ mark.toList := by decide
  constructor
  · rintro ⟨stem, mark, hmark, rest, -, hname⟩
    have hrest : '.' ∉ rest.toList := by
      rw [hname, count_marked stem mark rest (hmarks mark hmark)] at hdots
      exact List.count_eq_zero.mp (by omega)
    -- so the rest is the extension of the name
    obtain ⟨front, hfront, e, he, hname'⟩ := hsource.1
    have hfree : ∀ e ∈ ["ts", "tsx", "mts", "cts"], '.' ∉ e.toList := by decide
    have hext : Path.extensionOf? name = some e :=
      Path.extensionOf?_eq_some.mpr ⟨hfree e he, front, hfront, hname'⟩
    have hext' : Path.extensionOf? name = some rest := by
      refine Path.extensionOf?_eq_some.mpr ⟨hrest, stem ++ "." ++ mark, ?_, hname⟩
      intro hempty
      have := congrArg String.toList hempty
      simp at this
    obtain rfl := Option.some.inj (hext.symm.trans hext')
    exact ⟨stem, mark, hmark, e, he, hname⟩
  · rintro ⟨stem, mark, hmark, e, he, rfl⟩
    refine ⟨stem, mark, hmark, e, ?_, rfl⟩
    rw [count_marked stem mark e (hmarks mark hmark)] at hdots
    exact List.count_eq_zero.mp (by omega)

/-- The files that count without tests are those that count with them and have no name of a
test. -/
theorem counts_without_tests {t : FileTree} {c : Config} {place directories : List String} :
    Counts t { c with includeTestFiles := some false } place directories name ↔
      Counts t { c with includeTestFiles := some true } place directories name ∧
        isTestName name = false := by
  constructor
  · intro h
    exact ⟨⟨h.file, h.source, h.entered, h.allowed, nofun⟩, h.noTest rfl⟩
  · rintro ⟨h, hname⟩
    exact ⟨h.file, h.source, h.entered, h.allowed, fun _ => hname⟩

/-- Leaving out tests drops a source exactly if a mark stands behind the first dot of its name, and
so, of the names with at most two dots, exactly those of tests. -/
theorem test_files_left_out {t : FileTree} {root : Path} {place : List String} (c : Config)
    (hroot : t.locate? root = some place) (hdirectory : t.isDirectoryAt place = true) :
    ∃ all kept, collect? t { c with includeTestFiles := some true } root = some all ∧
      collect? t { c with includeTestFiles := some false } root = some kept ∧
      (∀ p ∈ kept, p ∈ all) ∧
      ∀ p ∈ all, ∃ directories name,
        p = ⟨root.absolute, root.parts ++ (directories ++ [name])⟩ ∧
        (p ∉ kept ↔ MarkedFirst name) ∧
        (name.toList.count '.' ≤ 2 → (p ∉ kept ↔ IsTestForm name)) := by
  obtain ⟨all, hall⟩ := exists_collect? { c with includeTestFiles := some true } hroot
  obtain ⟨kept, hkept⟩ := exists_collect? { c with includeTestFiles := some false } hroot
  refine ⟨all, kept, hall, hkept, fun p hp => ?_, fun p hp => ?_⟩
  · obtain ⟨directories, name, rfl, h⟩ := (mem_collect? hroot hdirectory hkept p).mp hp
    exact (mem_collect? hroot hdirectory hall _).mpr
      ⟨directories, name, rfl, (counts_without_tests.mp h).1⟩
  · obtain ⟨directories, name, rfl, h⟩ := (mem_collect? hroot hdirectory hall p).mp hp
    have hdropped : (⟨root.absolute, root.parts ++ (directories ++ [name])⟩ : Path) ∉ kept ↔
        MarkedFirst name := by
      rw [mem_collect? hroot hdirectory hkept, ← isTestName_iff]
      constructor
      · intro hout
        by_contra htest
        have hname := Bool.eq_false_iff.mpr htest
        exact hout ⟨directories, name, rfl, counts_without_tests.mpr ⟨h, hname⟩⟩
      · rintro htest ⟨directories', name', he, h'⟩
        have hsame := List.append_cancel_left (Path.mk.inj he).2
        obtain ⟨-, hname⟩ := List.append_inj' hsame rfl
        obtain rfl := List.singleton_inj.mp hname
        rw [(counts_without_tests.mp h').2] at htest
        cases htest
    exact ⟨directories, name, rfl, hdropped, fun hdots =>
      hdropped.trans (markedFirst_iff_of_count_le h.source hdots)⟩

/-- A project at `/p` with the test of a service, a helper for tests, and a plain test. -/
def serviceTree : FileTree where
  directories := [["p"]]
  files := [["p", "a.test.helper.ts"], ["p", "b.spec.ts"], ["p", "user.service.spec.ts"]].map
    fun path => ⟨path, .empty, []⟩

theorem test_files_left_out_plain :
    serviceTree.locate? ⟨true, ["p"]⟩ = some ["p"] ∧ serviceTree.isDirectoryAt ["p"] = true ∧
      ∃ kept, collect? serviceTree ⟨false, [], some false⟩ ⟨true, ["p"]⟩ = some kept ∧
        (⟨true, ["p", "b.spec.ts"]⟩ : Path) ∉ kept := by
  have hroot : serviceTree.locate? ⟨true, ["p"]⟩ = some ["p"] := by decide +kernel
  have hdirectory : serviceTree.isDirectoryAt ["p"] = true := by decide +kernel
  refine ⟨hroot, hdirectory, ?_⟩
  obtain ⟨all, kept, hall, hkept, -, hdropped⟩ :=
    test_files_left_out ⟨false, [], none⟩ hroot hdirectory
  have hmem : (⟨true, ["p", "b.spec.ts"]⟩ : Path) ∈ all := by
    have hsorted : collect? serviceTree ⟨false, [], some true⟩ ⟨true, ["p"]⟩ =
        some [⟨true, ["p", "a.test.helper.ts"]⟩, ⟨true, ["p", "b.spec.ts"]⟩,
          ⟨true, ["p", "user.service.spec.ts"]⟩] :=
      collect?_of_sorted hroot (by decide +kernel) (by decide +kernel)
    rw [Option.some.inj (hall.symm.trans hsorted)]
    decide
  obtain ⟨directories, name, hp, -, hform⟩ := hdropped _ hmem
  have hname : directories ++ [name] = [] ++ ["b.spec.ts"] :=
    List.append_cancel_left (Path.mk.inj hp).2.symm
  obtain rfl := List.singleton_inj.mp (List.append_inj' hname rfl).2
  exact ⟨kept, hkept, (hform (by decide)).mpr
    ⟨"b", "spec", by decide, "ts", by decide, by decide⟩⟩

/-- Without tests the test of the service is still there, since its name has a dot in front of the
mark; and the helper, which is no test, is not. -/
theorem dotted_tests_kept :
    IsTestForm "user.service.spec.ts" ∧ ¬ IsTestForm "a.test.helper.ts" ∧
      collect? serviceTree ⟨false, [], some true⟩ ⟨true, ["p"]⟩ =
        some [⟨true, ["p", "a.test.helper.ts"]⟩, ⟨true, ["p", "b.spec.ts"]⟩,
          ⟨true, ["p", "user.service.spec.ts"]⟩] ∧
      collect? serviceTree ⟨false, [], some false⟩ ⟨true, ["p"]⟩ =
        some [⟨true, ["p", "user.service.spec.ts"]⟩] := by
  have hroot : serviceTree.locate? ⟨true, ["p"]⟩ = some ["p"] := by decide +kernel
  refine ⟨⟨"user.service", "spec", by decide, "ts", by decide, by decide⟩, ?_,
    collect?_of_sorted hroot (by decide +kernel) (by decide +kernel),
    collect?_of_sorted hroot (by decide +kernel) (by decide +kernel)⟩
  rintro ⟨stem, mark, hmark, e, he, hname⟩
  have hends : ∀ mark ∈ marks, ∀ e ∈ ["ts", "tsx", "mts", "cts"],
      Text.endsWith ("." ++ mark ++ "." ++ e) "a.test.helper.ts" = false := by decide
  have hend : Text.endsWith ("." ++ mark ++ "." ++ e) "a.test.helper.ts" = true :=
    Text.endsWith_iff.mpr ⟨stem, hname.trans (by simp [String.append_assoc])⟩
  rw [hends mark hmark e he] at hend
  cases hend

end Sources

end CodeConcepts
