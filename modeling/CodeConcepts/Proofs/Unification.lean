import CodeConcepts.Proofs.Merging
import CodeConcepts.Proofs.Rebasing
import CodeConcepts.Proofs.Renaming

/-!
# Unification at a root

Unifying a model at an absolute root rebases every name, at every depth, and changes nothing else
(`unify_rewrites_names`); the backslashes of the root count as slashes. It fails only where two
records of an identified kind get the same name (`unify_succeeds_iff`), and what it gives is left
alone by a second run.
-/

namespace CodeConcepts

namespace QName

/-- Only the trimmed root matters. -/
theorem rebase_congr_root {root root' : String} (h : trimRoot root = trimRoot root') (n : QName) :
    n.rebase root = n.rebase root' := by
  unfold rebase
  rw [h]

end QName

namespace Model

/-! ## The root -/

theorem slashed_of_plain {root : String} (h : '\\' ∉ root.toList) : Path.slashed root = root := by
  unfold Path.slashed
  rw [QName.map_slash_of_plain h, String.ofList_toList]

theorem trimRoot_unifyRoot (root : String) :
    QName.trimRoot (unifyRoot root) = QName.trimRoot (Path.slashed root) := by
  unfold QName.trimRoot unifyRoot Path.slashed
  rw [String.toList_ofList, String.toList_ofList]
  exact Text.dropEndWhile_idem _ _

theorem rebase_unifyRoot (root : String) :
    QName.rebase (unifyRoot root) = QName.rebase (Path.slashed root) :=
  funext (QName.rebase_congr_root (trimRoot_unifyRoot root))

/-- An absolute root: it starts with a slash and goes on with something else than slashes. -/
def AbsoluteRoot (root : String) : Prop :=
  root.toList.head? = some '/' ∧ ∃ c ∈ root.toList, c ≠ '/' ∧ c ≠ '\\'

instance (root : String) : Decidable (AbsoluteRoot root) :=
  @instDecidableAnd _ _ inferInstance (List.decidableBEx _ root.toList)

/-- Records of an identified kind are told apart by their names alone. -/
theorem nodup_identities_map {k : Kind} (hk : k.isIdentified = true) (g : QName → QName)
    (m : Model) :
    ((m.identities k).map g).Nodup ↔
      (m.get k).Pairwise fun a b => (k.fqn? a).map g ≠ (k.fqn? b).map g := by
  have hname (r : k.Record) : ∃ n, k.fqn? r = some n := by
    cases k <;> first | exact ⟨_, rfl⟩ | cases hk
  unfold identities List.Nodup
  rw [List.pairwise_map, List.pairwise_filterMap]
  refine List.Pairwise.iff fun a b => ?_
  obtain ⟨x, hx⟩ := hname a
  obtain ⟨y, hy⟩ := hname b
  simp [hx, hy]

section AtRoot

variable {root : String} (hroot : AbsoluteRoot root)

include hroot

theorem head?_trimRoot_slashed : (QName.trimRoot (Path.slashed root)).head? = some '/' := by
  obtain ⟨hhead, c, hc, hslash, hback⟩ := hroot
  have hslashed : (Path.slashed root).toList =
      root.toList.map fun c => if c = '\\' then '/' else c := String.toList_ofList
  obtain ⟨slashes, happend, hall⟩ : ∃ slashes,
      (Path.slashed root).toList = QName.trimRoot (Path.slashed root) ++ slashes ∧
        ∀ c ∈ slashes, (c == '/') = true := Text.dropEndWhile_append _ _
  have hne : QName.trimRoot (Path.slashed root) ≠ [] := by
    intro hnil
    have hmem : c ∈ (Path.slashed root).toList := by
      rw [hslashed]
      exact List.mem_map.mpr ⟨c, hc, if_neg hback⟩
    rw [happend] at hmem
    rcases List.mem_append.mp hmem with hmem | hmem
    · rw [hnil] at hmem
      exact absurd hmem List.not_mem_nil
    · exact hslash (by simpa using hall c hmem)
  have hstart : (Path.slashed root).toList.head? = some '/' := by
    rw [hslashed, List.head?_map, hhead]
    rfl
  rw [happend, List.head?_append_of_ne_nil _ hne] at hstart
  exact hstart

/-- At an absolute root no projects are folded. -/
theorem unify_eq_requireDistinct (m : Model) :
    m.unify root = requireDistinct (mapNames (QName.rebase (Path.slashed root)) m) := by
  have hne : (unifyRoot root).isEmpty = false := by
    have htrim := head?_trimRoot_slashed hroot
    rw [← trimRoot_unifyRoot] at htrim
    cases hempty : (unifyRoot root).isEmpty with
    | false => rfl
    | true =>
      rw [String.isEmpty_iff.mp hempty] at htrim
      exact absurd htrim (by decide)
  unfold unify
  dsimp only
  rw [hne, rebase_unifyRoot]
  rfl

/-- Unification succeeds just when no two records of an identified kind get the same name. -/
theorem unify_succeeds_iff (m : Model) :
    (∃ u, m.unify root = .ok u) ↔ ∀ k, k.isIdentified = true →
      (m.get k).Pairwise fun a b =>
        (k.fqn? a).map (QName.rebase (Path.slashed root)) ≠
          (k.fqn? b).map (QName.rebase (Path.slashed root)) := by
  have hnodup := duplicates_eq_nil (m := mapNames (QName.rebase (Path.slashed root)) m)
  simp only [identities_mapNames] at hnodup
  rw [unify_eq_requireDistinct hroot,
    ← forall₂_congr fun k hk => nodup_identities_map hk (QName.rebase (Path.slashed root)) m,
    ← hnodup]
  constructor
  · rintro ⟨u, hu⟩
    exact (requireDistinct_eq_ok.mp hu).1
  · intro h
    exact ⟨_, requireDistinct_eq_ok.mpr ⟨h, rfl⟩⟩

end AtRoot

/-- Unification at an absolute root is a complete, pure and idempotent rewriting of names. The
backslashes of the root count as slashes. -/
theorem unify_rewrites_names {root : String} {m : Model} (hroot : AbsoluteRoot root)
    (hplain : ∀ n ∈ names m, ∀ path ∈ n.modulePath?, '\\' ∉ path.toList) :
    ((∃ u, m.unify root = .ok u) ↔ ∀ k, k.isIdentified = true →
      (m.get k).Pairwise fun a b =>
        (k.fqn? a).map (QName.rebase (Path.slashed root)) ≠
          (k.fqn? b).map (QName.rebase (Path.slashed root))) ∧
      (∀ u, m.unify root = .ok u →
        Corresponds (fun n n' => n' = n.rebase (Path.slashed root) ∧
          ∀ path ∈ n'.modulePath?, path.toList.head? ≠ some '/') m u ∧
        u.unify root = .ok u) ∧
      ('\\' ∉ root.toList → Path.slashed root = root) := by
  have htrim := head?_trimRoot_slashed hroot
  refine ⟨unify_succeeds_iff hroot m, fun u hu => ?_, slashed_of_plain⟩
  rw [unify_eq_requireDistinct hroot, requireDistinct_eq_ok] at hu ⊢
  obtain ⟨hdup, rfl⟩ := hu
  constructor
  · exact corresponds_mapNames fun n hn =>
      ⟨rfl, QName.head?_modulePath?_rebase htrim (hplain n hn)⟩
  · have hself : mapNames (QName.rebase (Path.slashed root))
        (mapNames (QName.rebase (Path.slashed root)) m) =
          mapNames (QName.rebase (Path.slashed root)) m := by
      refine mapNames_eq_self fun n' hn' => ?_
      rw [names_mapNames] at hn'
      obtain ⟨n, hn, rfl⟩ := List.mem_map.mp hn'
      exact QName.rebase_rebase htrim (hplain n hn)
    rw [hself]
    exact ⟨hdup, rfl⟩

/-- A variable with names at several depths: of a file below the root, of one beside it and of a
package. -/
def nestedNames (below beside package : QName) : Model :=
  ofConcepts [⟨.variable, {
    fqn := below
    name := "v"
    kind := .const
    type := .function [⟨0, "p", .union [.declared beside [.declared package []]], false⟩]
      (.tuple [.declared below []])
    initValue := some (.object [("a", .call (.declared beside) [.declared package])])
    coordinates := ⟨"./a.ts", 1, 1, 1, 9⟩ }⟩]

theorem unify_rewrites_names_nested :
    let m := nestedNames ⟨"\"/work/app/a.ts\".v"⟩ ⟨"\"/work/lib/b.ts\".B"⟩ ⟨"\"pkg\".C"⟩
    let u := nestedNames ⟨"\"./a.ts\".v"⟩ ⟨"\"../lib/b.ts\".B"⟩ ⟨"\"pkg\".C"⟩
    (AbsoluteRoot "/work/app/" ∧ ∀ n ∈ names m, ∀ path ∈ n.modulePath?, '\\' ∉ path.toList) ∧
      m.unify "/work/app/" = .ok u ∧
      Corresponds (fun n n' => n' = n.rebase "/work/app/" ∧
        ∀ path ∈ n'.modulePath?, path.toList.head? ≠ some '/') m u ∧
      u.unify "/work/app/" = .ok u := by
  intro m u
  have hroot : AbsoluteRoot "/work/app/" := by decide
  have hplain : ∀ n ∈ names m, ∀ path ∈ n.modulePath?, '\\' ∉ path.toList := by decide
  have hunify : m.unify "/work/app/" = .ok u := by rfl
  obtain ⟨-, hrewrites, hslashed⟩ := unify_rewrites_names hroot hplain
  rw [hslashed (by decide)] at hrewrites
  exact ⟨⟨hroot, hplain⟩, hunify, hrewrites u hunify⟩

/-- With a backslash in the root a name is not rebased at the root as it is written: here that would
give `"../work/app/a.ts"`. -/
theorem unify_at_backslashed_root :
    let m := ofConcepts [⟨.module, ⟨⟨"\"/work/app/a.ts\""⟩, "./a.ts"⟩⟩]
    let u := ofConcepts [⟨.module, ⟨⟨"\"./a.ts\""⟩, "./a.ts"⟩⟩]
    AbsoluteRoot "/work\\app" ∧ (∀ n ∈ names m, ∀ path ∈ n.modulePath?, '\\' ∉ path.toList) ∧
      m.unify "/work\\app" = .ok u ∧
      ¬ Corresponds (fun n n' => n' = n.rebase "/work\\app") m u := by
  intro m u
  refine ⟨by decide, by decide, by rfl, fun h => ?_⟩
  cases h .module with
  | cons hmodule _ => exact absurd hmodule.1 (by decide)

end Model

end CodeConcepts
