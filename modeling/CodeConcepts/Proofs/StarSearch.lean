import CodeConcepts.Model.Exports
import Mathlib.Logic.Relation
import Mathlib.Tactic.ByContra
import Mathlib.Tactic.Tauto

/-!
# The order of the search along stars

`ExportTable.reach` lists the modules reachable along `export *` with a queue and a list of visited
modules. Here it is compared with a description that has neither: `trail stars start k` lists the
ends of all paths of `k` stars, in the order of records and as often as paths lead there.

* `reach_eq` — what `reach` lists are the first occurrences in all trails, the short ones in front;
* `find?_reach_eq_some` — so the first module with a property is one at the least distance, and
  among those the first one in the order of records (`FirstAlong`);
* `find?_reach_eq_none` — and there is none just when no reachable module has the property.
-/

namespace CodeConcepts.ExportTable

variable {p : QName → Bool}

/-! ## First occurrences -/

theorem mem_fresh {visited ss : List QName} {n : QName} :
    n ∈ fresh visited ss ↔ n ∈ ss ∧ n ∉ visited := by
  refine ⟨fun h => ⟨fresh_subset h, not_mem_of_mem_fresh h⟩, ?_⟩
  rintro ⟨hs, hv⟩
  induction ss generalizing visited with
  | nil => exact absurd hs List.not_mem_nil
  | cons s ss ih =>
    rw [fresh]
    by_cases hsv : s ∈ visited
    · rw [if_pos hsv]
      rcases List.mem_cons.mp hs with rfl | hs
      · exact absurd hsv hv
      · exact ih hs hv
    · rw [if_neg hsv]
      by_cases hn : n = s
      · exact hn ▸ List.mem_cons_self
      · refine List.mem_cons_of_mem _ (ih ((List.mem_cons.mp hs).resolve_left hn) ?_)
        rw [List.mem_cons, not_or]
        exact ⟨hn, hv⟩

/-- Only the members of the list of visited modules matter. -/
theorem fresh_congr {v w : List QName} (h : ∀ n, n ∈ v ↔ n ∈ w) (ss : List QName) :
    fresh v ss = fresh w ss := by
  induction ss generalizing v w with
  | nil => rfl
  | cons s ss ih =>
    rw [fresh, fresh, ih h]
    have hcons : fresh (s :: v) ss = fresh (s :: w) ss :=
      ih fun n => by rw [List.mem_cons, List.mem_cons, h]
    simp only [h s, hcons]

theorem fresh_append (v ss rs : List QName) :
    fresh v (ss ++ rs) = fresh v ss ++ fresh (fresh v ss ++ v) rs := by
  induction ss generalizing v with
  | nil => rfl
  | cons s ss ih =>
    rw [List.cons_append, fresh, fresh]
    by_cases hs : s ∈ v
    · rw [if_pos hs, if_pos hs, ih]
    · rw [if_neg hs, if_neg hs, ih, List.cons_append]
      congr 2
      -- `s` was put in front of the visited modules on one side, and among them on the other
      apply fresh_congr
      intro n
      simp only [List.mem_append, List.mem_cons, List.cons_append]
      exact or_left_comm

theorem fresh_eq_nil {v ss : List QName} (h : ∀ s ∈ ss, s ∈ v) : fresh v ss = [] := by
  refine List.eq_nil_iff_forall_not_mem.mpr fun n hn => ?_
  rw [mem_fresh] at hn
  exact hn.2 (h n hn.1)

/-- Dropping repetitions keeps the first member with a property. -/
theorem find?_fresh {v : List QName} (h : ∀ n ∈ v, p n = false) (ss : List QName) :
    (fresh v ss).find? p = ss.find? p := by
  induction ss generalizing v with
  | nil => rfl
  | cons s ss ih =>
    rw [fresh, List.find?_cons]
    by_cases hs : s ∈ v
    · rw [if_pos hs, h s hs, ih h]
    · rw [if_neg hs, List.find?_cons]
      cases hp : p s with
      | true => rfl
      | false =>
        refine ih fun n hn => ?_
        rcases List.mem_cons.mp hn with rfl | hn
        · exact hp
        · exact h n hn

/-- If the successors of all dropped members were visited, dropping them makes no difference to the
fresh successors. -/
theorem fresh_flatMap {f : QName → List QName} {v w : List QName}
    (h : ∀ x ∈ v, ∀ y ∈ f x, y ∈ w) (ss : List QName) :
    fresh w ((fresh v ss).flatMap f) = fresh w (ss.flatMap f) := by
  induction ss generalizing v w with
  | nil => rfl
  | cons s ss ih =>
    rw [fresh, List.flatMap_cons, fresh_append]
    by_cases hs : s ∈ v
    · rw [if_pos hs, ih h, fresh_eq_nil (h s hs)]
      rfl
    · rw [if_neg hs, List.flatMap_cons, fresh_append]
      congr 1
      -- the successors of `s` have just been visited
      apply ih
      intro x hx y hy
      rw [List.mem_append, mem_fresh]
      by_cases hw : y ∈ w
      · exact .inr hw
      · rcases List.mem_cons.mp hx with rfl | hx
        · exact .inl ⟨hy, hw⟩
        · exact absurd (h x hx y hy) hw

/-! ## Trails -/

section Trails

variable (stars : QName → List QName)

/-- The ends of all paths of `k` stars from the modules of a list, in the order of records. -/
def trail (start : List QName) : Nat → List QName
  | 0 => start
  | k + 1 => trail (start.flatMap stars) k

/-- The ends of all paths of fewer than `n` stars, the shorter ones in front. -/
def trails (start : List QName) (n : Nat) : List QName := (List.range n).flatMap (trail stars start)

theorem trails_succ (start : List QName) (n : Nat) :
    trails stars start (n + 1) = start ++ trails stars (start.flatMap stars) n := by
  unfold trails
  rw [List.range_succ_eq_map, List.flatMap_cons, List.flatMap_map]
  rfl

theorem trail_flatMap (start : List QName) (k : Nat) :
    (trail stars start k).flatMap stars = trail stars start (k + 1) := by
  induction k generalizing start with
  | zero => rfl
  | succ k ih => exact ih (start.flatMap stars)

variable {stars}

/-- A list of modules that holds all their stars is never left. -/
theorem trail_subset {v start : List QName} (hstart : ∀ x ∈ start, x ∈ v)
    (hv : ∀ x ∈ v, ∀ y ∈ stars x, y ∈ v) (k : Nat) : ∀ x ∈ trail stars start k, x ∈ v := by
  induction k generalizing start with
  | zero => exact hstart
  | succ k ih =>
    refine ih fun y hy => ?_
    obtain ⟨x, hx, hxy⟩ := List.mem_flatMap.mp hy
    exact hv x (hstart x hx) y hxy

/-- The trails of a module lead to what is reachable from it. -/
theorem mem_trail_iff {m n : QName} :
    (∃ k, n ∈ trail stars [m] k) ↔ Relation.ReflTransGen (fun a b => b ∈ stars a) m n := by
  constructor
  · rintro ⟨k, hk⟩
    induction k generalizing n with
    | zero =>
      rw [trail, List.mem_singleton] at hk
      exact hk ▸ .refl
    | succ k ih =>
      rw [← trail_flatMap] at hk
      obtain ⟨x, hx, hxn⟩ := List.mem_flatMap.mp hk
      exact (ih hx).tail hxn
  · intro h
    induction h with
    | refl => exact ⟨0, List.mem_singleton_self m⟩
    | tail _ hstep ih =>
      obtain ⟨k, hk⟩ := ih
      refine ⟨k + 1, ?_⟩
      rw [← trail_flatMap]
      exact List.mem_flatMap.mpr ⟨_, hk, hstep⟩

end Trails

variable (t : ExportTable)

/-! ## The queue -/

theorem visitFrom_congr {v w : List QName} (h : ∀ n, n ∈ v ↔ n ∈ w) (queue : List QName) :
    t.visitFrom v queue = t.visitFrom w queue := by
  induction v, queue using visitFrom.induct t generalizing w with
  | case1 v => rw [visitFrom, visitFrom]
  | case2 v m queue next =>
    rename_i ih
    rw [visitFrom, visitFrom, ← fresh_congr h (t.stars m)]
    congr 1
    exact ih fun n => by rw [List.mem_append, List.mem_append, h]

/-- The front part of the queue is listed as it is, and its fresh stars queue up behind the rest. -/
theorem visitFrom_append (v front rest : List QName) :
    t.visitFrom v (front ++ rest) =
      front ++ t.visitFrom (fresh v (front.flatMap t.stars) ++ v)
        (rest ++ fresh v (front.flatMap t.stars)) := by
  induction front generalizing v rest with
  | nil =>
    show t.visitFrom v rest = t.visitFrom v (rest ++ [])
    rw [List.append_nil]
  | cons m front ih =>
    rw [List.cons_append, visitFrom, List.append_assoc, ih, List.flatMap_cons, fresh_append,
      List.cons_append, List.append_assoc]
    congr 2
    apply visitFrom_congr
    intro n
    simp only [List.mem_append]
    tauto

/-- The invariant of the search between two distances: `start` holds the ends of the paths of the
present distance, `older` what was visited at smaller ones, and the stars of the latter are visited.
The queue then holds the fresh part of `start`. -/
theorem visitFrom_fresh (older visited start : List QName)
    (hvisited : ∀ n, n ∈ visited ↔ n ∈ older ∨ n ∈ start)
    (hclosed : ∀ x ∈ older, ∀ y ∈ t.stars x, y ∈ visited) :
    ∃ bound, ∀ n ≥ bound,
      t.visitFrom visited (fresh older start) = fresh older (trails t.stars start n) := by
  -- every further distance at which something is new leaves fewer modules to visit
  induction hsize : unvisited t.targets visited using Nat.strongRecOn
    generalizing older visited start with
  | _ size ih =>
  have hlayer : t.visitFrom visited (fresh older start) =
      fresh older start ++ t.visitFrom (fresh visited (start.flatMap t.stars) ++ visited)
        (fresh visited (start.flatMap t.stars)) := by
    have h := visitFrom_append t visited (fresh older start) []
    rw [List.append_nil, List.nil_append, fresh_flatMap hclosed] at h
    exact h
  -- the queue and the trails take one distance off in the same way
  have htrails (n : Nat) : fresh older (trails t.stars start (n + 1)) =
      fresh older start ++ fresh visited (trails t.stars (start.flatMap t.stars) n) := by
    rw [trails_succ, fresh_append]
    congr 1
    apply fresh_congr
    intro x
    rw [List.mem_append, mem_fresh, hvisited]
    tauto
  have hstars : ∀ x ∈ visited, ∀ y ∈ t.stars x,
      y ∈ visited ∨ y ∈ start.flatMap t.stars := by
    intro x hx y hy
    rcases (hvisited x).mp hx with hx | hx
    · exact .inl (hclosed x hx y hy)
    · exact .inr (List.mem_flatMap.mpr ⟨x, hx, hy⟩)
  by_cases hnil : fresh visited (start.flatMap t.stars) = []
  · -- nothing is new at the next distance, so nothing is at any greater one
    have hin : ∀ y ∈ start.flatMap t.stars, y ∈ visited := by
      intro y hy
      by_contra hv
      exact List.eq_nil_iff_forall_not_mem.mp hnil y (mem_fresh.mpr ⟨hy, hv⟩)
    refine ⟨1, fun n hn => ?_⟩
    obtain ⟨k, rfl⟩ := Nat.exists_eq_add_of_le' hn
    rw [hlayer, htrails, hnil, visitFrom]
    congr 1
    refine (fresh_eq_nil fun x hx => ?_).symm
    obtain ⟨j, -, hj⟩ := List.mem_flatMap.mp hx
    exact trail_subset hin (fun a ha b hb => (hstars a ha b hb).elim id (hin b)) j x hj
  · have hless : unvisited t.targets (fresh visited (start.flatMap t.stars) ++ visited) < size := by
      have hle := length_fresh_add_unvisited_le t.targets visited (start.flatMap t.stars) (by
        intro y hy
        obtain ⟨x, -, hxy⟩ := List.mem_flatMap.mp hy
        exact stars_subset_targets hxy)
      have hpos := List.length_pos_iff.mpr hnil
      omega
    obtain ⟨bound, hbound⟩ := ih _ hless visited _ (start.flatMap t.stars) (by
        intro n
        rw [List.mem_append, mem_fresh]
        tauto) (by
        intro x hx y hy
        rw [List.mem_append, mem_fresh]
        have := hstars x hx y hy
        tauto) rfl
    refine ⟨bound + 1, fun n hn => ?_⟩
    obtain ⟨k, rfl⟩ := Nat.exists_eq_add_of_le' hn
    rw [hlayer, ← Nat.add_assoc, htrails, hbound (k + bound) (Nat.le_add_left _ _)]

/-- The search lists the first occurrences in all trails. -/
theorem reach_eq (m : QName) :
    ∃ bound, ∀ n ≥ bound, t.reach m = fresh [] (trails t.stars [m] n) := by
  obtain ⟨bound, h⟩ := t.visitFrom_fresh [] [m] [m] (by simp) (by simp)
  exact ⟨bound, h⟩

/-! ## The first module with a property -/

/-- The module `c` is the first one with a property on the way from `m`: no module at a smaller
distance has the property, and none in front of it at the same distance. -/
def FirstAlong (stars : QName → List QName) (m : QName) (P : QName → Prop) (c : QName) : Prop :=
  ∃ k before after, trail stars [m] k = before ++ c :: after ∧ P c ∧ (∀ d ∈ before, ¬ P d) ∧
    ∀ j < k, ∀ d ∈ trail stars [m] j, ¬ P d

theorem find?_trails_eq_some {stars : QName → List QName} {m c : QName} {n : Nat} :
    (trails stars [m] n).find? p = some c ↔ ∃ k < n, (trail stars [m] k).find? p = some c ∧
      ∀ j < k, ∀ d ∈ trail stars [m] j, ¬ p d = true := by
  induction n with
  | zero => simp [trails]
  | succ n ih =>
    have hlast : trails stars [m] (n + 1) = trails stars [m] n ++ trail stars [m] n := by
      simp [trails, List.range_succ]
    rw [hlast, List.find?_append, Option.or_eq_some_iff, ih, List.find?_eq_none]
    constructor
    · rintro (⟨k, hk, h⟩ | ⟨hnone, h⟩)
      · exact ⟨k, by omega, h⟩
      · exact ⟨n, by omega, h, fun j hj d hd =>
          hnone d (List.mem_flatMap.mpr ⟨j, List.mem_range.mpr hj, hd⟩)⟩
    · rintro ⟨k, hk, h, hbefore⟩
      by_cases hkn : k < n
      · exact .inl ⟨k, hkn, h, hbefore⟩
      · obtain rfl : k = n := by omega
        refine .inr ⟨fun d hd => ?_, h⟩
        obtain ⟨j, hj, hd⟩ := List.mem_flatMap.mp hd
        exact hbefore j (List.mem_range.mp hj) d hd

theorem find?_reach_eq_some {m c : QName} :
    (t.reach m).find? p = some c ↔ FirstAlong t.stars m (p · = true) c := by
  obtain ⟨bound, hbound⟩ := t.reach_eq m
  have hfind (n : Nat) (hn : n ≥ bound) :
      (t.reach m).find? p = (trails t.stars [m] n).find? p := by
    rw [hbound n hn]
    exact find?_fresh (by simp) _
  have hfirst (k : Nat) : (trail t.stars [m] k).find? p = some c ↔
      ∃ before after, trail t.stars [m] k = before ++ c :: after ∧ p c = true ∧
        ∀ d ∈ before, ¬ p d = true := by
    rw [List.find?_eq_some_iff_append]
    constructor
    · rintro ⟨hc, before, after, hsplit, hbefore⟩
      exact ⟨before, after, hsplit, hc, fun d hd => by simpa using hbefore d hd⟩
    · rintro ⟨before, after, hsplit, hc, hbefore⟩
      exact ⟨hc, before, after, hsplit, fun d hd => by simpa using hbefore d hd⟩
  constructor
  · intro h
    rw [hfind bound (Nat.le_refl _), find?_trails_eq_some] at h
    obtain ⟨k, -, hk, hnearer⟩ := h
    obtain ⟨before, after, hsplit, hc, hbefore⟩ := (hfirst k).mp hk
    exact ⟨k, before, after, hsplit, hc, hbefore, hnearer⟩
  · rintro ⟨k, before, after, hsplit, hc, hbefore, hnearer⟩
    -- enough trails to reach the distance of `c`
    rw [hfind (max bound (k + 1)) (Nat.le_max_left _ _), find?_trails_eq_some]
    exact ⟨k, Nat.le_max_right _ _, (hfirst k).mpr ⟨before, after, hsplit, hc, hbefore⟩, hnearer⟩

theorem find?_reach_eq_none {m : QName} :
    (t.reach m).find? p = none ↔
      ∀ d, Relation.ReflTransGen (fun a b => b ∈ t.stars a) m d → ¬ p d = true := by
  obtain ⟨bound, hbound⟩ := t.reach_eq m
  have hmem (d : QName) : d ∈ t.reach m ↔ ∃ k, d ∈ trail t.stars [m] k := by
    constructor
    · intro h
      rw [hbound bound (Nat.le_refl _), mem_fresh] at h
      obtain ⟨k, -, hk⟩ := List.mem_flatMap.mp h.1
      exact ⟨k, hk⟩
    · rintro ⟨k, hk⟩
      rw [hbound (max bound (k + 1)) (Nat.le_max_left _ _), mem_fresh]
      exact ⟨List.mem_flatMap.mpr ⟨k, List.mem_range.mpr (Nat.le_max_right _ _), hk⟩,
        List.not_mem_nil⟩
  rw [List.find?_eq_none]
  constructor
  · intro h d hd
    exact h d ((hmem d).mpr (mem_trail_iff.mpr hd))
  · intro h d hd
    exact h d (mem_trail_iff.mp ((hmem d).mp hd))

end CodeConcepts.ExportTable
