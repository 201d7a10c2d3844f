import CodeConcepts.Syntax.Cursor
import Mathlib.Data.List.Basic
import Mathlib.Logic.Relation

/-!
# The depth check is exact

`Tree.exceedsDepth` moves a cursor over a tree and counts levels on its way. The nodes of the tree
in document order are always those the cursor is done with followed by those ahead of it
(`DepthCheck.Tracks`): a step takes at most one node from the front of what is ahead, and only
after it was found not to be too deep. The count is the number of trees around the cursor's node,
so that it can go down whenever the cursor goes up.

For proofs about trees the check is as good as a recursion over the levels of the tree
(`Tree.exceedsDepth_zero`, `Tree.exceedsDepth_succ`).
-/

namespace CodeConcepts.Syntax

variable {α : Type}

/-! ## Nodes inside a node -/

namespace Node

theorem descendants_eq (n : Node α) :
    n.descendants = n :: n.tree.children.flatMap fun c => (n.down c).descendants := by
  rw [descendants]
  simp only [List.flatMap_subtype, List.unattach_attach]

theorem mem_descendants_self (n : Node α) : n ∈ n.descendants := by
  rw [descendants_eq]
  exact List.mem_cons_self

theorem descendants_down_subset {n : Node α} {c : Tree α} (hc : c ∈ n.tree.children) :
    (n.down c).descendants ⊆ n.descendants := by
  intro m hm
  rw [n.descendants_eq]
  exact List.mem_cons_of_mem _ (List.mem_flatMap.mpr ⟨c, hc, hm⟩)

/-- A node inside another one is this node or a child of a node inside it. -/
theorem eq_or_down_of_mem_descendants {r n : Node α} (h : n ∈ r.descendants) :
    n = r ∨ ∃ p ∈ r.descendants, ∃ c ∈ p.tree.children, n = p.down c := by
  rw [descendants_eq] at h
  rcases List.mem_cons.mp h with rfl | h
  · exact .inl rfl
  · obtain ⟨c, hc, hn⟩ := List.mem_flatMap.mp h
    rcases eq_or_down_of_mem_descendants hn with rfl | ⟨p, hp, e, he, rfl⟩
    · exact .inr ⟨r, r.mem_descendants_self, c, hc, rfl⟩
    · exact .inr ⟨p, descendants_down_subset hc hp, e, he, rfl⟩
termination_by r.size
decreasing_by exact Tree.size_lt_of_mem_children hc

/-- The trees that a node lies in stand for nodes of the same tree. -/
theorem mem_descendants_of_above {t u : Tree α} {outer : List (Tree α)} :
    ∀ {inner : List (Tree α)} {n : Node α}, n ∈ (root t).descendants →
      n.above = inner ++ u :: outer → ⟨u, outer⟩ ∈ (root t).descendants := by
  intro inner
  induction inner with
  | nil =>
    intro n hn habove
    rcases eq_or_down_of_mem_descendants hn with rfl | ⟨p, hp, c, -, rfl⟩
    · cases habove
    · cases habove
      exact hp
  | cons v inner ih =>
    intro n hn habove
    rcases eq_or_down_of_mem_descendants hn with rfl | ⟨p, hp, c, -, rfl⟩
    · cases habove
    · refine ih hp ?_
      exact (List.cons.inj habove).2

/-- What is around a node is around all nodes inside it, and makes no other difference to them. -/
theorem descendants_append (u : Tree α) (inner outer : List (Tree α)) :
    (⟨u, inner ++ outer⟩ : Node α).descendants =
      (⟨u, inner⟩ : Node α).descendants.map fun n => ⟨n.tree, n.above ++ outer⟩ := by
  rw [descendants_eq, descendants_eq ⟨u, inner⟩, List.map_cons, List.map_flatMap]
  refine congrArg (List.cons _) (List.flatMap_congr fun c hc => ?_)
  exact descendants_append c (u :: inner) outer
termination_by u.size
decreasing_by exact Tree.size_lt_of_mem_children hc

end Node

/-! ## What is ahead of a cursor -/

namespace Cursor

/-- The node a cursor stands on. -/
def node (c : Cursor α) : Node α := ⟨c.tree, c.above.map (·.1)⟩

/-- The nodes of some siblings that lie in given trees. -/
def siblings (later : List (Tree α)) (above : List (Tree α × List (Tree α))) : List (Node α) :=
  later.flatMap fun u => Node.descendants ⟨u, above.map (·.1)⟩

/-- The nodes behind some trees, the nearest of them first. -/
def outside : List (Tree α × List (Tree α)) → List (Node α)
  | [] => []
  | (_, later) :: above => siblings later above ++ outside above

end Cursor

namespace DepthCheck

variable {limit : Nat} {t : Tree α} {s next : DepthCheck α}

/-- The nodes that a check has still to come to, in document order. -/
def ahead (s : DepthCheck α) : List (Node α) :=
  (if s.entering then s.cursor.node.descendants else []) ++
    (Cursor.siblings s.cursor.later s.cursor.above ++ Cursor.outside s.cursor.above)

/-- What holds at every step of the check of a tree. -/
structure Tracks (limit : Nat) (t : Tree α) (s : DepthCheck α) : Prop where
  depth_eq : s.depth = s.cursor.node.above.length
  node_mem : s.cursor.node ∈ (Node.root t).descendants
  /-- The nodes of the tree are those that are done with, none of which is too deep, and then
  those ahead. -/
  done : ∃ done, (Node.root t).descendants = done ++ s.ahead ∧ ∀ n ∈ done, n.above.length ≤ limit

theorem tracks_start (limit : Nat) (t : Tree α) : Tracks limit t (start t) where
  depth_eq := rfl
  node_mem := Node.mem_descendants_self _
  done := ⟨[], by simp [ahead, start, Cursor.root, Cursor.node, Cursor.siblings, Cursor.outside,
    Node.root], by simp⟩

/-- A move leaves what is ahead as it is, or takes the node that the cursor stands on from it. -/
theorem ahead_of_move (h : Move limit s next) :
    s.ahead = next.ahead ∨
      s.depth ≤ limit ∧ s.ahead = s.cursor.node :: next.ahead := by
  cases h with
  | down hlimit hchildren =>
    refine .inr ⟨hlimit, ?_⟩
    simp only [ahead, if_true, Cursor.node, Cursor.siblings, Cursor.outside, List.map_cons]
    rw [Node.descendants_eq, hchildren]
    simp [Node.down]
  | leave hlimit hchildren =>
    refine .inr ⟨hlimit, ?_⟩
    simp only [ahead, if_true, Cursor.node]
    rw [Node.descendants_eq, hchildren]
    simp
  | aside => exact .inl (by simp [ahead, Cursor.siblings, Cursor.node])
  | up => exact .inl (by simp [ahead, Cursor.siblings, Cursor.outside])

/-- The cursor moves between nodes of the tree. -/
theorem Tracks.node_mem_of_move (hs : Tracks limit t s) (h : Move limit s next) :
    next.cursor.node ∈ (Node.root t).descendants := by
  -- A node that is entered is the first one ahead.
  have hentering : next.entering = true → next.cursor.node ∈ (Node.root t).descendants := by
    intro hnext
    obtain ⟨done, hdone, -⟩ := hs.done
    have hahead : next.cursor.node ∈ next.ahead := by
      rw [ahead, if_pos hnext]
      exact List.mem_append_left _ (Node.mem_descendants_self _)
    rw [hdone]
    refine List.mem_append_right _ ?_
    rcases ahead_of_move h with heq | ⟨-, heq⟩
    · exact heq ▸ hahead
    · exact heq ▸ List.mem_cons_of_mem _ hahead
  cases h with
  | down => exact hentering rfl
  | leave => exact hs.node_mem
  | aside => exact hentering rfl
  | up => exact Node.mem_descendants_of_above hs.node_mem (List.nil_append _).symm

theorem Tracks.move (hs : Tracks limit t s) (h : Move limit s next) : Tracks limit t next where
  depth_eq := by
    have hdepth := hs.depth_eq
    cases h with
    | down => simpa [Cursor.node] using hdepth
    | leave | aside => exact hdepth
    | up =>
      simp only [Cursor.node, List.map_cons, List.length_cons] at hdepth
      exact Nat.sub_eq_of_eq_add hdepth
  node_mem := hs.node_mem_of_move h
  done := by
    obtain ⟨done, hdone, hshallow⟩ := hs.done
    rcases ahead_of_move h with heq | ⟨hlimit, heq⟩
    · exact ⟨done, heq ▸ hdone, hshallow⟩
    · refine ⟨done ++ [s.cursor.node], by rw [hdone, heq, List.append_assoc]; rfl, ?_⟩
      intro n hn
      rcases List.mem_append.mp hn with hn | hn
      · exact hshallow n hn
      · rw [List.mem_singleton.mp hn, ← hs.depth_eq]
        exact hlimit

/-! ## The answer -/

/-- The states that a check comes to from a given one. -/
def Reaches (limit : Nat) : DepthCheck α → DepthCheck α → Prop :=
  Relation.ReflTransGen fun s next => s.step limit = .inl next

theorem Tracks.reaches (hs : Tracks limit t s) {last : DepthCheck α} (h : Reaches limit s last) :
    Tracks limit t last := by
  induction h with
  | refl => exact hs
  | tail _ hstep ih => exact ih.move (move_of_step hstep)

/-- A check goes on from every state until it has its answer. -/
theorem exists_reaches_answer (limit : Nat) (s : DepthCheck α) :
    ∃ last, Reaches limit s last ∧ last.step limit = .inr (s.run limit) := by
  fun_induction run limit s with
  | case1 s next hstep ih =>
    obtain ⟨last, hlast, hanswer⟩ := ih
    exact ⟨last, .head hstep hlast, hanswer⟩
  | case2 s answer hstep => exact ⟨s, .refl, hstep⟩

/-- A check answers at a node that is too deep, or when there is nothing ahead. -/
theorem answer_cases {answer : Bool} (h : s.step limit = .inr answer) :
    answer = true ∧ limit < s.depth ∨ answer = false ∧ s.ahead = [] := by
  obtain ⟨⟨t, later, above⟩, depth, entering⟩ := s
  cases entering with
  | true =>
    simp only [step, if_true] at h
    split at h
    · next hlimit =>
      cases h
      exact .inl ⟨rfl, hlimit⟩
    · split at h <;> cases h
  | false =>
    cases later with
    | cons u us => cases h
    | nil =>
      cases above with
      | cons p above => cases h
      | nil =>
        cases h
        exact .inr ⟨rfl, rfl⟩

theorem Tracks.answer_iff (hs : Tracks limit t s) {answer : Bool} (h : s.step limit = .inr answer) :
    answer = true ↔ ∃ n ∈ (Node.root t).descendants, limit < n.above.length := by
  rcases answer_cases h with ⟨rfl, hlimit⟩ | ⟨rfl, hahead⟩
  · exact iff_of_true rfl ⟨s.cursor.node, hs.node_mem, hs.depth_eq ▸ hlimit⟩
  · obtain ⟨done, hdone, hshallow⟩ := hs.done
    rw [hahead, List.append_nil] at hdone
    refine iff_of_false Bool.false_ne_true ?_
    rintro ⟨n, hn, hlimit⟩
    exact absurd (hshallow n (hdone ▸ hn)) (Nat.not_le.mpr hlimit)

end DepthCheck

namespace Tree

theorem exceedsDepth_eq_true_iff (limit : Nat) (t : Tree α) :
    t.exceedsDepth limit = true ↔ ∃ n ∈ (Node.root t).descendants, limit < n.above.length := by
  obtain ⟨last, hlast, hanswer⟩ := DepthCheck.exists_reaches_answer limit (.start t)
  exact ((DepthCheck.tracks_start limit t).reaches hlast).answer_iff hanswer

/-- The check of a tree takes a last step with its answer. On the way there the cursor stands on
nodes of the tree and the count is the depth of its node, so that it is positive when the cursor can
go up. The answer is whether some node lies more than the given number of levels below the root. -/
theorem depth_check_exact (limit : Nat) (t : Tree α) :
    (∃ last, DepthCheck.Reaches limit (.start t) last ∧
      last.step limit = .inr (t.exceedsDepth limit)) ∧
    (∀ s, DepthCheck.Reaches limit (.start t) s →
      s.cursor.node ∈ (Node.root t).descendants ∧ s.depth = s.cursor.node.above.length ∧
        (s.cursor.parent?.isSome → 0 < s.depth)) ∧
    (t.exceedsDepth limit = true ↔
      ∃ n ∈ (Node.root t).descendants, limit < n.above.length) := by
  refine ⟨DepthCheck.exists_reaches_answer limit (.start t), ?_, exceedsDepth_eq_true_iff limit t⟩
  intro s hs
  have htracks := (DepthCheck.tracks_start limit t).reaches hs
  refine ⟨htracks.node_mem, htracks.depth_eq, ?_⟩
  intro hparent
  rw [htracks.depth_eq, Cursor.node, List.length_map, List.length_pos_iff]
  rintro hnone
  rw [Cursor.parent?, hnone] at hparent
  cases hparent

/-! ## The check level by level -/

/-- The nodes below a root lie one level deeper than in the tree of a child alone. -/
theorem exceedsDepth_eq_true_iff_children (limit : Nat) (t : Tree α) :
    t.exceedsDepth limit = true ↔
      ∃ c ∈ t.children, ∃ n ∈ (Node.root c).descendants, limit < n.above.length + 1 := by
  have hbelow : ∀ c, ((Node.root t).down c).descendants =
      (Node.root c).descendants.map fun n => ⟨n.tree, n.above ++ [t]⟩ :=
    fun c => Node.descendants_append c [] [t]
  rw [exceedsDepth_eq_true_iff, Node.descendants_eq]
  constructor
  · rintro ⟨n, hn, hlimit⟩
    rcases List.mem_cons.mp hn with rfl | hn
    · exact absurd hlimit (Nat.not_lt_zero _)
    · obtain ⟨c, hc, hn⟩ := List.mem_flatMap.mp hn
      rw [hbelow] at hn
      obtain ⟨m, hm, rfl⟩ := List.mem_map.mp hn
      exact ⟨c, hc, m, hm, by simpa using hlimit⟩
  · rintro ⟨c, hc, n, hn, hlimit⟩
    have hdown : ⟨n.tree, n.above ++ [t]⟩ ∈ ((Node.root t).down c).descendants := by
      rw [hbelow]
      exact List.mem_map_of_mem hn
    exact ⟨_, List.mem_cons_of_mem _ (List.mem_flatMap.mpr ⟨c, hc, hdown⟩), by simpa using hlimit⟩

theorem exceedsDepth_zero (t : Tree α) : t.exceedsDepth 0 = !t.children.isEmpty := by
  rw [Bool.eq_iff_iff, exceedsDepth_eq_true_iff_children]
  cases hchildren : t.children with
  | nil => simp
  | cons c cs =>
    refine iff_of_true ⟨c, List.mem_cons_self, Node.root c, ?_, Nat.succ_pos _⟩ rfl
    exact Node.mem_descendants_self _

theorem exceedsDepth_succ (limit : Nat) (t : Tree α) :
    t.exceedsDepth (limit + 1) = t.children.any (·.exceedsDepth limit) := by
  rw [Bool.eq_iff_iff, exceedsDepth_eq_true_iff_children, List.any_eq_true]
  simp only [exceedsDepth_eq_true_iff, Nat.add_lt_add_iff_right]

end Tree

end CodeConcepts.Syntax
