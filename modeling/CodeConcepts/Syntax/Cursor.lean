import CodeConcepts.Syntax.Node

/-!
# Walking over a tree with a cursor

A cursor stands on a node of a tree and can be moved to its first child, its next sibling or its
parent. `Tree.exceedsDepth` moves a cursor over a whole tree and counts the levels on its way, so
that the depth of a tree is no matter to the check itself.

Every move either comes to a node for the first time or is done with one, and what is left of the
tree shrinks with it (`DepthCheck.left_lt_of_move`). That is why the check ends.
-/

namespace CodeConcepts.Syntax

variable {α : Type}

/-- A place in a tree. -/
structure Cursor (α : Type) where
  tree : Tree α
  /-- The siblings behind it. -/
  later : List (Tree α)
  /-- The trees it lies in, the nearest first, each with the siblings behind it. -/
  above : List (Tree α × List (Tree α))

namespace Cursor

/-- The root of a tree. No sibling and nothing above it can be reached from there. -/
def root (t : Tree α) : Cursor α := ⟨t, [], []⟩

def firstChild? (c : Cursor α) : Option (Cursor α) :=
  match c.tree.children with
  | [] => none
  | t :: ts => some ⟨t, ts, (c.tree, c.later) :: c.above⟩

def nextSibling? (c : Cursor α) : Option (Cursor α) :=
  match c.later with
  | [] => none
  | t :: ts => some ⟨t, ts, c.above⟩

def parent? (c : Cursor α) : Option (Cursor α) :=
  match c.above with
  | [] => none
  | (t, later) :: above => some ⟨t, later, above⟩

/-- Number of nodes in the siblings behind each of some trees. -/
def sizeBehind : List (Tree α × List (Tree α)) → Nat
  | [] => 0
  | (_, later) :: above => Tree.sizeAll later + sizeBehind above

end Cursor

/-- Where the check of a tree's depth stands. -/
structure DepthCheck (α : Type) where
  cursor : Cursor α
  /-- The levels between the root and the cursor, as far as they were counted. -/
  depth : Nat
  /-- Whether the cursor has just come to its node, so that what is below it comes next. -/
  entering : Bool

namespace DepthCheck

/-- The check of a tree before its first step. -/
def start (t : Tree α) : DepthCheck α := ⟨.root t, 0, true⟩

/-- One move of the cursor, or the answer. The cursor goes down as long as there are children, and
then on to the next sibling of its node or of the nearest node above that has one. -/
def step (limit : Nat) (s : DepthCheck α) : DepthCheck α ⊕ Bool :=
  if s.entering then
    if limit < s.depth then .inr true
    else
      match s.cursor.firstChild? with
      | some c => .inl ⟨c, s.depth + 1, true⟩
      | none => .inl { s with entering := false }
  else
    match s.cursor.nextSibling? with
    | some c => .inl ⟨c, s.depth, true⟩
    | none =>
      match s.cursor.parent? with
      | some c => .inl ⟨c, s.depth - 1, false⟩
      | none => .inr false

/-- The steps that a check can take. -/
inductive Move (limit : Nat) : DepthCheck α → DepthCheck α → Prop
  | down {t u us later above depth} : depth ≤ limit → t.children = u :: us →
      Move limit ⟨⟨t, later, above⟩, depth, true⟩ ⟨⟨u, us, (t, later) :: above⟩, depth + 1, true⟩
  | leave {t later above depth} : depth ≤ limit → t.children = [] →
      Move limit ⟨⟨t, later, above⟩, depth, true⟩ ⟨⟨t, later, above⟩, depth, false⟩
  | aside {t u us above depth} :
      Move limit ⟨⟨t, u :: us, above⟩, depth, false⟩ ⟨⟨u, us, above⟩, depth, true⟩
  | up {t u later above depth} :
      Move limit ⟨⟨t, [], (u, later) :: above⟩, depth, false⟩ ⟨⟨u, later, above⟩, depth - 1, false⟩

theorem move_of_step {limit : Nat} {s next : DepthCheck α} (h : s.step limit = .inl next) :
    Move limit s next := by
  obtain ⟨⟨t, later, above⟩, depth, entering⟩ := s
  cases entering with
  | true =>
    simp only [step, if_true, Cursor.firstChild?] at h
    split at h
    · cases h
    · next hlimit =>
      cases hchildren : t.children with
      | nil =>
        simp only [hchildren] at h
        cases h
        exact .leave (Nat.not_lt.1 hlimit) hchildren
      | cons u us =>
        simp only [hchildren] at h
        cases h
        exact .down (Nat.not_lt.1 hlimit) hchildren
  | false =>
    cases later with
    | cons u us =>
      cases h
      exact .aside
    | nil =>
      cases above with
      | nil => cases h
      | cons p above =>
        cases h
        exact .up

/-- An upper bound for the number of steps that are left: each node still to come is entered and
left again, and so is each node that the cursor lies in. -/
def left (s : DepthCheck α) : Nat :=
  2 * ((if s.entering then s.cursor.tree.size else 0) + Tree.sizeAll s.cursor.later +
    Cursor.sizeBehind s.cursor.above) + s.cursor.above.length + (if s.entering then 0 else 1)

theorem left_lt_of_move {limit : Nat} {s next : DepthCheck α} (h : Move limit s next) :
    next.left < s.left := by
  cases h with
  | @down t _ _ _ _ _ _ hchildren =>
    have hsize := Tree.sizeAll_children_lt t
    simp only [hchildren, Tree.sizeAll] at hsize
    simp only [left, Cursor.sizeBehind, if_true, List.length_cons]
    omega
  | @leave t =>
    have hsize := t.size_pos
    simp only [left, if_true, Bool.false_eq_true, if_false]
    omega
  | aside =>
    simp only [left, Tree.sizeAll, if_true, Bool.false_eq_true, if_false]
    omega
  | up =>
    simp only [left, Cursor.sizeBehind, Tree.sizeAll, Bool.false_eq_true, if_false,
      List.length_cons]
    omega

/-- The answer that a check comes to. -/
@[semireducible] def run (limit : Nat) (s : DepthCheck α) : Bool :=
  match _ : s.step limit with
  | .inl next => run limit next
  | .inr answer => answer
termination_by s.left
decreasing_by exact left_lt_of_move (move_of_step ‹_›)

end DepthCheck

/-- Whether some node lies more than `limit` levels below the root. -/
def Tree.exceedsDepth (limit : Nat) (t : Tree α) : Bool := (DepthCheck.start t).run limit

end CodeConcepts.Syntax
