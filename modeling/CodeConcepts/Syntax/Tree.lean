/-!
# Syntax trees

A tree of labelled nodes. The label says what a node is, where it stands and which role it plays in
its parent; a note of any type can be attached to every node. Nodes are *named* when they stand for
a construct of the language, and not for a token such as a bracket or a keyword.
-/

namespace CodeConcepts.Syntax

/-- A position in a file, counting rows and bytes from zero. -/
structure Point where
  row : Nat
  column : Nat
deriving DecidableEq, Repr

/-- What is known of a node apart from its children. -/
structure Label where
  /-- Number of the node in its file. -/
  id : Nat
  kind : String
  named : Bool
  /-- Whether the node was made up by the parser to recover from an error. -/
  missing : Bool
  /-- The fields of its parent that this node fills. -/
  roles : List String
  text : String
  start : Point
  stop : Point
  /-- Fields of this node that are filled by a descendant other than a child, by its number. -/
  remote : List (String × Nat)
deriving DecidableEq, Repr

/-- A syntax tree with a note on every node. -/
inductive Tree (α : Type) where
  | node (label : Label) (note : α) (children : List (Tree α))

namespace Tree

variable {α β : Type}

/-- The label of the root. -/
def label : Tree α → Label
  | .node l _ _ => l

/-- The note on the root. -/
def note : Tree α → α
  | .node _ a _ => a

/-- The trees below the root. -/
def children : Tree α → List (Tree α)
  | .node _ _ cs => cs

/-- What the root is. -/
def kind (t : Tree α) : String := t.label.kind

/-- The text of the root. -/
def text (t : Tree α) : String := t.label.text

/-- The named trees below the root. -/
def namedChildren (t : Tree α) : List (Tree α) := t.children.filter (·.label.named)

/-- Whether the root has a child that is the given token. -/
def hasToken (token : String) (t : Tree α) : Bool :=
  t.children.any fun c => !c.label.named && c.kind == token

mutual

/-- Number of nodes. -/
def size : Tree α → Nat
  | .node _ _ cs => 1 + sizeAll cs

/-- Number of nodes of a list of trees. -/
def sizeAll : List (Tree α) → Nat
  | [] => 0
  | t :: ts => size t + sizeAll ts

end

mutual

/-- All trees inside a tree, itself first, each before those below it. -/
def subtrees : Tree α → List (Tree α)
  | .node l a cs => .node l a cs :: subtreesAll cs

/-- All trees inside a list of trees. -/
def subtreesAll : List (Tree α) → List (Tree α)
  | [] => []
  | t :: ts => subtrees t ++ subtreesAll ts

end

mutual

/-- The tree with other notes. -/
def mapNotes (f : α → β) : Tree α → Tree β
  | .node l a cs => .node l (f a) (mapNotesAll f cs)

/-- A list of trees with other notes. -/
def mapNotesAll (f : α → β) : List (Tree α) → List (Tree β)
  | [] => []
  | t :: ts => mapNotes f t :: mapNotesAll f ts

end

theorem subtreesAll_eq_flatMap (ts : List (Tree α)) : subtreesAll ts = ts.flatMap subtrees := by
  induction ts with
  | nil => rfl
  | cons t ts ih => rw [subtreesAll, ih, List.flatMap_cons]

theorem size_pos (t : Tree α) : 0 < t.size := by cases t; simp only [size]; omega

theorem sizeAll_children_lt (t : Tree α) : sizeAll t.children < t.size := by
  cases t; simp only [children, size]; omega

theorem size_le_of_mem {t : Tree α} {ts : List (Tree α)} (h : t ∈ ts) : t.size ≤ sizeAll ts := by
  induction ts with
  | nil => simp at h
  | cons u us ih =>
    simp only [sizeAll]
    rcases List.mem_cons.1 h with rfl | h
    · omega
    · have := ih h; omega

theorem size_lt_of_mem_children {c t : Tree α} (h : c ∈ t.children) : c.size < t.size :=
  Nat.lt_of_le_of_lt (size_le_of_mem h) (sizeAll_children_lt t)

theorem size_lt_of_mem_namedChildren {c t : Tree α} (h : c ∈ t.namedChildren) : c.size < t.size :=
  size_lt_of_mem_children (List.mem_filter.1 h).1

end Tree

end CodeConcepts.Syntax
