import CodeConcepts.Syntax.Tree

/-!
# Nodes in their place

A `Node` is a tree together with the trees around it, the nearest first, so that one can go up as
well as down. Going down always leads to a smaller tree (`Node.size_lt_of_mem_namedChildren`,
`Node.size_lt_of_field?`), on which recursions over nodes rest.
-/

namespace CodeConcepts.Syntax

/-- A tree and the trees around it. -/
structure Node (α : Type) where
  tree : Tree α
  /-- The trees this one lies in, the nearest first. -/
  above : List (Tree α)

variable {α : Type}

mutual

/-- The node with a given number inside a tree. -/
def Tree.locate? (id : Nat) (above : List (Tree α)) : Tree α → Option (Node α)
  | .node l a cs =>
    if l.id = id then some ⟨.node l a cs, above⟩ else locateAll? id (.node l a cs :: above) cs

/-- The node with a given number inside a list of trees. -/
def Tree.locateAll? (id : Nat) (above : List (Tree α)) : List (Tree α) → Option (Node α)
  | [] => none
  | t :: ts =>
    match Tree.locate? id above t with
    | some n => some n
    | none => locateAll? id above ts

end

namespace Node

/-- The node at the root of a tree. -/
def root (t : Tree α) : Node α := ⟨t, []⟩

/-- Number of nodes of the tree. -/
def size (n : Node α) : Nat := n.tree.size

/-- What the node is. -/
def kind (n : Node α) : String := n.tree.kind

/-- The text of the node. -/
def text (n : Node α) : String := n.tree.text

/-- The label of the node. -/
def label (n : Node α) : Label := n.tree.label

/-- The note on the node. -/
def note (n : Node α) : α := n.tree.note

/-- The node below a node that has a given tree. -/
def down (n : Node α) (t : Tree α) : Node α := ⟨t, n.tree :: n.above⟩

/-- The nodes directly below. -/
def children (n : Node α) : List (Node α) := n.tree.children.map n.down

/-- The named nodes directly below. -/
def namedChildren (n : Node α) : List (Node α) := n.tree.namedChildren.map n.down

/-- A named node directly below, by its position among them. -/
def namedChild? (n : Node α) (i : Nat) : Option (Node α) := n.namedChildren[i]?

/-- The node directly above. -/
def parent? (n : Node α) : Option (Node α) :=
  match n.above with
  | [] => none
  | t :: above => some ⟨t, above⟩

/-- Whether the node has a child that is the given token. -/
def hasToken (token : String) (n : Node α) : Bool := n.tree.hasToken token

/-- The node that fills a field: a child, or rarely a node further below. -/
def field? (name : String) (n : Node α) : Option (Node α) :=
  match n.tree.children.find? fun c => c.label.roles.contains name with
  | some c => some (n.down c)
  | none =>
    match n.label.remote.find? fun r => r.1 == name with
    | some (_, id) => Tree.locateAll? id (n.tree :: n.above) n.tree.children
    | none => none

/-- The text of the node that fills a field. -/
def fieldText? (name : String) (n : Node α) : Option String := (n.field? name).map (·.text)

/-- Whether the node is the one that fills a field of the node above it. -/
def isField (name : String) (n : Node α) : Bool :=
  (n.parent?.bind (·.field? name)).any (·.label == n.label)

/-- All nodes inside a node, itself first, each before those below it. -/
def descendants (n : Node α) : List (Node α) :=
  n :: n.tree.children.attach.flatMap fun c => descendants (n.down c.1)
termination_by n.size
decreasing_by exact Tree.size_lt_of_mem_children c.2

/-! ## Sizes -/

/-- Number of nodes of a list of nodes. -/
def total : List (Node α) → Nat
  | [] => 0
  | n :: ns => n.size + total ns

theorem size_lt_of_mem_namedChildren {c n : Node α} (h : c ∈ n.namedChildren) : c.size < n.size := by
  obtain ⟨t, ht, rfl⟩ := List.mem_map.1 h
  exact Tree.size_lt_of_mem_namedChildren ht

theorem size_lt_of_namedChild? {c n : Node α} {i : Nat} (h : n.namedChild? i = some c) :
    c.size < n.size :=
  size_lt_of_mem_namedChildren (List.mem_of_getElem? h)

mutual

theorem size_locate? (id : Nat) (above : List (Tree α)) :
    ∀ (t : Tree α) (n : Node α), Tree.locate? id above t = some n → n.size ≤ t.size
  | .node l a cs, n, h => by
    simp only [Tree.locate?] at h
    split at h
    · cases h; exact Nat.le_refl _
    · have := size_locateAll? id _ cs n h
      simp only [Tree.size]; omega

theorem size_locateAll? (id : Nat) (above : List (Tree α)) :
    ∀ (ts : List (Tree α)) (n : Node α), Tree.locateAll? id above ts = some n →
      n.size ≤ Tree.sizeAll ts
  | [], n, h => by simp [Tree.locateAll?] at h
  | t :: ts, n, h => by
    simp only [Tree.locateAll?] at h
    simp only [Tree.sizeAll]
    split at h
    · next m hm =>
      cases h
      have := size_locate? id above t _ hm
      omega
    · have := size_locateAll? id above ts n h
      omega

end

theorem size_lt_of_field? {name : String} {c n : Node α} (h : n.field? name = some c) :
    c.size < n.size := by
  unfold field? at h
  split at h
  · next t ht =>
    cases h
    exact Tree.size_lt_of_mem_children (List.mem_of_find?_eq_some ht)
  · split at h
    · exact Nat.lt_of_le_of_lt (size_locateAll? _ _ _ _ h) (Tree.sizeAll_children_lt n.tree)
    · simp at h

end Node

namespace Tree

/-- The tree that fills a field. -/
def field? (name : String) (t : Tree α) : Option (Tree α) := ((Node.root t).field? name).map (·.tree)

/-- The text of the tree that fills a field. -/
def fieldText? (name : String) (t : Tree α) : Option String := (t.field? name).map (·.text)

theorem size_lt_of_field? {name : String} {c t : Tree α} (h : t.field? name = some c) :
    c.size < t.size := by
  obtain ⟨n, hn, rfl⟩ := Option.map_eq_some_iff.1 h
  exact Node.size_lt_of_field? hn

end Tree

end CodeConcepts.Syntax
