import CodeConcepts.Extract.File
import CodeConcepts.Proofs.DepthCheck
import Mathlib.Data.List.Flatten

/-!
# Steps of the walk

The walk is taken apart into steps: a visit is followed by those of the children that its descent
takes (`Visit.onward_eq`). What holds of the first visits and is handed on by every step holds of
the whole walk (`forall_walk`). The visited nodes, in their order, are some of the nodes of the
tree, each taken once (`nodes_walk`).
-/

namespace CodeConcepts

open scoped List

theorem Syntax.Node.map_tree_descendants {α : Type} (n : Node α) :
    n.descendants.map (·.tree) = n.tree.subtrees := by
  obtain ⟨⟨l, a, cs⟩, above⟩ := n
  rw [descendants_eq, List.map_cons, List.map_flatMap, Tree.subtrees, Tree.subtreesAll_eq_flatMap]
  refine congrArg (List.cons _) (List.flatMap_congr fun c hc => ?_)
  exact map_tree_descendants _
termination_by n.size
decreasing_by exact Tree.size_lt_of_mem_children hc

namespace Extract

/-- The visit that a turn leads to. -/
def Turn.visit? (owner : QName) (n : ScopedNode) : Turn → Option Visit
  | .skip => none
  | .visit => some ⟨owner, none, n⟩
  | .declarator kind => some ⟨owner, some kind, n⟩

/-- How the walk has come to a node. -/
def Visit.turn (v : Visit) : Turn := v.declarator.elim .visit .declarator

/-- The visits that a descent takes directly below a node. -/
def Descent.visits (d : Descent) (n : ScopedNode) : List Visit :=
  (d.turns.zip n.tree.children).filterMap fun (turn, c) => turn.visit? d.owner (n.down c)

/-- The visits directly below a visit. -/
def Visit.next (table : List Extractor) (v : Visit) : List Visit :=
  (v.descent table).visits v.node

/-- A visit and all visits below it. -/
def Visit.onward (table : List Extractor) (v : Visit) : List Visit :=
  visits table v.owner v.declarator v.node.above v.node.tree

variable {table : List Extractor} {module : QName} {t : Syntax.Tree Note} {v w : Visit}

theorem visitsAll_eq (owner : QName) (n : ScopedNode) (turns : List Turn)
    (ts : List (Syntax.Tree Note)) :
    visitsAll table owner turns (n.tree :: n.above) ts =
      ((turns.zip ts).filterMap fun (turn, c) => turn.visit? owner (n.down c)).flatMap
        (Visit.onward table) := by
  induction ts generalizing turns with
  | nil =>
    rw [visitsAll, List.zip_nil_right]
    rfl
  | cons t ts ih =>
    rw [visitsAll, ih]
    cases turns with
    | nil => simp
    | cons turn turns =>
      rw [List.zip_cons_cons, List.filterMap_cons]
      cases turn <;> rfl

theorem Visit.onward_eq (v : Visit) :
    v.onward table = v :: (v.next table).flatMap (Visit.onward table) := by
  obtain ⟨owner, declarator, ⟨⟨l, a, cs⟩, above⟩⟩ := v
  unfold Visit.onward
  rw [visits]
  exact congrArg _ (visitsAll_eq _ ⟨.node l a cs, above⟩ _ cs)

theorem walk_eq (module : QName) (t : Syntax.Tree Note) : walk table module t =
    ((Descent.children module (.root t)).visits (.root t)).flatMap (Visit.onward table) :=
  visitsAll_eq module (.root t) _ t.children

/-- A descent hands its owner to visits of children. -/
theorem Descent.mem_visits {d : Descent} {n : ScopedNode} (h : v ∈ d.visits n) :
    ∃ turn c, (turn, c) ∈ d.turns.zip n.tree.children ∧ v.owner = d.owner ∧ v.node = n.down c ∧
      v.turn = turn := by
  obtain ⟨⟨turn, c⟩, hmem, hvisit⟩ := List.mem_filterMap.mp h
  refine ⟨turn, c, hmem, ?_⟩
  cases turn with
  | skip => cases hvisit
  | visit =>
    cases hvisit
    exact ⟨rfl, rfl, rfl⟩
  | declarator kind =>
    cases hvisit
    exact ⟨rfl, rfl, rfl⟩

theorem Visit.size_next (h : v ∈ w.next table) : v.node.size < w.node.size := by
  obtain ⟨turn, c, hmem, -, hnode, -⟩ := Descent.mem_visits h
  rw [hnode]
  exact Syntax.Tree.size_lt_of_mem_children (List.of_mem_zip hmem).2

theorem Visit.mem_onward_self (v : Visit) : v ∈ v.onward table := by
  rw [v.onward_eq]
  exact List.mem_cons_self

theorem Visit.onward_of_mem_next (h : v ∈ w.next table) : v.onward table ⊆ w.onward table := by
  intro u hu
  rw [w.onward_eq]
  exact List.mem_cons_of_mem _ (List.mem_flatMap.mpr ⟨v, h, hu⟩)

/-- The visits below a visit stand in their order. -/
theorem Visit.onward_sublist {v w : Visit} (h : w ∈ v.onward table) :
    w.onward table <+ v.onward table := by
  rw [v.onward_eq] at h
  rcases List.mem_cons.mp h with rfl | h
  · exact List.Sublist.refl _
  · obtain ⟨x, hx, hw⟩ := List.mem_flatMap.mp h
    rw [v.onward_eq]
    have hnext := (List.singleton_sublist.mpr hx).flatMap (Visit.onward table)
    rw [List.flatMap_singleton] at hnext
    exact (Visit.onward_sublist hw).trans (hnext.cons v)
termination_by v.node.size
decreasing_by exact Visit.size_next hx

theorem onward_sublist_walk (h : w ∈ walk table module t) :
    w.onward table <+ walk table module t := by
  rw [walk_eq] at h ⊢
  obtain ⟨v, hv, hw⟩ := List.mem_flatMap.mp h
  have hfirst := (List.singleton_sublist.mpr hv).flatMap (Visit.onward table)
  rw [List.flatMap_singleton] at hfirst
  exact (Visit.onward_sublist hw).trans hfirst

/-- Going on from a visit leads to visits below it. -/
theorem next_subset_walk (h : w ∈ walk table module t) : w.next table ⊆ walk table module t :=
  fun u hu => (onward_sublist_walk h).subset (Visit.onward_of_mem_next hu u.mem_onward_self)

/-- A descent to all named children visits these. -/
theorem visits_children (owner : QName) (n : ScopedNode) :
    (Descent.children owner n).visits n = n.namedChildren.map (Visit.mk owner none) := by
  unfold Descent.children Descent.visits Syntax.Node.namedChildren Syntax.Tree.namedChildren
  dsimp only
  rw [List.map_map]
  induction n.tree.children with
  | nil => rfl
  | cons c cs ih =>
    rw [List.map_cons, List.zip_cons_cons, List.filterMap_cons, ih, List.filter_cons]
    cases c.label.named <;> rfl

theorem Visit.forall_onward {P : Visit → Prop} {v : Visit} (hv : P v)
    (hstep : ∀ w ∈ v.onward table, P w → ∀ u ∈ w.next table, P u) :
    ∀ w ∈ v.onward table, P w := by
  intro w hw
  rw [v.onward_eq] at hw
  rcases List.mem_cons.mp hw with rfl | hw
  · exact hv
  · obtain ⟨x, hx, hw⟩ := List.mem_flatMap.mp hw
    exact Visit.forall_onward (hstep v v.mem_onward_self hv x hx)
      (fun u hu => hstep u (Visit.onward_of_mem_next hx hu)) w hw
termination_by v.node.size
decreasing_by exact Visit.size_next hx

/-- What holds of the visits below the root, and what every visit hands on to the next ones, holds
of all visits. -/
theorem forall_walk {P : Visit → Prop}
    (hstart : ∀ v ∈ (Descent.children module (.root t)).visits (.root t), P v)
    (hstep : ∀ w ∈ walk table module t, P w → ∀ v ∈ w.next table, P v) :
    ∀ v ∈ walk table module t, P v := by
  intro v hv
  rw [walk_eq] at hv hstep
  obtain ⟨x, hx, hv⟩ := List.mem_flatMap.mp hv
  refine Visit.forall_onward (hstart x hx) (fun w hw => ?_) v hv
  exact hstep w (List.mem_flatMap.mpr ⟨x, hx, hw⟩)

/-! ## Each node is visited once -/

theorem Descent.flatMap_visits_sublist {β : Type} {d : Descent} {n : ScopedNode}
    {f : Visit → List β} {g : ScopedNode → List β} (h : ∀ v ∈ d.visits n, f v <+ g v.node) :
    (d.visits n).flatMap f <+ n.tree.children.flatMap fun c => g (n.down c) := by
  unfold Descent.visits at h ⊢
  generalize d.turns = turns at h ⊢
  generalize n.tree.children = cs at h ⊢
  induction cs generalizing turns with
  | nil =>
    rw [List.zip_nil_right]
    exact List.nil_sublist _
  | cons c cs ih =>
    cases turns with
    | nil => exact List.nil_sublist _
    | cons turn turns =>
      rw [List.zip_cons_cons, List.filterMap_cons] at h ⊢
      rw [List.flatMap_cons]
      cases turn with
      | skip => exact (ih turns h).trans (List.sublist_append_right _ _)
      | visit =>
        have hboth := List.forall_mem_cons.mp h
        exact hboth.1.append (ih turns hboth.2)
      | declarator kind =>
        have hboth := List.forall_mem_cons.mp h
        exact hboth.1.append (ih turns hboth.2)

theorem Visit.nodes_onward (v : Visit) :
    (v.onward table).map (·.node) <+ v.node.descendants := by
  rw [v.onward_eq, v.node.descendants_eq, List.map_cons, List.map_flatMap]
  refine List.Sublist.cons_cons _ (Descent.flatMap_visits_sublist fun w hw => ?_)
  exact w.nodes_onward
termination_by v.node.size
decreasing_by exact Visit.size_next hw

theorem nodes_walk_below (module : QName) (t : Syntax.Tree Note) :
    (walk table module t).map (·.node) <+
      t.children.flatMap fun c => ((Syntax.Node.root t).down c).descendants := by
  rw [walk_eq, List.map_flatMap]
  exact Descent.flatMap_visits_sublist fun v _ => v.nodes_onward

/-- The visited nodes are some of the nodes of the tree, in their order and each taken once. -/
theorem nodes_walk (module : QName) (t : Syntax.Tree Note) :
    (walk table module t).map (·.node) <+ (Syntax.Node.root t).descendants := by
  rw [Syntax.Node.descendants_eq]
  exact (nodes_walk_below module t).cons _

theorem trees_walk_below (module : QName) (t : Syntax.Tree Note) :
    (walk table module t).map (·.node.tree) <+ Syntax.Tree.subtreesAll t.children := by
  have hnodes : (walk table module t).map (·.node) <+ _ := nodes_walk_below module t
  have h := hnodes.map (·.tree)
  rw [List.map_map, List.map_flatMap] at h
  simp only [Syntax.Node.map_tree_descendants] at h
  rw [Syntax.Tree.subtreesAll_eq_flatMap]
  exact h

theorem trees_walk (module : QName) (t : Syntax.Tree Note) :
    (walk table module t).map (·.node.tree) <+ t.subtrees := by
  obtain ⟨l, a, cs⟩ := t
  exact (trees_walk_below module _).cons _

theorem tree_mem_of_mem_walk (h : v ∈ walk table module t) : v.node.tree ∈ t.subtrees :=
  (trees_walk module t).subset (List.mem_map_of_mem h)

end Extract

end CodeConcepts
