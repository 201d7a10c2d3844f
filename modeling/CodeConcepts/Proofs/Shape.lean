import CodeConcepts.Proofs.DepthCheck
import CodeConcepts.Scope.Analysis

/-!
# The shape of a tree

The shape of a tree is what is left of it without its notes. Labels, fields, subtrees and depth are
read off the shape alone, whatever the notes say. The scope analysis writes notes and changes
nothing else (`shape_analyse`), so what is known of the fields of a parsed tree holds of the
analysed one as well.
-/

namespace CodeConcepts.Syntax

variable {α β : Type}

namespace Tree

/-! ## Subtrees -/

theorem mem_subtrees_self (t : Tree α) : t ∈ t.subtrees := by
  cases t
  exact List.mem_cons_self

mutual

theorem subtrees_subset {u : Tree α} : ∀ t : Tree α, u ∈ t.subtrees → u.subtrees ⊆ t.subtrees
  | .node l a cs, h => by
    rcases List.mem_cons.mp h with rfl | h
    · exact fun _ h => h
    · exact fun _ hv => List.mem_cons_of_mem _ (subtrees_subset_all cs h hv)

theorem subtrees_subset_all {u : Tree α} :
    ∀ ts : List (Tree α), u ∈ subtreesAll ts → u.subtrees ⊆ subtreesAll ts
  | [], h => absurd h List.not_mem_nil
  | t :: ts, h => by
    rcases List.mem_append.mp h with h | h
    · exact fun _ hv => List.mem_append_left _ (subtrees_subset t h hv)
    · exact fun _ hv => List.mem_append_right _ (subtrees_subset_all ts h hv)

end

theorem mem_subtrees_of_mem_children {c t : Tree α} (h : c ∈ t.children) : c ∈ t.subtrees := by
  obtain ⟨l, a, cs⟩ := t
  rw [subtrees, subtreesAll_eq_flatMap]
  exact List.mem_cons_of_mem _ (List.mem_flatMap.mpr ⟨c, h, mem_subtrees_self c⟩)

/-! ## Notes -/

@[simp] theorem label_mapNotes (f : α → β) (t : Tree α) : (t.mapNotes f).label = t.label := by
  cases t
  rfl

@[simp] theorem kind_mapNotes (f : α → β) (t : Tree α) : (t.mapNotes f).kind = t.kind :=
  congrArg Label.kind (label_mapNotes f t)

theorem mapNotesAll_eq_map (f : α → β) (ts : List (Tree α)) :
    mapNotesAll f ts = ts.map (mapNotes f) := by
  induction ts with
  | nil => rfl
  | cons t ts ih => rw [mapNotesAll, ih, List.map_cons]

@[simp] theorem children_mapNotes (f : α → β) (t : Tree α) :
    (t.mapNotes f).children = t.children.map (mapNotes f) := by
  obtain ⟨l, a, cs⟩ := t
  exact mapNotesAll_eq_map f cs

@[simp] theorem namedChildren_mapNotes (f : α → β) (t : Tree α) :
    (t.mapNotes f).namedChildren = t.namedChildren.map (mapNotes f) := by
  unfold namedChildren
  rw [children_mapNotes, List.filter_map]
  congr 2
  funext c
  exact congrArg Label.named (label_mapNotes f c)

mutual

theorem subtrees_mapNotes (f : α → β) : ∀ t : Tree α,
    (t.mapNotes f).subtrees = t.subtrees.map (mapNotes f)
  | .node l a cs => by
    rw [mapNotes, subtrees, subtrees, subtreesAll_mapNotesAll f cs, List.map_cons, mapNotes]

theorem subtreesAll_mapNotesAll (f : α → β) : ∀ ts : List (Tree α),
    subtreesAll (mapNotesAll f ts) = (subtreesAll ts).map (mapNotes f)
  | [] => rfl
  | t :: ts => by
    rw [mapNotesAll, subtreesAll, subtreesAll, subtrees_mapNotes f t,
      subtreesAll_mapNotesAll f ts, List.map_append]

end

theorem exceedsDepth_mapNotes (f : α → β) (limit : Nat) (t : Tree α) :
    (t.mapNotes f).exceedsDepth limit = t.exceedsDepth limit := by
  induction limit generalizing t with
  | zero => rw [exceedsDepth_zero, exceedsDepth_zero, children_mapNotes, List.isEmpty_map]
  | succ limit ih =>
    rw [exceedsDepth_succ, exceedsDepth_succ, children_mapNotes, List.any_map]
    exact congrArg (List.any t.children) (funext ih)

end Tree

/-- The trees that a node inside another one lies in are the trees that one lies in, or lie inside
it. -/
theorem Node.mem_subtrees_of_mem_descendants {n d : Node α} (h : d ∈ n.descendants) :
    ∀ u ∈ d.tree :: d.above, u ∈ n.tree.subtrees ∨ u ∈ n.above := by
  rw [Node.descendants_eq] at h
  rcases List.mem_cons.mp h with rfl | h
  · intro u hu
    rcases List.mem_cons.mp hu with rfl | hu
    · exact .inl (Tree.mem_subtrees_self _)
    · exact .inr hu
  · obtain ⟨c, hc, hd⟩ := List.mem_flatMap.mp h
    have hsub := Tree.mem_subtrees_of_mem_children hc
    intro u hu
    rcases Node.mem_subtrees_of_mem_descendants hd u hu with hu | hu
    · exact .inl (Tree.subtrees_subset _ hsub hu)
    · rcases List.mem_cons.mp hu with rfl | hu
      · exact .inl (Tree.mem_subtrees_self _)
      · exact .inr hu
termination_by n.size
decreasing_by exact Tree.size_lt_of_mem_children hc

theorem Node.mem_subtrees_of_mem_root {t : Tree α} {d : Node α}
    (h : d ∈ (Node.root t).descendants) : ∀ u ∈ d.tree :: d.above, u ∈ t.subtrees :=
  fun u hu => (Node.mem_subtrees_of_mem_descendants h u hu).resolve_right List.not_mem_nil

/-! ## Fields -/

/-- The node with other notes on it, on the trees below and on those around it. -/
def Node.mapNotes (f : α → β) (n : Node α) : Node β :=
  ⟨n.tree.mapNotes f, n.above.map (Tree.mapNotes f)⟩

mutual

theorem Tree.locate?_mapNotes (f : α → β) (id : Nat) (above : List (Tree α)) : ∀ t : Tree α,
    (t.mapNotes f).locate? id (above.map (mapNotes f)) =
      (t.locate? id above).map (Node.mapNotes f)
  | .node l a cs => by
    rw [mapNotes, locate?, locate?]
    split
    · rw [Option.map_some, Node.mapNotes, mapNotes]
    · have hall := Tree.locateAll?_mapNotesAll f id (.node l a cs :: above) cs
      rw [List.map_cons, mapNotes] at hall
      exact hall

theorem Tree.locateAll?_mapNotesAll (f : α → β) (id : Nat) (above : List (Tree α)) :
    ∀ ts : List (Tree α), locateAll? id (above.map (mapNotes f)) (mapNotesAll f ts) =
      (locateAll? id above ts).map (Node.mapNotes f)
  | [] => rfl
  | t :: ts => by
    rw [mapNotesAll, locateAll?, locateAll?, Tree.locate?_mapNotes f id above t]
    cases locate? id above t with
    | none => exact Tree.locateAll?_mapNotesAll f id above ts
    | some n => rfl

end

theorem Node.field?_mapNotes (f : α → β) (name : String) (n : Node α) :
    (n.mapNotes f).field? name = (n.field? name).map (Node.mapNotes f) := by
  have hchildren : (n.mapNotes f).tree.children = n.tree.children.map (Tree.mapNotes f) :=
    Tree.children_mapNotes f n.tree
  have hlabel : (n.mapNotes f).label = n.label := Tree.label_mapNotes f n.tree
  have hrole : (fun c : Tree β => c.label.roles.contains name) ∘ Tree.mapNotes f =
      fun c => c.label.roles.contains name := by
    funext c
    rw [Function.comp, Tree.label_mapNotes]
  unfold Node.field?
  rw [hchildren, hlabel, List.find?_map, hrole]
  cases n.tree.children.find? fun c => c.label.roles.contains name with
  | some c => rfl
  | none =>
    cases n.label.remote.find? fun r => r.1 == name with
    | none => rfl
    | some r =>
      have hall := Tree.locateAll?_mapNotesAll f r.2 (n.tree :: n.above) n.tree.children
      rw [Tree.mapNotesAll_eq_map] at hall
      exact hall

theorem Tree.field?_mapNotes (f : α → β) (name : String) (t : Tree α) :
    (t.mapNotes f).field? name = (t.field? name).map (mapNotes f) := by
  have hroot := Node.field?_mapNotes f name (.root t)
  unfold Tree.field?
  rw [show Node.root (t.mapNotes f) = (Node.root t).mapNotes f from rfl, hroot, Option.map_map,
    Option.map_map]
  rfl

theorem Tree.text_mapNotes (f : α → β) (t : Tree α) : (t.mapNotes f).text = t.text :=
  congrArg Label.text (Tree.label_mapNotes f t)

theorem Tree.fieldText?_mapNotes (f : α → β) (name : String) (t : Tree α) :
    (t.mapNotes f).fieldText? name = t.fieldText? name := by
  unfold Tree.fieldText?
  rw [Tree.field?_mapNotes, Option.map_map]
  exact congrArg (Option.map · _) (funext fun c => Tree.text_mapNotes f c)

mutual

/-- What is found below a tree does not depend on what stands around it. -/
theorem Tree.tree_locate? (id : Nat) (above around : List (Tree α)) : ∀ t : Tree α,
    (t.locate? id above).map (·.tree) = (t.locate? id around).map (·.tree)
  | .node l a cs => by
    rw [locate?, locate?]
    split
    · rfl
    · exact Tree.tree_locateAll? id _ _ cs

theorem Tree.tree_locateAll? (id : Nat) (above around : List (Tree α)) : ∀ ts : List (Tree α),
    (locateAll? id above ts).map (·.tree) = (locateAll? id around ts).map (·.tree)
  | [] => rfl
  | t :: ts => by
    have hfirst := Tree.tree_locate? id above around t
    rw [locateAll?, locateAll?]
    cases habove : locate? id above t with
    | none =>
      rw [habove, Option.map_none, eq_comm, Option.map_eq_none_iff] at hfirst
      rw [hfirst]
      exact Tree.tree_locateAll? id above around ts
    | some n =>
      rw [habove, Option.map_some, eq_comm, Option.map_eq_some_iff] at hfirst
      obtain ⟨m, hm, htree⟩ := hfirst
      rw [hm]
      exact congrArg some htree.symm

end

theorem Node.tree_field? (name : String) (n : Node α) :
    (n.field? name).map (·.tree) = n.tree.field? name := by
  unfold Tree.field? Node.field?
  dsimp only [Node.root, Node.label]
  cases n.tree.children.find? fun c => c.label.roles.contains name with
  | some c => rfl
  | none =>
    cases n.tree.label.remote.find? fun r => r.1 == name with
    | none => rfl
    | some r => exact Tree.tree_locateAll? r.2 _ _ n.tree.children

mutual

theorem Tree.mem_subtrees_of_locate? {id : Nat} {above : List (Tree α)} : ∀ {t : Tree α}
    {n : Node α}, t.locate? id above = some n → n.tree ∈ t.subtrees
  | .node l a cs, n, h => by
    rw [locate?] at h
    split at h
    · cases h
      exact List.mem_cons_self
    · exact List.mem_cons_of_mem _ (Tree.mem_subtreesAll_of_locateAll? h)

theorem Tree.mem_subtreesAll_of_locateAll? {id : Nat} {above : List (Tree α)} :
    ∀ {ts : List (Tree α)} {n : Node α}, locateAll? id above ts = some n → n.tree ∈ subtreesAll ts
  | [], n, h => by cases h
  | t :: ts, n, h => by
    rw [locateAll?] at h
    split at h
    case h_1 m hm =>
      cases h
      exact List.mem_append_left _ (Tree.mem_subtrees_of_locate? hm)
    case h_2 => exact List.mem_append_right _ (Tree.mem_subtreesAll_of_locateAll? h)

end

theorem Node.mem_subtreesAll_of_field? {name : String} {c n : Node α}
    (h : n.field? name = some c) : c.tree ∈ Tree.subtreesAll n.tree.children := by
  unfold Node.field? at h
  split at h
  case h_1 t ht =>
    cases h
    rw [Tree.subtreesAll_eq_flatMap]
    exact List.mem_flatMap.mpr ⟨t, List.mem_of_find?_eq_some ht, Tree.mem_subtrees_self t⟩
  case h_2 =>
    split at h
    case h_1 => exact Tree.mem_subtreesAll_of_locateAll? h
    case h_2 => cases h

theorem Node.mem_children_of_mem_namedChildren {c n : Node α} (hc : c ∈ n.namedChildren) :
    c.tree ∈ n.tree.children := by
  obtain ⟨t, ht, rfl⟩ := List.mem_map.mp hc
  exact (List.mem_filter.mp ht).1

/-- What is left of a tree without its notes. -/
def Tree.shape (t : Tree α) : Tree Unit := t.mapNotes fun _ => ()

section OfShape

variable {t : Tree α} {u : Tree β}

/-- What does not depend on notes is seen from the shape. -/
theorem Tree.eq_of_shape {γ : Sort _} {F : ∀ {σ : Type}, Tree σ → γ}
    (hF : ∀ {σ : Type} (s : Tree σ), F s.shape = F s) (h : t.shape = u.shape) : F t = F u := by
  rw [← hF t, h, hF u]

/-- What is true of every tree inside another one, whatever the notes, is seen from the shape. -/
theorem Tree.forall_subtrees_of_shape {P : ∀ {σ : Type}, Tree σ → Prop}
    (hP : ∀ {σ : Type} (s : Tree σ), P s.shape ↔ P s) (h : t.shape = u.shape) :
    (∀ s ∈ t.subtrees, P s) ↔ ∀ s ∈ u.subtrees, P s := by
  refine iff_of_eq (Tree.eq_of_shape (F := fun t => ∀ s ∈ t.subtrees, P s) ?_ h)
  intro σ t
  rw [shape, subtrees_mapNotes, List.forall_mem_map]
  exact propext (forall₂_congr fun s _ => hP s)

/-- Trees of one shape have the same fields. -/
theorem Tree.isSome_field?_congr (h : t.shape = u.shape) (name : String) :
    (t.field? name).isSome = (u.field? name).isSome := by
  refine Tree.eq_of_shape (F := fun s => (s.field? name).isSome) (fun s => ?_) h
  rw [shape, Tree.field?_mapNotes, Option.isSome_map]

end OfShape

end CodeConcepts.Syntax

/-! ## The scope analysis -/

namespace CodeConcepts

variable {α : Type}

mutual

theorem shape_annotate (resolve : String → QName) (task : Task) (frame : Frame) (taken : Taken) :
    ∀ t : Syntax.Tree α, (annotate resolve task frame taken t).result.shape = t.shape
  | .node label a children => by
    have hinner := shape_annotateAll resolve
      (Plan.ofTask resolve task frame (.node label a children) taken).tasks
      (Plan.ofTask resolve task frame (.node label a children) taken).frame
      (Plan.ofTask resolve task frame (.node label a children) taken).taken children
    rw [annotate, Syntax.Tree.shape, Syntax.Tree.shape, Syntax.Tree.mapNotes,
      Syntax.Tree.mapNotes, hinner]

theorem shape_annotateAll (resolve : String → QName) (tasks : List Task) (frame : Frame)
    (taken : Taken) : ∀ ts : List (Syntax.Tree α),
      Syntax.Tree.mapNotesAll (fun _ => ()) (annotateAll resolve tasks frame taken ts).result =
        Syntax.Tree.mapNotesAll (fun _ => ()) ts
  | [] => rfl
  | t :: ts => by
    have hfirst := shape_annotate resolve (tasks.head?.getD .skip) frame taken t
    have hrest := shape_annotateAll resolve tasks.tail frame
      (annotate resolve (tasks.head?.getD .skip) frame taken t).taken ts
    unfold Syntax.Tree.shape at hfirst
    rw [annotateAll, Syntax.Tree.mapNotesAll, Syntax.Tree.mapNotesAll, hfirst, hrest]

end

theorem labels_annotateAll (resolve : String → QName) (tasks : List Task) (frame : Frame)
    (taken : Taken) (ts : List (Syntax.Tree α)) :
    (annotateAll resolve tasks frame taken ts).result.map (·.label) = ts.map (·.label) := by
  have hlabels (us vs : List (Syntax.Tree Unit)) (h : us = vs) :
      us.map (·.label) = vs.map (·.label) := congrArg _ h
  have hshape := hlabels _ _ (shape_annotateAll resolve tasks frame taken ts)
  simp only [Syntax.Tree.mapNotesAll_eq_map, List.map_map, Function.comp_def,
    Syntax.Tree.label_mapNotes] at hshape
  exact hshape

theorem shape_analyse (resolve : String → QName) (module : QName) (t : Syntax.Tree α) :
    (analyse resolve module t).shape = t.shape :=
  shape_annotate resolve .body _ _ t

theorem exceedsDepth_analyse (resolve : String → QName) (module : QName) (limit : Nat)
    (t : Syntax.Tree α) : (analyse resolve module t).exceedsDepth limit = t.exceedsDepth limit := by
  refine Syntax.Tree.eq_of_shape (F := fun s => s.exceedsDepth limit) (fun s => ?_)
    (shape_analyse resolve module t)
  exact Syntax.Tree.exceedsDepth_mapNotes _ limit s

/-! ## Trees inside the result -/

/-- The child at a position is annotated with the task at that position. -/
theorem getElem?_annotateAll (resolve : String → QName) (tasks : List Task) (frame : Frame)
    (taken : Taken) (ts : List (Syntax.Tree α)) (i : Nat) :
    ∃ taken', (annotateAll resolve tasks frame taken ts).result[i]? =
      ts[i]?.map fun t => (annotate resolve (tasks[i]?.getD .skip) frame taken' t).result := by
  induction ts generalizing tasks taken i with
  | nil => exact ⟨taken, rfl⟩
  | cons t ts ih =>
    rw [annotateAll]
    cases i with
    | zero =>
      refine ⟨taken, ?_⟩
      rw [List.head?_eq_getElem?]
      rfl
    | succ i =>
      obtain ⟨taken', h⟩ := ih tasks.tail (annotate resolve (tasks.head?.getD .skip) frame
        taken t).taken i
      refine ⟨taken', ?_⟩
      rw [List.getElem?_tail] at h
      exact h

/-- Every tree inside the result of the analysis is itself the result for a tree, and what each step
hands on to the children holds of how that tree is analysed. -/
theorem exists_annotate_of_step (resolve : String → QName) {P : Task → Frame → Syntax.Tree α → Prop}
    (hstep : ∀ task frame taken t (i : Nat) c, P task frame t → t.children[i]? = some c →
      P ((Plan.ofTask resolve task frame t taken).tasks[i]?.getD .skip)
        (Plan.ofTask resolve task frame t taken).frame c)
    {u : Syntax.Tree Note} : ∀ (t : Syntax.Tree α) {task : Task} {frame : Frame} (taken : Taken),
      u ∈ (annotate resolve task frame taken t).result.subtrees → P task frame t →
      ∃ t' task' frame' taken', P task' frame' t' ∧
        u = (annotate resolve task' frame' taken' t').result
  | .node l a cs, task, frame, taken, hu, h => by
    rw [annotate] at hu
    rcases List.mem_cons.mp hu with rfl | hu
    · exact ⟨.node l a cs, task, frame, taken, h, by rw [annotate]⟩
    · rw [Syntax.Tree.subtreesAll_eq_flatMap] at hu
      obtain ⟨c', hc', hu⟩ := List.mem_flatMap.mp hu
      obtain ⟨i, hi⟩ := List.mem_iff_getElem?.mp hc'
      obtain ⟨taken', htaken⟩ := getElem?_annotateAll resolve _ _ _ cs i
      obtain ⟨c, hc, rfl⟩ := Option.map_eq_some_iff.mp (htaken.symm.trans hi)
      have hlt : c.size < (Syntax.Tree.node l a cs).size :=
        Syntax.Tree.size_lt_of_mem_children (List.mem_of_getElem? hc)
      exact exists_annotate_of_step resolve hstep c taken' hu
        (hstep task frame taken (.node l a cs) i c h hc)
termination_by t => t.size

end CodeConcepts
