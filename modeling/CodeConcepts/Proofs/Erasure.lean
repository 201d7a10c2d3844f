import CodeConcepts.Proofs.Shape
import Mathlib.Data.List.Basic
import Mathlib.Data.List.Induction

/-!
# Removing comments

A tree without some of its nodes (`Tree.erase`). Nodes are mostly found by the fields they fill or
by their kinds, and then a comment among them is passed over. Some are found by their position
(`Tree.positional`), and there a comment is taken for what should stand in its place. `Idle` says of
the chosen nodes that they are comments, and that none of them stands where positions count. Under
this condition fields (`Node.field?_erase`) and lists of children (`Node.namedChildren_erase`) of
the smaller tree are those of the whole one.
-/

namespace CodeConcepts.Syntax

variable {α β γ : Type} {chosen : Label → Bool} {t : Tree α} {name kind : String}
  {f : Tree α → Bool}

/-! ## Trees without some of their nodes -/

namespace Tree

mutual

/-- The tree without the chosen nodes below its root. -/
def erase (chosen : Label → Bool) : Tree α → Tree α
  | .node l a cs => .node l a (eraseAll chosen cs)

/-- The trees that are not chosen, each without the chosen nodes in it. -/
def eraseAll (chosen : Label → Bool) : List (Tree α) → List (Tree α)
  | [] => []
  | t :: ts => if chosen t.label then eraseAll chosen ts else erase chosen t :: eraseAll chosen ts

end

/-- Whether a tree is kept. -/
def stays (chosen : Label → Bool) (t : Tree α) : Bool := !chosen t.label

theorem eraseAll_eq_map (chosen : Label → Bool) (ts : List (Tree α)) :
    eraseAll chosen ts = (ts.filter (stays chosen)).map (erase chosen) := by
  induction ts with
  | nil => rfl
  | cons t ts ih =>
    rw [eraseAll, List.filter_cons]
    cases hchosen : chosen t.label <;> simp [stays, hchosen, ih]

@[simp] theorem label_erase (chosen : Label → Bool) (t : Tree α) :
    (t.erase chosen).label = t.label := by
  cases t
  rfl

@[simp] theorem kind_erase (chosen : Label → Bool) (t : Tree α) : (t.erase chosen).kind = t.kind :=
  congrArg Label.kind (label_erase chosen t)

@[simp] theorem text_erase (chosen : Label → Bool) (t : Tree α) : (t.erase chosen).text = t.text :=
  congrArg Label.text (label_erase chosen t)

@[simp] theorem note_erase (chosen : Label → Bool) (t : Tree α) :
    (t.erase chosen).note = t.note := by
  cases t
  rfl

theorem children_erase (chosen : Label → Bool) (t : Tree α) :
    (t.erase chosen).children = (t.children.filter (stays chosen)).map (erase chosen) := by
  obtain ⟨l, a, cs⟩ := t
  exact eraseAll_eq_map chosen cs

theorem namedChildren_erase (chosen : Label → Bool) (t : Tree α) :
    (t.erase chosen).namedChildren =
      (t.namedChildren.filter (stays chosen)).map (erase chosen) := by
  unfold namedChildren
  rw [children_erase, List.filter_map, List.filter_filter, List.filter_filter]
  congr 2
  funext c
  simp [Bool.and_comm]

theorem exceedsDepth_erase (chosen : Label → Bool) {limit : Nat}
    (h : t.exceedsDepth limit = false) : (t.erase chosen).exceedsDepth limit = false := by
  induction limit generalizing t with
  | zero =>
    rw [exceedsDepth_zero, Bool.not_eq_false', List.isEmpty_iff] at h
    rw [exceedsDepth_zero, children_erase, h]
    rfl
  | succ limit ih =>
    rw [exceedsDepth_succ, List.any_eq_false] at h
    rw [exceedsDepth_succ, children_erase, List.any_map, List.any_eq_false]
    intro c hc
    have hshallow := h c (List.mem_filter.mp hc).1
    exact Bool.not_eq_true _ ▸ ih (Bool.eq_false_iff.mpr hshallow)

/-! ## Comments that nothing reads -/

/-- The named trees below the node that fills a field. -/
def listed (name : String) (t : Tree α) : List (Tree α) :=
  (t.field? name).elim [] namedChildren

/-- Which of the trees below a node are found by their position. -/
inductive Reading where
  | none
  /-- The first named ones. -/
  | leading (count : Nat)
  /-- The first named one, if there is a token. -/
  | leadingAt (token : String)
  /-- The first named one, if nothing fills a field. -/
  | leadingWithout (field : String)
  /-- All named ones. -/
  | all
  /-- All named ones below the node that fills a field. -/
  | allIn (field : String)
deriving DecidableEq, Repr

/-- How the trees below the nodes of a kind are found. -/
def Reading.ofKind : String → Reading
  | "type_annotation" | "opting_type_annotation" | "omitting_type_annotation"
  | "adding_type_annotation" | "parenthesized_type" | "readonly_type" | "array_type"
  | "literal_type" | "return_statement" | "parenthesized_expression" | "non_null_expression"
  | "ambient_declaration" | "namespace_import" | "namespace_export" | "import_require_clause" =>
    .leading 1
  | "as_expression" | "satisfies_expression" => .leading 2
  | "export_statement" => .leadingAt "="
  | "enum_assignment" => .leadingWithout "name"
  | "union_type" | "intersection_type" | "tuple_type" | "array" | "implements_clause"
  | "extends_type_clause" => .all
  | "generic_type" | "extends_clause" => .allIn "type_arguments"
  | "call_expression" => .allIn "arguments"
  | _ => .none

/-- The trees below a node that are found by their position. -/
def Reading.trees (t : Tree α) : Reading → List (Tree α)
  | .none => []
  | .leading count => t.namedChildren.take count
  | .leadingAt token => if t.hasToken token then t.namedChildren.take 1 else []
  | .leadingWithout field => if (t.field? field).isSome then [] else t.namedChildren.take 1
  | .all => t.namedChildren
  | .allIn field => t.listed field

/-- The trees that are found by their position when a node is read, and not by a field or by their
kind. The constraint of a type parameter is looked for at nodes of any kind. -/
def positional (t : Tree α) : List (Tree α) :=
  (t.listed "constraint").take 1 ++ (Reading.ofKind t.kind).trees t

/-- A comment that has no parts and fills no field. -/
def IsBareComment (t : Tree α) : Prop :=
  t.kind = "comment" ∧ t.children = [] ∧ t.label.roles = []

instance (t : Tree α) : Decidable t.IsBareComment :=
  inferInstanceAs (Decidable (_ ∧ _ ∧ _))

/-- The chosen nodes of a tree are comments that nothing reads. -/
@[mk_iff]
structure Idle (chosen : Label → Bool) (t : Tree α) : Prop where
  bare : ∀ u ∈ t.subtrees, chosen u.label → u.IsBareComment
  /-- No node names one of them as the far descendant that fills a field. -/
  near : ∀ u ∈ t.subtrees, ∀ r ∈ u.label.remote, ∀ c ∈ u.subtrees, chosen c.label → c.label.id ≠ r.2
  /-- None of them stands where positions count. -/
  aside : ∀ u ∈ t.subtrees, ∀ c ∈ u.positional, chosen c.label = false

instance (chosen : Label → Bool) (t : Tree α) : Decidable (Idle chosen t) :=
  decidable_of_iff _ (idle_iff chosen t).symm

namespace Idle

variable {t u c : Tree α}

theorem of_mem_subtrees (h : Idle chosen t) (hu : u ∈ t.subtrees) : Idle chosen u where
  bare v hv := h.bare v (subtrees_subset t hu hv)
  near v hv := h.near v (subtrees_subset t hu hv)
  aside v hv := h.aside v (subtrees_subset t hu hv)

theorem of_mem_children (h : Idle chosen t) (hc : c ∈ t.children) : Idle chosen c :=
  h.of_mem_subtrees (mem_subtrees_of_mem_children hc)

/-- A child that does not stay is a bare comment. -/
theorem isBareComment (h : Idle chosen t) (hc : c ∈ t.children) (hstays : c.stays chosen = false) :
    c.IsBareComment :=
  h.bare c (mem_subtrees_of_mem_children hc) (by simpa [stays] using hstays)

/-- A child that fills a field stays. -/
theorem stays_of_role (h : Idle chosen t)
    (hc : t.children.find? (·.label.roles.contains name) = some c) : c.stays chosen = true := by
  cases hstays : c.stays chosen with
  | true => rfl
  | false =>
    have hroles := (h.isBareComment (List.mem_of_find?_eq_some hc) hstays).2.2
    have hrole := List.find?_some hc
    rw [hroles] at hrole
    cases hrole

theorem stays_of_mem_positional (h : Idle chosen t) (hc : c ∈ t.positional) :
    c.stays chosen = true := by
  rw [stays, h.aside t (mem_subtrees_self t) c hc]
  rfl

theorem stays_of_reading (h : Idle chosen t) {r : Reading} (hr : Reading.ofKind t.kind = r)
    (hc : c ∈ r.trees t) : c.stays chosen = true := by
  rw [← hr] at hc
  exact h.stays_of_mem_positional (List.mem_append_right _ hc)

end Idle

/-! Notes play no part in this. -/

theorem hasToken_mapNotes (f : α → β) (token : String) (t : Tree α) :
    (t.mapNotes f).hasToken token = t.hasToken token := by
  unfold hasToken
  rw [children_mapNotes, List.any_map]
  congr 1
  funext c
  simp

theorem listed_mapNotes (f : α → β) (name : String) (t : Tree α) :
    (t.mapNotes f).listed name = (t.listed name).map (mapNotes f) := by
  unfold listed
  rw [field?_mapNotes]
  cases t.field? name with
  | none => rfl
  | some c => exact namedChildren_mapNotes f c

theorem Reading.trees_mapNotes (f : α → β) (t : Tree α) (r : Reading) :
    r.trees (t.mapNotes f) = (r.trees t).map (mapNotes f) := by
  cases r with
  | none => rfl
  | leading count => rw [trees, namedChildren_mapNotes, ← List.map_take, trees]
  | leadingAt token =>
    rw [trees, trees, hasToken_mapNotes, namedChildren_mapNotes, ← List.map_take]
    split <;> rfl
  | leadingWithout field =>
    rw [trees, trees, field?_mapNotes, Option.isSome_map, namedChildren_mapNotes,
      ← List.map_take]
    split <;> rfl
  | all => exact namedChildren_mapNotes f t
  | allIn field => exact listed_mapNotes f field t

theorem positional_mapNotes (f : α → β) (t : Tree α) :
    (t.mapNotes f).positional = t.positional.map (mapNotes f) := by
  rw [positional, positional, kind_mapNotes, listed_mapNotes, Reading.trees_mapNotes,
    List.map_append, List.map_take]

theorem idle_mapNotes (f : α → β) (t : Tree α) : Idle chosen (t.mapNotes f) ↔ Idle chosen t := by
  have hbare (u : Tree α) : (u.mapNotes f).IsBareComment ↔ u.IsBareComment := by
    simp [IsBareComment]
  simp only [idle_iff, subtrees_mapNotes, positional_mapNotes, List.forall_mem_map, label_mapNotes,
    hbare]

/-- Whether comments are idle is seen from the shape. -/
theorem idle_congr {u : Tree β} (h : t.shape = u.shape) : Idle chosen t ↔ Idle chosen u :=
  iff_of_eq (eq_of_shape (F := Idle chosen) (fun s => propext (idle_mapNotes _ s)) h)

end Tree

/-! ## Lists without some of their elements -/

section Lists

variable {σ τ υ : Type} {keep : σ → Bool} {e : σ → τ} {l : List σ}

theorem flatMap_of_filter {f : τ → List υ} {g : σ → List υ} (hkeep : ∀ x ∈ l, f (e x) = g x)
    (hdrop : ∀ x ∈ l, keep x = false → g x = []) :
    ((l.filter keep).map e).flatMap f = l.flatMap g := by
  induction l with
  | nil => rfl
  | cons x l ih =>
    rw [List.forall_mem_cons] at hkeep hdrop
    have hrest := ih hkeep.2 hdrop.2
    cases hx : keep x with
    | true => simp [hx, hkeep.1, hrest]
    | false => simp [hx, hdrop.1 hx, hrest]

theorem filterMap_of_filter {f : τ → Option υ} {g : σ → Option υ} (hkeep : ∀ x ∈ l, f (e x) = g x)
    (hdrop : ∀ x ∈ l, keep x = false → g x = none) :
    ((l.filter keep).map e).filterMap f = l.filterMap g := by
  rw [List.filterMap_eq_flatMap_toList, List.filterMap_eq_flatMap_toList]
  refine flatMap_of_filter (fun x hx => ?_) fun x hx hout => ?_
  · rw [hkeep x hx]
  · rw [hdrop x hx hout, Option.toList_none]

theorem filter_of_filter {p : τ → Bool} {q : σ → Bool} (hkeep : ∀ x ∈ l, p (e x) = q x)
    (hdrop : ∀ x ∈ l, keep x = false → q x = false) :
    ((l.filter keep).map e).filter p = (l.filter q).map e := by
  rw [List.filter_map, List.filter_filter]
  refine congrArg (List.map e) (List.filter_congr fun x hx => ?_)
  rw [Function.comp, hkeep x hx]
  cases hout : keep x with
  | true => exact Bool.and_true _
  | false => rw [hdrop x hx hout, Bool.and_false]

/-- The elements at the beginning are not moved if none of them is removed. -/
theorem take_filter {k : Nat} (h : ∀ x ∈ l.take k, keep x = true) :
    (l.filter keep).take k = l.take k := by
  induction l generalizing k with
  | nil => rfl
  | cons x l ih =>
    cases k with
    | zero => rfl
    | succ k =>
      rw [List.take_succ_cons, List.forall_mem_cons] at h
      rw [List.filter_cons_of_pos h.1, List.take_succ_cons, List.take_succ_cons, ih h.2]

end Lists

/-! ## Lists in which comments are passed over -/

namespace Tree

variable {t c : Tree α}

theorem Idle.of_mem_namedChildren (h : t.Idle chosen) (hc : c ∈ t.namedChildren) :
    c.Idle chosen :=
  h.of_mem_children (List.mem_filter.mp hc).1

theorem filterMap_erase {f g : Tree α → Option γ} (h : t.Idle chosen)
    (hf : ∀ c ∈ t.namedChildren, c.Idle chosen → f (c.erase chosen) = g c)
    (hg : ∀ c : Tree α, c.IsBareComment → g c = none) :
    (t.erase chosen).namedChildren.filterMap f = t.namedChildren.filterMap g := by
  rw [namedChildren_erase]
  refine filterMap_of_filter (fun c hc => hf c hc (h.of_mem_namedChildren hc))
    fun c hc hstays => hg c ?_
  exact h.isBareComment (List.mem_filter.mp hc).1 hstays

theorem flatMap_erase {f g : Tree α → List γ} (h : t.Idle chosen)
    (hf : ∀ c ∈ t.namedChildren, c.Idle chosen → f (c.erase chosen) = g c)
    (hg : ∀ c : Tree α, c.IsBareComment → g c = []) :
    (t.erase chosen).namedChildren.flatMap f = t.namedChildren.flatMap g := by
  rw [namedChildren_erase]
  refine flatMap_of_filter (fun c hc => hf c hc (h.of_mem_namedChildren hc))
    fun c hc hstays => hg c ?_
  exact h.isBareComment (List.mem_filter.mp hc).1 hstays

theorem filter_kind_erase (h : t.Idle chosen) (hkind : kind ≠ "comment") :
    (t.erase chosen).namedChildren.filter (·.kind == kind) =
      (t.namedChildren.filter (·.kind == kind)).map (erase chosen) := by
  rw [namedChildren_erase]
  refine filter_of_filter (fun c _ => by rw [kind_erase]) fun c hc hstays => ?_
  have hcomment := (h.isBareComment (List.mem_filter.mp hc).1 hstays).1
  simp [hcomment, hkind.symm]

end Tree

/-! ## Reading a node -/

/-- The node without the chosen nodes below and around it. -/
def Node.erase (chosen : Label → Bool) (n : Node α) : Node α :=
  ⟨n.tree.erase chosen, n.above.map (Tree.erase chosen)⟩

mutual

theorem Tree.locate?_erase (id : Nat) (above : List (Tree α)) : ∀ t : Tree α,
    (∀ u ∈ t.subtrees, chosen u.label → u.children = [] ∧ u.label.id ≠ id) →
      (t.erase chosen).locate? id (above.map (erase chosen)) =
        (t.locate? id above).map (Node.erase chosen)
  | .node l a cs, h => by
    rw [erase, locate?, locate?]
    split
    · rw [Option.map_some, Node.erase, erase]
    · have hall := Tree.locateAll?_eraseAll id (.node l a cs :: above) cs
        fun u hu => h u (List.mem_cons_of_mem _ hu)
      rwa [List.map_cons, erase] at hall

theorem Tree.locateAll?_eraseAll (id : Nat) (above : List (Tree α)) : ∀ ts : List (Tree α),
    (∀ u ∈ subtreesAll ts, chosen u.label → u.children = [] ∧ u.label.id ≠ id) →
      locateAll? id (above.map (erase chosen)) (eraseAll chosen ts) =
        (locateAll? id above ts).map (Node.erase chosen)
  | [], _ => rfl
  | t :: ts, h => by
    have hfirst := Tree.locate?_erase id above t fun u hu => h u (List.mem_append_left _ hu)
    have hrest := Tree.locateAll?_eraseAll id above ts fun u hu =>
      h u (List.mem_append_right _ hu)
    rw [eraseAll, locateAll?]
    split
    case isTrue hchosen =>
      -- a chosen leaf is not the node that is looked for
      have ⟨hleaf, hid⟩ := h t (List.mem_append_left _ (mem_subtrees_self t)) hchosen
      have hnone : t.locate? id above = none := by
        obtain ⟨l, a, cs⟩ := t
        obtain rfl : cs = [] := hleaf
        rw [locate?]
        exact if_neg hid
      rw [hnone, hrest]
    case isFalse =>
      rw [locateAll?, hfirst]
      cases t.locate? id above with
      | none => exact hrest
      | some n => rfl

end

namespace Node

variable {n c : Node α}

@[simp] theorem kind_erase (n : Node α) : (n.erase chosen).kind = n.kind :=
  Tree.kind_erase chosen n.tree

@[simp] theorem text_erase (n : Node α) : (n.erase chosen).text = n.text :=
  Tree.text_erase chosen n.tree

@[simp] theorem label_erase (n : Node α) : (n.erase chosen).label = n.label :=
  Tree.label_erase chosen n.tree

@[simp] theorem note_erase (n : Node α) : (n.erase chosen).note = n.note :=
  Tree.note_erase chosen n.tree

theorem map_kind_erase (o : Option (Node α)) :
    (o.map (Node.erase chosen)).map (·.kind) = o.map (·.kind) := by
  cases o <;> simp

theorem map_text_erase (o : Option (Node α)) :
    (o.map (Node.erase chosen)).map (·.text) = o.map (·.text) := by
  cases o <;> simp

/-- A leaf has no fields. -/
theorem field?_of_leaf (h : n.tree.children = []) (name : String) : n.field? name = none := by
  unfold field?
  rw [h]
  cases n.label.remote.find? fun r => r.1 == name <;> rfl

theorem fieldText?_of_leaf (h : n.tree.children = []) (name : String) :
    n.fieldText? name = none := by
  rw [fieldText?, field?_of_leaf h, Option.map_none]

theorem namedChildren_of_leaf (h : n.tree.children = []) : n.namedChildren = [] := by
  rw [namedChildren, Tree.namedChildren, h]
  rfl

theorem namedChildren_erase (n : Node α) : (n.erase chosen).namedChildren =
    (n.namedChildren.filter (·.tree.stays chosen)).map (Node.erase chosen) := by
  unfold namedChildren
  rw [Node.erase, Tree.namedChildren_erase, List.filter_map, List.map_map, List.map_map]
  rfl

theorem field?_erase (h : n.tree.Idle chosen) (name : String) :
    (n.erase chosen).field? name = (n.field? name).map (Node.erase chosen) := by
  have hfind : (n.erase chosen).tree.children.find? (fun c => c.label.roles.contains name) =
      (n.tree.children.find? fun c => c.label.roles.contains name).map (Tree.erase chosen) := by
    rw [Node.erase, Tree.children_erase, ← List.head?_filter, ← List.head?_filter,
      ← List.head?_map]
    refine congrArg List.head? (filter_of_filter (fun c _ => ?_) fun c hc hstays => ?_)
    · rw [Tree.label_erase]
    · rw [(h.isBareComment hc hstays).2.2]
      rfl
  unfold field?
  rw [hfind, label_erase]
  cases n.tree.children.find? fun c => c.label.roles.contains name with
  | some c => rfl
  | none =>
    -- no child fills the field; a far descendant may, and it is none of the chosen nodes
    cases hremote : n.label.remote.find? fun r => r.1 == name with
    | none => rfl
    | some r =>
      obtain ⟨⟨l, a, cs⟩, above⟩ := n
      refine Tree.locateAll?_eraseAll r.2 (.node l a cs :: above) cs fun u hu hchosen => ?_
      have hu := List.mem_cons_of_mem (.node l a cs) hu
      exact ⟨(h.bare u hu hchosen).2.1,
        h.near _ (Tree.mem_subtrees_self _) r (List.mem_of_find?_eq_some hremote) u hu hchosen⟩

theorem fieldText?_erase (h : n.tree.Idle chosen) (name : String) :
    (n.erase chosen).fieldText? name = n.fieldText? name := by
  unfold fieldText?
  rw [field?_erase h, map_text_erase]

theorem hasToken_erase (h : n.tree.Idle chosen) {token : String} (ht : token ≠ "comment") :
    (n.erase chosen).hasToken token = n.hasToken token := by
  unfold hasToken Tree.hasToken
  rw [Node.erase, Tree.children_erase, Bool.eq_iff_iff]
  simp only [List.any_map, List.any_filter, List.any_eq_true, Function.comp, Tree.label_erase,
    Tree.kind_erase]
  refine exists_congr fun c => and_congr_right fun hc => ?_
  cases hstays : c.stays chosen with
  | true => simp
  | false =>
    have hkind := (h.isBareComment hc hstays).1
    simp [hkind, ht.symm]

/-! Nodes further below -/

theorem idle_of_field? (h : n.tree.Idle chosen) (hc : n.field? name = some c) :
    c.tree.Idle chosen := by
  have hmem := mem_subtreesAll_of_field? hc
  obtain ⟨⟨l, a, cs⟩, above⟩ := n
  exact h.of_mem_subtrees (List.mem_cons_of_mem _ hmem)

theorem idle_of_mem_namedChildren (h : n.tree.Idle chosen) (hc : c ∈ n.namedChildren) :
    c.tree.Idle chosen :=
  h.of_mem_children (mem_children_of_mem_namedChildren hc)

theorem idle_of_namedChild? (h : n.tree.Idle chosen) {i : Nat} (hc : n.namedChild? i = some c) :
    c.tree.Idle chosen :=
  idle_of_mem_namedChildren h (List.mem_of_getElem? hc)

theorem filterMap_erase {f g : Node α → Option γ} (h : n.tree.Idle chosen)
    (hf : ∀ c ∈ n.namedChildren, c.tree.Idle chosen → f (c.erase chosen) = g c)
    (hg : ∀ c : Node α, c.tree.IsBareComment → g c = none) :
    (n.erase chosen).namedChildren.filterMap f = n.namedChildren.filterMap g := by
  unfold namedChildren
  rw [List.filterMap_map, List.filterMap_map]
  exact Tree.filterMap_erase h (fun c hc => hf (n.down c) (List.mem_map_of_mem hc))
    fun c => hg (n.down c)

theorem flatMap_erase {f g : Node α → List γ} (h : n.tree.Idle chosen)
    (hf : ∀ c ∈ n.namedChildren, c.tree.Idle chosen → f (c.erase chosen) = g c)
    (hg : ∀ c : Node α, c.tree.IsBareComment → g c = []) :
    (n.erase chosen).namedChildren.flatMap f = n.namedChildren.flatMap g := by
  unfold namedChildren
  rw [List.flatMap_map, List.flatMap_map]
  exact Tree.flatMap_erase h (fun c hc => hf (n.down c) (List.mem_map_of_mem hc))
    fun c => hg (n.down c)

theorem filter_kind_erase (h : n.tree.Idle chosen) {kind : String} (hkind : kind ≠ "comment") :
    (n.erase chosen).namedChildren.filter (·.kind == kind) =
      (n.namedChildren.filter (·.kind == kind)).map (Node.erase chosen) := by
  have htree := congrArg (List.map (n.erase chosen).down) (Tree.filter_kind_erase h hkind)
  unfold namedChildren
  rw [List.filter_map, List.filter_map, List.map_map]
  rw [List.map_map] at htree
  exact htree

theorem find?_kind_erase (h : n.tree.Idle chosen) (hkind : kind ≠ "comment") :
    (n.erase chosen).namedChildren.find? (·.kind == kind) =
      (n.namedChildren.find? (·.kind == kind)).map (Node.erase chosen) := by
  rw [← List.head?_filter, ← List.head?_filter, filter_kind_erase h hkind, List.head?_map]

theorem any_kind_erase (h : n.tree.Idle chosen) (hkind : kind ≠ "comment") :
    (n.erase chosen).namedChildren.any (·.kind == kind) =
      n.namedChildren.any (·.kind == kind) := by
  rw [← List.isSome_find?, ← List.isSome_find?, find?_kind_erase h hkind, Option.isSome_map]

/-! Positions that count -/

theorem namedChildren_erase_of_stays (h : ∀ c ∈ n.tree.namedChildren, c.stays chosen = true) :
    (n.erase chosen).namedChildren = n.namedChildren.map (Node.erase chosen) := by
  rw [namedChildren_erase, List.filter_eq_self.mpr]
  intro c hc
  obtain ⟨t, ht, rfl⟩ := List.mem_map.mp hc
  exact h t ht

theorem namedChild?_erase_of_stays {i k : Nat} (hi : i < k)
    (h : ∀ c ∈ n.tree.namedChildren.take k, c.stays chosen = true) :
    (n.erase chosen).namedChild? i = (n.namedChild? i).map (Node.erase chosen) := by
  have htake : (n.namedChildren.filter (·.tree.stays chosen)).take k = n.namedChildren.take k := by
    refine take_filter fun c hc => ?_
    rw [namedChildren, ← List.map_take] at hc
    obtain ⟨t, ht, rfl⟩ := List.mem_map.mp hc
    exact h t ht
  unfold namedChild?
  rw [namedChildren_erase, List.getElem?_map, ← List.getElem?_take_of_lt hi, htake,
    List.getElem?_take_of_lt hi]

theorem listed_tree (hc : n.field? name = some c) : n.tree.listed name = c.tree.namedChildren := by
  rw [Tree.listed, ← Node.tree_field?, hc]
  rfl

variable (h : n.tree.Idle chosen)

include h

theorem namedChild?_erase {i k : Nat} (hkind : Tree.Reading.ofKind n.kind = .leading k)
    (hi : i < k) : (n.erase chosen).namedChild? i = (n.namedChild? i).map (Node.erase chosen) :=
  namedChild?_erase_of_stays hi fun _ hc => h.stays_of_reading hkind hc

theorem namedChild?_erase_of_token {token : String}
    (hkind : Tree.Reading.ofKind n.kind = .leadingAt token) (htoken : n.hasToken token = true) :
    (n.erase chosen).namedChild? 0 = (n.namedChild? 0).map (Node.erase chosen) := by
  refine namedChild?_erase_of_stays Nat.one_pos fun c hc => h.stays_of_reading hkind ?_
  rwa [Tree.Reading.trees, if_pos (show n.tree.hasToken token = true from htoken)]

theorem namedChild?_erase_of_without {field : String}
    (hkind : Tree.Reading.ofKind n.kind = .leadingWithout field) (hfield : n.field? field = none) :
    (n.erase chosen).namedChild? 0 = (n.namedChild? 0).map (Node.erase chosen) := by
  refine namedChild?_erase_of_stays Nat.one_pos fun c hc => h.stays_of_reading hkind ?_
  rwa [Tree.Reading.trees, ← Node.tree_field?, hfield, if_neg (by simp)]

theorem namedChildren_erase_of_all (hkind : Tree.Reading.ofKind n.kind = .all) :
    (n.erase chosen).namedChildren = n.namedChildren.map (Node.erase chosen) :=
  namedChildren_erase_of_stays fun _ hc => h.stays_of_reading hkind hc

theorem namedChildren_field_erase (hkind : Tree.Reading.ofKind n.kind = .allIn name)
    (hc : n.field? name = some c) :
    (c.erase chosen).namedChildren = c.namedChildren.map (Node.erase chosen) := by
  refine namedChildren_erase_of_stays fun u hu => h.stays_of_reading hkind ?_
  rwa [Tree.Reading.trees, listed_tree hc]

theorem namedChild?_constraint_erase (hc : n.field? "constraint" = some c) :
    (c.erase chosen).namedChild? 0 = (c.namedChild? 0).map (Node.erase chosen) := by
  refine namedChild?_erase_of_stays Nat.one_pos fun u hu => h.stays_of_mem_positional ?_
  refine List.mem_append_left _ ?_
  rwa [listed_tree hc]

end Node

/-! ## Reading a tree -/

namespace Tree

variable {t c : Tree α}

theorem field?_erase (h : t.Idle chosen) (name : String) :
    (t.erase chosen).field? name = (t.field? name).map (erase chosen) := by
  have hroot := Node.field?_erase (n := .root t) h name
  unfold field?
  rw [show Node.root (t.erase chosen) = (Node.root t).erase chosen from rfl, hroot,
    Option.map_map, Option.map_map]
  rfl

theorem fieldText?_erase (h : t.Idle chosen) (name : String) :
    (t.erase chosen).fieldText? name = t.fieldText? name := by
  unfold fieldText?
  rw [field?_erase h]
  cases t.field? name <;> simp

theorem field?_of_leaf (h : t.children = []) (name : String) : t.field? name = none := by
  rw [field?, Node.field?_of_leaf (n := .root t) h, Option.map_none]

theorem fieldText?_of_leaf (h : t.children = []) (name : String) : t.fieldText? name = none := by
  rw [fieldText?, field?_of_leaf h, Option.map_none]

theorem Idle.of_field? (h : t.Idle chosen) (hc : t.field? name = some c) : c.Idle chosen := by
  obtain ⟨n, hn, rfl⟩ := Option.map_eq_some_iff.mp hc
  exact Node.idle_of_field? (n := .root t) h hn

theorem head?_namedChildren_erase (h : t.Idle chosen) (hkind : Reading.ofKind t.kind = .leading 1) :
    (t.erase chosen).namedChildren.head? = t.namedChildren.head?.map (erase chosen) := by
  have htake := take_filter (k := 1) fun c hc => h.stays_of_reading hkind hc
  have hhead := congrArg List.head? htake
  rw [List.head?_take, List.head?_take, if_neg Nat.one_ne_zero, if_neg Nat.one_ne_zero] at hhead
  rw [namedChildren_erase, List.head?_map, hhead]

end Tree

/-! ## Numbered children -/

/-- The number of elements before a position that stay. -/
def rank {σ : Type} (keep : σ → Bool) (l : List σ) (i : Nat) : Nat := (l.take i).countP keep

section Rank

variable {σ : Type} {keep : σ → Bool} {l : List σ}

theorem rank_cons_succ (x : σ) (l : List σ) (i : Nat) :
    rank keep (x :: l) (i + 1) = rank keep l i + if keep x then 1 else 0 := by
  rw [rank, List.take_succ_cons, List.countP_cons, rank]

/-- The elements that stay are numbered by their ranks. -/
theorem zipIdx_filter (keep : σ → Bool) (l : List σ) : (l.filter keep).zipIdx =
    (l.zipIdx.filter fun p => keep p.1).map fun p => (p.1, rank keep l p.2) := by
  -- from the end: one more element changes no rank before it
  induction l using List.reverseRecOn with
  | nil => rfl
  | append_singleton l x ih =>
    have hbefore : (l.zipIdx.filter fun p => keep p.1).map (fun p => (p.1, rank keep l p.2)) =
        (l.zipIdx.filter fun p => keep p.1).map fun p => (p.1, rank keep (l ++ [x]) p.2) := by
      refine List.map_congr_left fun p hp => ?_
      have hlt := List.snd_lt_of_mem_zipIdx (List.mem_filter.mp hp).1
      rw [rank, rank, List.take_append_of_le_length (by omega)]
    rw [List.filter_append, List.zipIdx_append, ih, hbefore, List.zipIdx_append,
      List.filter_append, List.map_append]
    congr 1
    cases hx : keep x <;> simp [hx, rank, List.countP_eq_length_filter]

/-- Elements that stay at different positions have different ranks. -/
theorem rank_injective {p q : σ × Nat} (hp : p ∈ l.zipIdx) (hq : q ∈ l.zipIdx)
    (hkp : keep p.1 = true) (hkq : keep q.1 = true) (h : rank keep l p.2 = rank keep l q.2) :
    p.2 = q.2 := by
  -- an element that stays makes the rank of all later ones higher
  have hlt {p q : σ × Nat} (hp : p ∈ l.zipIdx) (hk : keep p.1 = true) (hpq : p.2 < q.2) :
      rank keep l p.2 < rank keep l q.2 := by
    have hx : l[p.2]? = some p.1 := List.mk_mem_zipIdx_iff_getElem?.mp hp
    have hsucc : rank keep l (p.2 + 1) = rank keep l p.2 + 1 := by
      rw [rank, rank, List.take_add_one, hx]
      simp [hk]
    have hle : rank keep l (p.2 + 1) ≤ rank keep l q.2 :=
      (List.take_sublist_take_left (by omega)).countP_le
    omega
  rcases Nat.lt_trichotomy p.2 q.2 with hpq | hpq | hpq
  · have := hlt hp hkp hpq
    omega
  · exact hpq
  · have := hlt hq hkq hpq
    omega

end Rank

namespace Tree

variable {τ : Type}

/-- What is decided for the trees that stay, of what is decided for each tree of a list. -/
def kept (chosen : Label → Bool) (otherwise : τ) : List (Tree α) → List τ → List τ
  | [], _ => []
  | t :: ts, ds =>
    if chosen t.label then kept chosen otherwise ts ds.tail
    else ds.head?.getD otherwise :: kept chosen otherwise ts ds.tail

theorem kept_map_map {υ : Type} (chosen : Label → Bool) (otherwise : τ) (tree : υ → Tree α)
    (decide : υ → τ) (xs : List υ) :
    kept chosen otherwise (xs.map tree) (xs.map decide) =
      (xs.filter fun x => (tree x).stays chosen).map decide := by
  induction xs with
  | nil => rfl
  | cons x xs ih =>
    rw [List.map_cons, List.map_cons, kept, List.tail_cons, ih, List.filter_cons]
    cases hx : chosen (tree x).label <;> simp [stays, hx]

theorem map_children_erase {otherwise : τ} {f : Tree α → τ} (hf : ∀ c, f (c.erase chosen) = f c)
    (t : Tree α) : (t.erase chosen).children.map f =
      kept chosen otherwise t.children (t.children.map f) := by
  have hkept := kept_map_map chosen otherwise id f t.children
  rw [List.map_id] at hkept
  rw [children_erase, List.map_map, hkept]
  exact List.map_congr_left fun c _ => hf c

theorem zipIdx_children_erase (chosen : Label → Bool) (t : Tree α) :
    (t.erase chosen).children.zipIdx = (t.children.zipIdx.filter (·.1.stays chosen)).map
      fun p => (p.1.erase chosen, rank (stays chosen) t.children p.2) := by
  rw [children_erase, List.zipIdx_map, zipIdx_filter, List.map_map]
  rfl

theorem map_zipIdx_erase {otherwise : τ} {f g : Tree α × Nat → τ}
    (h : ∀ p ∈ t.children.zipIdx, p.1.stays chosen = true →
      f (p.1.erase chosen, rank (stays chosen) t.children p.2) = g p) :
    (t.erase chosen).children.zipIdx.map f =
      kept chosen otherwise t.children (t.children.zipIdx.map g) := by
  have hkept := kept_map_map chosen otherwise Prod.fst g t.children.zipIdx
  rw [List.zipIdx_map_fst] at hkept
  rw [zipIdx_children_erase, List.map_map, hkept]
  refine List.map_congr_left fun p hp => ?_
  obtain ⟨hmem, hstays⟩ := List.mem_filter.mp hp
  exact h p hmem hstays

/-- The first tree of a sort is found at its rank, if it stays. -/
theorem findIdx?_children_erase (hf : ∀ c, f (c.erase chosen) = f c)
    (hfirst : ∀ c, t.children.find? f = some c → c.stays chosen = true) :
    (t.erase chosen).children.findIdx? f =
      (t.children.findIdx? f).map (rank (stays chosen) t.children) := by
  rw [children_erase, List.findIdx?_map]
  have hcomp : f ∘ erase chosen = f := funext hf
  rw [hcomp]
  generalize t.children = cs at hfirst
  induction cs with
  | nil => rfl
  | cons c cs ih =>
    rw [List.find?_cons] at hfirst
    rw [List.filter_cons, List.findIdx?_cons]
    cases hc : f c with
    | true =>
      have hstays := hfirst c (by rw [hc])
      simp [hstays, List.findIdx?_cons, hc, rank]
    | false =>
      rw [hc] at hfirst
      have hrest := ih hfirst
      cases hstays : c.stays chosen with
      | true =>
        rw [if_pos rfl, List.findIdx?_cons, hc, hrest]
        simp [Option.map_map, Function.comp_def, rank_cons_succ, hstays]
      | false =>
        rw [if_neg (by decide), hrest]
        simp [Option.map_map, Function.comp_def, rank_cons_succ, hstays]

/-- A tree that stays is the first one of a sort after the removal just when it was before. -/
theorem findIdx?_children_erase_iff (hf : ∀ c, f (c.erase chosen) = f c)
    (hfirst : ∀ c, t.children.find? f = some c → c.stays chosen = true) {p : Tree α × Nat}
    (hp : p ∈ t.children.zipIdx) (hstays : p.1.stays chosen = true) :
    (t.erase chosen).children.findIdx? f = some (rank (stays chosen) t.children p.2) ↔
      t.children.findIdx? f = some p.2 := by
  rw [findIdx?_children_erase hf hfirst, Option.map_eq_some_iff]
  constructor
  · rintro ⟨i, hi, hrank⟩
    obtain ⟨hlt, hfi, hbefore⟩ := List.findIdx?_eq_some_iff_getElem.mp hi
    have hfind : t.children.find? f = some t.children[i] :=
      List.find?_eq_some_iff_getElem.mpr ⟨hfi, i, hlt, rfl, by simpa using hbefore⟩
    have hmem : (t.children[i], i) ∈ t.children.zipIdx :=
      List.mk_mem_zipIdx_iff_getElem?.mpr (List.getElem?_eq_getElem hlt)
    rw [hi]
    exact congrArg some (rank_injective hmem hp (hfirst _ hfind) hstays hrank)
  · exact fun h => ⟨p.2, h, rfl⟩

/-- A decision about the first tree of a sort and another one about all others. -/
theorem map_only_erase {hit miss : τ} (hf : ∀ c, f (c.erase chosen) = f c)
    (hfirst : ∀ c, t.children.find? f = some c → c.stays chosen = true) {b : Nat}
    (hb : t.children.findIdx? f = some b) :
    ((t.erase chosen).children.zipIdx.map fun p =>
        if p.2 = rank (stays chosen) t.children b then hit else miss) =
      kept chosen miss t.children
        (t.children.zipIdx.map fun p => if p.2 = b then hit else miss) := by
  refine map_zipIdx_erase fun p hp hstays => ?_
  have hiff := findIdx?_children_erase_iff hf hfirst hp hstays
  rw [findIdx?_children_erase hf hfirst, hb, Option.map_some, Option.some_inj, Option.some_inj,
    eq_comm, eq_comm (a := b)] at hiff
  simp only [hiff]

end Tree

end CodeConcepts.Syntax
