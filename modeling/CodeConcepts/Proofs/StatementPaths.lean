import CodeConcepts.Proofs.Attribution

/-!
# Both walks come to statements

Statements stand in the root of a tree, in blocks, and in whatever else has a place for them. The
scope analysis and the extraction go down a tree independently, and neither goes everywhere: both
pass over tokens and the inside of import statements, the extraction stops at names, the analysis
enters a namespace only through its body. `Admits` collects what is asked of one step down for both
to take it, and `Admitted` asks it of every step on the way to a node.

Such a step keeps the two walks together (`Met.down`), so both come to every admitted node, with a
task of the analysis that the visit of the extraction follows (`met_of_admitted`).
-/

namespace CodeConcepts

variable {α β : Type} {i : Nat} {c : Syntax.Tree α} {task : Task}

/-! ## Ways down to statements -/

/-- Statements may stand below a child of a node. -/
@[mk_iff]
structure Admits (p c : Syntax.Tree α) : Prop where
  /-- The child is no token. -/
  named : c.label.named
  /-- There are no statements below names. -/
  name : p.kind ∉ nameKinds
  /-- There are none in import statements. -/
  imports : p.kind ≠ "import_statement"
  /-- There are none below the access to a member of something named. -/
  access : p.kind = "member_expression" → ¬ (p.field? "object").any (·.kind == "identifier")
  /-- In an export statement they stand below the declaration or the value that is exported. -/
  exports : p.kind = "export_statement" → (p.field? "declaration").isSome ∨
    (p.field? "value").isSome ∨ p.hasToken "=" ∧ ¬ p.namedChildren.isEmpty
  /-- A namespace has a name and one body, which is a block, and holds statements only there. -/
  space : ScopeRole.ofKind p.kind = .namespaceDeclaration → (p.field? "name").isSome ∧
    c.label.roles.contains "body" ∧ c.kind = "statement_block" ∧
    (p.children.countP fun b => b.label.roles.contains "body") ≤ 1
  /-- A declarator has a name. -/
  declarator : p.kind = "variable_declarator" → (p.field? "name").isSome

instance (p c : Syntax.Tree α) : Decidable (Admits p c) := decidable_of_iff _ (admits_iff p c).symm

/-- Statements may stand at a node: every step on the way down to it leads there. -/
def Admitted (n : Syntax.Node α) : Prop := (n.tree :: n.above).IsChain fun c p => Admits p c

instance (n : Syntax.Node α) : Decidable (Admitted n) :=
  inferInstanceAs (Decidable ((n.tree :: n.above).IsChain fun c p => Admits p c))

theorem admitted_root (t : Syntax.Tree α) : Admitted (.root t) := .singleton t

theorem admitted_down {n : Syntax.Node α} :
    Admitted (n.down c) ↔ Admits n.tree c ∧ Admitted n := List.isChain_cons_cons

/-- What is found at most once is first found where it stands. -/
theorem findIdx?_of_countP_le_one {β : Type} {p : β → Bool} {xs : List β} {x : β}
    (hx : xs[i]? = some x) (hp : p x = true) (hone : xs.countP p ≤ 1) : xs.findIdx? p = some i := by
  induction xs generalizing i with
  | nil => cases hx
  | cons y ys ih =>
    rw [List.countP_cons] at hone
    rw [List.findIdx?_cons]
    cases i with
    | zero =>
      cases hx
      rw [if_pos hp]
    | succ i =>
      have hpos : 0 < ys.countP p := List.countP_pos_iff.mpr ⟨x, List.mem_of_getElem? hx, hp⟩
      by_cases hy : p y = true
      · rw [if_pos hy] at hone
        omega
      · rw [if_neg hy] at hone
        rw [if_neg hy, ih hx hone]
        rfl

/-- The one body of a namespace is the first part that is a body. -/
theorem Admits.findIdx?_body {p : Syntax.Tree α} (h : Admits p c)
    (hspace : ScopeRole.ofKind p.kind = .namespaceDeclaration) (hc : p.children[i]? = some c) :
    p.children.findIdx? (fun b => b.label.roles.contains "body") = some i := by
  obtain ⟨-, hbody, -, hone⟩ := h.space hspace
  exact findIdx?_of_countP_le_one hc hbody hone

/-! ## Tasks of the analysis -/

namespace Plan

variable {resolve : String → QName} {frame : Frame} {t : Syntax.Tree α} {taken : Taken}

/-- Import statements and namespaces apart, all named children of a node are visited. -/
theorem full_ofNode {assigned : Option Assignment}
    (himport : ScopeRole.ofKind t.kind ≠ .importStatement)
    (hspace : ScopeRole.ofKind t.kind ≠ .namespaceDeclaration) :
    Task.Full (ofNode resolve frame assigned t taken).tasks t.children :=
  tasks_ofNode (P := fun tasks => Task.Full tasks t.children) resolve frame assigned t taken
    (full_visitNamed t) (full_visitWrapped t none) (full_visitWrapped t assigned)
    (fun _ => full_container _ t taken) (fun h => absurd h hspace)
    (fun _ => full_visitDeclarators t) fun h => absurd h himport

/-- The same holds of a node with any task; a declarator needs a name for it. -/
theorem full_ofTask (htask : task ≠ .skip) (himport : ScopeRole.ofKind t.kind ≠ .importStatement)
    (hspace : ScopeRole.ofKind t.kind ≠ .namespaceDeclaration)
    (hname : t.kind = "variable_declarator" → (t.field? "name").isSome) :
    Task.Full (ofTask resolve task frame t taken).tasks t.children := by
  cases task with
  | skip => exact absurd rfl htask
  | visit assigned => exact full_ofNode himport hspace
  | declarator =>
    unfold ofTask
    dsimp only
    split
    · next hkind =>
      unfold variableDeclarator
      split
      · next hnone =>
        have hsome := hname hkind
        rw [hnone] at hsome
        cases hsome
      · split
        · exact full_visitNamed t
        · exact full_visitWrapped t none
    · exact full_ofNode himport hspace
  | body => exact full_container frame t taken

/-- The child of a node has a task, if the node has one and leads to the child. -/
theorem task_ne_skip (htask : task ≠ .skip) (himport : ScopeRole.ofKind t.kind ≠ .importStatement)
    (hname : t.kind = "variable_declarator" → (t.field? "name").isSome)
    (hbody : ScopeRole.ofKind t.kind = .namespaceDeclaration →
      t.children.findIdx? (fun b => b.label.roles.contains "body") = some i)
    (hc : t.children[i]? = some c) (hnamed : c.label.named) :
    (ofTask resolve task frame t taken).tasks[i]?.getD .skip ≠ .skip := by
  have hfull {tasks : List Task} (h : Task.Full tasks t.children) :
      tasks[i]?.getD .skip ≠ .skip := by
    intro hskip
    have hvisit := h i c hc hnamed
    rw [hskip] at hvisit
    cases hvisit
  by_cases hspace : ScopeRole.ofKind t.kind = .namespaceDeclaration
  · have hnode (assigned : Option Assignment) :
        (ofNode resolve frame assigned t taken).tasks[i]?.getD .skip ≠ .skip := by
      unfold ofNode
      rw [hspace]
      dsimp only
      unfold namespaceDeclaration
      split
      · exact hfull (full_visitWrapped t none)
      · dsimp only [Scope.visitBody]
        rw [hbody hspace]
        dsimp only
        rw [List.getElem?_map, List.getElem?_zipIdx, hc, Option.map_some, Option.map_some,
          Option.getD_some, Nat.zero_add, if_pos rfl]
        intro h
        cases h
    cases task with
    | skip => exact absurd rfl htask
    | visit assigned => exact hnode assigned
    | declarator =>
      unfold ofTask
      dsimp only
      rw [if_neg fun hkind => absurd hspace (by rw [hkind]; decide)]
      exact hnode none
    | body => exact hfull (full_container frame t taken)
  · exact hfull (full_ofTask htask himport hspace hname)

end Plan

theorem children_annotate (resolve : String → QName) (task : Task) (frame : Frame) (taken : Taken)
    (t : Syntax.Tree α) : (annotate resolve task frame taken t).result.children =
      (annotateAll resolve (Plan.ofTask resolve task frame t taken).tasks
        (Plan.ofTask resolve task frame t taken).frame
        (Plan.ofTask resolve task frame t taken).taken t.children).result := by
  obtain ⟨l, a, cs⟩ := t
  rw [annotate]
  rfl

/-- What is noted on a node and what it hands outwards come from its plan and its children. -/
theorem note_annotate (resolve : String → QName) (task : Task) (frame : Frame) (taken : Taken)
    (t : Syntax.Tree α) : (annotate resolve task frame taken t).result.note =
      (Plan.ofTask resolve task frame t taken).note
        (annotateAll resolve (Plan.ofTask resolve task frame t taken).tasks
          (Plan.ofTask resolve task frame t taken).frame
          (Plan.ofTask resolve task frame t taken).taken t.children).outward := by
  obtain ⟨l, a, cs⟩ := t
  rw [annotate]
  rfl

theorem outward_annotate (resolve : String → QName) (task : Task) (frame : Frame) (taken : Taken)
    (t : Syntax.Tree α) : (annotate resolve task frame taken t).outward =
      (Plan.ofTask resolve task frame t taken).outwardWith
        (annotateAll resolve (Plan.ofTask resolve task frame t taken).tasks
          (Plan.ofTask resolve task frame t taken).frame
          (Plan.ofTask resolve task frame t taken).taken t.children).outward := by
  obtain ⟨l, a, cs⟩ := t
  rw [annotate]
  rfl

/-- A child at a position is annotated with the task there, and what it hands outwards is a stretch
of what all children do. -/
theorem exists_annotateAll_child (resolve : String → QName) (tasks : List Task) (frame : Frame)
    (taken : Taken) {ts : List (Syntax.Tree α)} {t : Syntax.Tree α} (ht : ts[i]? = some t) :
    ∃ taken', (annotateAll resolve tasks frame taken ts).result[i]? =
        some (annotate resolve (tasks[i]?.getD .skip) frame taken' t).result ∧
      (annotate resolve (tasks[i]?.getD .skip) frame taken' t).outward <:+:
        (annotateAll resolve tasks frame taken ts).outward := by
  induction ts generalizing tasks taken i with
  | nil => cases ht
  | cons u us ih =>
    rw [annotateAll]
    cases i with
    | zero =>
      cases ht
      rw [List.head?_eq_getElem?]
      exact ⟨taken, rfl, (List.prefix_append _ _).isInfix⟩
    | succ i =>
      obtain ⟨taken', hresult, houtward⟩ := ih tasks.tail
        (annotate resolve (tasks.head?.getD .skip) frame taken u).taken ht
      rw [List.getElem?_tail] at hresult houtward
      exact ⟨taken', hresult, houtward.trans (List.suffix_append _ _).isInfix⟩

theorem kind_of_importStatement {kind : String} (h : ScopeRole.ofKind kind = .importStatement) :
    kind = "import_statement" := by
  unfold ScopeRole.ofKind at h
  split at h <;> first | rfl | cases h

/-- Only the root has nothing above it. -/
theorem Syntax.Node.eq_root {t : Syntax.Tree α} {n : Syntax.Node α} (hn : n ∈ (root t).descendants)
    (habove : n.above = []) : n = root t := by
  rcases eq_or_down_of_mem_descendants hn with h | ⟨p, -, c, -, rfl⟩
  · exact h
  · cases habove

namespace Extract

/-! ## Meeting at a node -/

/-- What an admitted child is not is closed to the extraction. -/
theorem closes_of_admits (t : Syntax.Tree α) : Closes (fun c => ¬ Admits t c) t where
  name hkind c _ h := h.name hkind
  access hkind hobject c _ h := h.access hkind hobject
  clause hkind hdeclaration hvalue hempty c _ h := by
    rcases h.exports hkind with h | h | ⟨htoken, hsome⟩
    · rw [hdeclaration] at h
      cases h
    · rw [hvalue] at h
      cases h
    · rw [hempty htoken] at hsome
      exact hsome rfl
  space hspace hnone c _ h := by
    have hname := (h.space hspace).1
    rw [hnone] at hname
    cases hname
  body hspace b _ _ := by
    by_cases h : Admits t b
    · exact .inr ⟨h.named, (h.space hspace).2.2.1⟩
    · exact .inl h

/-- A descent visits a child that it has a turn for. -/
theorem Descent.exists_visit {d : Descent} {n : ScopedNode} {c : Syntax.Tree Note}
    (hc : n.tree.children[i]? = some c) (hturn : d.turns[i]?.getD .skip ≠ .skip) :
    ∃ v ∈ d.visits n, v.node = n.down c ∧ v.owner = d.owner ∧ v.turn = d.turns[i]?.getD .skip := by
  cases hi : d.turns[i]? with
  | none =>
    rw [hi] at hturn
    exact absurd rfl hturn
  | some turn =>
    rw [hi] at hturn
    have hzip : (turn, c) ∈ d.turns.zip n.tree.children := by
      refine List.mem_of_getElem? (i := i) ?_
      rw [List.getElem?_zip_eq_some]
      exact ⟨hi, hc⟩
    have hvisit {v : Visit} (h : turn.visit? d.owner (n.down c) = some v) : v ∈ d.visits n :=
      List.mem_filterMap.mpr ⟨(turn, c), hzip, h⟩
    cases turn with
    | skip => exact absurd rfl hturn
    | visit | declarator kind => exact ⟨_, hvisit rfl, rfl, rfl, rfl⟩

theorem Follows.ne_skip {kind : String} {turn : Turn} (h : Follows kind task turn)
    (htask : task ≠ .skip) : turn ≠ .skip := by
  cases h with
  | skip => exact absurd rfl htask
  | visit assigned | declarator keyword | body => exact Turn.noConfusion

/-- Both walks have come to a node: the analysis with a task, in a place of a tree, and the
extraction on a visit that follows the task. At the root, where both start, there is no visit. -/
structure Met (resolve : String → QName) (vs : List Visit) (n : ScopedNode) (s : Syntax.Tree α)
    (task : Task) (frame : Frame) (taken : Taken) : Prop where
  tree : n.tree = (annotate resolve task frame taken s).result
  task_ne : task ≠ .skip
  visited : n.above = [] ∧ task = .body ∨ ∃ v ∈ vs, v.node = n ∧ Follows s.kind task v.turn

section Meeting

variable {resolve : String → QName} {module owner : QName} {t : Syntax.Tree α}

theorem met_root (vs : List Visit) :
    Met resolve vs (.root (analyse resolve module t)) t .body ⟨module, true, false⟩ [] :=
  ⟨rfl, Task.noConfusion, .inl ⟨rfl, rfl⟩⟩

variable {n : ScopedNode} {s : Syntax.Tree α} {task : Task} {frame : Frame} {taken : Taken}

theorem Met.shape {vs : List Visit} (h : Met resolve vs n s task frame taken) :
    n.tree.shape = s.shape := by
  rw [h.tree]
  exact shape_annotate resolve task frame taken s

theorem Met.annotates {vs : List Visit} (h : Met resolve vs n s task frame taken) :
    Annotates resolve task frame s taken n := by
  obtain ⟨u, above⟩ := n
  obtain rfl : u = _ := h.tree
  exact annotates_annotate resolve task frame taken s above

theorem Met.kind {vs : List Visit} (h : Met resolve vs n s task frame taken) : n.kind = s.kind :=
  congrArg Syntax.Label.kind h.annotates.label

/-- What the children of a node hand outwards. -/
def handedOut (resolve : String → QName) (task : Task) (frame : Frame) (taken : Taken)
    (s : Syntax.Tree α) : Scope :=
  (annotateAll resolve (Plan.ofTask resolve task frame s taken).tasks
    (Plan.ofTask resolve task frame s taken).frame
    (Plan.ofTask resolve task frame s taken).taken s.children).outward

theorem Met.note {vs : List Visit} (h : Met resolve vs n s task frame taken) :
    n.note = (Plan.ofTask resolve task frame s taken).note
      (handedOut resolve task frame taken s) := by
  show n.tree.note = _
  rw [h.tree, note_annotate]
  rfl

theorem Met.declares {vs : List Visit} (h : Met resolve vs n s task frame taken) :
    ScopedNode.declares? n = (Plan.ofTask resolve task frame s taken).declares :=
  congrArg Note.declares h.note

theorem Met.overloads {vs : List Visit} (h : Met resolve vs n s task frame taken) :
    ScopedNode.overloads? n = (Plan.ofTask resolve task frame s taken).overloads :=
  congrArg Note.overloads h.note

/-- The children of a node are annotated with the tasks its plan has for them. -/
theorem exists_annotated_child (h : n.tree = (annotate resolve task frame taken s).result)
    {c : Syntax.Tree Note} (hc : n.tree.children[i]? = some c) :
    ∃ d taken', s.children[i]? = some d ∧ d.label = c.label ∧ c = (annotate resolve
        ((Plan.ofTask resolve task frame s taken).tasks[i]?.getD .skip)
        (Plan.ofTask resolve task frame s taken).frame taken' d).result ∧
      (annotate resolve ((Plan.ofTask resolve task frame s taken).tasks[i]?.getD .skip)
        (Plan.ofTask resolve task frame s taken).frame taken' d).outward <:+:
        handedOut resolve task frame taken s := by
  have hlabels : n.tree.children.map (·.label) = s.children.map (·.label) := by
    rw [h]
    exact (annotates_annotate resolve task frame taken s []).labels
  obtain ⟨d, hd, hlabel⟩ := exists_getElem?_of_labels hlabels hc
  obtain ⟨taken', hget, houtward⟩ := exists_annotateAll_child resolve
    (Plan.ofTask resolve task frame s taken).tasks (Plan.ofTask resolve task frame s taken).frame
    (Plan.ofTask resolve task frame s taken).taken hd
  rw [← children_annotate, ← h, hc] at hget
  exact ⟨d, taken', hd, hlabel, Option.some.inj hget, houtward⟩

/-- What leads from a node to a child is the same in the tree before the analysis. -/
theorem Met.task_ne_skip {vs : List Visit} (h : Met resolve vs n s task frame taken) {i : Nat}
    {c : Syntax.Tree Note} (hc : n.tree.children[i]? = some c) (hadmits : Admits n.tree c) :
    (Plan.ofTask resolve task frame s taken).tasks[i]?.getD .skip ≠ .skip := by
  have hkind : n.tree.kind = s.kind := h.kind
  obtain ⟨d, hd, hlabel⟩ := exists_getElem?_of_labels h.annotates.labels hc
  refine Plan.task_ne_skip h.task_ne ?_ ?_ ?_ hd ?_
  · intro himport
    refine hadmits.imports ?_
    rw [hkind]
    exact kind_of_importStatement himport
  · intro hdeclarator
    rw [← Syntax.Tree.isSome_field?_congr h.shape]
    exact hadmits.declarator (hkind.trans hdeclarator)
  · intro hspace
    rw [← findIdx?_body h.annotates.labels]
    exact hadmits.findIdx?_body (by rw [hkind]; exact hspace) hc
  · rw [hlabel]
    exact hadmits.named

/-- A step down to an admitted child keeps the walks together. -/
theorem Met.down (h : Met resolve (walk Extractor.all owner (analyse resolve module t)) n s task
      frame taken) (hn : n.above = [] → n = .root (analyse resolve module t)) {i : Nat}
    {c : Syntax.Tree Note} (hc : n.tree.children[i]? = some c) (hadmits : Admits n.tree c) :
    ∃ d taken', s.children[i]? = some d ∧ d.label = c.label ∧
      Met resolve (walk Extractor.all owner (analyse resolve module t)) (n.down c) d
        ((Plan.ofTask resolve task frame s taken).tasks[i]?.getD .skip)
        (Plan.ofTask resolve task frame s taken).frame taken' ∧
      (annotate resolve ((Plan.ofTask resolve task frame s taken).tasks[i]?.getD .skip)
        (Plan.ofTask resolve task frame s taken).frame taken' d).outward <:+:
        handedOut resolve task frame taken s := by
  obtain ⟨d, taken', hd, hlabel, htree, houtward⟩ := exists_annotated_child h.tree hc
  have hkind : c.kind = d.kind := congrArg Syntax.Label.kind hlabel.symm
  have hskip := h.task_ne_skip hc hadmits
  refine ⟨d, taken', hd, hlabel, ⟨htree, hskip, .inr ?_⟩, houtward⟩
  -- from the turns at the node to a visit of the child
  have hvisit {descent : Descent} (hsub : descent.visits n ⊆ walk Extractor.all owner
        (analyse resolve module t))
      (hfollows : Follows c.kind ((Plan.ofTask resolve task frame s taken).tasks[i]?.getD .skip)
        (descent.turns[i]?.getD .skip)) :
      ∃ v ∈ walk Extractor.all owner (analyse resolve module t), v.node = n.down c ∧
        Follows d.kind ((Plan.ofTask resolve task frame s taken).tasks[i]?.getD .skip) v.turn := by
    obtain ⟨v, hv, hnode, -, hturn⟩ := Descent.exists_visit hc (hfollows.ne_skip hskip)
    rw [← hturn, hkind] at hfollows
    exact ⟨v, hsub hv, hnode, hfollows⟩
  rcases h.visited with ⟨habove, htask⟩ | ⟨v, hv, rfl, hfollows⟩
  · obtain rfl := hn habove
    subst htask
    have hagree : Agreement (fun _ => False) (Plan.container frame s taken).tasks
        (Descent.children owner (.root (analyse resolve module t))).turns
        (analyse resolve module t).children :=
      agreement_children h.annotates.labels owner (visiting_container frame s taken)
    refine hvisit ?_ ((hagree i c hc).resolve_left id)
    intro w hw
    rw [walk_eq]
    exact List.mem_flatMap.mpr ⟨w, hw, w.mem_onward_self⟩
  · have hagree := agreement_descent h.annotates h.shape (closes_of_admits _) hfollows i c hc
    exact hvisit (next_subset_walk hv) (hagree.resolve_left fun hnot => hnot hadmits)

/-- Entries for the scope around a node are a stretch of the scope of the nearest node above it that
has one. -/
def EntersAbove (n : ScopedNode) (entries : Scope) : Prop :=
  ∃ inner u outer, n.above = inner ++ u :: outer ∧ (∀ w ∈ inner, w.note.scope = []) ∧
    entries <:+: u.note.scope

/-- What a node hands outwards goes into the scope its parent opens, or on to the scope around the
parent. -/
theorem Met.entersAbove (h : Met resolve (walk Extractor.all owner (analyse resolve module t)) n s
      task frame taken)
    (hn : n.above ≠ [] → EntersAbove n (annotate resolve task frame taken s).outward)
    (c : Syntax.Tree Note) {entries : Scope}
    (hentries : entries <:+: handedOut resolve task frame taken s) :
    EntersAbove (n.down c) entries := by
  have hnote : n.tree.note.scope = ((Plan.ofTask resolve task frame s taken).note
      (handedOut resolve task frame taken s)).scope := congrArg Note.scope h.note
  cases hopened : (Plan.ofTask resolve task frame s taken).opened with
  | some own =>
    refine ⟨[], n.tree, n.above, rfl, List.forall_mem_nil _, ?_⟩
    rw [hnote, Plan.note, hopened]
    exact hentries.trans (List.suffix_append _ _).isInfix
  | none =>
    have hempty : n.tree.note.scope = [] := by rw [hnote, Plan.note, hopened]
    -- the root is a container, which opens a scope
    have habove : n.above ≠ [] := by
      intro habove
      rcases h.visited with ⟨-, htask⟩ | ⟨v, hv, rfl, -⟩
      · subst htask
        cases hopened
      · exact above_ne_nil v hv habove
    obtain ⟨inner, u, outer, hsplit, hscopes, hinfix⟩ := hn habove
    refine ⟨n.tree :: inner, u, outer, congrArg (n.tree :: ·) hsplit,
      List.forall_mem_cons.mpr ⟨hempty, hscopes⟩, ?_⟩
    rw [outward_annotate, Plan.outwardWith, hopened] at hinfix
    exact (hentries.trans (List.suffix_append _ _).isInfix).trans hinfix

/-- Both walks come to every admitted node, and what the node hands outwards is found in the scope
around it. -/
theorem met_of_admitted (hn : n ∈ (Syntax.Node.root (analyse resolve module t)).descendants)
    (hadmitted : Admitted n) : ∃ (s : Syntax.Tree α) (task : Task) (frame : Frame) (taken : Taken),
      Met resolve (walk Extractor.all owner (analyse resolve module t)) n s task frame taken ∧
      (n.above ≠ [] → EntersAbove n (annotate resolve task frame taken s).outward) := by
  obtain ⟨u, above⟩ := n
  induction above generalizing u with
  | nil =>
    rcases Syntax.Node.eq_or_down_of_mem_descendants hn with h | ⟨p, -, c, -, h⟩
    · rw [h]
      exact ⟨t, _, _, _, met_root _, fun hne => absurd rfl hne⟩
    · cases h
  | cons v above ih =>
    rcases Syntax.Node.eq_or_down_of_mem_descendants hn with h | ⟨p, hp, c, hc, h⟩
    · cases h
    · cases h
      obtain ⟨hadmits, hrest⟩ := admitted_down.mp hadmitted
      obtain ⟨s, task, frame, taken, hmet, henters⟩ := ih p.tree hp hrest
      obtain ⟨i, hi⟩ := List.mem_iff_getElem?.mp hc
      obtain ⟨d, taken', -, -, hdown, houtward⟩ := hmet.down (Syntax.Node.eq_root hp) hi hadmits
      exact ⟨d, _, _, _, hdown, fun _ => hmet.entersAbove henters u houtward⟩

end Meeting

end Extract

end CodeConcepts
