import CodeConcepts.Proofs.Attribution
import CodeConcepts.Proofs.ModulePaths
import CodeConcepts.Proofs.RecordNesting
import CodeConcepts.Proofs.ScopeNames

/-!
# Names follow lexical nesting

Nested declarations are named below the declaration around them. The analysis hands the owner of
nested names downwards; read upwards, it is the name of the nearest node around that has one, and
the module if there is none (`ownerAbove`).

One step of the analysis names a node directly below its owner, or by the module it describes, and
passes the name on as the next owner (`Plan.Nests`). By induction this holds all over the tree
(`nested_analyse`): on the way from a node down to another one every name extends the one before, as
long as no description of another module intervenes. Files that describe no modules therefore stay
inside their own module, with all the records and parts of records that are extracted from them.
-/

namespace CodeConcepts

variable {α : Type} {outer : List (Syntax.Tree Note)} {assigned : Option Assignment}
  {module f n : QName}

/-! ## Names below a name -/

namespace QName

/-- A name that goes on where another one ends: with a dot and a path of members. -/
def Below (n f : QName) : Prop := ∃ path, f = n.child path

theorem below_child (n : QName) (name : String) : n.Below (n.child name) := ⟨name, rfl⟩

theorem Below.trans {g : QName} (hf : n.Below f) (hg : f.Below g) : n.Below g := by
  obtain ⟨a, rfl⟩ := hf
  obtain ⟨b, rfl⟩ := hg
  refine ⟨a ++ "." ++ b, ?_⟩
  simp only [child, String.append_assoc]

theorem exists_split?_of_isModule (h : n.isModule = true) : ∃ path, n.split? = some (path, []) := by
  unfold isModule at h
  split at h
  · next path hsplit => exact ⟨path, hsplit⟩
  · cases h

/-- Modules with the same path are the same. -/
theorem eq_of_modulePath? {a b : QName} (ha : a.isModule = true) (hb : b.isModule = true)
    (h : a.modulePath? = b.modulePath?) : a = b := by
  obtain ⟨p, hp⟩ := exists_split?_of_isModule ha
  obtain ⟨q, hq⟩ := exists_split?_of_isModule hb
  unfold modulePath? at h
  rw [hp, hq] at h
  have hsame : p = q := String.ofList_injective (Option.some.inj h)
  subst hsame
  have htext : a.text.toList = b.text.toList :=
    (split?_eq_some.mp hp).1.trans (split?_eq_some.mp hq).1.symm
  cases a
  cases b
  exact congrArg mk (String.toList_injective htext)

/-- A name that belongs to a module. -/
def InModule (module f : QName) : Prop :=
  f.modulePath?.isSome ∧ f.modulePath? = module.modulePath?

theorem InModule.child {module n : QName} (h : module.InModule n) (name : String) :
    module.InModule (n.child name) := by
  have hpath := modulePath?_child h.1 name
  refine ⟨?_, hpath.trans h.2⟩
  rw [hpath]
  exact h.1

theorem inModule_self (h : module.isModule = true) : module.InModule module := by
  obtain ⟨path, hsplit⟩ := exists_split?_of_isModule h
  refine ⟨?_, rfl⟩
  unfold modulePath?
  rw [hsplit]
  rfl

/-- Different modules have no name in common. -/
theorem not_inModule_of_ne {a b : QName} (ha : a.isModule = true) (hb : b.isModule = true)
    (hne : a ≠ b) (hf : a.InModule f) : ¬ b.InModule f := by
  intro hf'
  apply hne
  exact eq_of_modulePath? ha hb (hf.2.symm.trans hf'.2)

end QName

open QName (Below below_child)

/-- The node with this note has a name: it declares it, or is an overload of the function that goes
by it. -/
def Note.Names (a : Note) (f : QName) : Prop := a.declares = some f ∨ a.overloads = some f

instance (a : Note) (f : QName) : Decidable (a.Names f) := inferInstanceAs (Decidable (_ ∨ _))

/-- What declarations are named below that stand inside of trees, of which each lies in the next:
the nearest name among them, or else the module. -/
def ownerAbove (module : QName) : List (Syntax.Tree Note) → QName
  | [] => module
  | u :: above => (u.note.declares.or u.note.overloads).getD (ownerAbove module above)

/-! ## One step -/

/-- What a plan does with names. A node is named below the owner it was given or by the module that
it describes; its name, if it has one, is the owner of what is nested in it. -/
structure Plan.Nests (frame : Frame) (t : Syntax.Tree α) (p : Plan) : Prop where
  names : ∀ f, p.declares = some f ∨ p.overloads = some f →
    describedModule? t = some f ∨ frame.owner.Below f
  owner : p.frame.owner = (p.declares.or p.overloads).getD frame.owner
  exclusive : p.declares = none ∨ p.overloads = none
  tasks : ∀ task ∈ p.tasks, task.Inherits p.frame.owner.Below

namespace Plan

variable {frame : Frame} {t : Syntax.Tree α} {taken : Taken}

/-- A node without a name hands its owner on. -/
theorem nests_of_unnamed {p : Plan} (hdeclares : p.declares = none)
    (hoverloads : p.overloads = none) (howner : p.frame.owner = frame.owner)
    (htasks : ∀ task ∈ p.tasks, task.Inherits frame.owner.Below) : p.Nests frame t where
  names f h := by
    rw [hdeclares, hoverloads] at h
    rcases h with h | h <;> cases h
  owner := by
    rw [hdeclares, hoverloads]
    exact howner
  exclusive := .inl hdeclares
  tasks := by
    rw [howner]
    exact htasks

/-- A node that declares a name hands it on. -/
theorem nests_of_declares {p : Plan} (hdeclares : p.declares = some n)
    (hoverloads : p.overloads = none) (howner : p.frame.owner = n)
    (hname : describedModule? t = some n ∨ frame.owner.Below n)
    (htasks : ∀ task ∈ p.tasks, task.Inherits n.Below) : p.Nests frame t where
  names f h := by
    rw [hdeclares, hoverloads] at h
    rcases h with h | h
    · cases h
      exact hname
    · cases h
  owner := by
    rw [hdeclares]
    exact howner
  exclusive := .inr hoverloads
  tasks := by
    rw [howner]
    exact htasks

theorem nests_passThrough (h : (Task.visit assigned).Inherits frame.owner.Below) :
    (passThrough frame t assigned taken).Nests frame t :=
  nests_of_unnamed rfl rfl rfl (inherits_visitWrapped t h)

theorem nests_opening (entries : Scope) : (opening frame.owner entries t taken).Nests frame t :=
  nests_of_unnamed rfl rfl rfl (inherits_visitNamed t)

theorem nests_container {inner : Frame} (hinner : inner.owner = frame.owner) :
    (container inner t taken).Nests frame t := by
  refine nests_of_unnamed rfl rfl hinner (inherits_tasks_container t taken ?_)
  rw [hinner]
  exact below_child frame.owner

theorem below_allocate (owner : QName) (taken : Taken) (kind : Kind) (name : String) :
    owner.Below (taken.allocate kind (owner.child name)).1 :=
  inherits_allocate (below_child owner) taken kind name

theorem nests_functionDeclaration (h : (Task.visit assigned).Inherits frame.owner.Below) :
    (functionDeclaration frame t assigned taken).Nests frame t := by
  unfold functionDeclaration
  split
  · exact nests_of_declares rfl rfl rfl (.inr h) (inherits_visitNamed t)
  · next n =>
    -- an overload takes the name of the function it belongs to
    refine ⟨fun f hf => ?_, rfl, .inl rfl, inherits_visitNamed t⟩
    rcases hf with hf | hf
    · cases hf
    · cases hf
      exact .inr h
  · split
    · exact nests_opening _
    · exact nests_of_declares rfl rfl rfl (.inr (below_allocate _ _ _ _)) (inherits_visitNamed t)

/-- Members, whether they are functions or not, have a name only where members have one. -/
theorem nests_member {p : Plan} (hdeclares : p.declares = memberName? frame t)
    (hoverloads : p.overloads = none)
    (howner : p.frame.owner = (memberName? frame t).getD frame.owner)
    (htasks : p.tasks = Scope.visitNamed t) : p.Nests frame t := by
  cases hmember : memberName? frame t with
  | none =>
    rw [hmember] at hdeclares howner
    refine nests_of_unnamed hdeclares hoverloads howner ?_
    rw [htasks]
    exact inherits_visitNamed t
  | some n =>
    rw [hmember] at hdeclares howner
    refine nests_of_declares hdeclares hoverloads howner (.inr ?_) ?_
    · unfold memberName? at hmember
      split at hmember
      · obtain ⟨name, -, rfl⟩ := Option.map_eq_some_iff.mp hmember
        exact below_child _ name
      · cases hmember
    · rw [htasks]
      exact inherits_visitNamed t

theorem nests_typed (kind : Kind) (enter : String → Meaning → Scope) (namedMembers : Bool) :
    (typed kind enter namedMembers frame t taken).Nests frame t := by
  unfold typed
  split
  · exact nests_passThrough trivial
  · exact nests_of_declares rfl rfl rfl (.inr (below_allocate _ _ _ _)) (inherits_visitNamed t)

theorem nests_enumDeclaration : (enumDeclaration frame t taken).Nests frame t := by
  unfold enumDeclaration
  split
  · exact nests_passThrough trivial
  · exact nests_of_declares rfl rfl rfl (.inr (below_allocate _ _ _ _)) (inherits_visitNamed t)

/-- The only place where a name may start anew. -/
theorem nests_namespaceDeclaration (hrole : ScopeRole.ofKind t.kind = .namespaceDeclaration) :
    (namespaceDeclaration frame t taken).Nests frame t := by
  unfold namespaceDeclaration
  cases hname : t.field? "name" with
  | none => exact nests_passThrough trivial
  | some nameNode =>
    dsimp only
    by_cases hstring : nameNode.kind = "string"
    · rw [if_pos hstring]
      refine nests_of_declares rfl rfl rfl (.inl ?_) (inherits_visitBody t)
      unfold describedModule?
      rw [if_pos hrole, hname]
      exact if_pos hstring
    · rw [if_neg hstring]
      exact nests_of_declares rfl rfl rfl (.inr (below_child _ _)) (inherits_visitBody t)

theorem nests_variableDeclarator : (variableDeclarator frame t taken).Nests frame t := by
  unfold variableDeclarator
  split
  · exact nests_of_unnamed rfl rfl rfl (inherits_skipAll t)
  · split
    · exact nests_of_declares rfl rfl rfl (.inr (below_allocate _ _ _ _)) (inherits_visitNamed t)
    · exact nests_of_unnamed rfl rfl rfl (inherits_visitWrapped t trivial)

theorem nests_ofNode (resolve : String → QName)
    (h : (Task.visit assigned).Inherits frame.owner.Below) :
    (ofNode resolve frame assigned t taken).Nests frame t := by
  unfold ofNode
  split
  · exact nests_functionDeclaration h
  · exact nests_opening _
  · exact nests_member rfl rfl rfl rfl
  · exact nests_typed _ _ _
  · exact nests_opening _
  · exact nests_typed _ _ _
  · exact nests_typed _ _ _
  · exact nests_enumDeclaration
  · next hrole => exact nests_namespaceDeclaration hrole
  · exact nests_of_unnamed rfl rfl rfl (inherits_visitDeclarators t)
  · exact nests_of_unnamed rfl rfl rfl (inherits_skipAll t)
  · exact nests_member rfl rfl rfl rfl
  · exact nests_container rfl
  · exact nests_opening _
  · exact nests_opening _
  · exact nests_passThrough h

theorem nests_ofTask (resolve : String → QName) {task : Task}
    (h : task.Inherits frame.owner.Below) : (ofTask resolve task frame t taken).Nests frame t := by
  cases task with
  | skip => exact nests_of_unnamed rfl rfl rfl (inherits_skipAll t)
  | visit assigned => exact nests_ofNode resolve h
  | declarator =>
    unfold ofTask
    dsimp only
    split
    · exact nests_variableDeclarator
    · exact nests_ofNode resolve trivial
  | body => exact nests_container rfl

end Plan

/-! ## The whole tree -/

theorem describedModule?_shape (t : Syntax.Tree α) :
    describedModule? t.shape = describedModule? t := by
  unfold describedModule? Syntax.Tree.shape
  rw [Syntax.Tree.kind_mapNotes, Syntax.Tree.field?_mapNotes]
  cases t.field? "name" with
  | none => rfl
  | some name =>
    have htext : (name.mapNotes fun _ => ()).text = name.text :=
      congrArg Syntax.Label.text (Syntax.Tree.label_mapNotes _ name)
    rw [Option.map_some]
    dsimp only
    rw [Syntax.Tree.kind_mapNotes, htext]

/-- The analysis does not change which modules a tree describes. -/
theorem describedModules_analyse (resolve : String → QName) (module : QName) (t : Syntax.Tree α) :
    describedModules (analyse resolve module t) = describedModules t := by
  refine Syntax.Tree.eq_of_shape (F := describedModules) (fun u => ?_)
    (shape_analyse resolve module t)
  unfold describedModules
  rw [Syntax.Tree.shape, Syntax.Tree.subtrees_mapNotes, List.filterMap_map]
  exact congrArg (List.filterMap · u.subtrees) (funext describedModule?_shape)

/-- The name of a node, if it has one, is below that of the nearest named node around it, or is that
of the module it describes. -/
structure Nested (module : QName) (n : ScopedNode) : Prop where
  names : ∀ f, n.note.Names f →
    describedModule? n.tree = some f ∨ (ownerAbove module n.above).Below f
  exclusive : n.note.declares = none ∨ n.note.overloads = none

open Syntax (Node)

mutual

theorem nested_annotate (resolve : String → QName) (module : QName) {task : Task} {frame : Frame}
    (taken : Taken) (above : List (Syntax.Tree Note)) : ∀ t : Syntax.Tree α,
      task.Inherits frame.owner.Below → ownerAbove module above = frame.owner →
      ∀ n ∈ (Node.mk (annotate resolve task frame taken t).result above).descendants,
        Nested module n
  | .node label a children, htask, howner, n, hn => by
    have hplan : (Plan.ofTask resolve task frame (.node label a children) taken).Nests frame
        (.node label a children) := Plan.nests_ofTask resolve htask
    have hdescribed := congrArg describedModule?
      (shape_annotate resolve task frame taken (.node label a children))
    rw [describedModule?_shape, describedModule?_shape] at hdescribed
    rw [Node.descendants_eq] at hn
    rcases List.mem_cons.mp hn with rfl | hn
    · refine ⟨fun f hf => ?_, hplan.exclusive⟩
      rw [hdescribed]
      dsimp only
      rw [howner]
      exact hplan.names f hf
    · obtain ⟨c, hc, hn⟩ := List.mem_flatMap.mp hn
      refine nested_annotateAll resolve module _ _ children hplan.tasks ?_ c hc n hn
      rw [hplan.owner, ← howner]
      rfl

theorem nested_annotateAll (resolve : String → QName) (module : QName) {tasks : List Task}
    {frame : Frame} (taken : Taken) (around : ScopedNode) : ∀ ts : List (Syntax.Tree α),
      (∀ task ∈ tasks, task.Inherits frame.owner.Below) →
      ownerAbove module (around.tree :: around.above) = frame.owner →
      ∀ c ∈ (annotateAll resolve tasks frame taken ts).result,
        ∀ n ∈ (around.down c).descendants, Nested module n
  | [], _, _, c, hc, _, _ => by
    rw [annotateAll] at hc
    exact absurd hc List.not_mem_nil
  | t :: ts, htasks, howner, c, hc, n, hn => by
    have hfirst : (tasks.head?.getD .skip).Inherits frame.owner.Below := by
      cases tasks with
      | nil => exact trivial
      | cons task rest => exact htasks task List.mem_cons_self
    rw [annotateAll] at hc
    rcases List.mem_cons.mp hc with rfl | hc
    · exact nested_annotate resolve module taken _ t hfirst howner n hn
    · exact nested_annotateAll resolve module _ around ts
        (fun task htask => htasks task (List.mem_of_mem_tail htask)) howner c hc n hn

end

theorem nested_analyse (resolve : String → QName) (module : QName) (t : Syntax.Tree α) :
    ∀ n ∈ (Node.root (analyse resolve module t)).descendants, Nested module n :=
  nested_annotate resolve module [] [] t trivial rfl

/-! ## The way up from a node -/

theorem ownerAbove_of_names {u : Syntax.Tree Note} {g : QName} (hu : Nested module ⟨u, outer⟩)
    (hg : u.note.Names g) : ownerAbove module (u :: outer) = g := by
  show (u.note.declares.or u.note.overloads).getD (ownerAbove module outer) = g
  rcases hg with hg | hg
  · rw [hg]
    rfl
  · have hnone : u.note.declares = none :=
      hu.exclusive.resolve_right fun hnone => by
        rw [show u.note.overloads = none from hnone] at hg
        cases hg
    rw [hnone, hg]
    rfl

/-- Where no module is described on the way, owners only grow downwards. -/
theorem ownerAbove_append {inner : List (Syntax.Tree Note)}
    (hnested : ∀ front u back, inner = front ++ u :: back → Nested module ⟨u, back ++ outer⟩)
    (hnone : ∀ u ∈ inner, describedModule? u = none) :
    ownerAbove module (inner ++ outer) = ownerAbove module outer ∨
      (ownerAbove module outer).Below (ownerAbove module (inner ++ outer)) := by
  induction inner with
  | nil => exact .inl rfl
  | cons u inner ih =>
    obtain ⟨hu, hrest⟩ := List.forall_mem_cons.mp hnone
    have hnext := ih (fun front v back h => hnested (u :: front) v back (congrArg _ h)) hrest
    have hhere := hnested [] u inner rfl
    by_cases hnamed : ∃ f, u.note.Names f
    · obtain ⟨f, hf⟩ := hnamed
      have howner : ownerAbove module (u :: inner ++ outer) = f := ownerAbove_of_names hhere hf
      have hbelow : (ownerAbove module (inner ++ outer)).Below f :=
        (hhere.names f hf).resolve_left fun h => by
          rw [show describedModule? u = some f from h] at hu
          cases hu
      rw [howner]
      rcases hnext with hnext | hnext
      · rw [hnext] at hbelow
        exact .inr hbelow
      · exact .inr (hnext.trans hbelow)
    · have howner : ownerAbove module (u :: inner ++ outer) =
          ownerAbove module (inner ++ outer) := by
        have hdeclares : u.note.declares = none := by
          cases h : u.note.declares with
          | none => rfl
          | some f => exact absurd ⟨f, .inl h⟩ hnamed
        have hoverloads : u.note.overloads = none := by
          cases h : u.note.overloads with
          | none => rfl
          | some f => exact absurd ⟨f, .inr h⟩ hnamed
        show (u.note.declares.or u.note.overloads).getD _ = _
        rw [hdeclares, hoverloads]
        rfl
      rw [howner]
      exact hnext

/-- A name is below the owner at any place further up that no description of a module separates it
from. -/
theorem below_ownerAbove {resolve : String → QName} {t : Syntax.Tree α} {n : ScopedNode}
    (hn : n ∈ (Node.root (analyse resolve module t)).descendants) (hf : n.note.Names f)
    {inner : List (Syntax.Tree Note)} (habove : n.above = inner ++ outer)
    (hnone : ∀ u ∈ n.tree :: inner, describedModule? u = none) :
    (ownerAbove module outer).Below f := by
  obtain ⟨hself, hinner⟩ := List.forall_mem_cons.mp hnone
  have hbelow : (ownerAbove module n.above).Below f := by
    refine ((nested_analyse resolve module t n hn).names f hf).resolve_left fun h => ?_
    rw [hself] at h
    cases h
  have hnested : ∀ front u back, inner = front ++ u :: back → Nested module ⟨u, back ++ outer⟩ := by
    intro front u back h
    have hsplit : n.above = front ++ u :: (back ++ outer) := by
      rw [habove, h, List.append_assoc, List.cons_append]
    exact nested_analyse resolve module t _ (Node.mem_descendants_of_above hn hsplit)
  rw [habove] at hbelow
  rcases ownerAbove_append hnested hinner with h | h
  · rw [h] at hbelow
    exact hbelow
  · exact h.trans hbelow

/-! ## The records of a file -/

namespace Extract

open ScopedNode (declares?)

theorem mem_subtrees_of_mem_namedChildren {n c : ScopedNode} (h : c ∈ n.namedChildren) :
    c.tree ∈ n.tree.subtrees := by
  obtain ⟨u, hu, rfl⟩ := List.mem_map.mp h
  exact Syntax.Tree.mem_subtrees_of_mem_children (List.mem_filter.mp hu).1

section Parts

variable {P : QName → Prop} {o : Origin} {n : ScopedNode}

/-- All names in what a member adds to a class have a property. -/
def MemberPart.Inherits (P : QName → Prop) : MemberPart → Prop
  | .construct ps c => (∀ p ∈ ps, P p.fqn) ∧ P c.fqn
  | .accessor a => P a.fqn
  | .method d => P d.fqn
  | .property d => P d.fqn

theorem inherits_property? {d : PropertyDecl} (hn : ∀ f, declares? n = some f → P f)
    (h : property? o n = some d) : P d.fqn := by
  unfold property? at h
  split at h
  · next hdeclares =>
    cases h
    exact hn _ hdeclares
  · cases h

theorem inherits_method? {d : MethodDecl} (hn : ∀ f, declares? n = some f → P f)
    (h : method? o n = some d) : P d.fqn := by
  unfold method? at h
  split at h
  · next hdeclares =>
    cases h
    exact hn _ hdeclares
  · cases h

theorem inherits_accessorHalf? {d : AccessorDecl} (hn : ∀ f, declares? n = some f → P f)
    (h : accessorHalf? o n = some d) : P d.fqn := by
  unfold accessorHalf? at h
  split at h
  · next hdeclares =>
    dsimp only at h
    split at h
    · cases h
      exact hn _ hdeclares
    · cases h
      exact hn _ hdeclares
  · cases h

theorem inherits_foldl_addAccessor {as : List AccessorDecl} (has : ∀ a ∈ as, P a.fqn) :
    ∀ a ∈ as.foldl (fun bs a => addAccessor a bs) [], P a.fqn := by
  have hadd (a : AccessorDecl) (ha : P a.fqn) (bs : List AccessorDecl) (hbs : ∀ b ∈ bs, P b.fqn) :
      ∀ b ∈ addAccessor a bs, P b.fqn := by
    induction bs with
    | nil => exact List.forall_mem_singleton.mpr ha
    | cons b bs ih =>
      obtain ⟨hb, hbs⟩ := List.forall_mem_cons.mp hbs
      rw [addAccessor]
      split
      · exact List.forall_mem_cons.mpr ⟨hb, hbs⟩
      · exact List.forall_mem_cons.mpr ⟨hb, ih hbs⟩
  apply List.foldlRecOn as (fun bs a => addAccessor a bs)
    (motive := fun bs : List AccessorDecl => ∀ a ∈ bs, P a.fqn) (List.forall_mem_nil _)
  intro bs hbs a ha
  exact hadd a (has a ha) bs hbs

variable (hchild : ∀ n name, P n → P (n.child name))

include hchild

theorem inherits_memberPart? {owner : QName} {implemented : List String} {p : MemberPart}
    (howner : P owner) (hn : ∀ f, declares? n = some f → P f)
    (h : memberPart? o owner implemented n = some p) : p.Inherits P := by
  have hmethod (h : (method? o n).map .method = some p) : p.Inherits P := by
    obtain ⟨d, hd, rfl⟩ := Option.map_eq_some_iff.mp h
    exact inherits_method? hn hd
  unfold memberPart? at h
  split at h
  case h_1 =>
    split at h
    · obtain ⟨ps, -, rfl⟩ := Option.map_eq_some_iff.mp h
      constructor
      · intro d hd
        obtain ⟨c, -, hd⟩ := List.mem_filterMap.mp hd
        unfold parameterProperty? at hd
        dsimp only at hd
        split at hd
        · split at hd
          · cases hd
          · obtain ⟨q, -, rfl⟩ := Option.map_eq_some_iff.mp hd
            exact hchild _ _ howner
        · cases hd
      · show P ((declares? n).getD (owner.child "constructor"))
        cases hdeclares : declares? n with
        | none => exact hchild _ _ howner
        | some f => exact hn f hdeclares
    · split at h
      · obtain ⟨d, hd, rfl⟩ := Option.map_eq_some_iff.mp h
        exact inherits_accessorHalf? hn hd
      · exact hmethod h
  case h_2 =>
    split at h
    · cases h
    · exact hmethod h
  case h_3 => exact hmethod h
  case h_4 =>
    obtain ⟨d, hd, rfl⟩ := Option.map_eq_some_iff.mp h
    exact inherits_property? hn hd
  case h_5 => cases h

theorem inherits_classDecl {d : ClassDecl} (h : classDecl o n = .ok d)
    (hn : ∀ u ∈ n.tree.subtrees, ∀ f, u.note.declares = some f → P f) :
    ∀ x ∈ Model.partLabels .classDeclaration d, P x.1 := by
  unfold classDecl at h
  obtain ⟨name, -, h⟩ := bind_eq_ok.mp h
  obtain ⟨fqn, hfqn, h⟩ := bind_eq_ok.mp h
  obtain ⟨body, hbody, h⟩ := bind_eq_ok.mp h
  cases h
  have howner : P fqn := hn _ (Syntax.Tree.mem_subtrees_self _) fqn (needName_eq_ok.mp hfqn)
  have hparts : ∀ p ∈ memberParts o fqn body, p.Inherits P := by
    intro p hp
    obtain ⟨c, hc, hp⟩ := List.mem_filterMap.mp hp
    refine inherits_memberPart? hchild howner (hn c.tree ?_) hp
    exact Syntax.Tree.subtrees_subset _ (mem_subtrees_of_field? (need_eq_ok hbody))
      (mem_subtrees_of_mem_namedChildren hc)
  intro x hx
  simp only [Model.partLabels, List.mem_append, List.mem_map] at hx
  rcases hx with ((⟨c, hc, rfl⟩ | ⟨p, hp, rfl⟩) | ⟨m, hm, rfl⟩) | ⟨a, ha, rfl⟩
  · obtain ⟨part, hpart, hc⟩ := List.mem_filterMap.mp hc
    split at hc
    · cases hc
      exact (hparts _ hpart).2
    · cases hc
  · obtain ⟨part, hpart, hp⟩ := List.mem_flatMap.mp hp
    split at hp
    · exact (hparts _ hpart).1 p hp
    · rw [List.mem_singleton.mp hp]
      exact hparts _ hpart
    · cases hp
  · obtain ⟨part, hpart, hm⟩ := List.mem_filterMap.mp hm
    split at hm
    · cases hm
      exact hparts _ hpart
    · cases hm
  · refine inherits_foldl_addAccessor ?_ a ha
    intro b hb
    obtain ⟨part, hpart, hb⟩ := List.mem_filterMap.mp hb
    split at hb
    · cases hb
      exact hparts _ hpart
    · cases hb

omit hchild in
theorem inherits_interfaceDecl {d : InterfaceDecl} (h : interfaceDecl o n = .ok d)
    (hn : ∀ u ∈ n.tree.subtrees, ∀ f, u.note.declares = some f → P f) :
    ∀ x ∈ Model.partLabels .interface d, P x.1 := by
  unfold interfaceDecl at h
  obtain ⟨name, -, h⟩ := bind_eq_ok.mp h
  obtain ⟨fqn, -, h⟩ := bind_eq_ok.mp h
  cases h
  have hmember : ∀ c ∈ interfaceMembers n, ∀ f, declares? c = some f → P f := by
    intro c hc
    unfold interfaceMembers at hc
    split at hc
    · next body hbody =>
      exact hn c.tree (Syntax.Tree.subtrees_subset _ (mem_subtrees_of_field? hbody)
        (mem_subtrees_of_mem_namedChildren hc))
    · exact absurd hc List.not_mem_nil
  intro x hx
  simp only [Model.partLabels, List.mem_append, List.mem_map] at hx
  rcases hx with ⟨p, hp, rfl⟩ | ⟨m, hm, rfl⟩
  · obtain ⟨c, hc, hp⟩ := List.mem_filterMap.mp hp
    exact inherits_property? (hmember c (List.mem_filter.mp hc).1) hp
  · obtain ⟨c, hc, hm⟩ := List.mem_filterMap.mp (mem_of_mem_firstMethods hm)
    exact inherits_method? (hmember c (List.mem_filter.mp hc).1) hm

theorem inherits_enumDecl {d : EnumDecl} (h : enumDecl o n = .ok d)
    (hn : ∀ f, declares? n = some f → P f) : ∀ x ∈ Model.partLabels .enum d, P x.1 := by
  unfold enumDecl at h
  obtain ⟨name, -, h⟩ := bind_eq_ok.mp h
  obtain ⟨fqn, hfqn, h⟩ := bind_eq_ok.mp h
  obtain ⟨body, -, h⟩ := bind_eq_ok.mp h
  cases h
  have howner : P fqn := hn fqn (needName_eq_ok.mp hfqn)
  intro x hx
  obtain ⟨e, he, rfl⟩ := List.mem_map.mp hx
  obtain ⟨c, -, he⟩ := List.mem_filterMap.mp he
  unfold enumMember? at he
  dsimp only at he
  split at he
  · obtain ⟨name, -, rfl⟩ := Option.map_eq_some_iff.mp he
    exact hchild _ _ howner
  · split at he
    · cases he
      exact hchild _ _ howner
    · cases he

omit hchild in
theorem partLabels_of_anonymous {k : Kind} {r : k.Record} (h : Anonymous ⟨k, r⟩) :
    Model.partLabels k r = [] := by
  have hfqn : k.fqn? r = none := h.2
  cases k with
  | classDeclaration | interface | enum => cases hfqn
  | _ => rfl

/-- The parts of a record have names that are noted in its node, or names below its own. -/
theorem inherits_partLabels {k : Kind} {r : k.Record} (h : Made o n ⟨k, r⟩)
    (hn : ∀ u ∈ n.tree.subtrees, ∀ f, u.note.declares = some f → P f) :
    ∀ x ∈ Model.partLabels k r, P x.1 := by
  cases h with
  | anonymous h =>
    rw [partLabels_of_anonymous h]
    exact List.forall_mem_nil _
  | function hd => exact List.forall_mem_nil _
  | classDeclaration hd => exact inherits_classDecl hchild hd hn
  | interface hd => exact inherits_interfaceDecl hd hn
  | typeAlias hd => exact List.forall_mem_nil _
  | enum hd => exact inherits_enumDecl hchild hd (hn _ (Syntax.Tree.mem_subtrees_self _))
  | declarator _ hd => exact List.forall_mem_nil _

/-- A property that nested names inherit holds of all names that the model of a file declares, if it
holds of its module and of the names noted in its tree. -/
theorem inherits_fileModel {table : List Extractor} {t : Syntax.Tree Note} {m : Model}
    (hmodel : fileModel table o t = .ok m) (hmodule : P o.module)
    (hnoted : ∀ u ∈ t.subtrees, ∀ f, u.note.declares = some f → P f) :
    ∀ f, m.Declares f → P f := by
  rintro f ⟨x, hx, rfl⟩
  rw [← Model.labels_eq_declarations] at hx
  obtain ⟨k, hk, hx⟩ := List.mem_flatMap.mp hx
  obtain ⟨r, hr, hx⟩ := List.mem_flatMap.mp hx
  rcases List.mem_append.mp hx with hown | hpart
  · -- the name of the record itself
    obtain ⟨y, hy, rfl⟩ := List.mem_map.mp hown
    have hidentity : y ∈ m.identities k := List.mem_filterMap.mpr ⟨r, hr, Option.mem_toList.mp hy⟩
    rcases mem_identities_fileModel hmodel hidentity with rfl | ⟨u, hu, hdeclares⟩
    · exact hmodule
    · exact hnoted u hu y hdeclares
  · obtain ⟨cs, hcs, rfl⟩ := fileModel_eq_ok hmodel
    rcases List.mem_cons.mp (mem_get_ofConcepts.mp hr) with hr | hr
    · cases hr
      exact absurd hpart List.not_mem_nil
    · obtain ⟨v, hv, hmade⟩ := exists_made_of_mem hcs hr
      refine inherits_partLabels hchild hmade (fun u hu => hnoted u ?_) x hpart
      exact Syntax.Tree.subtrees_subset _ (tree_mem_of_mem_walk hv) hu

end Parts

/-! ## Files that describe no modules -/

section File

variable {resolve : String → QName} {module : QName} {t : Syntax.Tree α}

/-- All names in a tree without descriptions of modules belong to its module. -/
theorem inModule_of_names (hmodule : module.isModule = true) (hnone : describedModules t = [])
    {n : ScopedNode} (hn : n ∈ (Node.root (analyse resolve module t)).descendants)
    (hf : n.note.Names f) : module.InModule f := by
  have hnowhere : ∀ u ∈ n.tree :: n.above, describedModule? u = none := by
    intro u hu
    rw [← describedModules_analyse resolve module t] at hnone
    exact List.filterMap_eq_nil_iff.mp hnone u (Node.mem_subtrees_of_mem_root hn u hu)
  obtain ⟨path, rfl⟩ := below_ownerAbove hn hf (List.append_nil _).symm hnowhere
  exact (QName.inModule_self hmodule).child path

theorem inModule_of_declares {o : Origin} {m : Model} (hmodule : o.module.isModule = true)
    (hnone : describedModules t = [])
    (hmodel : fileModel Extractor.all o (analyse o.resolve o.module t) = .ok m)
    (hf : m.Declares f) : o.module.InModule f := by
  have hself := QName.inModule_self hmodule
  have hchild : ∀ n name, o.module.InModule n → o.module.InModule (n.child name) :=
    fun _ name h => h.child name
  refine inherits_fileModel hchild hmodel hself ?_ f hf
  refine declares_analyse hchild o.resolve t hself ?_
  rw [hnone]
  exact List.forall_mem_nil _

end File

/-- A name is given to a node of an analysed tree. -/
def NamedIn (t : Syntax.Tree Note) (f : QName) : Prop :=
  ∃ n ∈ (Node.root t).descendants, n.note.Names f

/-- The names that the analysis gives follow lexical nesting: a name is below that of every named
node around it, and below the module, up to the nearest description of another module. So files with
different modules that describe no modules have no name in common, neither in their analysed trees
nor among their records and the parts of these. -/
theorem names_follow_nesting :
    (∀ (resolve : String → QName) (module : QName) (t : Syntax.Tree α),
      ∀ n ∈ (Node.root (analyse resolve module t)).descendants, ∀ f, n.note.Names f →
        (∀ inner d outer g, n.above = inner ++ d :: outer → d.note.Names g →
          (∀ u ∈ n.tree :: inner, describedModule? u = none) → g.Below f) ∧
        ((∀ u ∈ n.tree :: n.above, describedModule? u = none) → module.Below f)) ∧
    ∀ (o₁ o₂ : Origin) (t₁ t₂ : Syntax.Tree α),
      o₁.module.isModule = true → o₂.module.isModule = true → o₁.module ≠ o₂.module →
      describedModules t₁ = [] → describedModules t₂ = [] →
      (∀ f, NamedIn (analyse o₁.resolve o₁.module t₁) f →
        ¬ NamedIn (analyse o₂.resolve o₂.module t₂) f) ∧
      ∀ m₁ m₂, fileModel Extractor.all o₁ (analyse o₁.resolve o₁.module t₁) = .ok m₁ →
        fileModel Extractor.all o₂ (analyse o₂.resolve o₂.module t₂) = .ok m₂ →
        ∀ f, m₁.Declares f → ¬ m₂.Declares f := by
  refine ⟨?_, ?_⟩
  · intro resolve module t n hn f hf
    constructor
    · intro inner d outer g habove hg hnone
      have hd := nested_analyse resolve module t _ (Node.mem_descendants_of_above hn habove)
      have hbelow := below_ownerAbove hn hf habove hnone
      rwa [ownerAbove_of_names hd hg] at hbelow
    · intro hnone
      exact below_ownerAbove hn hf (List.append_nil _).symm hnone
  · intro o₁ o₂ t₁ t₂ hmodule₁ hmodule₂ hne hnone₁ hnone₂
    constructor
    · rintro f ⟨n₁, hn₁, hf₁⟩ ⟨n₂, hn₂, hf₂⟩
      exact QName.not_inModule_of_ne hmodule₁ hmodule₂ hne
        (inModule_of_names hmodule₁ hnone₁ hn₁ hf₁) (inModule_of_names hmodule₂ hnone₂ hn₂ hf₂)
    · intro m₁ m₂ hm₁ hm₂ f hf₁ hf₂
      exact QName.not_inModule_of_ne hmodule₁ hmodule₂ hne
        (inModule_of_declares hmodule₁ hnone₁ hm₁ hf₁)
        (inModule_of_declares hmodule₂ hnone₂ hm₂ hf₂)

/-- An overloaded function with a class in its body, in a namespace; and a module described by its
name, with a function. -/
def nestedNamesTree : Syntax.Tree Unit :=
  sampleNode "program" [] "" [
    sampleNode "internal_module" [] "" [
      sampleNode "identifier" ["name"] "N" [],
      sampleNode "statement_block" ["body"] "" [
        sampleNode "export_statement" [] "" [
          sampleNode "function_signature" ["declaration"] "" [
            sampleNode "identifier" ["name"] "f" []]],
        sampleNode "function_declaration" [] "" [
          sampleNode "identifier" ["name"] "f" [],
          sampleNode "statement_block" ["body"] "" [
            sampleNode "class_declaration" [] "" [
              sampleNode "type_identifier" ["name"] "K" []]]]]],
    sampleNode "module" [] "" [
      sampleNode "string" ["name"] "'pkg'" [],
      sampleNode "statement_block" ["body"] "" [sampleFunction "function_signature" "g"]]]

/-- The class is named below the function around it and below the module of the file; the function
of the described module is named below that module only. -/
theorem names_follow_nesting_described :
    (∃ n ∈ (Node.root (sampleNotes nestedNamesTree)).descendants,
      n.note.Names ⟨"\"/p/a.ts\".N.f.K"⟩ ∧
      (⟨"\"/p/a.ts\".N.f"⟩ : QName).Below ⟨"\"/p/a.ts\".N.f.K"⟩ ∧
      (sampleOrigin.module).Below ⟨"\"/p/a.ts\".N.f.K"⟩) ∧
    (∃ n ∈ (Node.root (sampleNotes nestedNamesTree)).descendants,
      n.note.Names ⟨"\"pkg\".g"⟩ ∧ (⟨"\"pkg\""⟩ : QName).Below ⟨"\"pkg\".g"⟩) ∧
    ∀ f, NamedIn (sampleNotes clashingTree) f →
      ¬ NamedIn (analyse .ofModule (.ofModule "/p/b.ts") clashingTree) f := by
  obtain ⟨hnesting, hfiles⟩ := names_follow_nesting (α := Unit)
  -- a node, its name, the names around it and whether they are separated by a description
  have hclass : ((Node.root (sampleNotes nestedNamesTree)).at? [0, 1, 1, 1, 0]).map (fun n =>
      (n.note.declares, n.above.map (·.note.declares), (n.tree :: n.above).all fun u =>
        (describedModule? u).isNone)) =
      some (some ⟨"\"/p/a.ts\".N.f.K"⟩, [none, some ⟨"\"/p/a.ts\".N.f"⟩, none,
        some ⟨"\"/p/a.ts\".N"⟩, none], true) := by
    decide +kernel
  have hfunction : ((Node.root (sampleNotes nestedNamesTree)).at? [1, 1, 0]).map (fun n =>
      (n.note.declares, n.above.map (·.note.declares), (n.tree :: n.above.take 1).all fun u =>
        (describedModule? u).isNone)) =
      some (some ⟨"\"pkg\".g"⟩, [none, some ⟨"\"pkg\""⟩, none], true) := by
    decide +kernel
  refine ⟨?_, ?_, ?_⟩
  · obtain ⟨n, hn, hvalues⟩ := Option.map_eq_some_iff.mp hclass
    obtain ⟨hname, hvalues⟩ := Prod.mk.inj hvalues
    obtain ⟨habove, hnone⟩ := Prod.mk.inj hvalues
    obtain ⟨block, rest, hblock, -, hrest⟩ := List.map_eq_cons_iff.mp habove
    obtain ⟨d, outer, rfl, hd, -⟩ := List.map_eq_cons_iff.mp hrest
    simp only [List.all_eq_true, Option.isNone_iff_eq_none] at hnone
    have hinside := Node.mem_descendants_of_at? hn
    obtain ⟨hbelow, hmodule⟩ := hnesting _ _ _ n hinside _ (.inl hname)
    refine ⟨n, hinside, .inl hname, hbelow [block] d outer _ hblock (.inl hd) ?_, hmodule hnone⟩
    intro u hu
    refine hnone u ?_
    rw [hblock]
    exact List.mem_append_left (d :: outer) hu
  · obtain ⟨n, hn, hvalues⟩ := Option.map_eq_some_iff.mp hfunction
    obtain ⟨hname, hvalues⟩ := Prod.mk.inj hvalues
    obtain ⟨habove, hnone⟩ := Prod.mk.inj hvalues
    obtain ⟨block, rest, hblock, -, hrest⟩ := List.map_eq_cons_iff.mp habove
    obtain ⟨d, outer, rfl, hd, -⟩ := List.map_eq_cons_iff.mp hrest
    rw [hblock] at hnone
    simp only [List.all_eq_true, Option.isNone_iff_eq_none] at hnone
    have hinside := Node.mem_descendants_of_at? hn
    exact ⟨n, hinside, .inl hname,
      (hnesting _ _ _ n hinside _ (.inl hname)).1 [block] d outer _ hblock (.inl hd) hnone⟩
  · exact (hfiles sampleOrigin ⟨.ofModule "/p/b.ts", "./b.ts", .ofModule⟩ clashingTree clashingTree
      (by decide) (by decide) (by decide) (by decide +kernel) (by decide +kernel)).1

end Extract

end CodeConcepts
