import CodeConcepts.Proofs.Shape

/-!
# The names a scope analysis gives

Names follow the nesting of declarations, so every name the analysis notes on a tree lies below the
name of the module it starts with. There is one exception: a module declaration whose name is a
string describes another module, and what stands inside lies below that one.

`declares_analyse` says this for any property of names that nested names inherit: it holds of all
noted names if it holds of the module and of all modules the tree describes (`describedModules`).
One step of the analysis is the plan for a node, and `Plan.Inherits` is what every plan keeps.
-/

namespace CodeConcepts

variable {α : Type} {frame : Frame} {assigned : Option Assignment} {owner : QName}

/-- The module that a node describes: it declares a module by a string. -/
def describedModule? (t : Syntax.Tree α) : Option QName :=
  if ScopeRole.ofKind t.kind = .namespaceDeclaration then
    match t.field? "name" with
    | some name =>
      if name.kind = "string" then some (.ofModule (Text.quotedContent name.text)) else none
    | none => none
  else none

/-- All modules described in a tree. -/
def describedModules (t : Syntax.Tree α) : List QName := t.subtrees.filterMap describedModule?

theorem describedModule?_eq_some {t : Syntax.Tree α} {a : QName} (h : describedModule? t = some a) :
    ∃ path, a = .ofModule path := by
  unfold describedModule? at h
  by_cases hrole : ScopeRole.ofKind t.kind = .namespaceDeclaration
  · rw [if_pos hrole] at h
    cases hname : t.field? "name" with
    | none =>
      rw [hname] at h
      cases h
    | some name =>
      rw [hname] at h
      dsimp only at h
      by_cases hstring : name.kind = "string"
      · rw [if_pos hstring] at h
        exact ⟨_, (Option.some.inj h).symm⟩
      · rw [if_neg hstring] at h
        cases h
  · rw [if_neg hrole] at h
    cases h

/-- An allocated name is a child of the same declaration as the one asked for. -/
theorem Taken.allocate_child (taken : Taken) (kind : Kind) (owner : QName) (name : String) :
    ∃ given, (taken.allocate kind (owner.child name)).1 = owner.child given := by
  show ∃ given, taken.choose kind (owner.child name) = owner.child given
  unfold choose
  split
  · exact ⟨name, rfl⟩
  · refine ⟨name ++ "$" ++ toString (taken.leastSuffix kind (owner.child name)), ?_⟩
    simp only [suffixed, QName.child, String.append_assoc]

section Inherited

variable {P : QName → Prop}

/-- What a container decides beforehand has the property. -/
def Task.Inherits (P : QName → Prop) : Task → Prop
  | .visit (some (.declares n)) => P n
  | .visit (some (.overloads n)) => P n
  | _ => True

/-- All names of a plan have the property: the declared one, the one that nested declarations are
named below, and those decided beforehand for the children. -/
structure Plan.Inherits (P : QName → Prop) (p : Plan) : Prop where
  declares : ∀ n, p.declares = some n → P n
  owner : P p.frame.owner
  tasks : ∀ task ∈ p.tasks, task.Inherits P

/-- A child for which no task is left is skipped. -/
theorem Plan.Inherits.getElem? {p : Plan} (h : p.Inherits P) (i : Nat) :
    (p.tasks[i]?.getD .skip).Inherits P := by
  cases htask : p.tasks[i]? with
  | none => exact trivial
  | some task => exact h.tasks task (List.mem_of_getElem? htask)

theorem inherits_visitNamed (t : Syntax.Tree α) : ∀ task ∈ Scope.visitNamed t, task.Inherits P := by
  intro task h
  obtain ⟨c, -, rfl⟩ := List.mem_map.mp h
  split <;> exact trivial

theorem inherits_skipAll (t : Syntax.Tree α) : ∀ task ∈ Scope.skipAll t, task.Inherits P := by
  intro task h
  obtain ⟨c, -, rfl⟩ := List.mem_map.mp h
  exact trivial

theorem inherits_visitDeclarators (t : Syntax.Tree α) :
    ∀ task ∈ Scope.visitDeclarators t, task.Inherits P := by
  intro task h
  obtain ⟨c, -, rfl⟩ := List.mem_map.mp h
  split <;> exact trivial

theorem inherits_visitBody (t : Syntax.Tree α) : ∀ task ∈ Scope.visitBody t, task.Inherits P := by
  intro task h
  unfold Scope.visitBody at h
  split at h
  · exact inherits_skipAll t task h
  · obtain ⟨c, -, rfl⟩ := List.mem_map.mp h
    dsimp only
    split <;> exact trivial

theorem inherits_visitWrapped (t : Syntax.Tree α) (h : (Task.visit assigned).Inherits P) :
    ∀ task ∈ Scope.visitWrapped t assigned, task.Inherits P := by
  have hpick (b : Prop) [Decidable b] :
      (Task.visit (if b then assigned else none)).Inherits P := by
    split
    · exact h
    · exact trivial
  intro task htask
  obtain ⟨⟨c, i⟩, -, rfl⟩ := List.mem_map.mp htask
  dsimp only
  split
  · exact hpick _
  · exact trivial

/-! ## Plans -/

theorem inherits_passThrough (t : Syntax.Tree α) (taken : Taken) (howner : P frame.owner)
    (h : (Task.visit assigned).Inherits P) : (Plan.passThrough frame t assigned taken).Inherits P :=
  ⟨nofun, howner, inherits_visitWrapped t h⟩

theorem inherits_opening (entries : Scope) (t : Syntax.Tree α) (taken : Taken) (howner : P owner) :
    (Plan.opening owner entries t taken).Inherits P :=
  ⟨nofun, howner, inherits_visitNamed t⟩

/-- What all children of a name have, an allocated name has. -/
theorem inherits_allocate (h : ∀ name, P (owner.child name)) (taken : Taken) (kind : Kind)
    (name : String) : P (taken.allocate kind (owner.child name)).1 := by
  obtain ⟨given, hgiven⟩ := taken.allocate_child kind owner name
  rw [hgiven]
  exact h given

theorem inherits_allocateFunctions (h : ∀ name, P (owner.child name)) (names : List String)
    (taken : Taken) : ∀ p ∈ (Scope.allocateFunctions owner names taken).1, P p.2 := by
  induction names generalizing taken with
  | nil => exact fun p hp => absurd hp List.not_mem_nil
  | cons name names ih =>
    intro p hp
    rcases List.mem_cons.mp hp with rfl | hp
    · exact inherits_allocate h taken .function name
    · exact ih _ p hp

/-- What a container decides beforehand are names directly below its owner. -/
theorem inherits_tasks_container (t : Syntax.Tree α) (taken : Taken)
    (h : ∀ name, P (frame.owner.child name)) :
    ∀ task ∈ (Plan.container frame t taken).tasks, task.Inherits P := by
  intro task htask
  obtain ⟨⟨c, i⟩, -, rfl⟩ := List.mem_map.mp htask
  dsimp only
  split
  · generalize hassigned : Scope.assignment? _ _ i = assigned
    cases assigned with
    | none => exact trivial
    | some a =>
      -- the name was allocated for one of the functions of the container
      have hname : ∃ p ∈ (Scope.allocateFunctions frame.owner
          (Scope.functionNames (Scope.declaredFunctions t)) taken).1,
          a = .declares p.2 ∨ a = .overloads p.2 := by
        unfold Scope.assignment? at hassigned
        obtain ⟨f, -, hassigned⟩ := Option.bind_eq_some_iff.mp hassigned
        obtain ⟨fqn, hfqn, hassigned⟩ := Option.bind_eq_some_iff.mp hassigned
        obtain ⟨p, hp, rfl⟩ := Option.map_eq_some_iff.mp hfqn
        refine ⟨p, List.mem_of_find?_eq_some hp, ?_⟩
        cases hassigned
        split
        · exact .inl rfl
        · exact .inr rfl
      obtain ⟨p, hp, rfl | rfl⟩ := hname
      · exact inherits_allocateFunctions h _ taken p hp
      · exact inherits_allocateFunctions h _ taken p hp
  · exact trivial

variable (hchild : ∀ n name, P n → P (n.child name))

include hchild

theorem inherits_container (t : Syntax.Tree α) (taken : Taken) (howner : P frame.owner) :
    (Plan.container frame t taken).Inherits P :=
  ⟨nofun, howner, inherits_tasks_container t taken fun name => hchild _ name howner⟩

theorem inherits_functionDeclaration (t : Syntax.Tree α) (taken : Taken) (howner : P frame.owner)
    (h : (Task.visit assigned).Inherits P) :
    (Plan.functionDeclaration frame t assigned taken).Inherits P := by
  unfold Plan.functionDeclaration
  split
  · exact ⟨fun n hn => Option.some.inj hn ▸ h, h, inherits_visitNamed t⟩
  · exact ⟨nofun, h, inherits_visitNamed t⟩
  · split
    · exact inherits_opening _ t taken howner
    · next name _ =>
      have hname := inherits_allocate (hchild _ · howner) taken .function name
      exact ⟨fun n hn => Option.some.inj hn ▸ hname, hname, inherits_visitNamed t⟩

theorem inherits_memberName (t : Syntax.Tree α) (howner : P frame.owner) :
    (∀ n, Plan.memberName? frame t = some n → P n) ∧
      P ((Plan.memberName? frame t).getD frame.owner) := by
  have hdeclared : ∀ n, Plan.memberName? frame t = some n → P n := by
    intro n hn
    unfold Plan.memberName? at hn
    split at hn
    · obtain ⟨name, -, rfl⟩ := Option.map_eq_some_iff.mp hn
      exact hchild _ _ howner
    · cases hn
  refine ⟨hdeclared, ?_⟩
  cases hmember : Plan.memberName? frame t with
  | none => exact howner
  | some n => exact hdeclared n hmember

theorem inherits_typed (kind : Kind) (enter : String → Meaning → Scope) (namedMembers : Bool)
    (t : Syntax.Tree α) (taken : Taken) (howner : P frame.owner) :
    (Plan.typed kind enter namedMembers frame t taken).Inherits P := by
  unfold Plan.typed
  split
  · exact inherits_passThrough t taken howner trivial
  · next name _ =>
    have hname := inherits_allocate (hchild _ · howner) taken kind name
    exact ⟨fun n hn => Option.some.inj hn ▸ hname, hname, inherits_visitNamed t⟩

theorem inherits_enumDeclaration (t : Syntax.Tree α) (taken : Taken) (howner : P frame.owner) :
    (Plan.enumDeclaration frame t taken).Inherits P := by
  unfold Plan.enumDeclaration
  split
  · exact inherits_passThrough t taken howner trivial
  · next name _ =>
    have hname := inherits_allocate (hchild _ · howner) taken .enum name
    exact ⟨fun n hn => Option.some.inj hn ▸ hname, hname, inherits_visitNamed t⟩

theorem inherits_variableDeclarator (t : Syntax.Tree α) (taken : Taken) (howner : P frame.owner) :
    (Plan.variableDeclarator frame t taken).Inherits P := by
  unfold Plan.variableDeclarator
  split
  · exact ⟨nofun, howner, inherits_skipAll t⟩
  · next nameNode _ =>
    split
    · have hname := inherits_allocate (hchild _ · howner) taken .variable nameNode.text
      exact ⟨fun n hn => Option.some.inj hn ▸ hname, hname, inherits_visitNamed t⟩
    · exact ⟨nofun, howner, inherits_visitWrapped t trivial⟩

/-- Here the property may have to start anew, at the module that the node describes. -/
theorem inherits_namespaceDeclaration (t : Syntax.Tree α) (taken : Taken) (howner : P frame.owner)
    (hrole : ScopeRole.ofKind t.kind = .namespaceDeclaration)
    (hdescribed : ∀ a, describedModule? t = some a → P a) :
    (Plan.namespaceDeclaration frame t taken).Inherits P := by
  unfold Plan.namespaceDeclaration
  unfold describedModule? at hdescribed
  rw [if_pos hrole] at hdescribed
  cases hname : t.field? "name" with
  | none => exact inherits_passThrough t taken howner trivial
  | some nameNode =>
    rw [hname] at hdescribed
    dsimp only at hdescribed ⊢
    by_cases hstring : nameNode.kind = "string"
    · rw [if_pos hstring] at hdescribed ⊢
      have hmodule := hdescribed _ rfl
      exact ⟨fun n hn => Option.some.inj hn ▸ hmodule, hmodule, inherits_visitBody t⟩
    · rw [if_neg hstring]
      have hnested := hchild frame.owner (Text.withoutBlanks nameNode.text) howner
      exact ⟨fun n hn => Option.some.inj hn ▸ hnested, hnested, inherits_visitBody t⟩

theorem inherits_ofNode (resolve : String → QName) (t : Syntax.Tree α) (taken : Taken)
    (howner : P frame.owner) (h : (Task.visit assigned).Inherits P)
    (hdescribed : ∀ a, describedModule? t = some a → P a) :
    (Plan.ofNode resolve frame assigned t taken).Inherits P := by
  unfold Plan.ofNode
  split
  · exact inherits_functionDeclaration hchild t taken howner h
  · exact inherits_opening _ t taken howner
  · obtain ⟨hdeclared, hinside⟩ := inherits_memberName hchild t howner
    exact ⟨hdeclared, hinside, inherits_visitNamed t⟩
  · exact inherits_typed hchild _ _ _ t taken howner
  · exact inherits_opening _ t taken howner
  · exact inherits_typed hchild _ _ _ t taken howner
  · exact inherits_typed hchild _ _ _ t taken howner
  · exact inherits_enumDeclaration hchild t taken howner
  · next hrole => exact inherits_namespaceDeclaration hchild t taken howner hrole hdescribed
  · exact ⟨nofun, howner, inherits_visitDeclarators t⟩
  · exact ⟨nofun, howner, inherits_skipAll t⟩
  · obtain ⟨hdeclared, hinside⟩ := inherits_memberName hchild t howner
    exact ⟨hdeclared, hinside, inherits_visitNamed t⟩
  · exact inherits_container hchild t taken howner
  · exact inherits_opening _ t taken howner
  · exact inherits_opening _ t taken howner
  · exact inherits_passThrough t taken howner h

theorem inherits_ofTask (resolve : String → QName) {task : Task} (t : Syntax.Tree α) (taken : Taken)
    (howner : P frame.owner) (h : task.Inherits P)
    (hdescribed : ∀ a, describedModule? t = some a → P a) :
    (Plan.ofTask resolve task frame t taken).Inherits P := by
  cases task with
  | skip => exact ⟨nofun, howner, inherits_skipAll t⟩
  | visit assigned => exact inherits_ofNode hchild resolve t taken howner h hdescribed
  | declarator =>
    unfold Plan.ofTask
    dsimp only
    split
    · exact inherits_variableDeclarator hchild t taken howner
    · exact inherits_ofNode hchild resolve t taken howner trivial hdescribed
  | body => exact inherits_container hchild t taken howner

/-! ## The walk -/

/-- A property that nested names inherit holds of every name the analysis notes, if it holds of the
module and of all modules that the tree describes. -/
theorem declares_analyse (resolve : String → QName) {module : QName} (t : Syntax.Tree α)
    (hmodule : P module) (hdescribed : ∀ a ∈ describedModules t, P a) :
    ∀ u ∈ (analyse resolve module t).subtrees, ∀ n, u.note.declares = some n → P n := by
  have hplan {task : Task} {frame : Frame} (taken : Taken) {t : Syntax.Tree α}
      (h : task.Inherits P ∧ P frame.owner ∧ ∀ a ∈ describedModules t, P a) :
      (Plan.ofTask resolve task frame t taken).Inherits P :=
    inherits_ofTask hchild resolve t taken h.2.1 h.1 fun a ha =>
      h.2.2 a (List.mem_filterMap.mpr ⟨t, Syntax.Tree.mem_subtrees_self t, ha⟩)
  intro u hu n hn
  obtain ⟨⟨l, a, cs⟩, task, frame, taken, h, rfl⟩ := exists_annotate_of_step resolve
    (P := fun task frame t => task.Inherits P ∧ P frame.owner ∧ ∀ a ∈ describedModules t, P a)
    (fun task frame taken t i c h hc => ⟨(hplan taken h).getElem? i, (hplan taken h).owner,
      fun a ha => by
        obtain ⟨s, hs, ha⟩ := List.mem_filterMap.mp ha
        have hsub := Syntax.Tree.subtrees_subset t
          (Syntax.Tree.mem_subtrees_of_mem_children (List.mem_of_getElem? hc))
        exact h.2.2 a (List.mem_filterMap.mpr ⟨s, hsub hs, ha⟩)⟩)
    t [] hu ⟨trivial, hmodule, hdescribed⟩
  rw [annotate] at hn
  exact (hplan taken h).declares n hn

end Inherited

end CodeConcepts
