import CodeConcepts.Proofs.Allocation
import CodeConcepts.Scope.Analysis
import Mathlib.Data.List.Nodup

/-!
# The names declared in a file are distinct

The scope analysis carries the names already given away through the whole walk. Every declaration of
a kind that is identified by its name either takes a name that is free at that moment, or the one
its container has allocated for it beforehand; in both cases nobody else gets it. `Given` says this
of a stretch of the walk: which names it gives, and what was taken before and after. Every plan
keeps it (`Plan.gives_ofTask`), so a whole analysis does (`given_annotate`), and the names it notes
are distinct (`nodup_declarations_analyse`).
-/

namespace CodeConcepts

variable {α : Type} {kind : String} {taken : Taken}

/-! ## Declarations -/

/-- The kind of the declarations that nodes with a part in the scope analysis make. -/
def ScopeRole.declares? : ScopeRole → Option Kind
  | .functionDeclaration => some .function
  | .classDeclaration => some .classDeclaration
  | .interfaceDeclaration => some .interface
  | .typeAliasDeclaration => some .typeAlias
  | .enumDeclaration => some .enum
  | _ => none

/-- The kind of the declarations that nodes of a kind make. -/
def Kind.declaredBy? (kind : String) : Option Kind :=
  if kind = "variable_declarator" then some .variable else (ScopeRole.ofKind kind).declares?

/-- The declaration that a node of a kind makes under a name. -/
def declaration? (kind : String) (declares : Option QName) : Option (Kind × QName) := do
  return (← Kind.declaredBy? kind, ← declares)

/-- The declarations noted in an analysed tree. -/
def declarations (t : Syntax.Tree Note) : List (Kind × QName) :=
  t.subtrees.filterMap fun u => declaration? u.kind u.note.declares

/-- The declarations noted in a list of analysed trees. -/
def declarationsAll (ts : List (Syntax.Tree Note)) : List (Kind × QName) :=
  (Syntax.Tree.subtreesAll ts).filterMap fun u => declaration? u.kind u.note.declares

theorem declarations_node (l : Syntax.Label) (a : Note) (cs : List (Syntax.Tree Note)) :
    declarations (.node l a cs) = (declaration? l.kind a.declares).toList ++ declarationsAll cs := by
  unfold declarations declarationsAll
  rw [Syntax.Tree.subtrees, List.filterMap_cons]
  cases h : declaration? l.kind a.declares with
  | none | some d => simp only [Syntax.Tree.kind, Syntax.Tree.label, Syntax.Tree.note, h]; rfl

theorem declarationsAll_cons (t : Syntax.Tree Note) (ts : List (Syntax.Tree Note)) :
    declarationsAll (t :: ts) = declarations t ++ declarationsAll ts := by
  unfold declarations declarationsAll
  rw [Syntax.Tree.subtreesAll, List.filterMap_append]

/-! ## Names given in a stretch of the walk -/

/-- The declarations `given` are made between two states of the names taken. Those `assigned` were
allocated before. -/
structure Given (given assigned : List (Kind × QName)) (before after : Taken) : Prop where
  keeps : before ⊆ after
  nodup : given.Nodup
  new : ∀ x ∈ given, x ∈ assigned ∨ x ∉ before
  recorded : given ⊆ after

namespace Given

variable {xs ys zs as bs : List (Kind × QName)} {before mid after : Taken}

theorem nil (taken : Taken) : Given [] as taken taken where
  keeps := fun _ h => h
  nodup := List.nodup_nil
  new := nofun
  recorded := nofun

/-- What was allocated before may be given. -/
theorem assigned (h : as ⊆ before) (hnodup : as.Nodup) : Given as as before before where
  keeps := fun _ h => h
  nodup := hnodup
  new := fun _ h => .inl h
  recorded := h

/-- A fresh name may be given. -/
theorem allocate (taken : Taken) (kind : Kind) (n : QName) :
    Given [(kind, (taken.allocate kind n).1)] [] taken (taken.allocate kind n).2 where
  keeps := fun _ h => List.mem_cons_of_mem _ h
  nodup := List.nodup_singleton _
  new := by
    intro x hx
    rw [List.mem_singleton.mp hx]
    exact .inr (taken.allocate_not_mem kind n)
  recorded := by
    intro x hx
    rw [List.mem_singleton.mp hx]
    exact List.mem_cons_self

theorem of_nil (h : Given xs [] before after) : Given xs as before after where
  keeps := h.keeps
  nodup := h.nodup
  new := fun x hx => .inr ((h.new x hx).resolve_left List.not_mem_nil)
  recorded := h.recorded

theorem subset (h : Given xs as before after) (hsubset : ys ⊆ xs) (hnodup : ys.Nodup) :
    Given ys as before after where
  keeps := h.keeps
  nodup := hnodup
  new := fun x hx => h.new x (hsubset hx)
  recorded := fun _ hx => h.recorded (hsubset hx)

/-- A node and what stands below it: the node gives some names itself and assigns others to its
children, which give those and fresh ones. -/
theorem below (hown : Given (xs ++ bs) as before mid) (hinner : Given ys bs mid after) :
    Given (xs ++ ys) as before after where
  keeps := fun _ h => hinner.keeps (hown.keeps h)
  nodup := by
    have hparts := List.nodup_append'.mp hown.nodup
    refine List.nodup_append'.mpr ⟨hparts.1, hinner.nodup, fun x hx hy => ?_⟩
    rcases hinner.new x hy with hassigned | hfresh
    · exact hparts.2.2 hx hassigned
    · exact hfresh (hown.recorded (List.mem_append_left _ hx))
  new := by
    intro x hx
    rcases List.mem_append.mp hx with hx | hy
    · exact hown.new x (List.mem_append_left _ hx)
    · rcases hinner.new x hy with hassigned | hfresh
      · exact hown.new x (List.mem_append_right _ hassigned)
      · exact .inr fun h => hfresh (hown.keeps h)
  recorded := by
    intro x hx
    rcases List.mem_append.mp hx with hx | hy
    · exact hinner.keeps (hown.recorded (List.mem_append_left _ hx))
    · exact hinner.recorded hy

/-- One node after the other: each gives what was assigned to it. -/
theorem beside (hfirst : Given xs as before mid) (hrest : Given ys bs mid after)
    (hnodup : (as ++ bs).Nodup) (htaken : bs ⊆ before) :
    Given (xs ++ ys) (as ++ bs) before after where
  keeps := fun _ h => hrest.keeps (hfirst.keeps h)
  nodup := by
    refine List.nodup_append'.mpr ⟨hfirst.nodup, hrest.nodup, fun x hx hy => ?_⟩
    rcases hrest.new x hy with hassigned | hfresh
    · rcases hfirst.new x hx with hother | hfree
      · exact (List.nodup_append'.mp hnodup).2.2 hother hassigned
      · exact hfree (htaken hassigned)
    · exact hfresh (hfirst.recorded hx)
  new := by
    intro x hx
    rcases List.mem_append.mp hx with hx | hy
    · exact (hfirst.new x hx).imp_left (List.mem_append_left _)
    · rcases hrest.new x hy with hassigned | hfresh
      · exact .inl (List.mem_append_right _ hassigned)
      · exact .inr fun h => hfresh (hfirst.keeps h)
  recorded := by
    intro x hx
    rcases List.mem_append.mp hx with hx | hy
    · exact hrest.keeps (hfirst.recorded hx)
    · exact hrest.recorded hy

end Given

/-! ## Tasks -/

/-- The declaration that a container has decided on for a node with a task. -/
def Task.assigned : Task → List (Kind × QName)
  | .visit (some (.declares n)) => [(.function, n)]
  | _ => []

theorem Task.nodup_assigned (task : Task) : task.assigned.Nodup := by
  unfold Task.assigned
  split
  · exact List.nodup_singleton _
  · exact List.nodup_nil

/-- The declarations decided on for the nodes of a list of tasks. -/
def Task.assignedAll (tasks : List Task) : List (Kind × QName) := tasks.flatMap Task.assigned

theorem assignedAll_visitNamed (t : Syntax.Tree α) : Task.assignedAll (Scope.visitNamed t) = [] := by
  refine List.flatMap_eq_nil_iff.mpr fun task h => ?_
  obtain ⟨c, -, rfl⟩ := List.mem_map.mp h
  split <;> rfl

theorem assignedAll_skipAll (t : Syntax.Tree α) : Task.assignedAll (Scope.skipAll t) = [] := by
  refine List.flatMap_eq_nil_iff.mpr fun task h => ?_
  obtain ⟨c, -, rfl⟩ := List.mem_map.mp h
  rfl

theorem assignedAll_visitDeclarators (t : Syntax.Tree α) :
    Task.assignedAll (Scope.visitDeclarators t) = [] := by
  refine List.flatMap_eq_nil_iff.mpr fun task h => ?_
  obtain ⟨c, -, rfl⟩ := List.mem_map.mp h
  split <;> rfl

theorem assignedAll_visitBody (t : Syntax.Tree α) : Task.assignedAll (Scope.visitBody t) = [] := by
  unfold Scope.visitBody
  split
  · exact assignedAll_skipAll t
  · refine List.flatMap_eq_nil_iff.mpr fun task h => ?_
    obtain ⟨p, -, rfl⟩ := List.mem_map.mp h
    dsimp only
    split <;> rfl

/-- What the positions of a list contribute is distinct if each position contributes distinct things
and no two positions the same. -/
theorem nodup_flatMap_zipIdx {β γ : Type} {f : β × Nat → List γ} (l : List β)
    (hnodup : ∀ p, (f p).Nodup) (hposition : ∀ p q x, x ∈ f p → x ∈ f q → p.2 = q.2) :
    (l.zipIdx.flatMap f).Nodup := by
  refine List.nodup_flatMap.mpr ⟨fun p _ => hnodup p, ?_⟩
  have hpositions : (l.zipIdx.map Prod.snd).Nodup := by
    rw [List.zipIdx_map_snd]
    exact List.nodup_range'
  refine (List.pairwise_map.mp hpositions).imp fun hne x hx hy => ?_
  exact hne (hposition _ _ x hx hy)

/-- A wrapper hands the assignment on to the child at one position, if to any. -/
theorem visitWrapped_eq (t : Syntax.Tree α) (assigned : Option Assignment) :
    ∃ target : Option Nat, Scope.visitWrapped t assigned =
      t.children.zipIdx.map fun p => if p.1.label.named then
        .visit (if target = some p.2 then assigned else none) else .skip :=
  ⟨_, rfl⟩

theorem assignedAll_visitWrapped (t : Syntax.Tree α) (assigned : Option Assignment) :
    (Task.assignedAll (Scope.visitWrapped t assigned)).Nodup ∧
      Task.assignedAll (Scope.visitWrapped t assigned) ⊆ (Task.visit assigned).assigned := by
  obtain ⟨target, htasks⟩ := visitWrapped_eq t assigned
  -- what reaches a child is the assignment, and only at the position of the declaration
  have hreach (p : Syntax.Tree α × Nat) (x : Kind × QName)
      (hx : x ∈ (if p.1.label.named then Task.visit (if target = some p.2 then assigned else none)
        else Task.skip).assigned) : target = some p.2 ∧ x ∈ (Task.visit assigned).assigned := by
    split at hx
    · split at hx
      · next htarget => exact ⟨htarget, hx⟩
      · exact absurd hx List.not_mem_nil
    · exact absurd hx List.not_mem_nil
  rw [htasks, Task.assignedAll, List.flatMap_map]
  refine ⟨nodup_flatMap_zipIdx _ (fun p => Task.nodup_assigned _) fun p q x hp hq => ?_, ?_⟩
  · exact Option.some.inj ((hreach p x hp).1.symm.trans (hreach q x hq).1)
  · intro x hx
    obtain ⟨p, -, hp⟩ := List.mem_flatMap.mp hx
    exact (hreach p x hp).2

/-! ## Plans -/

namespace Plan

variable {assigned : List (Kind × QName)}

/-- A plan gives names between what was taken before and what is taken when its children are
visited: the name of its node, and those it decides on for the children. -/
def Gives (p : Plan) (kind : String) (assigned : List (Kind × QName)) (before : Taken) : Prop :=
  Given ((declaration? kind p.declares).toList ++ Task.assignedAll p.tasks) assigned before p.taken

/-- A plan that neither declares nor decides anything. -/
theorem Gives.nothing {p : Plan} (hdeclares : declaration? kind p.declares = none)
    (htasks : Task.assignedAll p.tasks = []) : p.Gives kind assigned p.taken := by
  unfold Gives
  rw [hdeclares, htasks]
  exact .nil _

/-- A plan that declares one name, and decides nothing. -/
theorem Gives.single {p : Plan} {before : Taken} {x : Kind × QName}
    (hdeclares : declaration? kind p.declares = some x) (htasks : Task.assignedAll p.tasks = [])
    (h : Given [x] assigned before p.taken) : p.Gives kind assigned before := by
  unfold Gives
  rw [hdeclares, htasks]
  exact h

theorem declaration?_none (kind : String) : declaration? kind none = none := by
  unfold declaration?
  cases Kind.declaredBy? kind <;> rfl


/-! ### Containers -/

/-- The names allocated for the functions of a container are fresh and distinct. -/
theorem given_allocateFunctions (owner : QName) (names : List String) (taken : Taken) :
    Given ((Scope.allocateFunctions owner names taken).1.map fun p => (.function, p.2)) []
      taken (Scope.allocateFunctions owner names taken).2 := by
  induction names generalizing taken with
  | nil => exact .nil taken
  | cons name names ih =>
    exact .beside (.allocate taken .function (owner.child name)) (ih _) List.nodup_nil nofun

/-- A position for which a container decides on a declaration is the one of the function that stands
for all of its name, and the declaration has the name allocated for it. -/
theorem assigned_assignment? {fs : List Scope.DeclaredFunction} {fqns : List (String × QName)}
    {i : Nat} {x : Kind × QName} (h : x ∈ (Task.visit (Scope.assignment? fs fqns i)).assigned) :
    ∃ f p, Scope.primary? fs f.name = some f ∧ f.position = i ∧ p ∈ fqns ∧ p.1 = f.name ∧
      x = (.function, p.2) := by
  cases hassigned : Scope.assignment? fs fqns i with
  | none =>
    rw [hassigned] at h
    exact absurd h List.not_mem_nil
  | some a =>
    rw [hassigned] at h
    unfold Scope.assignment? at hassigned
    obtain ⟨f, hf, hassigned⟩ := Option.bind_eq_some_iff.mp hassigned
    obtain ⟨fqn, hfqn, hassigned⟩ := Option.bind_eq_some_iff.mp hassigned
    obtain ⟨p, hp, rfl⟩ := Option.map_eq_some_iff.mp hfqn
    by_cases hprimary : Scope.primary? fs f.name = some f
    · rw [if_pos hprimary] at hassigned
      cases hassigned
      refine ⟨f, p, hprimary, ?_, List.mem_of_find?_eq_some hp, ?_, List.mem_singleton.mp h⟩
      · simpa using List.find?_some hf
      · simpa using List.find?_some hp
    · rw [if_neg hprimary] at hassigned
      cases hassigned
      exact absurd h List.not_mem_nil

theorem gives_container (frame : Frame) (t : Syntax.Tree α) (kind : String)
    (assigned : List (Kind × QName)) (taken : Taken) :
    (container frame t taken).Gives kind assigned taken := by
  have hallocated := given_allocateFunctions frame.owner
    (Scope.functionNames (Scope.declaredFunctions t)) taken
  set fqns := (Scope.allocateFunctions frame.owner
    (Scope.functionNames (Scope.declaredFunctions t)) taken).1
  have htasks : Task.assignedAll (container frame t taken).tasks =
      t.children.zipIdx.flatMap fun p => (if p.1.label.named then
        Task.visit (Scope.assignment? (Scope.declaredFunctions t) fqns p.2) else .skip).assigned :=
    List.flatMap_map ..
  have hreach (p : Syntax.Tree α × Nat) (x : Kind × QName)
      (hx : x ∈ (if p.1.label.named then
        Task.visit (Scope.assignment? (Scope.declaredFunctions t) fqns p.2)
          else Task.skip).assigned) :
      ∃ f q, Scope.primary? (Scope.declaredFunctions t) f.name = some f ∧ f.position = p.2 ∧
        q ∈ fqns ∧ q.1 = f.name ∧ x = (.function, q.2) := by
    split at hx
    · exact assigned_assignment? hx
    · exact absurd hx List.not_mem_nil
  unfold Gives
  rw [show declaration? kind (container frame t taken).declares = none from declaration?_none kind,
    htasks]
  refine hallocated.of_nil.subset ?_ (nodup_flatMap_zipIdx _ (fun p => Task.nodup_assigned _) ?_)
  · intro x hx
    obtain ⟨p, -, hp⟩ := List.mem_flatMap.mp hx
    obtain ⟨f, q, -, -, hq, -, rfl⟩ := hreach p x hp
    exact List.mem_map.mpr ⟨q, hq, rfl⟩
  · -- the same name was allocated for one name of a function, and one function stands for it
    intro p p' x hp hp'
    obtain ⟨f, q, hf, hposition, hq, hname, hx⟩ := hreach p x hp
    obtain ⟨f', q', hf', hposition', hq', hname', hx'⟩ := hreach p' x hp'
    have hsame : q = q' := List.inj_on_of_nodup_map hallocated.nodup hq hq' (hx.symm.trans hx')
    rw [← hname] at hf
    rw [← hname', ← hsame, hf] at hf'
    cases hf'
    exact hposition.symm.trans hposition'

/-! ### Single nodes -/

theorem gives_passThrough (frame : Frame) (t : Syntax.Tree α) (assigned : Option Assignment)
    (kind : String) (h : (Task.visit assigned).assigned ⊆ taken) :
    (passThrough frame t assigned taken).Gives kind (Task.visit assigned).assigned taken := by
  obtain ⟨hnodup, hsubset⟩ := assignedAll_visitWrapped t assigned
  unfold Gives
  rw [show declaration? kind (passThrough frame t assigned taken).declares = none from
    declaration?_none kind]
  exact (Given.assigned h (Task.nodup_assigned _)).subset hsubset hnodup

/-- A node that opens a scope and declares nothing of an identified kind. -/
theorem gives_opening {p : Plan} (t : Syntax.Tree α)
    (hdeclares : declaration? kind p.declares = none) (htasks : p.tasks = Scope.visitNamed t)
    (htaken : p.taken = taken) : p.Gives kind assigned taken := by
  subst htaken
  exact .nothing hdeclares (htasks ▸ assignedAll_visitNamed t)

theorem declaration?_some {k : Kind} (h : Kind.declaredBy? kind = some k) (n : QName) :
    declaration? kind (some n) = some (k, n) := by
  unfold declaration?
  rw [h]
  rfl

theorem declaration?_of_declaredBy?_eq_none (h : Kind.declaredBy? kind = none)
    (declares : Option QName) : declaration? kind declares = none := by
  unfold declaration?
  rw [h]
  rfl

/-- A declarator is no node with a part of its own in the analysis. -/
theorem declaredBy?_of_role {r : ScopeRole} (h : ScopeRole.ofKind kind = r) (hr : r ≠ .other) :
    Kind.declaredBy? kind = r.declares? := by
  unfold Kind.declaredBy?
  split
  · next hkind =>
    rw [hkind] at h
    exact absurd h.symm hr
  · rw [h]

theorem gives_functionDeclaration (frame : Frame) (t : Syntax.Tree α) (assigned : Option Assignment)
    (hkind : Kind.declaredBy? kind = some .function) (h : (Task.visit assigned).assigned ⊆ taken) :
    (functionDeclaration frame t assigned taken).Gives kind (Task.visit assigned).assigned
      taken := by
  unfold functionDeclaration
  split
  · next n =>
    refine .single (declaration?_some hkind n) (assignedAll_visitNamed t) ?_
    exact .assigned h (List.nodup_singleton _)
  · exact gives_opening t (declaration?_none kind) rfl rfl
  · split
    · exact gives_opening t (declaration?_none kind) rfl rfl
    · exact .single (declaration?_some hkind _) (assignedAll_visitNamed t) (.allocate taken _ _)

theorem gives_typed (k : Kind) (enter : String → Meaning → Scope) (namedMembers : Bool)
    (frame : Frame) (t : Syntax.Tree α) (hkind : Kind.declaredBy? kind = some k) (taken : Taken) :
    (typed k enter namedMembers frame t taken).Gives kind [] taken := by
  unfold typed
  split
  · exact gives_passThrough frame t none kind nofun
  · exact .single (declaration?_some hkind _) (assignedAll_visitNamed t) (.allocate taken _ _)

theorem gives_enumDeclaration (frame : Frame) (t : Syntax.Tree α)
    (hkind : Kind.declaredBy? kind = some .enum) (taken : Taken) :
    (enumDeclaration frame t taken).Gives kind [] taken := by
  unfold enumDeclaration
  split
  · exact gives_passThrough frame t none kind nofun
  · exact .single (declaration?_some hkind _) (assignedAll_visitNamed t) (.allocate taken _ _)

theorem gives_variableDeclarator (frame : Frame) (t : Syntax.Tree α)
    (hkind : Kind.declaredBy? kind = some .variable) (taken : Taken) :
    (variableDeclarator frame t taken).Gives kind [] taken := by
  unfold variableDeclarator
  split
  · exact .nothing (declaration?_none kind) (assignedAll_skipAll t)
  · split
    · exact .single (declaration?_some hkind _) (assignedAll_visitNamed t) (.allocate taken _ _)
    · exact gives_passThrough frame t none kind nofun

/-- A namespace has a name, but is of no identified kind. -/
theorem gives_namespaceDeclaration (frame : Frame) (t : Syntax.Tree α)
    (hkind : Kind.declaredBy? kind = none) (taken : Taken) :
    (namespaceDeclaration frame t taken).Gives kind [] taken := by
  unfold namespaceDeclaration
  split
  · exact gives_passThrough frame t none kind nofun
  · exact .nothing (declaration?_of_declaredBy?_eq_none hkind _) (assignedAll_visitBody t)

theorem Gives.of_nil {p : Plan} {kind : String} {assigned : List (Kind × QName)} {before : Taken}
    (h : p.Gives kind [] before) : p.Gives kind assigned before := Given.of_nil h

/-! ### Every node -/

theorem gives_ofNode (resolve : String → QName) (frame : Frame) (assigned : Option Assignment)
    (t : Syntax.Tree α) (h : (Task.visit assigned).assigned ⊆ taken) :
    (ofNode resolve frame assigned t taken).Gives t.kind (Task.visit assigned).assigned taken := by
  unfold ofNode
  cases hrole : ScopeRole.ofKind t.kind with
  | functionDeclaration =>
    exact gives_functionDeclaration frame t assigned (declaredBy?_of_role hrole nofun) h
  | classDeclaration =>
    exact (gives_typed _ _ _ frame t (declaredBy?_of_role hrole nofun) taken).of_nil
  | interfaceDeclaration =>
    exact (gives_typed _ _ _ frame t (declaredBy?_of_role hrole nofun) taken).of_nil
  | typeAliasDeclaration =>
    exact (gives_typed _ _ _ frame t (declaredBy?_of_role hrole nofun) taken).of_nil
  | enumDeclaration =>
    exact (gives_enumDeclaration frame t (declaredBy?_of_role hrole nofun) taken).of_nil
  | namespaceDeclaration =>
    exact (gives_namespaceDeclaration frame t (declaredBy?_of_role hrole nofun) taken).of_nil
  | memberFunction =>
    have hmember := declaration?_of_declaredBy?_eq_none (declaredBy?_of_role hrole nofun)
    exact gives_opening t (hmember _) rfl rfl
  | property =>
    have hmember := declaration?_of_declaredBy?_eq_none (declaredBy?_of_role hrole nofun)
    exact gives_opening t (hmember _) rfl rfl
  | anonymousFunction | classExpression | catchClause | forLoop =>
    exact gives_opening t (declaration?_none _) rfl rfl
  | variableStatement => exact .nothing (declaration?_none _) (assignedAll_visitDeclarators t)
  | importStatement => exact .nothing (declaration?_none _) (assignedAll_skipAll t)
  | block => exact gives_container _ t _ _ taken
  | other => exact gives_passThrough frame t assigned _ h

theorem gives_ofTask (resolve : String → QName) (task : Task) (frame : Frame) (t : Syntax.Tree α)
    (h : task.assigned ⊆ taken) :
    (ofTask resolve task frame t taken).Gives t.kind task.assigned taken := by
  cases task with
  | skip => exact .nothing (declaration?_none _) (assignedAll_skipAll t)
  | visit assigned => exact gives_ofNode resolve frame assigned t h
  | declarator =>
    unfold ofTask
    dsimp only
    split
    · next hkind =>
      have hvariable : Kind.declaredBy? t.kind = some .variable := by
        rw [hkind]
        rfl
      exact gives_variableDeclarator frame t hvariable taken
    · exact gives_ofNode resolve frame none t nofun
  | body => exact gives_container frame t _ _ taken

end Plan

/-! ## The analysis -/

mutual

theorem given_annotate (resolve : String → QName) : ∀ (t : Syntax.Tree α)
    (task : Task) (frame : Frame) (taken : Taken), task.assigned ⊆ taken →
      Given (declarations (annotate resolve task frame taken t).result) task.assigned taken
        (annotate resolve task frame taken t).taken
  | .node label a children, task, frame, taken, h => by
    have hplan := Plan.gives_ofTask resolve task frame (.node label a children) h
    rw [annotate, declarations_node]
    refine Given.below hplan (given_annotateAll resolve children _ _ _ ?_ ?_)
    · exact hplan.nodup.of_append_right
    · exact fun x hx => hplan.recorded (List.mem_append_right _ hx)

theorem given_annotateAll (resolve : String → QName) :
    ∀ (ts : List (Syntax.Tree α)) (tasks : List Task) (frame : Frame) (taken : Taken),
      (Task.assignedAll tasks).Nodup → Task.assignedAll tasks ⊆ taken →
      Given (declarationsAll (annotateAll resolve tasks frame taken ts).result)
        (Task.assignedAll tasks) taken (annotateAll resolve tasks frame taken ts).taken
  | [], tasks, frame, taken, hnodup, h => .nil taken
  | t :: ts, tasks, frame, taken, hnodup, h => by
    have htasks : Task.assignedAll tasks =
        (tasks.head?.getD .skip).assigned ++ Task.assignedAll tasks.tail := by
      cases tasks <;> rfl
    rw [htasks] at hnodup h ⊢
    rw [annotateAll, declarationsAll_cons]
    have hfirst := given_annotate resolve t (tasks.head?.getD .skip) frame taken
      fun x hx => h (List.mem_append_left _ hx)
    have htail : Task.assignedAll tasks.tail ⊆ taken :=
      fun x hx => h (List.mem_append_right _ hx)
    refine hfirst.beside (given_annotateAll resolve ts tasks.tail frame _ ?_ ?_) hnodup htail
    · exact hnodup.of_append_right
    · exact fun x hx => hfirst.keeps (htail hx)

end

/-- No two declarations of a file have the same kind and name. -/
theorem nodup_declarations_analyse (resolve : String → QName) (module : QName)
    (t : Syntax.Tree α) : (declarations (analyse resolve module t)).Nodup :=
  (given_annotate resolve t .body _ [] nofun).nodup

end CodeConcepts
