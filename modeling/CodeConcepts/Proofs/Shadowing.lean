import CodeConcepts.Proofs.ImportBindings
import CodeConcepts.Proofs.ScopeErasure
import Mathlib.Logic.Relation

/-!
# Parameters shadow what is outside

Functions, catch clauses and loops introduce names for what stands inside them, by binding patterns.
A pattern introduces the identifiers that it is made of, at any depth; the keys of properties and
default values are no part of it (`mem_patternNames`).

A binder that the analysis comes to starts its scope with the names it introduces, and they are
local (`ComesTo.scope_of_binder`). The first entry of a name counts, so nothing that is declared
inside or outside has a say: an identifier that gets to this scope stays inside its function. The
analysis comes to every binder that stands where the grammar has a place for one, import statements
apart, into which it does not look (`comesTo_of_binder`).
-/

namespace CodeConcepts

variable {α β : Type} {t p : Syntax.Tree α} {resolve : String → QName} {name : String}

/-! ## Names in patterns -/

/-- The kinds of patterns that are a single name. -/
def namePatterns : List String := ["identifier", "shorthand_property_identifier_pattern"]

/-- The kinds of patterns that have a default value. -/
def defaultPatterns : List String := ["assignment_pattern", "object_assignment_pattern"]

/-- The kinds of patterns that list patterns. -/
def listPatterns : List String := ["object_pattern", "array_pattern", "rest_pattern"]

/-- A pattern that another one is made of: not the key of a property, not a default value. -/
inductive PatternPart (p : Syntax.Tree α) : Syntax.Tree α → Prop
  | value {c : Syntax.Tree α} : p.kind = "pair_pattern" → p.field? "value" = some c →
      PatternPart p c
  | left {c : Syntax.Tree α} : p.kind ∈ defaultPatterns → p.field? "left" = some c → PatternPart p c
  | item {c : Syntax.Tree α} : p.kind ∈ listPatterns → c ∈ p.namedChildren → PatternPart p c

/-- A pattern introduces a name: it is the text of one of the names that the pattern is made of. -/
def Introduces (p : Syntax.Tree α) (name : String) : Prop :=
  ∃ leaf, Relation.ReflTransGen PatternPart p leaf ∧ leaf.kind ∈ namePatterns ∧ leaf.text = name

theorem mem_namePatterns {kind : String} : kind ∈ namePatterns ↔
    kind = "identifier" ∨ kind = "shorthand_property_identifier_pattern" := by
  simp [namePatterns]

theorem mem_defaultPatterns {kind : String} : kind ∈ defaultPatterns ↔
    kind = "assignment_pattern" ∨ kind = "object_assignment_pattern" := by
  simp [defaultPatterns]

theorem mem_listPatterns {kind : String} : kind ∈ listPatterns ↔
    kind = "object_pattern" ∨ kind = "array_pattern" ∨ kind = "rest_pattern" := by
  simp [listPatterns]

theorem patternNames_of_name (h : p.kind ∈ namePatterns) : patternNames p = [p.text] := by
  rw [patternNames_eq, if_pos (mem_namePatterns.mp h)]

/-- The names of its parts are names of a pattern. -/
theorem PatternPart.patternNames_subset {c : Syntax.Tree α} (h : PatternPart p c) :
    patternNames c ⊆ patternNames p := by
  rw [patternNames_eq p]
  cases h with
  | value hkind hc =>
    rw [hkind, hc]
    exact fun _ h => h
  | left hkind hc =>
    rw [hc]
    rcases mem_defaultPatterns.mp hkind with hkind | hkind <;> rw [hkind] <;> exact fun _ h => h
  | item hkind hc =>
    have hsub : patternNames c ⊆ p.namedChildren.flatMap patternNames :=
      fun _ hname => List.mem_flatMap.mpr ⟨c, hc, hname⟩
    rcases mem_listPatterns.mp hkind with hkind | hkind | hkind <;> rw [hkind] <;> exact hsub

theorem Introduces.of_part {c : Syntax.Tree α} (hpart : PatternPart p c) (h : Introduces c name) :
    Introduces p name := by
  obtain ⟨leaf, hleaf, hkind, htext⟩ := h
  exact ⟨leaf, .head hpart hleaf, hkind, htext⟩

/-- A name of a pattern is one that it introduces. -/
theorem introduces_of_mem {p : Syntax.Tree α} {name : String} (h : name ∈ patternNames p) :
    Introduces p name := by
  rw [patternNames_eq] at h
  have hfield {field : String}
      (hpart : ∀ c, p.field? field = some c → PatternPart p c)
      (h : name ∈ (p.field? field).elim [] patternNames) : Introduces p name := by
    cases hc : p.field? field with
    | none =>
      rw [hc] at h
      exact absurd h List.not_mem_nil
    | some c =>
      rw [hc] at h
      have hlt := Syntax.Tree.size_lt_of_field? hc
      exact .of_part (hpart c hc) (introduces_of_mem h)
  split at h
  · next hname =>
    exact ⟨p, .refl, mem_namePatterns.mpr hname, (List.mem_singleton.mp h).symm⟩
  · split at h
    · next hpair => exact hfield (fun _ => .value hpair) h
    · split at h
      · next hdefault => exact hfield (fun _ => .left (mem_defaultPatterns.mpr hdefault)) h
      · split at h
        · next hlist =>
          obtain ⟨c, hc, h⟩ := List.mem_flatMap.mp h
          have hlt := Syntax.Tree.size_lt_of_mem_namedChildren hc
          exact .of_part (.item (mem_listPatterns.mpr hlist) hc) (introduces_of_mem h)
        · exact absurd h List.not_mem_nil
termination_by p.size

/-- The names of a pattern are those it introduces. -/
theorem mem_patternNames : name ∈ patternNames p ↔ Introduces p name := by
  refine ⟨introduces_of_mem, ?_⟩
  rintro ⟨leaf, hparts, hkind, rfl⟩
  induction hparts using Relation.ReflTransGen.head_induction_on with
  | refl =>
    rw [patternNames_of_name hkind]
    exact List.mem_singleton_self _
  | head hpart _ ih => exact hpart.patternNames_subset ih

/-! ## Binders -/

/-- The parts in the analysis of nodes that introduce names for what stands inside them. -/
def binderRoles : List ScopeRole :=
  [.functionDeclaration, .anonymousFunction, .memberFunction, .catchClause, .forLoop]

/-- A node introduces names for what stands inside it. -/
def IsBinder (t : Syntax.Tree α) : Prop :=
  t.label.named = true ∧ ScopeRole.ofKind t.kind ∈ binderRoles

instance (t : Syntax.Tree α) : Decidable (IsBinder t) := inferInstanceAs (Decidable (_ ∧ _))

/-- The patterns of the parameters of a function. -/
def parameterPatterns (t : Syntax.Tree α) : List (Syntax.Tree α) :=
  (t.field? "parameters").elim [] (·.namedChildren.filterMap (·.field? "pattern")) ++
    (t.field? "parameter").toList

/-- The binding patterns of a binder. A loop binds names if it declares them with a keyword. -/
def binderPatterns (t : Syntax.Tree α) : List (Syntax.Tree α) :=
  match ScopeRole.ofKind t.kind with
  | .functionDeclaration => parameterPatterns t
  | .anonymousFunction => parameterPatterns t
  | .memberFunction => parameterPatterns t
  | .catchClause => (t.field? "parameter").toList
  | .forLoop => if (t.field? "kind").isSome then (t.field? "left").toList else []
  | _ => []

/-- The name by which a function expression refers to itself. -/
def selfName? (t : Syntax.Tree α) : Option String :=
  if ScopeRole.ofKind t.kind = .anonymousFunction then t.fieldText? "name" else none

/-- The names that a binder introduces. -/
def introducedNames (t : Syntax.Tree α) : List String :=
  (selfName? t).toList ++ (binderPatterns t).flatMap patternNames

theorem mem_introducedNames : name ∈ introducedNames t ↔
    selfName? t = some name ∨ ∃ p ∈ binderPatterns t, Introduces p name := by
  simp only [introducedNames, List.mem_append, Option.mem_toList, List.mem_flatMap,
    mem_patternNames]

/-! ### Notes make no difference -/

section Notes

variable {β : Type} (f : α → β)

theorem patternNames_mapNotes (p : Syntax.Tree α) :
    patternNames (p.mapNotes f) = patternNames p := by
  have hfield (name : String) : ((p.mapNotes f).field? name).elim [] patternNames =
      (p.field? name).elim [] patternNames := by
    rw [Syntax.Tree.field?_mapNotes]
    cases hc : p.field? name with
    | none => rfl
    | some c =>
      have hlt := Syntax.Tree.size_lt_of_field? hc
      exact patternNames_mapNotes c
  have hlist : (p.mapNotes f).namedChildren.flatMap patternNames =
      p.namedChildren.flatMap patternNames := by
    rw [Syntax.Tree.namedChildren_mapNotes, List.flatMap_map]
    refine List.flatMap_congr fun c hc => ?_
    have hlt := Syntax.Tree.size_lt_of_mem_namedChildren hc
    exact patternNames_mapNotes c
  rw [patternNames_eq, patternNames_eq p, Syntax.Tree.kind_mapNotes, Syntax.Tree.text_mapNotes,
    hfield, hfield, hlist]
termination_by p.size

theorem parameterPatterns_mapNotes (t : Syntax.Tree α) :
    parameterPatterns (t.mapNotes f) = (parameterPatterns t).map (Syntax.Tree.mapNotes f) := by
  have hpatterns (list : Syntax.Tree α) :
      (list.mapNotes f).namedChildren.filterMap (·.field? "pattern") =
        (list.namedChildren.filterMap (·.field? "pattern")).map (Syntax.Tree.mapNotes f) := by
    rw [Syntax.Tree.namedChildren_mapNotes, List.filterMap_map, List.map_filterMap]
    exact List.filterMap_congr fun c _ => Syntax.Tree.field?_mapNotes f "pattern" c
  unfold parameterPatterns
  rw [Syntax.Tree.field?_mapNotes, Syntax.Tree.field?_mapNotes, List.map_append]
  cases t.field? "parameters" with
  | none => cases t.field? "parameter" <;> rfl
  | some list =>
    simp only [Option.map_some, Option.elim_some, hpatterns]
    cases t.field? "parameter" <;> rfl

theorem binderPatterns_mapNotes (t : Syntax.Tree α) :
    binderPatterns (t.mapNotes f) = (binderPatterns t).map (Syntax.Tree.mapNotes f) := by
  have htoList (name : String) : ((t.mapNotes f).field? name).toList =
      (t.field? name).toList.map (Syntax.Tree.mapNotes f) := by
    rw [Syntax.Tree.field?_mapNotes]
    cases t.field? name <;> rfl
  unfold binderPatterns
  rw [Syntax.Tree.kind_mapNotes, parameterPatterns_mapNotes, htoList, htoList,
    Syntax.Tree.field?_mapNotes, Option.isSome_map]
  split
  · rfl
  · rfl
  · rfl
  · rfl
  · split <;> rfl
  · rfl

theorem introducedNames_mapNotes (t : Syntax.Tree α) :
    introducedNames (t.mapNotes f) = introducedNames t := by
  unfold introducedNames selfName?
  rw [Syntax.Tree.kind_mapNotes, Syntax.Tree.fieldText?_mapNotes, binderPatterns_mapNotes,
    List.flatMap_map]
  simp only [patternNames_mapNotes]

end Notes

theorem introducedNames_congr {u : Syntax.Tree β} (h : t.shape = u.shape) :
    introducedNames t = introducedNames u := by
  rw [← introducedNames_mapNotes (fun _ => ()) t, ← introducedNames_mapNotes (fun _ => ()) u]
  exact congrArg _ h

namespace Scope

/-- What a scope says of values if its values are all local variables with these names. -/
def OnlyLocals (scope : Scope) (names : List String) : Prop :=
  ∀ name, scope.find? .value name = if name ∈ names then some .localVariable else none

theorem OnlyLocals.nil : OnlyLocals [] [] := fun _ => rfl

theorem OnlyLocals.append {s u : Scope} {ns ms : List String} (hs : s.OnlyLocals ns)
    (hu : u.OnlyLocals ms) : OnlyLocals (s ++ u) (ns ++ ms) := by
  intro name
  rw [find?_append, hs, hu]
  by_cases hns : name ∈ ns
  · rw [if_pos hns, if_pos (List.mem_append_left _ hns)]
    rfl
  · rw [if_neg hns, Option.none_or]
    simp only [List.mem_append, hns, false_or]

theorem onlyLocals_value (name : String) : OnlyLocals (value name .localVariable) [name] := by
  intro other
  by_cases h : other = name
  · simp [find?, value, h]
  · simp [find?, value, h, Ne.symm h]

theorem onlyLocals_ofPattern (p : Syntax.Tree α) : (ofPattern p).OnlyLocals (patternNames p) := by
  unfold ofPattern
  induction patternNames p with
  | nil => exact .nil
  | cons name names ih => exact (onlyLocals_value name).append ih

theorem onlyLocals_patterns (ps : List (Syntax.Tree α)) :
    OnlyLocals (ps.flatMap ofPattern) (ps.flatMap patternNames) := by
  induction ps with
  | nil => exact .nil
  | cons p ps ih =>
    rw [List.flatMap_cons, List.flatMap_cons]
    exact (onlyLocals_ofPattern p).append ih

/-- Type parameters are no values. -/
theorem onlyLocals_ofTypeParameters (t : Syntax.Tree α) : (ofTypeParameters t).OnlyLocals [] := by
  unfold ofTypeParameters
  split
  · exact .nil
  · next list _ =>
    induction list.namedChildren.filterMap (·.fieldText? "name") with
    | nil => exact .nil
    | cons name names ih => exact ih

theorem onlyLocals_ofSignature (t : Syntax.Tree α) :
    (ofSignature t).OnlyLocals ((parameterPatterns t).flatMap patternNames) := by
  have hsignature :
      ofSignature t = ofTypeParameters t ++ (parameterPatterns t).flatMap ofPattern := by
    unfold ofSignature parameterPatterns
    rw [List.flatMap_append]
    cases t.field? "parameters" <;> cases t.field? "parameter" <;> simp
  rw [hsignature]
  exact (onlyLocals_ofTypeParameters t).append (onlyLocals_patterns _)

end Scope

/-- The scope that a binder opens, whatever it is assigned to. -/
theorem Plan.opened_ofNode {frame : Frame} {taken : Taken}
    (hrole : ScopeRole.ofKind t.kind ∈ binderRoles) (assigned : Option Assignment) :
    ∃ own, (ofNode resolve frame assigned t taken).opened = some own ∧
      own.OnlyLocals (introducedNames t) := by
  have hone (p : Syntax.Tree α) :
      (Scope.ofPattern p).OnlyLocals ([] ++ [p].flatMap patternNames) := by
    rw [List.nil_append, List.flatMap_singleton]
    exact Scope.onlyLocals_ofPattern p
  unfold ofNode introducedNames binderPatterns selfName?
  cases h : ScopeRole.ofKind t.kind with
  | functionDeclaration =>
    refine ⟨Scope.ofSignature t, ?_, Scope.onlyLocals_ofSignature t⟩
    dsimp only
    unfold functionDeclaration
    split
    · rfl
    · rfl
    · split <;> rfl
  | anonymousFunction =>
    refine ⟨_, rfl, .append ?_ (Scope.onlyLocals_ofSignature t)⟩
    rw [if_pos rfl]
    cases t.fieldText? "name" with
    | none => exact .nil
    | some name => exact Scope.onlyLocals_value name
  | memberFunction => exact ⟨_, rfl, Scope.onlyLocals_ofSignature t⟩
  | catchClause =>
    refine ⟨_, rfl, ?_⟩
    cases t.field? "parameter" with
    | none => exact .nil
    | some p => exact hone p
  | forLoop =>
    refine ⟨_, rfl, ?_⟩
    cases t.field? "kind" with
    | none => exact .nil
    | some keyword =>
      cases t.field? "left" with
      | none => exact .nil
      | some p => exact hone p
  | _ =>
    rw [h] at hrole
    exact absurd hrole (by decide)

/-- The scope that a binder opens starts with the names it introduces. -/
theorem Plan.opened_of_binder {task : Task} {frame : Frame} {taken : Taken} (htask : task.isVisit)
    (hrole : ScopeRole.ofKind t.kind ∈ binderRoles) :
    ∃ own, (ofTask resolve task frame t taken).opened = some own ∧
      own.OnlyLocals (introducedNames t) := by
  cases task with
  | skip => cases htask
  | visit assigned => exact opened_ofNode hrole assigned
  | declarator =>
    unfold ofTask
    dsimp only
    rw [if_neg fun hkind => absurd hrole (by rw [hkind]; decide)]
    exact opened_ofNode hrole none
  | body => cases htask

/-! ## Ways to binders -/

/-- There is a binder inside a tree. -/
def HoldsBinder (t : Syntax.Tree α) : Prop := ∃ u ∈ t.subtrees, IsBinder u

instance (t : Syntax.Tree α) : Decidable (HoldsBinder t) :=
  inferInstanceAs (Decidable (∃ u ∈ t.subtrees, IsBinder u))

/-- The grammar has a place for binders below a child of a node. -/
@[mk_iff]
structure LeadsOn (p c : Syntax.Tree α) : Prop where
  /-- The child is no token. -/
  named : c.label.named = true
  /-- A namespace has a name and one body, which is a block, and holds binders only there. -/
  space : ScopeRole.ofKind p.kind = .namespaceDeclaration → (p.field? "name").isSome ∧
    c.label.roles.contains "body" ∧ c.kind = "statement_block" ∧
    (p.children.countP fun b => b.label.roles.contains "body") ≤ 1
  /-- A declarator has a name. -/
  declarator : p.kind = "variable_declarator" → (p.field? "name").isSome

instance (p c : Syntax.Tree α) : Decidable (LeadsOn p c) :=
  decidable_of_iff _ (leadsOn_iff p c).symm

/-- Binders stand only where the grammar has a place for them; the root is none. -/
def BindersPlaced (t : Syntax.Tree α) : Prop :=
  ¬ IsBinder t ∧ ∀ p ∈ t.subtrees, ∀ c ∈ p.children, HoldsBinder c → LeadsOn p c

instance (t : Syntax.Tree α) : Decidable (BindersPlaced t) :=
  inferInstanceAs (Decidable (_ ∧ ∀ p ∈ t.subtrees, ∀ c ∈ p.children, HoldsBinder c → LeadsOn p c))

theorem isBinder_mapNotes (f : α → β) (t : Syntax.Tree α) :
    IsBinder (t.mapNotes f) ↔ IsBinder t := by
  unfold IsBinder
  rw [Syntax.Tree.label_mapNotes, Syntax.Tree.kind_mapNotes]

theorem holdsBinder_congr {u : Syntax.Tree β} (h : t.shape = u.shape) :
    HoldsBinder t ↔ HoldsBinder u := by
  have hnone : (∀ s ∈ t.subtrees, ¬ IsBinder s) ↔ ∀ s ∈ u.subtrees, ¬ IsBinder s :=
    Syntax.Tree.forall_subtrees_of_shape (P := (¬ IsBinder ·))
      (fun s => not_congr (isBinder_mapNotes _ s)) h
  simpa only [HoldsBinder, not_forall, not_not, exists_prop] using not_congr hnone

/-- The analysis comes to a node of a tree with a task that makes it look at the node. Only the root
and blocks are looked at for the statements they hold. -/
structure ComesTo (resolve : String → QName) (t : Syntax.Tree α) (n : ScopedNode)
    (s : Syntax.Tree α) (task : Task) (frame : Frame) (taken : Taken) : Prop where
  within : s ∈ t.subtrees
  tree : n.tree = (annotate resolve task frame taken s).result
  task_ne : task ≠ .skip
  body : task = .body → n.above = [] ∧ s = t ∨ s.kind = "statement_block"

namespace ComesTo

variable {resolve : String → QName} {t s : Syntax.Tree α} {n : ScopedNode} {task : Task}
  {frame : Frame} {taken : Taken}

theorem shape (h : ComesTo resolve t n s task frame taken) : n.tree.shape = s.shape := by
  rw [h.tree]
  exact shape_annotate resolve task frame taken s

theorem label (h : ComesTo resolve t n s task frame taken) : n.tree.label = s.label := by
  have hlabel := congrArg Syntax.Tree.label h.shape
  simpa only [Syntax.Tree.shape, Syntax.Tree.label_mapNotes] using hlabel

theorem kind (h : ComesTo resolve t n s task frame taken) : n.tree.kind = s.kind :=
  congrArg Syntax.Label.kind h.label

/-- The analysis goes on to children that may hold binders. -/
theorem down (h : ComesTo resolve t n s task frame taken) (hplaced : BindersPlaced t)
    (himport : n.tree.kind ≠ "import_statement") {c : Syntax.Tree Note} (hc : c ∈ n.tree.children)
    (hbinder : HoldsBinder c) :
    ∃ d task' frame' taken', ComesTo resolve t (n.down c) d task' frame' taken' := by
  obtain ⟨i, hi⟩ := List.mem_iff_getElem?.mp hc
  obtain ⟨d, taken', hd, hlabel, htree, -⟩ := Extract.exists_annotated_child h.tree hi
  have hmem : d ∈ s.children := List.mem_of_getElem? hd
  have hshape : c.shape = d.shape := by
    rw [htree]
    exact shape_annotate resolve _ _ _ d
  have hleads := hplaced.2 s h.within d hmem ((holdsBinder_congr hshape).mp hbinder)
  have himport : ScopeRole.ofKind s.kind ≠ .importStatement := by
    rw [← h.kind]
    exact fun hrole => himport (kind_of_importStatement hrole)
  have hwithin : d ∈ t.subtrees :=
    Syntax.Tree.subtrees_subset _ h.within (Syntax.Tree.mem_subtrees_of_mem_children hmem)
  by_cases hspace : ScopeRole.ofKind s.kind = .namespaceDeclaration
  · -- the body of a namespace
    obtain ⟨hname, hbody, hblock, hone⟩ := hleads.space hspace
    refine ⟨d, _, _, taken', hwithin, htree, ?_, fun _ => .inr hblock⟩
    refine Plan.task_ne_skip h.task_ne himport (fun _ => hname) (fun _ => ?_) hd hleads.named
    exact findIdx?_of_countP_le_one hd hbody hone
  · have hvisit : ((Plan.ofTask resolve task frame s taken).tasks[i]?.getD .skip).isVisit :=
      Plan.full_ofTask h.task_ne himport hspace hleads.declarator i d hd hleads.named
    refine ⟨d, _, _, taken', hwithin, htree, ?_, ?_⟩
    · intro hskip
      rw [hskip] at hvisit
      cases hvisit
    · intro hbody
      rw [hbody] at hvisit
      cases hvisit

/-- A binder starts its scope with the names it introduces; what its children hand out follows. -/
theorem scope_of_binder (h : ComesTo resolve t n s task frame taken) (hplaced : BindersPlaced t)
    (hbinder : IsBinder n.tree) : ∃ own, own.OnlyLocals (introducedNames n.tree) ∧
      n.note.scope = own ++ Extract.handedOut resolve task frame taken s := by
  have hs : IsBinder s := by
    unfold IsBinder at hbinder ⊢
    rw [← h.label, ← h.kind]
    exact hbinder
  have hvisit : task.isVisit := by
    cases htask : task with
    | skip => exact absurd htask h.task_ne
    | visit assigned | declarator => rfl
    | body =>
      rcases h.body htask with ⟨-, rfl⟩ | hblock
      · exact absurd hs hplaced.1
      · exact absurd hs.2 (by rw [hblock]; decide)
  obtain ⟨own, hopened, hlocals⟩ :
      ∃ own, (Plan.ofTask resolve task frame s taken).opened = some own ∧
        own.OnlyLocals (introducedNames s) := Plan.opened_of_binder hvisit hs.2
  refine ⟨own, introducedNames_congr h.shape ▸ hlocals, ?_⟩
  show n.tree.note.scope = _
  rw [h.tree, note_annotate, Plan.note, hopened]
  rfl

end ComesTo

/-- The analysis comes to everything that holds a binder, import statements apart. -/
theorem comesTo_of_binder {module : QName} (hplaced : BindersPlaced t) {n : ScopedNode}
    (hn : n ∈ (Syntax.Node.root (analyse resolve module t)).descendants)
    (hbinder : HoldsBinder n.tree) (himports : ∀ u ∈ n.above, u.kind ≠ "import_statement") :
    ∃ s task frame taken, ComesTo resolve t n s task frame taken := by
  obtain ⟨u, above⟩ := n
  induction above generalizing u with
  | nil =>
    rw [Syntax.Node.eq_root hn rfl]
    exact ⟨t, .body, _, _, Syntax.Tree.mem_subtrees_self t, rfl, Task.noConfusion,
      fun _ => .inl ⟨rfl, rfl⟩⟩
  | cons v above ih =>
    rcases Syntax.Node.eq_or_down_of_mem_descendants hn with h | ⟨p, hp, c, hc, h⟩
    · cases h
    · cases h
      obtain ⟨himport, himports⟩ := List.forall_mem_cons.mp himports
      obtain ⟨w, hw, hbinder'⟩ := hbinder
      have hinside : HoldsBinder p.tree :=
        ⟨w, Syntax.Tree.subtrees_subset _ (Syntax.Tree.mem_subtrees_of_mem_children hc) hw,
          hbinder'⟩
      obtain ⟨s, task, frame, taken, hcomes⟩ := ih p.tree hp hinside himports
      exact hcomes.down hplaced himport hc ⟨w, hw, hbinder'⟩

/-! ## Identifiers inside binders -/

namespace Extract

/-- An identifier that resolves to a local variable makes no edge. -/
theorem identifierEdges_of_local {x : ScopedNode} (h : ScopedNode.resolve .value x = .localVariable)
    (owner : QName) : identifierEdges owner x = [] := by
  unfold identifierEdges
  rw [h]
  split <;> rfl

/-- A name that a binding pattern of a function, a catch clause or a loop introduces is local inside
it. The scope of the binder starts with these names, and with no others but that of a function
expression; the entries of what is declared inside come behind them. So an identifier with such a
name that no scope further inside knows as a value resolves to a local variable and makes no
edge. -/
theorem parameters_shadow {resolve : String → QName} {module : QName} {t : Syntax.Tree α}
    (hplaced : BindersPlaced t) {n : ScopedNode}
    (hn : n ∈ (Syntax.Node.root (analyse resolve module t)).descendants)
    (hbinder : IsBinder n.tree) (himports : ∀ u ∈ n.above, u.kind ≠ "import_statement") :
    (∃ (s : Syntax.Tree α) (task : Task) (frame : Frame) (taken : Taken) (own : Scope),
      n.tree = (annotate resolve task frame taken s).result ∧
      n.note.scope = own ++ handedOut resolve task frame taken s ∧
      ∀ name, own.find? .value name = some .localVariable ∧ (selfName? n.tree = some name ∨
          ∃ p ∈ binderPatterns n.tree, Introduces p name) ∨
        own.find? .value name = none ∧ selfName? n.tree ≠ some name ∧
          ¬ ∃ p ∈ binderPatterns n.tree, Introduces p name) ∧
    ∀ (x : ScopedNode) (near : List (Syntax.Tree Note)),
      x.tree :: x.above = near ++ n.tree :: n.above →
      (∃ p ∈ binderPatterns n.tree, Introduces p x.text) →
      (∀ w ∈ near, w.note.scope.find? .value x.text = none) →
      ScopedNode.resolve .value x = .localVariable ∧ ∀ owner, identifierEdges owner x = [] := by
  have hholds : HoldsBinder n.tree := ⟨n.tree, Syntax.Tree.mem_subtrees_self _, hbinder⟩
  obtain ⟨s, task, frame, taken, hcomes⟩ := comesTo_of_binder hplaced hn hholds himports
  obtain ⟨own, hlocals, hscope⟩ := hcomes.scope_of_binder hplaced hbinder
  constructor
  · refine ⟨s, task, frame, taken, own, hcomes.tree, hscope, fun name => ?_⟩
    rw [hlocals name]
    by_cases hname : name ∈ introducedNames n.tree
    · exact .inl ⟨if_pos hname, mem_introducedNames.mp hname⟩
    · rw [mem_introducedNames, not_or] at hname
      exact .inr ⟨if_neg fun h => not_or.mpr hname (mem_introducedNames.mp h), hname⟩
  · intro x near hx hintroduced hnear
    have hfind : n.tree.note.scope.find? .value x.text = some .localVariable := by
      show n.note.scope.find? .value x.text = _
      rw [hscope, Scope.find?_append, hlocals,
        if_pos (mem_introducedNames.mpr (.inr hintroduced))]
      rfl
    have hlocal : ScopedNode.resolve .value x = .localVariable := by
      unfold ScopedNode.resolve
      rw [ScopedNode.lookup?_of_near hx hnear hfind]
    exact ⟨hlocal, identifierEdges_of_local hlocal⟩

/-- The import `import * as p from "x"` and the function
`function f({ k: p = d, ...r }) { return p }`. -/
def shadowingTree : Syntax.Tree Unit :=
  sampleNode "program" [] "" [
    sampleNode "import_statement" [] "" [
      sampleNode "import_clause" [] "" [
        sampleNode "namespace_import" [] "" [sampleNode "identifier" [] "p" []]],
      sampleNode "string" ["source"] "'x'" []],
    sampleNode "function_declaration" [] "" [
      sampleNode "identifier" ["name"] "f" [],
      sampleNode "formal_parameters" ["parameters"] "" [
        sampleNode "required_parameter" [] "" [
          sampleNode "object_pattern" ["pattern"] "" [
            sampleNode "pair_pattern" [] "" [
              sampleNode "property_identifier" ["key"] "k" [],
              sampleNode "assignment_pattern" ["value"] "" [
                sampleNode "identifier" ["left"] "p" [],
                sampleNode "identifier" ["right"] "d" []]],
            sampleNode "rest_pattern" [] "" [sampleNode "identifier" [] "r" []]]]],
      sampleNode "statement_block" ["body"] "" [
        sampleNode "return_statement" [] "" [sampleNode "identifier" [] "p" []]]]]

/-- The module `p` is imported, but inside the function `p` is its parameter. -/
theorem parameters_shadow_imported : BindersPlaced shadowingTree ∧
    (sampleNotes shadowingTree).note.scope.find? .value "p" = some (.space ⟨"\"x\""⟩) ∧
    ∃ x, (Syntax.Node.root (sampleNotes shadowingTree)).at? [1, 2, 0, 0] = some x ∧ x.text = "p" ∧
      ScopedNode.resolve .value x = .localVariable := by
  have hplaced : BindersPlaced shadowingTree := by decide +kernel
  have hscope : (sampleNotes shadowingTree).note.scope.find? .value "p" =
      some (.space ⟨"\"x\""⟩) := by decide +kernel
  have hfunction : ∀ f ∈ (sampleNotes shadowingTree).children[1]?, IsBinder f ∧
      "p" ∈ (binderPatterns f).flatMap patternNames ∧ ∀ b ∈ f.children[2]?,
        ∀ r ∈ b.children[0]?, ∀ i ∈ r.children[0]?, i.text = "p" ∧
          ∀ w ∈ [i, r, b], w.note.scope.find? .value i.text = none := by decide +kernel
  obtain ⟨f, hf⟩ : ∃ f, (sampleNotes shadowingTree).children[1]? = some f := ⟨_, rfl⟩
  obtain ⟨b, hb⟩ : ∃ b, f.children[2]? = some b := by
    cases hf
    exact ⟨_, rfl⟩
  obtain ⟨r, hr⟩ : ∃ r, b.children[0]? = some r := by
    cases hf
    cases hb
    exact ⟨_, rfl⟩
  obtain ⟨i, hi⟩ : ∃ i, r.children[0]? = some i := by
    cases hf
    cases hb
    cases hr
    exact ⟨_, rfl⟩
  obtain ⟨hbinder, hnames, hinside⟩ := hfunction f hf
  obtain ⟨htext, hnear⟩ := hinside b hb r hr i hi
  have hintroduced : ∃ p ∈ binderPatterns f, Introduces p i.text := by
    obtain ⟨p, hp, hname⟩ := List.mem_flatMap.mp hnames
    exact ⟨p, hp, htext ▸ mem_patternNames.mp hname⟩
  have hn : (Syntax.Node.root (sampleNotes shadowingTree)).down f ∈
      (Syntax.Node.root (sampleNotes shadowingTree)).descendants :=
    Syntax.Node.mem_descendants_down (Syntax.Node.mem_descendants_self _)
      (List.mem_of_getElem? hf)
  have himports : ∀ u ∈ ((Syntax.Node.root (sampleNotes shadowingTree)).down f).above,
      u.kind ≠ "import_statement" := List.forall_mem_singleton.mpr (by decide +kernel)
  set x := ((((Syntax.Node.root (sampleNotes shadowingTree)).down f).down b).down r).down i with hx
  refine ⟨hplaced, hscope, x, ?_, htext, ?_⟩
  · simp only [hx, Syntax.Node.at?, Syntax.Node.root, Syntax.Node.down, hf, hb, hr, hi]
  · exact ((parameters_shadow hplaced hn hbinder himports).2 x [i, r, b] rfl hintroduced hnear).1

/-- The import `import d from "x" with { type: p => p }`. -/
def attributedImport : Syntax.Tree Unit :=
  sampleNode "program" [] "" [
    sampleNode "import_statement" [] "" [
      sampleNode "import_clause" [] "" [sampleNode "identifier" [] "d" []],
      sampleNode "string" ["source"] "'x'" [],
      sampleNode "import_attribute" [] "" [
        sampleNode "object" [] "" [
          sampleNode "pair" [] "" [
            sampleNode "property_identifier" ["key"] "type" [],
            sampleNode "arrow_function" ["value"] "" [
              sampleNode "identifier" ["parameter"] "p" [],
              sampleNode "identifier" ["body"] "p" []]]]]]]

/-- The analysis does not look into import statements: a parameter of a function that stands in one
is not known inside the function. -/
theorem parameter_unknown_in_import : BindersPlaced attributedImport ∧
    ∃ n x, (Syntax.Node.root (sampleNotes attributedImport)).at? [0, 2, 0, 0, 1] = some n ∧
      IsBinder n.tree ∧ (∃ p ∈ binderPatterns n.tree, Introduces p "p") ∧
      (Syntax.Node.root (sampleNotes attributedImport)).at? [0, 2, 0, 0, 1, 1] = some x ∧
      x.tree :: x.above = [x.tree] ++ n.tree :: n.above ∧ x.kind = "identifier" ∧ x.text = "p" ∧
      x.note.scope = [] ∧ ScopedNode.resolve .value x = .unresolved ⟨"p"⟩ := by
  have hfunction : ((Syntax.Node.root (sampleNotes attributedImport)).at? [0, 2, 0, 0, 1]).map
      (fun n => (decide (IsBinder n.tree), (binderPatterns n.tree).flatMap patternNames)) =
        some (true, ["p"]) := by decide +kernel
  have hname : ∀ n ∈ (Syntax.Node.root (sampleNotes attributedImport)).at? [0, 2, 0, 0, 1],
      ∀ c ∈ n.tree.children[1]?, (n.down c).kind = "identifier" ∧ (n.down c).text = "p" ∧
        (n.down c).note.scope = [] ∧
        ScopedNode.resolve .value (n.down c) = .unresolved ⟨"p"⟩ := by decide +kernel
  obtain ⟨n, hn, hvalues⟩ := Option.map_eq_some_iff.mp hfunction
  obtain ⟨hbinder, hnames⟩ := Prod.mk.inj hvalues
  have hmem : "p" ∈ (binderPatterns n.tree).flatMap patternNames := by
    rw [hnames]
    exact List.mem_singleton_self _
  obtain ⟨p, hp, hpname⟩ := List.mem_flatMap.mp hmem
  obtain ⟨c, hc⟩ : ∃ c, n.tree.children[1]? = some c := by
    cases hn
    exact ⟨_, rfl⟩
  refine ⟨by decide +kernel, n, n.down c, hn, of_decide_eq_true hbinder,
    ⟨p, hp, mem_patternNames.mp hpname⟩, ?_, rfl, hname n hn c hc⟩
  cases hn
  cases hc
  rfl

end Extract

end CodeConcepts
