import CodeConcepts.Proofs.Shadowing
import CodeConcepts.Proofs.TypingForms

/-!
# Members of what a name stands for

The member of a namespace is looked up by the name of the namespace, as a value and then as a type.
Parameters and variables are known as values only, namespaces and modules that are imported as a
whole are known as both (`pairs_analyse`). So the scope of a local variable hides a namespace from
the first lookup but not from the second one: a member of the local variable is taken for a member
of the namespace exactly if no scope up to that of the namespace knows the name as a type.
-/

namespace CodeConcepts

variable {α : Type} {scope : Scope} {name : String}

/-! ## Fields -/

namespace Syntax

mutual

theorem Tree.mem_descendants_of_locate? {id : Nat} {above : List (Tree α)} : ∀ {t : Tree α}
    {n : Node α}, t.locate? id above = some n → n ∈ (⟨t, above⟩ : Node α).descendants
  | .node l a cs, n, h => by
    rw [locate?] at h
    split at h
    · cases h
      exact Node.mem_descendants_self _
    · obtain ⟨c, hc, hn⟩ := Tree.mem_descendants_of_locateAll? h
      exact Node.descendants_down_subset hc hn

theorem Tree.mem_descendants_of_locateAll? {id : Nat} {above : List (Tree α)} :
    ∀ {ts : List (Tree α)} {n : Node α}, locateAll? id above ts = some n →
      ∃ c ∈ ts, n ∈ (⟨c, above⟩ : Node α).descendants
  | [], n, h => by cases h
  | t :: ts, n, h => by
    rw [locateAll?] at h
    split at h
    case h_1 m hm =>
      cases h
      exact ⟨t, List.mem_cons_self, Tree.mem_descendants_of_locate? hm⟩
    case h_2 =>
      obtain ⟨c, hc, hn⟩ := Tree.mem_descendants_of_locateAll? h
      exact ⟨c, List.mem_cons_of_mem _ hc, hn⟩

end

/-- What fills a field of a node lies inside it. -/
theorem Node.mem_descendants_of_field? {c n : Node α} (h : n.field? name = some c) :
    c ∈ n.descendants := by
  unfold Node.field? at h
  split at h
  case h_1 t ht =>
    cases h
    exact descendants_down_subset (List.mem_of_find?_eq_some ht) (mem_descendants_self _)
  case h_2 =>
    split at h
    case h_1 =>
      obtain ⟨t, ht, hc⟩ := Tree.mem_descendants_of_locateAll? h
      exact descendants_down_subset ht hc
    case h_2 => cases h

end Syntax

/-! ## Namespaces in scopes -/

/-- A node brings a namespace, or a module as a whole, into the scope around it under a name. -/
inductive BringsSpace (resolve : String → QName) (s : Syntax.Tree α) (name : String) (f : QName) :
    Prop
  | imported : s.kind = "import_statement" → ⟨.type, name, .space f⟩ ∈ Scope.ofImport resolve s →
      BringsSpace resolve s name f
  | declared {written : Syntax.Tree α} (owner : QName) :
      ScopeRole.ofKind s.kind = .namespaceDeclaration → s.field? "name" = some written →
      written.kind ≠ "string" → name = Text.trim (Text.headSegment '.' written.text) →
      f = owner.child name → BringsSpace resolve s name f

namespace Scope

/-- No entry of a scope leads to a namespace. -/
def SpaceFree (scope : Scope) : Prop := ∀ e ∈ scope, ∀ f, e.meaning ≠ .space f

theorem SpaceFree.of_inner (h : scope.Inner) : scope.SpaceFree := by
  intro e he f hf
  have hnone := h e he
  rw [hf] at hnone
  cases hnone

theorem spaceFree_value (name : String) (n : QName) :
    SpaceFree (value name (.declaration n)) := by
  intro e he f hf
  rw [List.mem_singleton.mp he] at hf
  cases hf

theorem spaceFree_type (name : String) (n : QName) :
    SpaceFree (type name (.declaration n)) := by
  intro e he f hf
  rw [List.mem_singleton.mp he] at hf
  cases hf

theorem spaceFree_both (name : String) (n : QName) : SpaceFree (both name (.declaration n)) := by
  intro e he f hf
  rw [meaning_of_mem_both he] at hf
  cases hf

/-- What a scope knows as a type it knows as a value too. -/
def Twin (scope : Scope) : Prop :=
  ∀ name m, (⟨.type, name, m⟩ : Entry) ∈ scope → (⟨.value, name, m⟩ : Entry) ∈ scope

theorem twin_nil : Twin [] := fun _ _ h => absurd h List.not_mem_nil

theorem type_mem_both {other : String} {m k : Meaning}
    (h : (⟨.type, name, m⟩ : Entry) ∈ both other k) : name = other ∧ m = k := by
  rcases List.mem_cons.mp h with h | h
  · have hspace : Space.type = Space.value := congrArg Entry.space h
    exact absurd hspace (by decide)
  · exact ⟨congrArg Entry.name (List.mem_singleton.mp h),
      congrArg Entry.meaning (List.mem_singleton.mp h)⟩

theorem twin_both (name : String) (m : Meaning) : Twin (both name m) := by
  intro other k h
  obtain ⟨rfl, rfl⟩ := type_mem_both h
  exact List.mem_cons_self

theorem twin_flatMap {β : Type} {xs : List β} {f : β → Scope} (h : ∀ x ∈ xs, (f x).Twin) :
    Twin (xs.flatMap f) := by
  intro name m hm
  obtain ⟨x, hx, hm⟩ := List.mem_flatMap.mp hm
  exact List.mem_flatMap.mpr ⟨x, hx, h x hx name m hm⟩

/-- Imports bind values and types alike. -/
theorem twin_ofImport (resolve : String → QName) (t : Syntax.Tree α) :
    (ofImport resolve t).Twin := by
  have hpart (target : QName) (part : Syntax.Tree α) : (ofImportPart target part).Twin := by
    unfold ofImportPart
    split
    · exact twin_both _ _
    · split
      · exact twin_both _ _
      · exact twin_nil
    · refine twin_flatMap fun specifier _ => ?_
      split
      · exact twin_nil
      · exact twin_both _ _
    · exact twin_nil
  have hrequire (clause : Syntax.Tree α) : (ofRequire resolve clause).Twin := by
    unfold ofRequire
    split
    · exact twin_both _ _
    · exact twin_nil
  unfold ofImport
  split
  · exact twin_flatMap fun clause _ => twin_flatMap fun part _ => hpart _ part
  · exact twin_flatMap fun clause _ => hrequire clause

/-- A namespace that a scope knows as a type it knows as a value too, and it has been brought in in
a way that is allowed. -/
def Pairs (P : String → QName → Prop) (scope : Scope) : Prop :=
  ∀ name f, (⟨.type, name, .space f⟩ : Entry) ∈ scope →
    (⟨.value, name, .space f⟩ : Entry) ∈ scope ∧ P name f

variable {P : String → QName → Prop}

theorem SpaceFree.pairs (h : scope.SpaceFree) : scope.Pairs P :=
  fun _ f hf => absurd rfl (h _ hf f)

theorem pairs_nil : Pairs P [] := fun _ _ h => absurd h List.not_mem_nil

theorem Pairs.append {s u : Scope} (hs : s.Pairs P) (hu : u.Pairs P) : Pairs P (s ++ u) := by
  intro name f h
  rcases List.mem_append.mp h with h | h
  · exact ⟨List.mem_append_left _ (hs name f h).1, (hs name f h).2⟩
  · exact ⟨List.mem_append_right _ (hu name f h).1, (hu name f h).2⟩

theorem Pairs.mono {Q : String → QName → Prop} (h : scope.Pairs P)
    (himp : ∀ name f, P name f → Q name f) : scope.Pairs Q :=
  fun name f hf => ⟨(h name f hf).1, himp name f (h name f hf).2⟩

end Scope

open Scope (Pairs SpaceFree)

namespace Plan

/-- What a plan enters into scopes is paired. -/
structure EntersPairs (P : String → QName → Prop) (p : Plan) : Prop where
  outward : p.outward.Pairs P
  opened : ∀ own, p.opened = some own → own.Pairs P

variable {resolve : String → QName} {frame : Frame} {t : Syntax.Tree α} {taken : Taken}
  {P : String → QName → Prop}

theorem EntersPairs.of_outward {p : Plan} (houtward : p.outward.Pairs P)
    (hopened : p.opened = none) : p.EntersPairs P where
  outward := houtward
  opened := by
    rw [hopened]
    rintro _ ⟨⟩

theorem entersPairs_passThrough (assigned : Option Assignment) :
    (passThrough frame t assigned taken).EntersPairs P := .of_outward Scope.pairs_nil rfl

theorem EntersPairs.of_opened {p : Plan} {own : Scope} (houtward : p.outward.Pairs P)
    (hopened : p.opened = some own) (h : own.Inner) : p.EntersPairs P where
  outward := houtward
  opened := by
    rw [hopened]
    rintro _ ⟨⟩
    exact (SpaceFree.of_inner h).pairs

theorem entersPairs_opening (owner : QName) {own : Scope} (h : own.Inner) :
    (opening owner own t taken).EntersPairs P := .of_opened Scope.pairs_nil rfl h

theorem entersPairs_container : (container frame t taken).EntersPairs P where
  outward := Scope.pairs_nil
  opened := by
    rintro _ ⟨⟩
    refine SpaceFree.pairs fun e he f hf => ?_
    obtain ⟨p, -, he⟩ := List.mem_flatMap.mp he
    exact Scope.spaceFree_value p.1 p.2 e he f hf

theorem entersPairs_functionDeclaration (assigned : Option Assignment) :
    (functionDeclaration frame t assigned taken).EntersPairs P := by
  have hsignature : (Scope.ofSignature t).Inner := Scope.inner_ofSignature t
  unfold functionDeclaration
  split
  · exact .of_opened Scope.pairs_nil rfl hsignature
  · exact .of_opened Scope.pairs_nil rfl hsignature
  · split
    · exact entersPairs_opening _ hsignature
    · exact .of_opened (Scope.spaceFree_value _ _).pairs rfl hsignature

theorem entersPairs_typed {kind : Kind} {enter : String → Meaning → Scope} (namedMembers : Bool)
    (h : ∀ name n, (enter name (.declaration n)).SpaceFree) :
    (typed kind enter namedMembers frame t taken).EntersPairs P := by
  unfold typed
  split
  · exact entersPairs_passThrough none
  · exact .of_opened (h _ _).pairs rfl (Scope.inner_ofTypeParameters t)

theorem entersPairs_enumDeclaration : (enumDeclaration frame t taken).EntersPairs P := by
  unfold enumDeclaration
  split
  · exact entersPairs_passThrough none
  · exact .of_outward (Scope.spaceFree_both _ _).pairs rfl

theorem entersPairs_variableDeclarator : (variableDeclarator frame t taken).EntersPairs P := by
  unfold variableDeclarator
  split
  · exact .of_outward Scope.pairs_nil rfl
  · split
    · exact .of_outward (Scope.spaceFree_value _ _).pairs rfl
    · exact .of_outward (SpaceFree.of_inner (Scope.inner_ofPattern _)).pairs rfl

/-- A namespace enters the first part of its name. -/
theorem entersPairs_namespaceDeclaration
    (hrole : ScopeRole.ofKind t.kind = .namespaceDeclaration) :
    (namespaceDeclaration frame t taken).EntersPairs (BringsSpace resolve t) := by
  unfold namespaceDeclaration
  split
  · exact entersPairs_passThrough none
  · next written hwritten =>
    dsimp only
    split
    · exact .of_outward Scope.pairs_nil rfl
    · next hstring =>
      refine .of_outward (fun name f h => ⟨Scope.twin_both _ _ name _ h, ?_⟩) rfl
      obtain ⟨rfl, hf⟩ := Scope.type_mem_both h
      exact .declared frame.owner hrole hwritten hstring rfl (Meaning.space.inj hf)

theorem entersPairs_ofNode (assigned : Option Assignment) :
    (ofNode resolve frame assigned t taken).EntersPairs (BringsSpace resolve t) := by
  have hsignature : (Scope.ofSignature t).Inner := Scope.inner_ofSignature t
  unfold ofNode
  cases hrole : ScopeRole.ofKind t.kind with
  | functionDeclaration => exact entersPairs_functionDeclaration assigned
  | anonymousFunction =>
    refine entersPairs_opening _ (.append ?_ hsignature)
    split
    · exact List.forall_mem_singleton.mpr rfl
    · exact .nil
  | memberFunction => exact .of_opened Scope.pairs_nil rfl hsignature
  | classDeclaration => exact entersPairs_typed true Scope.spaceFree_both
  | classExpression =>
    refine entersPairs_opening _ (.append ?_ (Scope.inner_ofTypeParameters t))
    split
    · intro e he
      rw [Scope.meaning_of_mem_both he]
      rfl
    · exact .nil
  | interfaceDeclaration => exact entersPairs_typed true Scope.spaceFree_type
  | typeAliasDeclaration => exact entersPairs_typed false Scope.spaceFree_type
  | enumDeclaration => exact entersPairs_enumDeclaration
  | namespaceDeclaration => exact entersPairs_namespaceDeclaration hrole
  | variableStatement => exact .of_outward Scope.pairs_nil rfl
  | importStatement =>
    refine .of_outward (fun name f h => ⟨Scope.twin_ofImport resolve t name _ h, ?_⟩) rfl
    exact .imported (kind_of_importStatement hrole) h
  | property => exact .of_outward Scope.pairs_nil rfl
  | block => exact entersPairs_container
  | catchClause =>
    refine entersPairs_opening _ ?_
    split
    · exact Scope.inner_ofPattern _
    · exact .nil
  | forLoop =>
    refine entersPairs_opening _ ?_
    split
    · exact Scope.inner_ofPattern _
    · exact .nil
  | other => exact entersPairs_passThrough assigned

theorem entersPairs_ofTask (task : Task) :
    (ofTask resolve task frame t taken).EntersPairs (BringsSpace resolve t) := by
  cases task with
  | skip => exact .of_outward Scope.pairs_nil rfl
  | visit assigned => exact entersPairs_ofNode assigned
  | declarator =>
    unfold ofTask
    dsimp only
    split
    · exact entersPairs_variableDeclarator
    · exact entersPairs_ofNode none
  | body => exact entersPairs_container

end Plan

/-- Something inside a tree brings a namespace under a name. -/
def SpaceWithin (resolve : String → QName) (ts : List (Syntax.Tree α)) (name : String)
    (f : QName) : Prop :=
  ∃ s ∈ ts, BringsSpace resolve s name f

/-- What trees hand outwards is paired, and so are the scopes inside them. -/
structure AllPairs (P : String → QName → Prop) (outward : Scope) (ns : List (Syntax.Tree Note)) :
    Prop where
  outward : outward.Pairs P
  scopes : ∀ n ∈ ns, n.note.scope.Pairs P

mutual

theorem pairs_annotate (resolve : String → QName) {P : String → QName → Prop} (task : Task)
    (frame : Frame) (taken : Taken) : ∀ t : Syntax.Tree α,
      (∀ s ∈ t.subtrees, ∀ name f, BringsSpace resolve s name f → P name f) →
      AllPairs P (annotate resolve task frame taken t).outward
        (annotate resolve task frame taken t).result.subtrees
  | .node l a cs, hP => by
    have hplan : (Plan.ofTask resolve task frame (.node l a cs) taken).EntersPairs
        (BringsSpace resolve (.node l a cs)) := Plan.entersPairs_ofTask task
    have hself := hP _ List.mem_cons_self
    have hinner := pairs_annotateAll resolve
      (Plan.ofTask resolve task frame (.node l a cs) taken).tasks
      (Plan.ofTask resolve task frame (.node l a cs) taken).frame
      (Plan.ofTask resolve task frame (.node l a cs) taken).taken cs
      fun s hs => hP s (List.mem_cons_of_mem _ hs)
    rw [annotate]
    constructor
    · unfold Plan.outwardWith
      split
      · exact hplan.outward.mono hself
      · exact (hplan.outward.mono hself).append hinner.outward
    · refine List.forall_mem_cons.mpr ⟨?_, hinner.scopes⟩
      show Scope.Pairs P (Plan.note _ _).scope
      unfold Plan.note
      dsimp only
      split
      · next own hopened => exact ((hplan.opened own hopened).mono hself).append hinner.outward
      · exact Scope.pairs_nil

theorem pairs_annotateAll (resolve : String → QName) {P : String → QName → Prop} (tasks : List Task)
    (frame : Frame) (taken : Taken) : ∀ ts : List (Syntax.Tree α),
      (∀ s ∈ Syntax.Tree.subtreesAll ts, ∀ name f, BringsSpace resolve s name f → P name f) →
      AllPairs P (annotateAll resolve tasks frame taken ts).outward
        (Syntax.Tree.subtreesAll (annotateAll resolve tasks frame taken ts).result)
  | [], _ => by
    rw [annotateAll]
    exact ⟨Scope.pairs_nil, List.forall_mem_nil _⟩
  | t :: ts, hP => by
    have hfirst := pairs_annotate resolve (tasks.head?.getD .skip) frame taken t
      fun s hs => hP s (List.mem_append_left _ hs)
    have hrest := pairs_annotateAll resolve tasks.tail frame
      (annotate resolve (tasks.head?.getD .skip) frame taken t).taken ts
      fun s hs => hP s (List.mem_append_right _ hs)
    rw [annotateAll]
    exact ⟨hfirst.outward.append hrest.outward,
      List.forall_mem_append.mpr ⟨hfirst.scopes, hrest.scopes⟩⟩

end

/-- In the scopes of a file namespaces are known as types and as values, and each has been declared
or imported in the file under its name. -/
theorem pairs_analyse (resolve : String → QName) (module : QName) (t : Syntax.Tree α) :
    ∀ n ∈ (analyse resolve module t).subtrees,
      n.note.scope.Pairs (SpaceWithin resolve t.subtrees) :=
  (pairs_annotate resolve .body ⟨module, true, false⟩ [] t
    fun s hs _ _ h => ⟨s, hs, h⟩).scopes

/-! ## Members of local variables -/

namespace ScopedNode

theorem lookup?_of_local {o : ScopedNode} (h : resolve .value o = .localVariable) :
    lookup? o .value o.text = some .localVariable := by
  unfold resolve at h
  split at h
  · cases h
  · cases h
  · next hlookup => exact hlookup
  · cases h
  · cases h

variable {o : ScopedNode} (hkind : o.kind = "identifier")
  (hlocal : resolve .value o = .localVariable)

include hkind hlocal

theorem namespace?_of_type {ns : QName}
    (h : lookup? o .type o.text = some (.space ns)) : namespace? o = some ns := by
  simp only [namespace?, hkind, if_true, List.findSome?_cons, lookup?_of_local hlocal, h]

theorem namespace?_of_no_type
    (h : ∀ ns, lookup? o .type o.text ≠ some (.space ns)) : namespace? o = none := by
  have hvalue := lookup?_of_local hlocal
  cases hlookup : lookup? o .type o.text with
  | none => simp [namespace?, hkind, hvalue, hlookup]
  | some m =>
    cases m with
    | space ns => exact absurd hlookup (h ns)
    | declaration f | localVariable | typeParameter => simp [namespace?, hkind, hvalue, hlookup]

end ScopedNode

/-- A local variable that is a namespace as a type. Something in the tree brings the namespace under
its name, no scope further inside than that of the namespace knows the name as a type, and the
scope of the variable is that of the namespace or lies inside it. -/
def NamespaceBehind (resolve : String → QName) (t : Syntax.Tree α) (o : ScopedNode)
    (ns : QName) : Prop :=
  SpaceWithin resolve t.subtrees o.text ns ∧
  ∃ (near far : List (Syntax.Tree Note)) (u : Syntax.Tree Note),
    o.tree :: o.above = near ++ u :: far ∧
    (∀ w ∈ near, w.note.scope.find? .type o.text = none) ∧
    u.note.scope.find? .type o.text = some (.space ns) ∧
    (⟨.value, o.text, .space ns⟩ : Entry) ∈ u.note.scope ∧
    ∃ w ∈ near ++ [u], w.note.scope.find? .value o.text = some .localVariable

theorem Scope.mem_of_find? {space : Space} {m : Meaning} (h : scope.find? space name = some m) :
    ⟨space, name, m⟩ ∈ scope := by
  obtain ⟨⟨s, n, k⟩, he, hm⟩ := Option.map_eq_some_iff.mp h
  have hmem := List.mem_of_find?_eq_some he
  have hkey := List.find?_some he
  simp only [decide_eq_true_eq] at hkey
  obtain ⟨rfl, rfl⟩ := hkey
  cases hm
  exact hmem

theorem Scope.isSome_find? {space : Space} {m : Meaning} (h : ⟨space, name, m⟩ ∈ scope) :
    (scope.find? space name).isSome := by
  unfold find?
  rw [Option.isSome_map, List.find?_isSome]
  exact ⟨_, h, by simp⟩

/-- A local variable that is found as a namespace among the types is one that hides a namespace of
the file. -/
theorem namespaceBehind_of_lookup? {resolve : String → QName} {module : QName} {t : Syntax.Tree α}
    {o : ScopedNode} (ho : o ∈ (Syntax.Node.root (analyse resolve module t)).descendants)
    (hlocal : ScopedNode.resolve .value o = .localVariable) {ns : QName}
    (h : ScopedNode.lookup? o .type o.text = some (.space ns)) :
    NamespaceBehind resolve t o ns := by
  obtain ⟨near, u, far, habove, hu, hnear⟩ := List.findSome?_eq_some_iff.mp h
  have hmem : u ∈ (analyse resolve module t).subtrees := by
    refine Syntax.Node.mem_subtrees_of_mem_root ho u ?_
    rw [habove]
    exact List.mem_append_right _ List.mem_cons_self
  obtain ⟨hvalue, hwithin⟩ :=
    pairs_analyse resolve module t u hmem o.text ns (Scope.mem_of_find? hu)
  refine ⟨hwithin, near, far, u, habove, hnear, hu, hvalue, ?_⟩
  -- The scope of the namespace knows the name as a value, so the lookup ends there at the latest.
  have hlookup := ScopedNode.lookup?_of_local hlocal
  have hends : ((near ++ [u]).findSome? fun w => w.note.scope.find? .value o.text).isSome := by
    rw [List.isSome_findSome?]
    exact List.any_eq_true.mpr
      ⟨u, List.mem_append_right _ List.mem_cons_self, Scope.isSome_find? hvalue⟩
  unfold ScopedNode.lookup? at hlookup
  rw [habove, ← List.singleton_append, ← List.append_assoc, List.findSome?_append,
    Option.or_of_isSome hends] at hlookup
  exact List.exists_of_findSome?_eq_some hlookup

namespace Extract

/-- An access to a member of a local variable. Unless the name is that of a namespace among the
types, it stands for no member of a namespace: it makes no edge, and its value is a member of
something unknown. If it is, the variable lies inside the scope of a namespace of its name, and the
access stands for the member of that one. -/
theorem member_of_local {resolve : String → QName} {module : QName} {t : Syntax.Tree α}
    {n o : ScopedNode} {m : String}
    (hn : n ∈ (Syntax.Node.root (analyse resolve module t)).descendants)
    (hkind : n.kind = "member_expression") (hobject : n.field? "object" = some o)
    (hproperty : n.fieldText? "property" = some m) (hidentifier : o.kind = "identifier")
    (hlocal : ScopedNode.resolve .value o = .localVariable) :
    ((∀ ns, ScopedNode.lookup? o .type o.text ≠ some (.space ns)) ∧
      ScopedNode.resolveMember? o m = none ∧ (∀ owner, memberAccessEdges owner n = []) ∧
      Typing.valueOf n = .member (.complex o.text) m) ∨
    ∃ ns, NamespaceBehind resolve t o ns ∧ ScopedNode.resolveMember? o m = some (ns.child m) ∧
      (∀ owner, memberAccessEdges owner n = depend owner (ns.child m) (usage n .read)) ∧
      Typing.valueOf n = .declared (ns.child m) := by
  have ho := Syntax.Node.descendants_subset hn (Syntax.Node.mem_descendants_of_field? hobject)
  have hedges (owner : QName) : memberAccessEdges owner n =
      (ScopedNode.resolveMember? o m).elim [] fun f => depend owner f (usage n .read) := by
    cases hmember : ScopedNode.resolveMember? o m <;>
      simp only [memberAccessEdges, accessedMember?, hobject, hproperty, hmember, Option.elim]
  have hobjectValue : Typing.valueOf o = .complex o.text := by
    rw [Typing.valueOf_eq, hidentifier, hlocal]
    rfl
  have hvalue : Typing.valueOf n =
      (ScopedNode.resolveMember? o m).elim (.member (.complex o.text) m) .declared := by
    rw [Typing.valueOf_eq, hkind, hobject, hproperty, ← hobjectValue]
    rfl
  by_cases hspace : ∃ ns, ScopedNode.lookup? o .type o.text = some (.space ns)
  · obtain ⟨ns, hns⟩ := hspace
    have hmember : ScopedNode.resolveMember? o m = some (ns.child m) := by
      unfold ScopedNode.resolveMember?
      rw [ScopedNode.namespace?_of_type hidentifier hlocal hns, Option.map_some]
    rw [hmember] at hvalue
    refine .inr ⟨ns, namespaceBehind_of_lookup? ho hlocal hns, hmember, fun owner => ?_, hvalue⟩
    rw [hedges, hmember, Option.elim_some]
  · have hnone := not_exists.mp hspace
    have hmember : ScopedNode.resolveMember? o m = none := by
      unfold ScopedNode.resolveMember?
      rw [ScopedNode.namespace?_of_no_type hidentifier hlocal hnone, Option.map_none]
    rw [hmember] at hvalue
    refine .inl ⟨hnone, hmember, fun owner => ?_, hvalue⟩
    rw [hedges, hmember, Option.elim_none]

/-- The import `import * as ns from "pkg"` and the function `function f(ns, a) { ns.x; a.y }`. -/
def hidingTree : Syntax.Tree Unit :=
  sampleNode "program" [] "" [
    sampleNode "import_statement" [] "" [
      sampleNode "import_clause" [] "" [
        sampleNode "namespace_import" [] "" [sampleNode "identifier" [] "ns" []]],
      sampleNode "string" ["source"] "'pkg'" []],
    sampleNode "function_declaration" [] "" [
      sampleNode "identifier" ["name"] "f" [],
      sampleNode "formal_parameters" ["parameters"] "" [
        sampleNode "required_parameter" [] "" [sampleNode "identifier" ["pattern"] "ns" []],
        sampleNode "required_parameter" [] "" [sampleNode "identifier" ["pattern"] "a" []]],
      sampleNode "statement_block" ["body"] "" [
        sampleNode "member_expression" [] "" [
          sampleNode "identifier" ["object"] "ns" [],
          sampleNode "property_identifier" ["property"] "x" []],
        sampleNode "member_expression" [] "" [
          sampleNode "identifier" ["object"] "a" [],
          sampleNode "property_identifier" ["property"] "y" []]]]]

/-- The node of the sample file at a path. -/
def hidingNode? (path : List Nat) : Option ScopedNode :=
  (Syntax.Node.root (sampleNotes hidingTree)).at? path

/-- The member of the second parameter is that of no namespace, the member of the first one is that
of the imported module. -/
theorem member_of_local_parameters :
    (∃ n o, hidingNode? [1, 2, 1] = some n ∧ n.field? "object" = some o ∧
      ScopedNode.resolve .value o = .localVariable ∧ ScopedNode.resolveMember? o "y" = none) ∧
    ∃ n o ns, hidingNode? [1, 2, 0] = some n ∧ n.field? "object" = some o ∧
      ScopedNode.resolve .value o = .localVariable ∧
      NamespaceBehind sampleOrigin.resolve hidingTree o ns := by
  have hfacts : ∀ path ∈ [[1, 2, 0], [1, 2, 1]], ∀ n ∈ hidingNode? path,
      n.kind = "member_expression" ∧ ∀ o ∈ n.field? "object", o.kind = "identifier" ∧
        ScopedNode.resolve .value o = .localVariable := by decide +kernel
  have hfirst : ∀ n ∈ hidingNode? [1, 2, 0], n.fieldText? "property" = some "x" ∧
      ∀ o ∈ n.field? "object",
        ScopedNode.lookup? o .type o.text = some (.space ⟨"\"pkg\""⟩) := by decide +kernel
  have hsecond : ∀ n ∈ hidingNode? [1, 2, 1], n.fieldText? "property" = some "y" ∧
      ∀ o ∈ n.field? "object", ScopedNode.resolveMember? o "y" = none := by decide +kernel
  have hobject : ∀ path ∈ [[1, 2, 0], [1, 2, 1]],
      ((hidingNode? path).bind fun n => n.field? "object").isSome := by decide +kernel
  constructor
  · obtain ⟨o, ho⟩ := Option.isSome_iff_exists.mp (hobject [1, 2, 1] (by decide))
    obtain ⟨n, hn, ho⟩ := Option.bind_eq_some_iff.mp ho
    obtain ⟨hkind, hidentifiers⟩ := hfacts _ (by decide) n hn
    obtain ⟨hidentifier, hlocal⟩ := hidentifiers o ho
    obtain ⟨hproperty, hnone⟩ := hsecond n hn
    refine ⟨n, o, hn, ho, hlocal, ?_⟩
    rcases member_of_local (Syntax.Node.mem_descendants_of_at? hn) hkind ho hproperty hidentifier
      hlocal with h | ⟨ns, -, h, -⟩
    · exact h.2.1
    · rw [hnone o ho] at h
      cases h
  · obtain ⟨o, ho⟩ := Option.isSome_iff_exists.mp (hobject [1, 2, 0] (by decide))
    obtain ⟨n, hn, ho⟩ := Option.bind_eq_some_iff.mp ho
    obtain ⟨hkind, hidentifiers⟩ := hfacts _ (by decide) n hn
    obtain ⟨hidentifier, hlocal⟩ := hidentifiers o ho
    obtain ⟨hproperty, hspace⟩ := hfirst n hn
    rcases member_of_local (Syntax.Node.mem_descendants_of_at? hn) hkind ho hproperty hidentifier
      hlocal with h | ⟨ns, hbehind, -⟩
    · exact absurd (hspace o ho) (h.1 _)
    · exact ⟨n, o, ns, hn, ho, hlocal, hbehind⟩

/-- The parameter `ns` is a local variable, but its member counts as one of the imported module: the
function is said to depend on it. -/
theorem local_taken_for_namespace : ∃ n o, hidingNode? [1, 2, 0] = some n ∧
    n.kind = "member_expression" ∧ n.field? "object" = some o ∧ o.kind = "identifier" ∧
    n.fieldText? "property" = some "x" ∧ ScopedNode.resolve .value o = .localVariable ∧
    ScopedNode.resolveMember? o "x" = some ⟨"\"pkg\".x"⟩ ∧
    memberAccessEdges ⟨"f"⟩ n = [⟨⟨"f"⟩, ⟨"\"pkg\".x"⟩, .read⟩] := by
  have hfacts : ∀ n ∈ hidingNode? [1, 2, 0], n.kind = "member_expression" ∧
      n.fieldText? "property" = some "x" ∧
      memberAccessEdges ⟨"f"⟩ n = [⟨⟨"f"⟩, ⟨"\"pkg\".x"⟩, .read⟩] ∧
      ∀ o ∈ n.field? "object", o.kind = "identifier" ∧
        ScopedNode.resolve .value o = .localVariable ∧
        ScopedNode.resolveMember? o "x" = some ⟨"\"pkg\".x"⟩ := by decide +kernel
  have hobject : ((hidingNode? [1, 2, 0]).bind fun n => n.field? "object").isSome := by
    decide +kernel
  obtain ⟨o, ho⟩ := Option.isSome_iff_exists.mp hobject
  obtain ⟨n, hn, ho⟩ := Option.bind_eq_some_iff.mp ho
  obtain ⟨hkind, hproperty, hedges, hidentifiers⟩ := hfacts n hn
  obtain ⟨hidentifier, hlocal, hmember⟩ := hidentifiers o ho
  exact ⟨n, o, hn, hkind, ho, hidentifier, hproperty, hlocal, hmember, hedges⟩

end Extract

end CodeConcepts
