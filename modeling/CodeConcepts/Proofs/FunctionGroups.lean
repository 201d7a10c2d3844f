import CodeConcepts.Proofs.StatementPaths

/-!
# Functions of one name

The statements of a container may declare a function more than once, by signatures and by an
implementation. The container groups these statements by name before anything below them is looked
at, and it sees each as what it declares, bare or inside one `export` or `declare` (`overloadSet`).

One member of a group leads it: the last one with a body, or the first one if there are no bodies.
It is given the name, and the others are given as overloads of it (`Scope.exists_lead`); what is
assigned to a statement is noted on the function that it declares (`Met.note_of_member`).
-/

namespace CodeConcepts

open scoped List

variable {α : Type} {m d : ScopedNode} {c : Syntax.Tree Note} {name : String} {a : Assignment}

/-- The name that an assignment has a function declare. -/
def Assignment.declared? : Assignment → Option QName
  | .declares fqn => some fqn
  | .overloads _ => none

/-- The name of the function that an assignment makes a function an overload of. -/
def Assignment.overloaded? : Assignment → Option QName
  | .declares _ => none
  | .overloads fqn => some fqn

/-! ## The functions of a container -/

namespace Scope

/-- A member leads a list: it is the last one with a body, or the first one and there are no
bodies. -/
def Leads {β : Type} (hasBody : β → Prop) (before : List β) (p : β) (after : List β) : Prop :=
  (hasBody p ∧ ∀ d ∈ after, ¬ hasBody d) ∨ (before = [] ∧ ∀ d ∈ p :: after, ¬ hasBody d)

theorem leads_of_primary? {fs : List DeclaredFunction} {g : DeclaredFunction}
    (h : primary? fs name = some g) : ∃ before after,
      fs.filter (fun f => f.name == name) = before ++ g :: after ∧
        Leads (fun f : DeclaredFunction => f.hasBody = true) before g after := by
  unfold primary? at h
  dsimp only at h
  generalize fs.filter (fun f => f.name == name) = same at h ⊢
  cases hlast : (same.filter (·.hasBody)).getLast? with
  | some f =>
    rw [hlast] at h
    obtain rfl := Option.some.inj h
    -- the last one with a body is the first one from behind
    rw [List.getLast?_eq_head?_reverse, ← List.filter_reverse, List.head?_filter] at hlast
    obtain ⟨hbody, after, before, hreverse, hnone⟩ := List.find?_eq_some_iff_append.mp hlast
    refine ⟨before.reverse, after.reverse, ?_, .inl ⟨hbody, fun d hd => ?_⟩⟩
    · have hsame := congrArg List.reverse hreverse
      simpa using hsame
    · simpa using hnone d (List.mem_reverse.mp hd)
  | none =>
    rw [hlast, Option.none_or] at h
    obtain ⟨after, rfl⟩ := List.head?_eq_some_iff.mp h
    have hnone := List.filter_eq_nil_iff.mp (List.getLast?_eq_none_iff.mp hlast)
    exact ⟨[], after, rfl, .inr ⟨rfl, hnone⟩⟩

theorem pairwise_declaredFunctions (t : Syntax.Tree α) :
    (declaredFunctions t).Pairwise fun f g => f.position < g.position := by
  have hpositions : (t.children.zipIdx).Pairwise fun p q => p.2 < q.2 := by
    rw [← List.pairwise_map, List.zipIdx_map_snd]
    exact List.pairwise_lt_range'
  refine List.pairwise_filterMap.mpr (hpositions.imp fun h f hf g hg => ?_)
  rw [(declaredFunction?_eq_some hf).1, (declaredFunction?_eq_some hg).1]
  exact h

/-- What a container below an owner decides about the function at a position. -/
def assigned? (owner : QName) (taken : Taken) (t : Syntax.Tree α) (position : Nat) :
    Option Assignment :=
  assignment? (declaredFunctions t)
    (allocateFunctions owner (functionNames (declaredFunctions t)) taken).1 position

section Allocated

variable {t : Syntax.Tree α} (owner : QName) (taken : Taken) {name : String}

/-- All functions of a name are given one qualified name. -/
theorem exists_assigned (h : ∃ f ∈ declaredFunctions t, f.name = name) :
    ∃ fqn, ∀ f ∈ declaredFunctions t, f.name = name → assigned? owner taken t f.position =
      some (if primary? (declaredFunctions t) name = some f then .declares fqn
        else .overloads fqn) := by
  have hname : name ∈ functionNames (declaredFunctions t) :=
    ((functionNames_spec (declaredFunctions t)).2 name).mpr h
  unfold assigned?
  rw [← map_fst_allocateFunctions owner (functionNames (declaredFunctions t)) taken] at hname
  set fqns := (allocateFunctions owner (functionNames (declaredFunctions t)) taken).1
  obtain ⟨q, hq, hqname⟩ := List.mem_map.mp hname
  have hsome : (fqns.find? fun p => p.1 == name).isSome :=
    List.find?_isSome.mpr ⟨q, hq, beq_iff_eq.mpr hqname⟩
  obtain ⟨p, hp⟩ := Option.isSome_iff_exists.mp hsome
  refine ⟨p.2, fun f hf hfname => ?_⟩
  subst hfname
  exact assignment?_of_mem hf hp

/-- One function of a name leads the others. It is given the qualified name, and they are overloads
of it. -/
theorem exists_lead (h : ∃ f ∈ declaredFunctions t, f.name = name) :
    ∃ fqn before g after,
      (declaredFunctions t).filter (fun f => f.name == name) = before ++ g :: after ∧
      Leads (fun f : DeclaredFunction => f.hasBody = true) before g after ∧
      assigned? owner taken t g.position = some (.declares fqn) ∧
      ∀ f ∈ before ++ after, assigned? owner taken t f.position = some (.overloads fqn) := by
  obtain ⟨g, hg, hname, hprimary⟩ := exists_primary? h
  obtain ⟨before, after, hsplit, hleads⟩ := leads_of_primary? hprimary
  obtain ⟨fqn, hassigned⟩ := exists_assigned owner taken h
  refine ⟨fqn, before, g, after, hsplit, hleads, ?_, fun f hf => ?_⟩
  · rw [hassigned g hg hname, if_pos hprimary]
  · have hmem : f ∈ (declaredFunctions t).filter fun f => f.name == name := by
      rw [hsplit]
      rcases List.mem_append.mp hf with hf | hf
      · exact List.mem_append_left _ hf
      · exact List.mem_append_right _ (List.mem_cons_of_mem _ hf)
    obtain ⟨hfs, hfname⟩ := List.mem_filter.mp hmem
    -- the positions of the others are different
    have hne : g ≠ f := by
      have hpairwise := (pairwise_declaredFunctions t).filter fun f => f.name == name
      rw [hsplit] at hpairwise
      obtain ⟨-, hrest, hcross⟩ := List.pairwise_append.mp hpairwise
      rintro rfl
      rcases List.mem_append.mp hf with hf | hf
      · exact absurd (hcross _ hf _ List.mem_cons_self) (Nat.lt_irrefl _)
      · exact absurd ((List.pairwise_cons.mp hrest).1 _ hf) (Nat.lt_irrefl _)
    rw [hassigned f hfs (beq_iff_eq.mp hfname), hprimary, if_neg fun h => hne (Option.some.inj h)]

end Allocated

/-! ## Statements seen through a wrapper -/

section Shape

variable {β : Type}

theorem unwrap?_mapNotes (f : α → β) (t : Syntax.Tree α) :
    unwrap? (t.mapNotes f) = (unwrap? t).map (Syntax.Tree.mapNotes f) := by
  unfold unwrap?
  rw [Syntax.Tree.kind_mapNotes]
  split
  · exact Syntax.Tree.field?_mapNotes f "declaration" t
  · rw [Syntax.Tree.namedChildren_mapNotes, List.head?_map]
  · rfl

theorem declaredFunction?_mapNotes (f : α → β) (t : Syntax.Tree α) (i : Nat) :
    declaredFunction? (t.mapNotes f) i = declaredFunction? t i := by
  unfold declaredFunction?
  rw [unwrap?_mapNotes, Syntax.Tree.label_mapNotes]
  cases unwrap? t with
  | none => rfl
  | some d =>
    show (if _ ∧ ScopeRole.ofKind (d.mapNotes f).kind = _ then _ else _) = _
    rw [Syntax.Tree.kind_mapNotes, Syntax.Tree.fieldText?_mapNotes]
    rfl

/-- What a container declares does not depend on notes. -/
theorem declaredFunctions_congr {t : Syntax.Tree α} {u : Syntax.Tree β} (h : t.shape = u.shape) :
    declaredFunctions t = declaredFunctions u := by
  refine Syntax.Tree.eq_of_shape (F := declaredFunctions) (fun v => ?_) h
  unfold declaredFunctions Syntax.Tree.shape
  rw [Syntax.Tree.children_mapNotes, List.zipIdx_map, List.filterMap_map]
  exact List.filterMap_congr fun p _ => declaredFunction?_mapNotes _ p.1 p.2

end Shape

/-- The position of the child that a wrapper hands its assignment to. -/
def wrapped? (t : Syntax.Tree α) : Option Nat :=
  match t.kind with
  | "export_statement" => t.children.findIdx? fun c => c.label.roles.contains "declaration"
  | "ambient_declaration" => t.children.findIdx? fun c => c.label.named
  | _ => none

theorem visitWrapped_eq (t : Syntax.Tree α) (assigned : Option Assignment) :
    visitWrapped t assigned = t.children.zipIdx.map fun p => if p.1.label.named then
      .visit (if wrapped? t = some p.2 then assigned else none) else .skip := rfl

theorem wrapped?_congr {β : Type} {t : Syntax.Tree α} {u : Syntax.Tree β} (hkind : t.kind = u.kind)
    (h : t.children.map (·.label) = u.children.map (·.label)) : wrapped? t = wrapped? u := by
  have hfind {γ : Type} (p : Syntax.Label → Bool) (vs : List (Syntax.Tree γ)) :
      vs.findIdx? (fun c => p c.label) = (vs.map (·.label)).findIdx? p := by
    rw [List.findIdx?_map]
    rfl
  unfold wrapped?
  rw [hkind, hfind fun l => l.roles.contains "declaration", hfind fun l => l.named, h,
    ← hfind fun l => l.roles.contains "declaration", ← hfind fun l => l.named]

end Scope

/-- The declaration that an export statement exports is one of its children. -/
def Exposes (t : Syntax.Tree α) : Prop :=
  t.kind = "export_statement" → (t.field? "declaration").isSome →
    (t.children.find? fun c => c.label.roles.contains "declaration").any (·.label.named)

instance (t : Syntax.Tree α) : Decidable (Exposes t) :=
  inferInstanceAs (Decidable (_ → _ → _))

namespace Extract

open ScopedNode (declares? overloads?)

/-- The statements that wrap others. -/
def wrapperKinds : List String := ["export_statement", "ambient_declaration"]

theorem unwrap?_of_export (h : m.kind = "export_statement") :
    unwrap? m = m.field? "declaration" := by
  unfold unwrap?
  rw [h]
  rfl

theorem unwrap?_of_ambient (h : m.kind = "ambient_declaration") :
    unwrap? m = m.tree.namedChildren.head?.map m.down := by
  unfold unwrap? Syntax.Node.namedChild? Syntax.Node.namedChildren
  rw [h, List.getElem?_map, ← List.head?_eq_getElem?]
  rfl

theorem unwrap?_of_plain (h : m.kind ∉ wrapperKinds) : unwrap? m = some m := by
  unfold unwrap?
  split
  · next hkind =>
    rw [hkind] at h
    exact absurd (by decide) h
  · next hkind =>
    rw [hkind] at h
    exact absurd (by decide) h
  · rfl

theorem wrapperKinds_cases (kind : String) :
    kind = "export_statement" ∨ kind = "ambient_declaration" ∨ kind ∉ wrapperKinds := by
  unfold wrapperKinds
  grind

theorem tree_unwrap? (m : ScopedNode) : (unwrap? m).map (·.tree) = Scope.unwrap? m.tree := by
  rcases wrapperKinds_cases m.kind with hkind | hkind | hkind
  · rw [unwrap?_of_export hkind, Syntax.Node.tree_field?]
    unfold Scope.unwrap?
    rw [show m.tree.kind = _ from hkind]
    rfl
  · rw [unwrap?_of_ambient hkind, Option.map_map]
    unfold Scope.unwrap?
    rw [show m.tree.kind = _ from hkind]
    exact Option.map_id'
  · rw [unwrap?_of_plain hkind]
    unfold Scope.unwrap?
    split
    · next h =>
      rw [show m.kind = _ from h] at hkind
      exact absurd (by decide) hkind
    · next h =>
      rw [show m.kind = _ from h] at hkind
      exact absurd (by decide) hkind
    · rfl

theorem kind_of_function {kind : String} (h : ScopeRole.ofKind kind = .functionDeclaration) :
    kind ∈ ["function_declaration", "generator_function_declaration", "function_signature"] := by
  unfold ScopeRole.ofKind at h
  split at h <;> first | decide | cases h

theorem unwrap?_of_function (hrole : ScopeRole.ofKind d.kind = .functionDeclaration) :
    unwrap? d = some d := by
  refine unwrap?_of_plain fun hkind => ?_
  have hfunction := kind_of_function hrole
  unfold wrapperKinds at hkind
  grind

/-- A statement declares what it is, or what stands at the position of the child that it wraps. -/
theorem unwrap?_cases (hexposes : Exposes m.tree) (h : unwrap? m = some d) :
    (m.kind ∉ wrapperKinds ∧ d = m) ∨
      (m.kind ∈ wrapperKinds ∧ ∃ i c, Scope.wrapped? m.tree = some i ∧
        m.tree.children[i]? = some c ∧ c.label.named ∧ d = m.down c) := by
  rcases wrapperKinds_cases m.kind with hkind | hkind | hkind
  · rw [unwrap?_of_export hkind] at h
    have hsome : (m.tree.field? "declaration").isSome := by
      rw [← Syntax.Node.tree_field?, h]
      rfl
    obtain ⟨c, hc, hnamed⟩ := (Option.any_eq_true _ _).mp (hexposes hkind hsome)
    obtain ⟨i, hi, hchild⟩ := exists_findIdx? hc
    have hd : m.field? "declaration" = some (m.down c) := by
      unfold Syntax.Node.field?
      rw [hc]
    rw [h] at hd
    refine .inr ⟨by rw [hkind]; decide, i, c, ?_, hchild, hnamed, Option.some.inj hd⟩
    unfold Scope.wrapped?
    rw [show m.tree.kind = _ from hkind]
    exact hi
  · rw [unwrap?_of_ambient hkind] at h
    obtain ⟨c, hc, hd⟩ := Option.map_eq_some_iff.mp h
    unfold Syntax.Tree.namedChildren at hc
    rw [List.head?_filter] at hc
    obtain ⟨i, hi, hchild⟩ := exists_findIdx? hc
    refine .inr ⟨by rw [hkind]; decide, i, c, ?_, hchild, ?_, hd.symm⟩
    · unfold Scope.wrapped?
      rw [show m.tree.kind = _ from hkind]
      exact hi
    · simpa using List.find?_some hc
  · rw [unwrap?_of_plain hkind] at h
    exact .inl ⟨hkind, (Option.some.inj h).symm⟩

/-- The function of a name that a statement declares, bare or in a wrapper. -/
def functionOf? (name : String) (statement : ScopedNode) : Option ScopedNode :=
  (unwrap? statement).filter fun d =>
    ScopeRole.ofKind d.kind = .functionDeclaration ∧ d.fieldText? "name" = some name

/-- The statements of a container that declare functions of a name, with these functions. -/
def overloadSet (name : String) (container : ScopedNode) : List (ScopedNode × ScopedNode) :=
  container.namedChildren.filterMap fun c => (functionOf? name c).map (c, ·)

theorem functionOf?_eq_some :
    functionOf? name m = some d ↔ unwrap? m = some d ∧
      ScopeRole.ofKind d.kind = .functionDeclaration ∧ d.fieldText? "name" = some name := by
  unfold functionOf?
  rw [Option.filter_eq_some_iff, decide_eq_true_iff]

theorem mem_overloadSet {n : ScopedNode} {q : ScopedNode × ScopedNode}
    (h : q ∈ overloadSet name n) : q.1 ∈ n.namedChildren ∧ functionOf? name q.1 = some q.2 := by
  obtain ⟨c, hc, hq⟩ := List.mem_filterMap.mp h
  obtain ⟨d, hd, rfl⟩ := Option.map_eq_some_iff.mp hq
  exact ⟨hc, hd⟩

/-- A function has a body. -/
def HasBody (d : ScopedNode) : Prop := d.kind ≠ "function_signature"

/-- A member of an overload set and an entry in the list of functions of the container stand for the
same statement. -/
structure StandsAt (name : String) (n : ScopedNode) (p : ScopedNode × ScopedNode)
    (g : Scope.DeclaredFunction) : Prop where
  statement : ∃ c, n.tree.children[g.position]? = some c ∧ c.label.named ∧ p.1 = n.down c
  function : functionOf? name p.1 = some p.2
  body : g.hasBody = true ↔ HasBody p.2

/-- The entry that a statement has in the list of functions of a name. -/
theorem declaredFunction?_filter (name : String) (hd : unwrap? m = some d) (i : Nat) :
    (Scope.declaredFunction? m.tree i).filter (fun g => g.name == name) =
      if m.label.named ∧ ScopeRole.ofKind d.kind = .functionDeclaration ∧
          d.fieldText? "name" = some name
      then some ⟨i, name, d.kind ≠ "function_signature"⟩ else none := by
  have hunwrap : Scope.unwrap? m.tree = some d.tree := by
    rw [← tree_unwrap?, hd]
    rfl
  unfold Scope.declaredFunction?
  rw [hunwrap, Option.bind_eq_bind, Option.bind_some, fieldText?_tree]
  show Option.filter _ (if m.label.named ∧ ScopeRole.ofKind d.kind = .functionDeclaration
    then _ else _) = _
  by_cases hrole : m.label.named ∧ ScopeRole.ofKind d.kind = .functionDeclaration
  · rw [if_pos hrole]
    cases htext : d.fieldText? "name" with
    | none =>
      rw [if_neg (by simp)]
      rfl
    | some text =>
      by_cases hname : text = name
      · subst hname
        rw [if_pos ⟨hrole.1, hrole.2, rfl⟩]
        exact Option.filter_some_pos (beq_self_eq_true _)
      · rw [if_neg fun h => hname (Option.some.inj h.2.2)]
        refine Option.filter_some_neg ?_
        simpa using hname
  · rw [if_neg hrole, if_neg fun h => hrole ⟨h.1, h.2.1⟩]
    rfl

theorem standsAt_statement (name : String) (n : ScopedNode) {i : Nat}
    (hc : n.tree.children[i]? = some c) : Option.Rel (StandsAt name n)
      (if c.label.named then (functionOf? name (n.down c)).map (n.down c, ·) else none)
      ((Scope.declaredFunction? c i).filter fun g => g.name == name) := by
  cases hd : unwrap? (n.down c) with
  | none =>
    have hunwrap : Scope.unwrap? c = none := by
      rw [show Scope.unwrap? c = _ from (tree_unwrap? (n.down c)).symm, hd]
      rfl
    unfold functionOf? Scope.declaredFunction?
    rw [hd, hunwrap]
    split <;> exact .none
  | some d =>
    have hentry : (Scope.declaredFunction? c i).filter (fun g => g.name == name) =
        if c.label.named ∧ ScopeRole.ofKind d.kind = .functionDeclaration ∧
            d.fieldText? "name" = some name
        then some ⟨i, name, d.kind ≠ "function_signature"⟩ else none :=
      declaredFunction?_filter name hd i
    rw [hentry]
    by_cases h : c.label.named ∧ ScopeRole.ofKind d.kind = .functionDeclaration ∧
        d.fieldText? "name" = some name
    · have hfunction : functionOf? name (n.down c) = some d :=
        functionOf?_eq_some.mpr ⟨hd, h.2⟩
      rw [if_pos h.1, if_pos h, hfunction]
      refine .some ⟨⟨c, hc, h.1, rfl⟩, hfunction, ?_⟩
      exact decide_eq_true_iff
    · rw [if_neg h]
      split
      · next hnamed =>
        cases hfunction : functionOf? name (n.down c) with
        | none => exact .none
        | some e =>
          obtain ⟨he, hrest⟩ := functionOf?_eq_some.mp hfunction
          obtain rfl := Option.some.inj (hd.symm.trans he)
          exact absurd ⟨hnamed, hrest⟩ h
      · exact .none

theorem standsAt_overloadSet (name : String) (n : ScopedNode) : List.Forall₂ (StandsAt name n)
    (overloadSet name n) ((Scope.declaredFunctions n.tree).filter fun g => g.name == name) := by
  have hset : overloadSet name n = n.tree.children.filterMap fun c =>
      if c.label.named then (functionOf? name (n.down c)).map (n.down c, ·) else none := by
    unfold overloadSet Syntax.Node.namedChildren Syntax.Tree.namedChildren
    rw [List.filterMap_map, List.filterMap_filter]
    rfl
  have hfunctions : (Scope.declaredFunctions n.tree).filter (fun g => g.name == name) =
      n.tree.children.zipIdx.filterMap fun p =>
        (Scope.declaredFunction? p.1 p.2).filter fun g => g.name == name := by
    unfold Scope.declaredFunctions
    rw [List.filter_filterMap]
  have hpositions : List.Forall₂ (fun c p => p.1 = c ∧ n.tree.children[p.2]? = some c)
      n.tree.children n.tree.children.zipIdx := by
    nth_rewrite 2 [← List.zipIdx_map_fst 0 n.tree.children]
    rw [List.forall₂_map_left_iff, List.forall₂_same]
    exact fun p hp => ⟨rfl, List.mem_zipIdx_iff_getElem?.mp hp⟩
  rw [hset, hfunctions]
  refine List.rel_filterMap ?_ hpositions
  rintro c ⟨_, i⟩ ⟨rfl, hc⟩
  exact standsAt_statement name n hc

/-! ## Containers and wrappers in the analysis -/

/-- A container of statements: the root of a file, or a block. -/
def IsContainer (n : ScopedNode) : Prop :=
  n.kind = "statement_block" ∨ n.kind = "program" ∧ n.above = []

/-- Statements may stand below every named part of a container or of `declare`. -/
theorem admits_of_kind {p c : Syntax.Tree α} (hnamed : c.label.named)
    (hkind : p.kind ∈ ["program", "statement_block", "ambient_declaration"]) : Admits p c := by
  have hother : ∀ kind ∈ ["program", "statement_block", "ambient_declaration"],
      kind ∉ nameKinds ∧ kind ≠ "import_statement" ∧ kind ≠ "member_expression" ∧
        kind ≠ "export_statement" ∧ ScopeRole.ofKind kind ≠ .namespaceDeclaration ∧
        kind ≠ "variable_declarator" := by decide
  obtain ⟨hname, himport, haccess, hexport, hspace, hdeclarator⟩ := hother _ hkind
  exact ⟨hnamed, hname, himport, fun h => absurd h haccess, fun h => absurd h hexport,
    fun h => absurd h hspace, fun h => absurd h hdeclarator⟩

theorem admits_of_container {n : ScopedNode} (h : IsContainer n) (hnamed : c.label.named) :
    Admits n.tree c := by
  refine admits_of_kind hnamed ?_
  rcases h with hblock | ⟨hfile, -⟩
  · rw [show n.tree.kind = _ from hblock]
    decide
  · rw [show n.tree.kind = _ from hfile]
    decide

theorem admits_of_wrapper (hnamed : c.label.named) (hkind : m.kind ∈ wrapperKinds)
    (hsome : (unwrap? m).isSome) : Admits m.tree c := by
  rcases List.mem_cons.mp hkind with hexport | hambient
  · have hdeclaration : (m.tree.field? "declaration").isSome := by
      rw [← Syntax.Node.tree_field?, Option.isSome_map, ← unwrap?_of_export hexport]
      exact hsome
    have hother : "export_statement" ∉ nameKinds ∧
        ScopeRole.ofKind "export_statement" ≠ .namespaceDeclaration := by decide
    have hexport : m.tree.kind = "export_statement" := hexport
    refine ⟨hnamed, ?_, ?_, ?_, fun _ => .inl hdeclaration, ?_, ?_⟩ <;> rw [hexport]
    · exact hother.1
    · decide
    · exact fun h => absurd h (by decide)
    · exact fun h => absurd h hother.2
    · exact fun h => absurd h (by decide)
  · have hambient : m.tree.kind = "ambient_declaration" := List.mem_singleton.mp hambient
    exact admits_of_kind hnamed (by rw [hambient]; decide)

section Analysis

variable {resolve : String → QName} {module owner : QName} {t : Syntax.Tree α} {vs : List Visit}
  {n m d : ScopedNode} {s b : Syntax.Tree α} {task : Task} {frame : Frame} {taken : Taken}

/-- What the analysis does at a container. -/
theorem Met.plan_of_container (h : Met resolve (walk Extractor.all owner (analyse resolve module t))
      n s task frame taken) (hcontainer : IsContainer n) :
    ∃ inner, Plan.ofTask resolve task frame s taken = Plan.container inner s taken := by
  rcases h.visited with ⟨-, rfl⟩ | ⟨v, hv, hnode, hfollows⟩
  · exact ⟨frame, rfl⟩
  · have hblock : s.kind = "statement_block" := by
      rw [← h.kind]
      refine hcontainer.resolve_right fun hfile => above_ne_nil v hv ?_
      rw [hnode]
      exact hfile.2
    have hplan (assigned : Option Assignment) : Plan.ofNode resolve frame assigned s taken =
        Plan.container (.inside frame.owner) s taken := by
      unfold Plan.ofNode
      rw [hblock]
      rfl
    generalize v.turn = turn at hfollows
    cases hfollows with
    | skip => exact absurd rfl h.task_ne
    | visit assigned => exact ⟨_, hplan assigned⟩
    | declarator keyword =>
      unfold Plan.ofTask
      dsimp only
      rw [if_neg (by rw [hblock]; decide)]
      exact ⟨_, hplan none⟩
    | body => exact ⟨frame, rfl⟩

/-- What the analysis does with the statements of a container. -/
theorem Met.task_of_container {inner : Frame} (h : Met resolve vs n s task frame taken)
    (hplan : Plan.ofTask resolve task frame s taken = Plan.container inner s taken) {i : Nat}
    (hc : n.tree.children[i]? = some c) (hnamed : c.label.named) :
    (Plan.ofTask resolve task frame s taken).tasks[i]?.getD .skip =
      .visit (Scope.assigned? inner.owner taken n.tree i) := by
  obtain ⟨e, he, hlabel⟩ := exists_getElem?_of_labels h.annotates.labels hc
  rw [hplan]
  unfold Plan.container Scope.visitStatements Scope.assigned?
  rw [← Scope.declaredFunctions_congr h.shape]
  dsimp only
  rw [getElem?_visits he (by rw [hlabel]; exact hnamed)]
  rfl

/-- What the analysis does with the parts of a wrapper. -/
theorem Met.task_of_wrapper {assigned : Option Assignment}
    (h : Met resolve vs m b (.visit assigned) frame taken) (hkind : m.kind ∈ wrapperKinds) {i : Nat}
    (hc : m.tree.children[i]? = some c) (hnamed : c.label.named) :
    (Plan.ofTask resolve (.visit assigned) frame b taken).tasks[i]?.getD .skip =
      .visit (if Scope.wrapped? m.tree = some i then assigned else none) := by
  have hother : ∀ kind ∈ wrapperKinds, ScopeRole.ofKind kind = .other := by decide
  have hplan : Plan.ofTask resolve (.visit assigned) frame b taken =
      Plan.passThrough frame b assigned taken := by
    unfold Plan.ofTask Plan.ofNode
    rw [← h.kind, hother _ hkind]
  obtain ⟨e, he, hlabel⟩ := exists_getElem?_of_labels h.annotates.labels hc
  have hwrapped : Scope.wrapped? m.tree = Scope.wrapped? b :=
    Scope.wrapped?_congr h.kind h.annotates.labels
  rw [hplan, hwrapped]
  unfold Plan.passThrough
  rw [Scope.visitWrapped_eq, getElem?_visits he (by rw [hlabel]; exact hnamed)
    fun j => if Scope.wrapped? b = some j then assigned else none]
  rfl

end Analysis

theorem forall_mem_of_forall₂ {β γ : Type} {R : β → γ → Prop} {P : β → Prop} {Q : γ → Prop}
    (hstep : ∀ b c, R b c → Q c → P b) {bs : List β} {cs : List γ} (h : List.Forall₂ R bs cs)
    (hcs : ∀ c ∈ cs, Q c) : ∀ b ∈ bs, P b := by
  induction h with
  | nil => exact List.forall_mem_nil _
  | cons hR _ ih =>
    obtain ⟨hc, hrest⟩ := List.forall_mem_cons.mp hcs
    exact List.forall_mem_cons.mpr ⟨hstep _ _ hR hc, ih hrest⟩

theorem forall₂_split {β γ : Type} {R : β → γ → Prop} {bs : List β} {before after : List γ} {c : γ}
    (h : List.Forall₂ R bs (before ++ c :: after)) : ∃ front b rest, bs = front ++ b :: rest ∧
      List.Forall₂ R front before ∧ R b c ∧ List.Forall₂ R rest after := by
  have hfront := List.forall₂_take_append _ _ _ h
  have hrest := List.forall₂_drop_append _ _ _ h
  obtain ⟨b, rest, hb, hafter, hdrop⟩ := List.forall₂_cons_right_iff.mp hrest
  refine ⟨_, b, rest, ?_, hfront, hb, hafter⟩
  rw [← hdrop, List.take_append_drop]

section Notes

variable {resolve : String → QName} {module owner : QName} {t : Syntax.Tree α} {vs : List Visit}
  {n m d : ScopedNode} {s b : Syntax.Tree α} {frame : Frame} {taken : Taken}

/-- A function is noted as it is assigned. -/
theorem Met.note_of_function (h : Met resolve vs d b (.visit (some a)) frame taken)
    (hrole : ScopeRole.ofKind d.kind = .functionDeclaration) :
    declares? d = a.declared? ∧ overloads? d = a.overloaded? := by
  have hplan : Plan.ofTask resolve (.visit (some a)) frame b taken =
      Plan.functionDeclaration frame b (some a) taken := by
    unfold Plan.ofTask Plan.ofNode
    rw [← h.kind, hrole]
  rw [h.declares, h.overloads, hplan]
  cases a <;> exact ⟨rfl, rfl⟩

/-- A function that nothing is assigned to declares a name of its own. -/
theorem Met.note_of_unassigned (h : Met resolve vs d b (.visit none) frame taken)
    (hrole : ScopeRole.ofKind d.kind = .functionDeclaration)
    (hname : d.fieldText? "name" = some name) : (declares? d).isSome ∧ overloads? d = none := by
  have hplan : Plan.ofTask resolve (.visit none) frame b taken =
      Plan.functionDeclaration frame b none taken := by
    unfold Plan.ofTask Plan.ofNode
    rw [← h.kind, hrole]
  have htext : b.fieldText? "name" = some name := by
    rw [← Syntax.Tree.fieldText?_congr h.shape, fieldText?_tree]
    exact hname
  rw [h.declares, h.overloads, hplan]
  unfold Plan.functionDeclaration
  rw [htext]
  exact ⟨rfl, rfl⟩

/-- The function that a statement declares is noted as it is assigned to the statement. -/
theorem Met.note_of_statement
    (h : Met resolve (walk Extractor.all owner (analyse resolve module t)) m b (.visit (some a))
      frame taken) (hm : m.above ≠ []) (hexposes : Exposes m.tree) (hd : unwrap? m = some d)
    (hrole : ScopeRole.ofKind d.kind = .functionDeclaration) :
    declares? d = a.declared? ∧ overloads? d = a.overloaded? := by
  rcases unwrap?_cases hexposes hd with ⟨-, rfl⟩ | ⟨hkind, i, c, hi, hc, hnamed, rfl⟩
  · exact h.note_of_function hrole
  · have hadmits : Admits m.tree c := admits_of_wrapper hnamed hkind (by rw [hd]; rfl)
    obtain ⟨e, taken', -, -, hdown, -⟩ := h.down (fun habove => absurd habove hm) hc hadmits
    rw [h.task_of_wrapper hkind hc hnamed, if_pos hi] at hdown
    exact hdown.note_of_function hrole

/-- The members of an overload set are noted as the container has assigned them. -/
theorem Met.note_of_member {inner : Frame} {task : Task}
    (h : Met resolve (walk Extractor.all owner (analyse resolve module t)) n s task frame taken)
    (hn : n.above = [] → n = .root (analyse resolve module t)) (hcontainer : IsContainer n)
    (hplan : Plan.ofTask resolve task frame s taken = Plan.container inner s taken)
    (hexposes : ∀ c ∈ n.tree.namedChildren, Exposes c) {p : ScopedNode × ScopedNode}
    {g : Scope.DeclaredFunction} (hp : StandsAt name n p g)
    (ha : Scope.assigned? inner.owner taken n.tree g.position = some a) :
    declares? p.2 = a.declared? ∧ overloads? p.2 = a.overloaded? := by
  obtain ⟨c, hc, hnamed, hstatement⟩ := hp.statement
  have hfunction := functionOf?_eq_some.mp hp.function
  rw [hstatement] at hfunction
  obtain ⟨e, taken', he, hlabel, hdown, -⟩ := h.down hn hc (admits_of_container hcontainer hnamed)
  rw [h.task_of_container hplan hc hnamed, ha] at hdown
  exact hdown.note_of_statement (List.cons_ne_nil _ _)
    (hexposes c (List.mem_filter.mpr ⟨List.mem_of_getElem? hc, hnamed⟩)) hfunction.1 hfunction.2.1

/-- One member leads an overload set. -/
theorem Met.exists_leading_member {task : Task}
    (h : Met resolve (walk Extractor.all owner (analyse resolve module t)) n s task frame taken)
    (hn : n.above = [] → n = .root (analyse resolve module t)) (hcontainer : IsContainer n)
    (hexposes : ∀ c ∈ n.tree.namedChildren, Exposes c) (hset : overloadSet name n ≠ []) :
    ∃ fqn before lead after, overloadSet name n = before ++ lead :: after ∧
      Scope.Leads (fun q => HasBody q.2) before lead after ∧
      (declares? lead.2 = some fqn ∧ overloads? lead.2 = none) ∧
      ∀ q ∈ before ++ after, declares? q.2 = none ∧ overloads? q.2 = some fqn := by
  obtain ⟨inner, hplan⟩ := h.plan_of_container hcontainer
  have hstands := standsAt_overloadSet name n
  have hsome : ∃ f ∈ Scope.declaredFunctions n.tree, f.name = name := by
    obtain ⟨q, hq⟩ := List.exists_mem_of_ne_nil _ hset
    by_contra hnone
    have hempty : (Scope.declaredFunctions n.tree).filter (fun g => g.name == name) = [] :=
      List.filter_eq_nil_iff.mpr fun f hf hname => hnone ⟨f, hf, beq_iff_eq.mp hname⟩
    rw [hempty, List.forall₂_nil_right_iff] at hstands
    exact hset hstands
  obtain ⟨fqn, before, g, after, hsplit, hleads, hg, hothers⟩ :=
    Scope.exists_lead inner.owner taken hsome
  rw [hsplit] at hstands
  obtain ⟨front, lead, rest, hset, hfront, hlead, hrest⟩ := forall₂_split hstands
  have hother : ∀ q g, StandsAt name n q g →
      Scope.assigned? inner.owner taken n.tree g.position = some (.overloads fqn) →
      declares? q.2 = none ∧ overloads? q.2 = some fqn :=
    fun q g hq hassigned => h.note_of_member hn hcontainer hplan hexposes hq hassigned
  have hbodiless : ∀ q g, StandsAt name n q g → ¬ g.hasBody = true → ¬ HasBody q.2 :=
    fun q g hq hg hbody => hg (hq.body.mpr hbody)
  refine ⟨fqn, front, lead, rest, hset, ?_, ?_, ?_⟩
  · rcases hleads with ⟨hbody, hafter⟩ | ⟨rfl, hnone⟩
    · exact .inl ⟨hlead.body.mp hbody, forall_mem_of_forall₂ hbodiless hrest hafter⟩
    · exact .inr ⟨List.forall₂_nil_right_iff.mp hfront,
        forall_mem_of_forall₂ hbodiless (.cons hlead hrest) hnone⟩
  · exact h.note_of_member hn hcontainer hplan hexposes hlead hg
  · obtain ⟨hbefore, hafter⟩ := List.forall_mem_append.mp hothers
    exact List.forall_mem_append.mpr ⟨forall_mem_of_forall₂ hother hfront hbefore,
      forall_mem_of_forall₂ hother hrest hafter⟩

end Notes

end Extract

end CodeConcepts
