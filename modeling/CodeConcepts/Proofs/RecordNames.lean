import CodeConcepts.Proofs.WalkSteps

/-!
# Where the names of records come from

Extraction invents no names: the record of a declaration has the name that the scope analysis noted
on the node it was made from (`Made.faithful`), and every such node lies in the tree that
was walked (`tree_mem_of_mem_walk`). A file therefore identifies its records by the name of its
module and by noted names only (`mem_identities_fileModel`), and it has no record of a project.
-/

namespace CodeConcepts

variable {o : Origin} {n : ScopedNode} {table : List Extractor} {cs : List Concept}
  {t : Syntax.Tree Note} {m : Model} {fqn : QName} {c : Concept} {v : Visit}

/-- Work that may fail has a result just when its first part has one that the rest succeeds on. -/
theorem bind_eq_ok {ε α β : Type} {x : Except ε α} {f : α → Except ε β} {b : β} :
    (x >>= f) = .ok b ↔ ∃ a, x = .ok a ∧ f a = .ok b := by
  cases x with
  | error e =>
    constructor
    · intro h
      cases h
    · rintro ⟨a, ha, -⟩
      cases ha
  | ok a =>
    constructor
    · exact fun h => ⟨a, rfl, h⟩
    · rintro ⟨a', ha, h⟩
      cases ha
      exact h

theorem map_eq_ok {ε α β : Type} {x : Except ε α} {f : α → β} {b : β} :
    x.map f = .ok b ↔ ∃ a, x = .ok a ∧ f a = b := by
  cases x with
  | error e =>
    constructor
    · intro h
      cases h
    · rintro ⟨a, ha, -⟩
      cases ha
  | ok a =>
    constructor
    · intro h
      cases h
      exact ⟨a, rfl, rfl⟩
    · rintro ⟨a', ha, h⟩
      cases ha
      exact congrArg Except.ok h

namespace Extract

open ScopedNode (declares? overloads?)

/-! ## Declarations -/

theorem need_eq_ok {c : ScopedNode} {field : String} (h : need n field = .ok c) :
    n.field? field = some c := by
  unfold need at h
  split at h
  case h_1 d hd =>
    cases h
    exact hd
  case h_2 => cases h

theorem needName_eq_ok : needName n = .ok fqn ↔ declares? n = some fqn := by
  unfold needName
  cases declares? n with
  | none =>
    constructor
    · intro h
      cases h
    · intro h
      cases h
  | some m =>
    constructor
    · intro h
      cases h
      rfl
    · intro h
      cases h
      rfl

/-- A declaration that is built on the noted name of its node, and keeps it, has this name. -/
theorem declares_of_build {α β : Type} (name : α → QName) {x : Except Fault β}
    {build : β → QName → Except Fault α} {d : α}
    (h : (do let b ← x; let fqn ← needName n; build b fqn) = .ok d)
    (hbuild : ∀ b fqn, build b fqn = .ok d → name d = fqn) : declares? n = some (name d) := by
  obtain ⟨b, -, h⟩ := bind_eq_ok.mp h
  obtain ⟨fqn, hfqn, h⟩ := bind_eq_ok.mp h
  rw [hbuild b fqn h]
  exact needName_eq_ok.mp hfqn

theorem fqn_functionDecl {d : FunctionDecl} (h : functionDecl o n = .ok d) :
    declares? n = some d.fqn := by
  refine declares_of_build FunctionDecl.fqn h fun _ _ h => ?_
  obtain ⟨_, _, h⟩ := bind_eq_ok.mp h
  cases h
  rfl

theorem fqn_classDecl {d : ClassDecl} (h : classDecl o n = .ok d) : declares? n = some d.fqn := by
  refine declares_of_build ClassDecl.fqn h fun _ _ h => ?_
  obtain ⟨_, _, h⟩ := bind_eq_ok.mp h
  cases h
  rfl

theorem fqn_interfaceDecl {d : InterfaceDecl} (h : interfaceDecl o n = .ok d) :
    declares? n = some d.fqn := by
  refine declares_of_build InterfaceDecl.fqn h fun _ _ h => ?_
  cases h
  rfl

theorem fqn_typeAliasDecl {d : TypeAliasDecl} (h : typeAliasDecl o n = .ok d) :
    declares? n = some d.fqn := by
  refine declares_of_build TypeAliasDecl.fqn h fun _ _ h => ?_
  obtain ⟨_, _, h⟩ := bind_eq_ok.mp h
  cases h
  rfl

theorem fqn_enumDecl {d : EnumDecl} (h : enumDecl o n = .ok d) : declares? n = some d.fqn := by
  refine declares_of_build EnumDecl.fqn h fun _ _ h => ?_
  obtain ⟨_, _, h⟩ := bind_eq_ok.mp h
  cases h
  rfl

theorem fqn_variableDecl {kind : VariableKind} {d : VariableDecl}
    (h : variableDecl o kind fqn n = .ok d) : d.fqn = fqn := by
  unfold variableDecl at h
  obtain ⟨_, _, h⟩ := bind_eq_ok.mp h
  cases h
  rfl

/-! ## Concepts of a node -/

/-- A concept is faithful to a node if it is no project, and if the name that identifies it, where
there is one, is noted on the node. -/
def Faithful (n : ScopedNode) (c : Concept) : Prop :=
  c.kind ≠ .project ∧ ∀ x, c.kind.fqn? c.record = some x → declares? n = some x

/-- A concept that is no project and that no name identifies. -/
def Anonymous (c : Concept) : Prop := c.kind ≠ .project ∧ c.kind.fqn? c.record = none

theorem Anonymous.faithful (h : Anonymous c) (n : ScopedNode) : Faithful n c := by
  refine ⟨h.1, fun x hx => ?_⟩
  rw [h.2] at hx
  cases hx

/-- An edge from the owner to another name. -/
def Refers (owner : QName) (c : Concept) : Prop :=
  ∃ e : Edge, c = ⟨.edge, e⟩ ∧ e.source = owner ∧ e.target ≠ owner

theorem refers_of_mem_depend {owner target : QName} {kind : ReferenceKind}
    (hc : c ∈ (depend owner target kind).map (Concept.mk .edge)) : Refers owner c := by
  unfold depend at hc
  split at hc
  · cases hc
  · next hne => exact ⟨_, List.mem_singleton.mp hc, rfl, Ne.symm hne⟩

/-- An import statement makes references and imports. -/
theorem mem_importConcepts {owner : QName} (h : importConcepts o owner n = .ok cs) (hc : c ∈ cs) :
    Refers owner c ∨ ∃ d : ImportDecl, c = ⟨.import, d⟩ := by
  have hbinding {specifier : String} {b : ImportBinding}
      (hc : c ∈ bindingConcepts o owner specifier b) :
      Refers owner c ∨ ∃ d : ImportDecl, c = ⟨.import, d⟩ :=
    (List.mem_append.mp hc).imp refers_of_mem_depend fun hc => ⟨_, List.mem_singleton.mp hc⟩
  unfold importConcepts at h
  dsimp only at h
  split at h
  · obtain ⟨_, _, h⟩ := bind_eq_ok.mp h
    cases h
    exact hbinding hc
  · obtain ⟨_, _, h⟩ := bind_eq_ok.mp h
    split at h
    · cases h
      exact .inl (refers_of_mem_depend hc)
    · cases h
      obtain ⟨b, -, hc⟩ := List.mem_flatMap.mp hc
      exact hbinding hc

/-- An export statement makes references, and exports from the module of the file. -/
theorem mem_exportConcepts {owner : QName} (hc : c ∈ exportConcepts o owner n) :
    Refers owner c ∨ ∃ d : ExportDecl, c = ⟨.export, d⟩ ∧ d.exporter = o.module := by
  unfold exportConcepts at hc
  split at hc
  · obtain ⟨d, -, rfl⟩ := List.mem_map.mp hc
    exact .inr ⟨_, rfl, rfl⟩
  · split at hc
    · exact .inr ⟨_, List.mem_singleton.mp hc, rfl⟩
    · dsimp only at hc
      split at hc
      · obtain ⟨specifier, -, hc⟩ := List.mem_flatMap.mp hc
        unfold specifierConcepts at hc
        split at hc
        · cases hc
        · rcases List.mem_append.mp hc with hc | hc
          · -- only names exported from elsewhere are referred to
            split at hc
            · exact .inl (refers_of_mem_depend hc)
            · cases hc
          · exact .inr ⟨_, List.mem_singleton.mp hc, rfl⟩
      · split at hc
        · exact (List.mem_append.mp hc).imp refers_of_mem_depend
            fun hc => ⟨_, List.mem_singleton.mp hc, rfl⟩
        · cases hc

/-- What extraction makes at a node: the record of the declaration that the node is, or a concept
that no name identifies. -/
inductive Made (o : Origin) (n : ScopedNode) : Concept → Prop
  | anonymous {c : Concept} : Anonymous c → Made o n c
  | function {d : FunctionDecl} : functionDecl o n = .ok d → Made o n ⟨.function, d⟩
  | classDeclaration {d : ClassDecl} : classDecl o n = .ok d → Made o n ⟨.classDeclaration, d⟩
  | interface {d : InterfaceDecl} : interfaceDecl o n = .ok d → Made o n ⟨.interface, d⟩
  | typeAlias {d : TypeAliasDecl} : typeAliasDecl o n = .ok d → Made o n ⟨.typeAlias, d⟩
  | enum {d : EnumDecl} : enumDecl o n = .ok d → Made o n ⟨.enum, d⟩
  | declarator {kind : VariableKind} {fqn : QName} {d : VariableDecl} : declares? n = some fqn →
      variableDecl o kind fqn n = .ok d → Made o n ⟨.variable, d⟩

theorem Made.faithful {o : Origin} {n : ScopedNode} {c : Concept} (h : Made o n c) :
    Faithful n c := by
  cases h with
  | anonymous h => exact h.faithful n
  | function hd => exact ⟨nofun, fun _ hx => Option.some.inj hx ▸ fqn_functionDecl hd⟩
  | classDeclaration hd => exact ⟨nofun, fun _ hx => Option.some.inj hx ▸ fqn_classDecl hd⟩
  | interface hd => exact ⟨nofun, fun _ hx => Option.some.inj hx ▸ fqn_interfaceDecl hd⟩
  | typeAlias hd => exact ⟨nofun, fun _ hx => Option.some.inj hx ▸ fqn_typeAliasDecl hd⟩
  | enum hd => exact ⟨nofun, fun _ hx => Option.some.inj hx ▸ fqn_enumDecl hd⟩
  | declarator hdeclares hd =>
    -- the declarator that is visited is the node the name is noted on
    rw [← fqn_variableDecl hd] at hdeclares
    exact ⟨nofun, fun _ hx => Option.some.inj hx ▸ hdeclares⟩

/-- The kind of the identified records made for nodes in a role. -/
def Role.declares? : Role → Option Kind
  | .function => some .function
  | .classDeclaration => some .classDeclaration
  | .interface => some .interface
  | .typeAlias => some .typeAlias
  | .enum => some .enum
  | _ => none

/-- Below a declaration the owner is the name that it has been given, elsewhere it stays. -/
theorem Role.owner_descent (r : Role) (owner : QName) (n : ScopedNode) :
    (r.descent owner n).owner =
      if r = .function then ownerWithin owner n
      else if r = .member ∨ r.declares?.isSome then (ScopedNode.declares? n).getD owner
      else owner := by
  cases r with
  | «export» | memberAccess =>
    unfold Role.descent
    dsimp only
    split <;> rfl
  | «namespace» =>
    unfold Role.descent Descent.body
    dsimp only
    split <;> rfl
  | _ => rfl

/-- What is made of a node in a role: all records and edges of a statement, the record of a
declaration, nothing for a further overload, or at most one edge. -/
inductive Role.Yields (o : Origin) (owner : QName) (n : ScopedNode) : Role → List Concept → Prop
  | import {cs : List Concept} : importConcepts o owner n = .ok cs → Yields o owner n .import cs
  | export : Yields o owner n .export (exportConcepts o owner n)
  | declaration {r : Role} {k : Kind} {d : k.Record} {f : QName} : r.declares? = some k →
      Made o n ⟨k, d⟩ → k.fqn? d = some f → ScopedNode.declares? n = some f →
      Yields o owner n r [⟨k, d⟩]
  | overload : (overloads? n).isSome → Yields o owner n .function []
  | reference {r : Role} (target : QName) (kind : ReferenceKind) : r.declares? = none →
      Yields o owner n r ((depend owner target kind).map (Concept.mk .edge))
  | nothing {r : Role} : r.declares? = none → Yields o owner n r []

theorem Role.yields {r : Role} {owner : QName} (h : r.concepts o owner n = .ok cs) :
    r.Yields o owner n cs := by
  have hrecord (k : Kind) {x : Except Fault k.Record} (name : k.Record → QName)
      (hr : r.declares? = some k) (h : (x.map fun d => [⟨k, d⟩]) = .ok cs)
      (hx : ∀ d, x = .ok d → Made o n ⟨k, d⟩ ∧ k.fqn? d = some (name d) ∧
        ScopedNode.declares? n = some (name d)) : r.Yields o owner n cs := by
    obtain ⟨d, hd, rfl⟩ := map_eq_ok.mp h
    obtain ⟨hmade, hname, hdeclares⟩ := hx d hd
    exact .declaration hr hmade hname hdeclares
  cases r with
  | «import» => exact .import h
  | «export» =>
    cases h
    exact .export
  | function =>
    unfold Role.concepts at h
    dsimp only at h
    split at h
    · next hoverload =>
      cases h
      exact .overload hoverload
    · exact hrecord .function FunctionDecl.fqn rfl h
        fun d hd => ⟨.function hd, rfl, fqn_functionDecl hd⟩
  | classDeclaration =>
    exact hrecord .classDeclaration ClassDecl.fqn rfl h
      fun d hd => ⟨.classDeclaration hd, rfl, fqn_classDecl hd⟩
  | interface =>
    exact hrecord .interface InterfaceDecl.fqn rfl h
      fun d hd => ⟨.interface hd, rfl, fqn_interfaceDecl hd⟩
  | typeAlias =>
    exact hrecord .typeAlias TypeAliasDecl.fqn rfl h
      fun d hd => ⟨.typeAlias hd, rfl, fqn_typeAliasDecl hd⟩
  | enum => exact hrecord .enum EnumDecl.fqn rfl h fun d hd => ⟨.enum hd, rfl, fqn_enumDecl hd⟩
  | identifier =>
    cases h
    unfold identifierEdges
    split
    · exact .nothing rfl
    · split
      · exact .reference _ _ rfl
      · exact .nothing rfl
  | typeIdentifier =>
    cases h
    unfold typeIdentifierEdges
    split
    · exact .nothing rfl
    · split
      · exact .reference _ _ rfl
      · exact .nothing rfl
  | memberAccess =>
    cases h
    unfold memberAccessEdges
    split
    · exact .reference _ _ rfl
    · exact .nothing rfl
  | nestedType =>
    cases h
    exact .reference _ _ rfl
  | member | variableStatement | «namespace» | closingTag => cases h; exact .nothing rfl

/-- What a single concept of a node in a role is. -/
inductive Role.Makes (o : Origin) (owner : QName) (n : ScopedNode) : Role → Concept → Prop
  | edge {r : Role} {c : Concept} : r.declares? = none → Refers owner c → Makes o owner n r c
  | import (d : ImportDecl) : Makes o owner n .import ⟨.import, d⟩
  | export {d : ExportDecl} : d.exporter = o.module → Makes o owner n .export ⟨.export, d⟩
  | declaration {r : Role} {k : Kind} {d : k.Record} : r.declares? = some k → Made o n ⟨k, d⟩ →
      Makes o owner n r ⟨k, d⟩

theorem Role.makes {r : Role} {owner : QName} (h : r.concepts o owner n = .ok cs) (hc : c ∈ cs) :
    r.Makes o owner n c := by
  cases Role.yields h with
  | «import» h =>
    rcases mem_importConcepts h hc with href | ⟨d, rfl⟩
    · exact .edge rfl href
    · exact .import d
  | «export» =>
    rcases mem_exportConcepts hc with href | ⟨d, rfl, hd⟩
    · exact .edge rfl href
    · exact .export hd
  | declaration hr hmade =>
    cases List.mem_singleton.mp hc
    exact .declaration hr hmade
  | overload => cases hc
  | reference _ _ hr => exact .edge hr (refers_of_mem_depend hc)
  | nothing => cases hc

theorem Refers.anonymous {owner : QName} (h : Refers owner c) : Anonymous c := by
  obtain ⟨e, rfl, -⟩ := h
  exact ⟨nofun, rfl⟩

theorem Role.Makes.made {r : Role} {owner : QName} (h : r.Makes o owner n c) : Made o n c := by
  cases h with
  | edge _ href => exact .anonymous href.anonymous
  | «import» d | «export» _ => exact .anonymous ⟨nofun, rfl⟩
  | declaration _ hmade => exact hmade

theorem Visit.declaredVariable?_eq_some {kind : VariableKind}
    (h : v.declaredVariable? = some (kind, fqn)) :
    v.declarator.isSome ∧ declares? v.node = some fqn := by
  unfold Visit.declaredVariable? at h
  split at h
  · next hdeclarator hdeclares =>
    cases h
    rw [hdeclarator]
    exact ⟨rfl, hdeclares⟩
  · cases h

/-- A concept of a visit is the record of a variable, or is made in the role of the node. -/
inductive Visit.Makes (o : Origin) (v : Visit) : Concept → Prop
  | variable {kind : VariableKind} {fqn : QName} {d : VariableDecl} :
      v.declaredVariable? = some (kind, fqn) → variableDecl o kind fqn v.node = .ok d →
      Makes o v ⟨.variable, d⟩
  | role {r : Role} {c : Concept} : v.declaredVariable? = none →
      Role.ofKind? v.node.kind = some r → r.Makes o v.owner v.node c → Makes o v c

theorem Visit.makes (h : v.concepts table o = .ok cs) (hc : c ∈ cs) : v.Makes o c := by
  unfold Visit.concepts at h
  split at h
  · next hvariable =>
    obtain ⟨d, hd, rfl⟩ := map_eq_ok.mp h
    cases List.mem_singleton.mp hc
    exact .variable hvariable hd
  · next hvariable =>
    split at h
    · next hrole =>
      exact .role hvariable (Option.filter_eq_some_iff.mp hrole).1 (Role.makes h hc)
    · cases h
      cases hc

theorem Visit.made_concepts (h : v.concepts table o = .ok cs) : ∀ c ∈ cs, Made o v.node c := by
  intro c hc
  cases v.makes h hc with
  | «variable» hvariable hd => exact .declarator (declaredVariable?_eq_some hvariable).2 hd
  | role _ _ hmakes => exact hmakes.made

/-- The concepts of a list of visits are those of each of them. -/
theorem conceptsOf_eq_ok {vs : List Visit} (h : conceptsOf table o vs = .ok cs) :
    ∃ made, (∀ v ∈ vs, v.concepts table o = .ok (made v)) ∧ cs = vs.flatMap made := by
  refine ⟨fun v => (v.concepts table o).toOption.getD [], ?_⟩
  induction vs generalizing cs with
  | nil =>
    cases h
    exact ⟨List.forall_mem_nil _, rfl⟩
  | cons v vs ih =>
    rw [conceptsOf] at h
    split at h
    · cases h
    · next first hfirst =>
      split at h
      · cases h
      · next rest hrest =>
        cases h
        obtain ⟨hall, rfl⟩ := ih hrest
        rw [List.forall_mem_cons, List.flatMap_cons]
        dsimp only
        rw [hfirst]
        exact ⟨⟨rfl, hall⟩, rfl⟩

theorem exists_concepts_of_mem {vs : List Visit} (h : conceptsOf table o vs = .ok cs)
    (hc : c ∈ cs) : ∃ v ∈ vs, ∃ made, v.concepts table o = .ok made ∧ c ∈ made := by
  obtain ⟨made, hmade, rfl⟩ := conceptsOf_eq_ok h
  obtain ⟨v, hv, hc⟩ := List.mem_flatMap.mp hc
  exact ⟨v, hv, made v, hmade v hv, hc⟩

/-- Every concept of a list of visits is made at one of them. -/
theorem exists_made_of_mem {vs : List Visit} (h : conceptsOf table o vs = .ok cs) (hc : c ∈ cs) :
    ∃ v ∈ vs, Made o v.node c := by
  obtain ⟨v, hv, made, hmade, hc⟩ := exists_concepts_of_mem h hc
  exact ⟨v, hv, v.made_concepts hmade c hc⟩

/-! ## The model of a file -/

theorem mem_get_ofConcepts {k : Kind} {r : k.Record} :
    r ∈ (Model.ofConcepts cs).get k ↔ (⟨k, r⟩ : Concept) ∈ cs := by
  unfold Model.ofConcepts
  rw [Model.get_ofFn, List.mem_filterMap]
  constructor
  · rintro ⟨⟨l, s⟩, hc, h⟩
    unfold Concept.as? at h
    split at h
    · next hl =>
      cases hl
      cases h
      exact hc
    · cases h
  · intro h
    exact ⟨_, h, by simp [Concept.as?]⟩

theorem fileModel_eq_ok (h : fileModel table o t = .ok m) :
    ∃ cs, conceptsOf table o (walk table o.module t) = .ok cs ∧
      m = .ofConcepts (⟨.module, ⟨o.module, o.path⟩⟩ :: cs) := by
  unfold fileModel at h
  split at h
  · cases h
  · split at h
    · cases h
    · next cs hcs =>
      cases h
      exact ⟨cs, hcs, rfl⟩

theorem projects_fileModel (h : fileModel table o t = .ok m) : m.projects = [] := by
  obtain ⟨cs, hcs, rfl⟩ := fileModel_eq_ok h
  refine List.eq_nil_iff_forall_not_mem.mpr fun p hp => ?_
  have hp : p ∈ (Model.ofConcepts (⟨.module, ⟨o.module, o.path⟩⟩ :: cs)).get .project := hp
  rw [mem_get_ofConcepts] at hp
  rcases List.mem_cons.mp hp with hp | hp
  · cases hp
  · obtain ⟨v, -, hmade⟩ := exists_made_of_mem hcs hp
    exact hmade.faithful.1 rfl

/-- The only module in the model of a file is its own. -/
theorem modules_fileModel (h : fileModel table o t = .ok m) : m.modules = [⟨o.module, o.path⟩] := by
  obtain ⟨cs, hcs, rfl⟩ := fileModel_eq_ok h
  have hnone : (Model.ofConcepts cs).get .module = [] := by
    refine List.eq_nil_iff_forall_not_mem.mpr fun r hr => ?_
    obtain ⟨v, -, hmade⟩ := exists_made_of_mem hcs (mem_get_ofConcepts.mp hr)
    cases hmade with
    | anonymous h => cases h.2
  show (Model.ofConcepts (⟨.module, ⟨o.module, o.path⟩⟩ :: cs)).get .module = _
  unfold Model.ofConcepts at hnone ⊢
  rw [Model.get_ofFn] at hnone ⊢
  rw [List.filterMap_cons, hnone]
  rfl

/-- The records of a file are identified by the name of its module or by a name noted in its
tree. -/
theorem mem_identities_fileModel (h : fileModel table o t = .ok m) {k : Kind} {x : QName}
    (hx : x ∈ m.identities k) : x = o.module ∨ ∃ u ∈ t.subtrees, u.note.declares = some x := by
  obtain ⟨cs, hcs, rfl⟩ := fileModel_eq_ok h
  obtain ⟨r, hr, hname⟩ := List.mem_filterMap.mp hx
  rw [mem_get_ofConcepts] at hr
  rcases List.mem_cons.mp hr with hr | hr
  · cases hr
    cases hname
    exact .inl rfl
  · obtain ⟨v, hv, hmade⟩ := exists_made_of_mem hcs hr
    exact .inr ⟨v.node.tree, tree_mem_of_mem_walk hv, hmade.faithful.2 x hname⟩

end Extract

end CodeConcepts
