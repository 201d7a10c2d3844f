import CodeConcepts.Proofs.StatementPaths

/-!
# Imports bind what they record

An import statement is read twice. The scope analysis enters the names it binds into the scope
around it; the extraction makes a record for each of them, with an edge to what the name stands for.
Both take the statement apart on their own, and for statements of the two forms that the grammar has
(`ImportFormed`) they come to the same result: the entries are those that the records call for, in
their order (`entries_of_concepts`). So a name that an import binds, where no scope further inside
and no earlier entry has it, means the target of the record.
-/

namespace CodeConcepts

variable {α : Type} {n : ScopedNode}

/-! ## Statements of the grammar's forms -/

/-- Whether a text starts with a quote. -/
def Text.isQuoted (s : String) : Bool :=
  match s.toList with
  | '"' :: _ => true
  | '\'' :: _ => true
  | _ => false

theorem Text.plainName_of_not_isQuoted {s : String} (h : ¬ Text.isQuoted s = true) :
    Text.plainName s = s := by
  unfold Text.isQuoted at h
  unfold Text.plainName
  split
  · next hs =>
    rw [hs] at h
    exact absurd rfl h
  · next hs =>
    rw [hs] at h
    exact absurd rfl h
  · rfl

/-- A part of an import clause that binds a whole module names it, and one that binds names gives an
alias to those that are quoted. -/
@[mk_iff]
structure ImportPartFormed (part : Syntax.Tree α) : Prop where
  whole : part.kind = "namespace_import" → part.namedChildren ≠ []
  listed : part.kind = "named_imports" → ∀ specifier ∈ part.namedChildren,
    ∀ name ∈ specifier.fieldText? "name",
      (specifier.fieldText? "alias").isSome ∨ ¬ Text.isQuoted name = true

instance (part : Syntax.Tree α) : Decidable (ImportPartFormed part) :=
  decidable_of_iff _ (importPartFormed_iff part).symm

/-- The forms of import statements: `import … from "m"`, with any number of parts, and
`import x = require("m")`. -/
inductive ImportFormed (t : Syntax.Tree α) : Prop
  | clauses : (t.field? "source").isSome →
      (∀ c ∈ t.namedChildren, c.kind ≠ "import_require_clause") →
      (∀ c ∈ t.namedChildren, c.kind = "import_clause" → ∀ part ∈ c.namedChildren,
        ImportPartFormed part) → ImportFormed t
  | require (clause : Syntax.Tree α) : t.field? "source" = none →
      t.namedChildren.filter (·.kind == "import_require_clause") = [clause] →
      clause.namedChildren ≠ [] → (clause.field? "source").isSome → ImportFormed t

/-! ## The entries that records call for -/

/-- The name that an import binds: its alias, if it has one. -/
def ImportDecl.localName (d : ImportDecl) : String := d.aliasName.getD d.importedName

/-- What an imported name stands for: a module that is imported as a whole is a namespace, anything
else is a declaration. -/
def ImportDecl.meaning (resolve : String → QName) (d : ImportDecl) : Meaning :=
  if d.target = resolve d.source then .space d.target else .declaration d.target

/-- What an import enters into a scope, as a value and as a type. -/
def ImportDecl.entries (resolve : String → QName) (d : ImportDecl) : Scope :=
  Scope.both d.localName (d.meaning resolve)

theorem ImportDecl.path?_meaning (resolve : String → QName) (d : ImportDecl) :
    (d.meaning resolve).path? = some d.target := by
  unfold ImportDecl.meaning
  split <;> rfl

theorem QName.child_ne (n : QName) (name : String) : n.child name ≠ n := by
  intro h
  have hlength := congrArg (fun m => m.text.toList.length) h
  simp only [QName.child, String.toList_append, List.length_append] at hlength
  have hdot : (".".toList).length = 1 := rfl
  omega

/-! ## Lookup -/

namespace Scope

variable {space : Space} {name : String}

theorem find?_append (s u : Scope) :
    find? (s ++ u) space name = (find? s space name).or (find? u space name) := by
  unfold find?
  rw [List.find?_append, Option.map_or]

theorem find?_both_self (m : Meaning) : find? (both name m) space name = some m := by
  cases space <;> simp [find?, both]

theorem find?_both_of_ne {other : String} (h : other ≠ name) (m : Meaning) :
    find? (both other m) space name = none := by
  simp [find?, both, h]

/-- Among the entries that import records call for, those of the first record of a name count. -/
theorem find?_imports {resolve : String → QName} {earlier later : List ImportDecl} {d : ImportDecl}
    (h : ∀ e ∈ earlier, e.localName ≠ d.localName) :
    find? ((earlier ++ d :: later).flatMap (ImportDecl.entries resolve)) space d.localName =
      some (d.meaning resolve) := by
  induction earlier with
  | nil =>
    rw [List.nil_append, List.flatMap_cons, find?_append]
    unfold ImportDecl.entries
    rw [find?_both_self]
    rfl
  | cons e earlier ih =>
    obtain ⟨he, hrest⟩ := List.forall_mem_cons.mp h
    rw [List.cons_append, List.flatMap_cons, find?_append, ih hrest]
    unfold ImportDecl.entries
    rw [find?_both_of_ne he]
    rfl

end Scope

namespace ScopedNode

variable {x : ScopedNode} {space : Space} {m : Meaning}

/-- The innermost scope with an entry counts. -/
theorem lookup?_of_near {near outer : List (Syntax.Tree Note)} {u : Syntax.Tree Note}
    {name : String} (hx : x.tree :: x.above = near ++ u :: outer)
    (hnear : ∀ w ∈ near, w.note.scope.find? space name = none)
    (hu : u.note.scope.find? space name = some m) : lookup? x space name = some m := by
  unfold lookup?
  rw [hx, List.findSome?_append, List.findSome?_eq_none_iff.mpr hnear, Option.none_or,
    List.findSome?_cons, hu]

theorem resolve_of_path? {f : QName} (h : lookup? x space x.text = some m)
    (hpath : m.path? = some f) : resolve space x = .declaration f := by
  unfold resolve
  rw [h]
  cases m with
  | declaration g | space g => exact congrArg _ (Option.some.inj hpath)
  | localVariable | typeParameter => cases hpath

theorem resolveMember?_of_space {f : QName} (hkind : x.kind = "identifier")
    (h : lookup? x .value x.text = some (.space f)) (member : String) :
    resolveMember? x member = some (f.child member) := by
  unfold resolveMember? namespace?
  rw [if_pos hkind, List.findSome?_cons, h]
  rfl

end ScopedNode

/-! ## The parts of a statement -/

namespace Extract

/-- The record of a bound name. -/
def ImportBinding.decl (o : Origin) (specifier : String) (b : ImportBinding) : ImportDecl where
  importer := o.module
  source := specifier
  importedName := b.importedName
  aliasName := b.aliasName
  target := b.target
  typeOnly := b.typeOnly

/-- What a binding enters into a scope. -/
def ImportBinding.entries (o : Origin) (specifier : String) (b : ImportBinding) : Scope :=
  (b.decl o specifier).entries o.resolve

section Bindings

variable {o : Origin} {specifier : String} {typeOnly : Bool}

/-- A name of a module is not the module. -/
theorem ImportBinding.entries_child (imported name : String) (aliasName : Option String) :
    ImportBinding.entries o specifier
      ⟨imported, aliasName, (o.resolve specifier).child name, typeOnly⟩ =
      Scope.both (aliasName.getD imported)
        (.declaration ((o.resolve specifier).child name)) := by
  unfold ImportBinding.entries ImportDecl.entries ImportDecl.meaning ImportBinding.decl
  rw [if_neg (QName.child_ne _ name)]
  rfl

theorem ImportBinding.entries_whole (name : String) :
    ImportBinding.entries o specifier ⟨"*", some name, o.resolve specifier, typeOnly⟩ =
      Scope.both name (.space (o.resolve specifier)) := by
  unfold ImportBinding.entries ImportDecl.entries ImportDecl.meaning ImportBinding.decl
  rw [if_pos rfl]
  rfl

theorem head?_namedChildren (n : ScopedNode) :
    (n.namedChild? 0).map (·.text) = (n.tree.namedChildren.head?).map (·.text) := by
  unfold Syntax.Node.namedChild? Syntax.Node.namedChildren
  rw [List.getElem?_map, ← List.head?_eq_getElem?, Option.map_map]
  rfl

/-- One entry of a braced list. -/
theorem entries_namedBinding? {s : ScopedNode}
    (h : ∀ name ∈ s.tree.fieldText? "name",
      (s.tree.fieldText? "alias").isSome ∨ ¬ Text.isQuoted name = true) :
    (namedBinding? (o.resolve specifier) typeOnly s).toList.flatMap
        (ImportBinding.entries o specifier) =
      match s.tree.fieldText? "name" with
      | none => []
      | some name => Scope.both ((s.tree.fieldText? "alias").getD name)
          (.declaration ((o.resolve specifier).child (Text.plainName name))) := by
  unfold namedBinding?
  rw [← fieldText?_tree, ← fieldText?_tree]
  cases hname : s.tree.fieldText? "name" with
  | none => rfl
  | some name =>
    rw [Option.map_some, Option.toList_some, List.flatMap_singleton,
      ImportBinding.entries_child]
    -- a name that is kept without an alias is not quoted
    have hlocal : (s.tree.fieldText? "alias").getD (Text.plainName name) =
        (s.tree.fieldText? "alias").getD name := by
      cases halias : s.tree.fieldText? "alias" with
      | some a => rfl
      | none =>
        have hplain := (h name hname).resolve_left (by rw [halias]; exact Bool.noConfusion)
        rw [Text.plainName_of_not_isQuoted hplain]
    rw [hlocal]

theorem flatMap_filterMap {β γ δ : Type} (f : β → Option γ) (g : γ → List δ) (xs : List β) :
    (xs.filterMap f).flatMap g = xs.flatMap fun x => (f x).toList.flatMap g := by
  induction xs with
  | nil => rfl
  | cons x xs ih =>
    rw [List.filterMap_cons, List.flatMap_cons, ← ih]
    cases f x with
    | none => rfl
    | some y => rw [Option.toList_some, List.flatMap_singleton, List.flatMap_cons]

theorem partBindings_of_other {module : QName} {part : ScopedNode}
    (hdefault : part.kind ≠ "identifier") (hwhole : part.kind ≠ "namespace_import")
    (hlisted : part.kind ≠ "named_imports") :
    partBindings module typeOnly part = [] ∧ Scope.ofImportPart module part.tree = [] := by
  constructor
  · unfold partBindings
    split
    · next hkind => exact absurd hkind hdefault
    · next hkind => exact absurd hkind hwhole
    · next hkind => exact absurd hkind hlisted
    · rfl
  · unfold Scope.ofImportPart
    split
    · next hkind => exact absurd hkind hdefault
    · next hkind => exact absurd hkind hwhole
    · next hkind => exact absurd hkind hlisted
    · rfl

theorem entries_partBindings {part : ScopedNode} (h : ImportPartFormed part.tree) :
    (partBindings (o.resolve specifier) typeOnly part).flatMap (ImportBinding.entries o specifier) =
      Scope.ofImportPart (o.resolve specifier) part.tree := by
  by_cases hdefault : part.kind = "identifier"
  · unfold partBindings Scope.ofImportPart
    rw [show part.tree.kind = part.kind from rfl, hdefault]
    show List.flatMap _ [_] = _
    rw [List.flatMap_singleton, ImportBinding.entries_child]
    rfl
  by_cases hwhole : part.kind = "namespace_import"
  · unfold partBindings Scope.ofImportPart
    rw [show part.tree.kind = part.kind from rfl, hwhole]
    show List.flatMap _ [_] = _
    rw [List.flatMap_singleton, head?_namedChildren]
    cases hhead : part.tree.namedChildren.head? with
    | none => exact absurd (List.head?_eq_none_iff.mp hhead) (h.whole hwhole)
    | some n => exact ImportBinding.entries_whole n.text
  by_cases hlisted : part.kind = "named_imports"
  · unfold partBindings Scope.ofImportPart
    rw [show part.tree.kind = part.kind from rfl, hlisted]
    show List.flatMap _ (List.filterMap _ _) = _
    rw [flatMap_filterMap]
    unfold Syntax.Node.namedChildren
    rw [List.flatMap_map]
    refine List.flatMap_congr fun s hs => ?_
    exact entries_namedBinding? (s := part.down s) (h.listed hlisted s hs)
  · obtain ⟨hbindings, hentries⟩ := partBindings_of_other hdefault hwhole hlisted
    rw [hbindings, hentries]
    rfl

theorem entries_clauseBindings
    (h : ∀ c ∈ n.tree.namedChildren, c.kind = "import_clause" → ∀ part ∈ c.namedChildren,
      ImportPartFormed part) :
    (clauseBindings (o.resolve specifier) typeOnly n).flatMap (ImportBinding.entries o specifier) =
      (n.tree.namedChildren.filter (·.kind == "import_clause")).flatMap fun clause =>
        clause.namedChildren.flatMap (Scope.ofImportPart (o.resolve specifier)) := by
  unfold clauseBindings Syntax.Node.namedChildren
  rw [List.filter_map, List.flatMap_map, List.flatMap_assoc]
  refine List.flatMap_congr fun c hc => ?_
  obtain ⟨hmem, hkind⟩ := List.mem_filter.mp hc
  rw [List.flatMap_map, List.flatMap_assoc]
  refine List.flatMap_congr fun part hpart => ?_
  have hpart : ImportPartFormed ((n.down c).down part).tree :=
    h c hmem (beq_iff_eq.mp hkind) part hpart
  exact entries_partBindings hpart

end Bindings

/-! ## The concepts of an import statement -/

section Concepts

variable {o : Origin} {owner : QName} {specifier : String}

theorem imports_bindingConcepts (b : ImportBinding) :
    (bindingConcepts o owner specifier b).filterMap (·.as? .import) = [b.decl o specifier] := by
  unfold bindingConcepts
  rw [List.filterMap_append, filterMap_as?_of_ne (by decide), List.nil_append]
  exact filterMap_as?_self (k := .import) [b.decl o specifier]

theorem edges_bindingConcepts (b : ImportBinding) :
    (bindingConcepts o owner specifier b).filterMap (·.as? .edge) =
      depend owner b.target .import := by
  unfold bindingConcepts
  rw [List.filterMap_append, filterMap_as?_self]
  have hrecord := filterMap_as?_of_ne (k := .edge) (l := .import) (by decide) [b.decl o specifier]
  exact (congrArg (depend owner b.target .import ++ ·) hrecord).trans (List.append_nil _)

/-- The edges and records of an import statement go with each other, and the entries that the
records call for are given. -/
structure ImportConcepts (o : Origin) (owner : QName) (entries : Scope) (cs : List Concept) :
    Prop where
  entries : (cs.filterMap (·.as? .import)).flatMap (ImportDecl.entries o.resolve) = entries
  edges : ∀ d ∈ cs.filterMap (·.as? .import), d.target ≠ owner →
    ⟨owner, d.target, .import⟩ ∈ cs.filterMap (·.as? .edge)

theorem importConcepts_of_bindings (bs : List ImportBinding) : ImportConcepts o owner
    (bs.flatMap (ImportBinding.entries o specifier))
    (bs.flatMap (bindingConcepts o owner specifier)) where
  entries := by
    rw [List.filterMap_flatMap, List.flatMap_assoc]
    refine List.flatMap_congr fun b _ => ?_
    rw [imports_bindingConcepts, List.flatMap_singleton]
    rfl
  edges := by
    intro d hd hne
    rw [List.filterMap_flatMap] at hd ⊢
    obtain ⟨b, hb, hd⟩ := List.mem_flatMap.mp hd
    rw [imports_bindingConcepts] at hd
    obtain rfl := List.mem_singleton.mp hd
    refine List.mem_flatMap.mpr ⟨b, hb, ?_⟩
    rw [edges_bindingConcepts]
    unfold depend
    rw [if_neg fun h => hne h.symm]
    exact List.mem_singleton_self _

theorem need_of_field? {c : ScopedNode} {field : String} (h : n.field? field = some c) :
    need n field = .ok c := by
  unfold need
  rw [h]

theorem exists_field?_of_tree {field : String} (h : (n.tree.field? field).isSome) :
    ∃ c, n.field? field = some c ∧ n.tree.fieldText? field = some c.text := by
  rw [← Syntax.Node.tree_field?, Option.isSome_map] at h
  obtain ⟨c, hc⟩ := Option.isSome_iff_exists.mp h
  refine ⟨c, hc, ?_⟩
  rw [fieldText?_tree]
  unfold Syntax.Node.fieldText?
  rw [hc]
  rfl

theorem importConcepts_of_clauses {source : ScopedNode}
    (hnone : n.namedChildren.find? (·.kind == "import_require_clause") = none)
    (hsource : n.field? "source" = some source)
    (hspecifier : Text.quotedContent source.text = specifier) :
    importConcepts o owner n =
      .ok (if (clauseBindings (o.resolve specifier) (n.hasToken "type") n).isEmpty then
        (depend owner (o.resolve specifier) .import).map (Concept.mk .edge)
      else (clauseBindings (o.resolve specifier) (n.hasToken "type") n).flatMap
        (bindingConcepts o owner specifier)) := by
  unfold importConcepts
  rw [hnone, need_of_field? hsource]
  show (if (clauseBindings (o.resolve (Text.quotedContent source.text)) _ n).isEmpty then _
    else _) = _
  rw [hspecifier]
  split <;> rfl

/-- The two readings of an import statement agree: the entries of the one are those that the
records of the other call for. -/
theorem entries_of_concepts (h : ImportFormed n.tree) :
    ∃ cs, importConcepts o owner n = .ok cs ∧
      ImportConcepts o owner (Scope.ofImport o.resolve n.tree) cs := by
  have hfind : n.namedChildren.find? (·.kind == "import_require_clause") =
      (n.tree.namedChildren.filter (·.kind == "import_require_clause")).head?.map n.down := by
    unfold Syntax.Node.namedChildren
    rw [List.find?_map, List.head?_filter]
    rfl
  cases h with
  | clauses hsource hnone hparts =>
    obtain ⟨source, hfield, htext⟩ := exists_field?_of_tree hsource
    have hempty : n.tree.namedChildren.filter (·.kind == "import_require_clause") = [] :=
      List.filter_eq_nil_iff.mpr fun c hc h => hnone c hc (beq_iff_eq.mp h)
    rw [importConcepts_of_clauses (by rw [hfind, hempty]; rfl) hfield rfl]
    unfold Scope.ofImport
    rw [htext]
    dsimp only
    rw [← entries_clauseBindings hparts]
    generalize clauseBindings _ (n.hasToken "type") n = bs
    cases bs with
    | nil =>
      refine ⟨(depend owner _ .import).map (Concept.mk .edge), rfl, ?_, ?_⟩
      · rw [filterMap_as?_of_ne (by decide)]
        rfl
      · rw [filterMap_as?_of_ne (by decide)]
        exact List.forall_mem_nil _
    | cons b bs => exact ⟨_, rfl, importConcepts_of_bindings (b :: bs)⟩
  | require clause hsource hone hname hsome =>
    obtain ⟨source, hfield, htext⟩ : ∃ c, (n.down clause).field? "source" = some c ∧
        clause.fieldText? "source" = some c.text := exists_field?_of_tree hsome
    have hbound : ((n.down clause).namedChild? 0).map (·.text) =
        clause.namedChildren.head?.map (·.text) := head?_namedChildren (n.down clause)
    have hnosource : n.tree.fieldText? "source" = none := by
      unfold Syntax.Tree.fieldText?
      rw [hsource]
      rfl
    unfold importConcepts Scope.ofImport Scope.ofRequire
    rw [hfind, hone, hnosource]
    dsimp only [List.head?_cons, Option.map_some]
    rw [need_of_field? hfield, List.flatMap_singleton, htext, hbound]
    cases hhead : clause.namedChildren.head? with
    | none => exact absurd (List.head?_eq_none_iff.mp hhead) hname
    | some name =>
      let b : ImportBinding :=
        ⟨"*", some name.text, o.resolve (Text.quotedContent source.text), n.hasToken "type"⟩
      have hwhole : ImportConcepts o owner
          ([b].flatMap (ImportBinding.entries o (Text.quotedContent source.text)))
          ([b].flatMap (bindingConcepts o owner (Text.quotedContent source.text))) :=
        importConcepts_of_bindings [b]
      rw [List.flatMap_singleton, List.flatMap_singleton, ImportBinding.entries_whole] at hwhole
      exact ⟨_, rfl, hwhole⟩

end Concepts

end Extract

/-! ## Import statements in an analysed tree -/

namespace Scope

variable {β : Type}

theorem ofImportPart_mapNotes (f : α → β) (target : QName) (part : Syntax.Tree α) :
    ofImportPart target (part.mapNotes f) = ofImportPart target part := by
  unfold ofImportPart
  rw [Syntax.Tree.kind_mapNotes, Syntax.Tree.text_mapNotes, Syntax.Tree.namedChildren_mapNotes,
    List.head?_map, List.flatMap_map]
  simp only [Syntax.Tree.fieldText?_mapNotes]
  cases part.namedChildren.head? with
  | none => rfl
  | some n =>
    dsimp only [Option.map_some]
    rw [Syntax.Tree.text_mapNotes]

theorem ofRequire_mapNotes (f : α → β) (resolve : String → QName) (clause : Syntax.Tree α) :
    ofRequire resolve (clause.mapNotes f) = ofRequire resolve clause := by
  unfold ofRequire
  rw [Syntax.Tree.namedChildren_mapNotes, List.head?_map, Syntax.Tree.fieldText?_mapNotes]
  cases clause.namedChildren.head? with
  | none => rfl
  | some n =>
    rw [Option.map_some]
    cases clause.fieldText? "source" with
    | none => rfl
    | some source =>
      dsimp only
      rw [Syntax.Tree.text_mapNotes]

/-- What an import statement enters into a scope does not depend on notes. -/
theorem ofImport_mapNotes (f : α → β) (resolve : String → QName) (t : Syntax.Tree α) :
    ofImport resolve (t.mapNotes f) = ofImport resolve t := by
  unfold ofImport
  rw [Syntax.Tree.fieldText?_mapNotes, Syntax.Tree.namedChildren_mapNotes, List.filter_map,
    List.filter_map]
  simp only [Syntax.Tree.namedChildren_mapNotes, List.flatMap_map, ofImportPart_mapNotes,
    ofRequire_mapNotes, Function.comp_def, Syntax.Tree.kind_mapNotes]

theorem ofImport_congr {t : Syntax.Tree α} {u : Syntax.Tree β} (h : t.shape = u.shape)
    (resolve : String → QName) : ofImport resolve t = ofImport resolve u :=
  Syntax.Tree.eq_of_shape (F := ofImport resolve) (ofImport_mapNotes _ resolve) h

end Scope

namespace Extract

section Statements

variable {resolve : String → QName} {vs : List Visit} {n : ScopedNode} {s : Syntax.Tree α}
  {task : Task} {frame : Frame} {taken : Taken}

mutual

/-- A node that is passed over hands nothing outwards. -/
theorem outward_annotate_skip (frame : Frame) (taken : Taken) :
    ∀ s : Syntax.Tree α, (annotate resolve .skip frame taken s).outward = []
  | .node l a cs => by
    rw [outward_annotate]
    exact outward_annotateAll_skip frame taken cs

theorem outward_annotateAll_skip (frame : Frame) (taken : Taken) : ∀ ss : List (Syntax.Tree α),
    (annotateAll resolve (ss.map fun _ => .skip) frame taken ss).outward = []
  | [] => rfl
  | s :: ss => by
    rw [annotateAll]
    exact List.append_eq_nil_iff.mpr
      ⟨outward_annotate_skip frame taken s, outward_annotateAll_skip frame _ ss⟩

end

/-- What the analysis does at an import statement. -/
theorem Met.plan_of_import (h : Met resolve vs n s task frame taken) (habove : n.above ≠ [])
    (hkind : n.kind = "import_statement") : Plan.ofTask resolve task frame s taken =
      { Plan.passThrough frame s none taken with
        outward := Scope.ofImport resolve s, tasks := Scope.skipAll s } := by
  have hs : s.kind = "import_statement" := h.kind.symm.trans hkind
  have hnode (assigned : Option Assignment) : Plan.ofNode resolve frame assigned s taken =
      { Plan.passThrough frame s none taken with
        outward := Scope.ofImport resolve s, tasks := Scope.skipAll s } := by
    unfold Plan.ofNode
    rw [hs]
    rfl
  rcases h.visited with ⟨hroot, -⟩ | ⟨v, -, -, hfollows⟩
  · exact absurd hroot habove
  · generalize v.turn = turn at hfollows
    cases hfollows with
    | skip => exact absurd rfl h.task_ne
    | visit assigned => exact hnode assigned
    | declarator keyword =>
      unfold Plan.ofTask
      dsimp only
      rw [if_neg (by rw [hs]; decide)]
      exact hnode none
    | body hblock =>
      rw [hs] at hblock
      exact absurd hblock (by decide)

/-- An import statement is visited for its imports, opens no scope, and hands outwards what it
enters and nothing else. -/
theorem Met.importStatement (h : Met resolve vs n s task frame taken) (habove : n.above ≠ [])
    (hkind : n.kind = "import_statement") :
    (∃ v ∈ vs, v.node = n ∧
      ∀ o, v.concepts Extractor.all o = importConcepts o v.owner n) ∧
    n.note.scope = [] ∧
    (annotate resolve task frame taken s).outward = Scope.ofImport resolve n.tree := by
  have hplan := h.plan_of_import habove hkind
  have hnote := h.note
  rw [hplan] at hnote
  refine ⟨?_, ?_, ?_⟩
  · rcases h.visited with ⟨hroot, -⟩ | ⟨v, hv, rfl, -⟩
    · exact absurd hroot habove
    · refine ⟨v, hv, rfl, fun o => ?_⟩
      unfold Visit.concepts
      rw [v.declaredVariable?_of_unnamed (congrArg Note.declares hnote), handledRole?_all, hkind]
      rfl
  · rw [hnote]
    rfl
  · -- all children are passed over, so nothing comes from below
    rw [Scope.ofImport_congr h.shape, outward_annotate, hplan]
    exact (congrArg (_ ++ ·) (outward_annotateAll_skip _ _ s.children)).trans (List.append_nil _)

end Statements

/-- A name looked up at a node gets to a scope, the one that `u` opens, and there behind the first
entries: no scope nearer to the node and none of those entries has it. -/
structure GetsTo (x : ScopedNode) (space : Space) (u : Syntax.Tree Note)
    (outer : List (Syntax.Tree Note)) (first : Scope) : Prop where
  near : ∃ near, x.tree :: x.above = near ++ u :: outer ∧
    ∀ w ∈ near, w.note.scope.find? space x.text = none
  first : first.find? space x.text = none

/-- A name that gets to what an import enters is found with what the record of the name says. -/
theorem GetsTo.lookup? {resolve : String → QName} {x : ScopedNode} {space : Space}
    {u : Syntax.Tree Note} {outer : List (Syntax.Tree Note)} {first last : Scope}
    {earlier later : List ImportDecl} {d : ImportDecl} (h : GetsTo x space u outer first)
    (hname : x.text = d.localName) (hearlier : ∀ e ∈ earlier, e.localName ≠ d.localName)
    (hscope : first ++ (earlier ++ d :: later).flatMap (ImportDecl.entries resolve) ++ last =
      u.note.scope) :
    ScopedNode.lookup? x space x.text = some (d.meaning resolve) := by
  obtain ⟨near, hx, hnear⟩ := h.near
  refine ScopedNode.lookup?_of_near hx hnear ?_
  rw [← hscope, Scope.find?_append, Scope.find?_append, h.first, hname,
    Scope.find?_imports hearlier]
  rfl

/-- An import statement makes its records where it is visited. What the analysis hands from it to
the scope around it are the entries that the records call for, in their order, and no others. The
scope has them next to each other, and an identifier that gets to one of them refers to the target
of the record. -/
theorem imports_bind_their_records {o : Origin} {t : Syntax.Tree α} {n : ScopedNode}
    (hn : n ∈ (Syntax.Node.root (analyse o.resolve o.module t)).descendants)
    (habove : n.above ≠ []) (hkind : n.kind = "import_statement") (hadmitted : Admitted n)
    (hformed : ImportFormed n.tree) :
    ∃ v ∈ walk Extractor.all o.module (analyse o.resolve o.module t), v.node = n ∧
      (∃ cs, v.concepts Extractor.all o = .ok cs) ∧
      (∀ m, fileModel Extractor.all o (analyse o.resolve o.module t) = .ok m →
        v.records .import o <:+: m.imports ∧ v.records .edge o <:+: m.edges) ∧
      (∀ d ∈ v.records .import o, d.target ≠ v.owner →
        ⟨v.owner, d.target, .import⟩ ∈ v.records .edge o) ∧
      Scope.ofImport o.resolve n.tree =
        (v.records .import o).flatMap (ImportDecl.entries o.resolve) ∧
      (∃ (s : Syntax.Tree α) (task : Task) (frame : Frame) (taken : Taken),
        (annotate o.resolve task frame taken s).result = n.tree ∧
        (annotate o.resolve task frame taken s).outward = Scope.ofImport o.resolve n.tree) ∧
      ∃ inner u outer first last, n.above = inner ++ u :: outer ∧
        (∀ w ∈ n.tree :: inner, w.note.scope = []) ∧
        first ++ (v.records .import o).flatMap (ImportDecl.entries o.resolve) ++ last =
          u.note.scope ∧
        ∀ earlier d later, v.records .import o = earlier ++ d :: later →
          (∀ e ∈ earlier, e.localName ≠ d.localName) →
          ∀ (x : ScopedNode) (space : Space), x.text = d.localName →
            GetsTo x space u outer first →
            ScopedNode.resolve space x = .declaration d.target ∧
            (space = .value → x.kind = "identifier" → d.target = o.resolve d.source →
              ∀ member, ScopedNode.resolveMember? x member = some (d.target.child member)) := by
  obtain ⟨s, task, frame, taken, hmet, henters⟩ := met_of_admitted hn hadmitted
  obtain ⟨⟨v, hv, hnode, hconcepts⟩, hempty, houtward⟩ := hmet.importStatement habove hkind
  obtain ⟨inner, u, outer, hsplit, hinner, hinfix⟩ := henters habove
  obtain ⟨cs, hcs, himports⟩ : ∃ cs, importConcepts o v.owner n = .ok cs ∧
      ImportConcepts o v.owner (Scope.ofImport o.resolve n.tree) cs := entries_of_concepts hformed
  have hok : v.concepts Extractor.all o = .ok cs := (hconcepts o).trans hcs
  have hentries : Scope.ofImport o.resolve n.tree =
      (v.records .import o).flatMap (ImportDecl.entries o.resolve) := by
    rw [← himports.entries, ← v.records_of_ok hok]
  refine ⟨v, hv, hnode, ⟨cs, hok⟩, fun m hm => ?_, ?_, hentries,
    ⟨s, task, frame, taken, hmet.tree.symm, houtward⟩, inner, u, outer, ?_⟩
  · exact ⟨v.records_infix (k := .import) (by decide) hm hv,
      v.records_infix (k := .edge) (by decide) hm hv⟩
  · rw [v.records_of_ok hok, v.records_of_ok hok]
    exact himports.edges
  · rw [houtward, hentries] at hinfix
    obtain ⟨first, last, hscope⟩ := hinfix
    refine ⟨first, last, hsplit, List.forall_mem_cons.mpr ⟨hempty, hinner⟩, hscope, ?_⟩
    intro earlier d later hrecords hearlier x space hname hgets
    rw [hrecords] at hscope
    have hlookup := hgets.lookup? hname hearlier hscope
    refine ⟨ScopedNode.resolve_of_path? hlookup (d.path?_meaning o.resolve), ?_⟩
    intro hspace hidentifier hwhole member
    rw [hspace, ImportDecl.meaning, if_pos hwhole] at hlookup
    exact ScopedNode.resolveMember?_of_space hidentifier hlookup member

/-- The import `import d, * as ns, { a, c as e, "q r" as f } from "./b"` and the statement `e`. -/
def importingTree : Syntax.Tree Unit :=
  sampleNode "program" [] "" [
    sampleNode "import_statement" [] "" [
      sampleNode "import_clause" [] "" [
        sampleNode "identifier" [] "d" [],
        sampleNode "namespace_import" [] "" [sampleNode "identifier" [] "ns" []],
        sampleNode "named_imports" [] "" [
          sampleNode "import_specifier" [] "" [sampleNode "identifier" ["name"] "a" []],
          sampleNode "import_specifier" [] "" [
            sampleNode "identifier" ["name"] "c" [], sampleNode "identifier" ["alias"] "e" []],
          sampleNode "import_specifier" [] "" [
            sampleNode "string" ["name"] "\"q r\"" [],
            sampleNode "identifier" ["alias"] "f" []]]],
      sampleNode "string" ["source"] "'/p/b.ts'" []],
    sampleNode "expression_statement" [] "" [sampleNode "identifier" [] "e" []]]

/-- What the import binds, as values and as types. -/
def importedEntries : Scope :=
  [("d", .declaration ⟨"\"/p/b.ts\".default"⟩), ("ns", .space ⟨"\"/p/b.ts\""⟩),
    ("a", .declaration ⟨"\"/p/b.ts\".a"⟩), ("e", .declaration ⟨"\"/p/b.ts\".c"⟩),
    ("f", .declaration ⟨"\"/p/b.ts\".q r"⟩)].flatMap fun (name, m) => Scope.both name m

theorem imports_bind_their_records_listed :
    ∃ n ∈ (Syntax.Node.root (sampleNotes importingTree)).descendants,
      n.above ≠ [] ∧ n.kind = "import_statement" ∧ Admitted n ∧ ImportFormed n.tree ∧
      (∃ v ∈ walk Extractor.all sampleOrigin.module (sampleNotes importingTree), v.node = n ∧
        (v.records .import sampleOrigin).map (fun d => (d.localName, d.target)) =
          [("d", ⟨"\"/p/b.ts\".default"⟩), ("ns", ⟨"\"/p/b.ts\""⟩), ("a", ⟨"\"/p/b.ts\".a"⟩),
            ("e", ⟨"\"/p/b.ts\".c"⟩), ("f", ⟨"\"/p/b.ts\".q r"⟩)]) ∧
      Scope.ofImport sampleOrigin.resolve n.tree = importedEntries ∧
      (sampleNotes importingTree).note.scope = importedEntries ∧
      ∃ x ∈ (Syntax.Node.root (sampleNotes importingTree)).descendants, x.text = "e" ∧
        ScopedNode.resolve .value x = .declaration ⟨"\"/p/b.ts\".c"⟩ := by
  have hrecords : ∀ v ∈ walk Extractor.all sampleOrigin.module (sampleNotes importingTree),
      v.node.kind = "import_statement" →
      (v.records .import sampleOrigin).map (fun d => (d.localName, d.target)) =
        [("d", ⟨"\"/p/b.ts\".default"⟩), ("ns", ⟨"\"/p/b.ts\""⟩), ("a", ⟨"\"/p/b.ts\".a"⟩),
          ("e", ⟨"\"/p/b.ts\".c"⟩), ("f", ⟨"\"/p/b.ts\".q r"⟩)] := by decide +kernel
  have hentries : ∀ v ∈ walk Extractor.all sampleOrigin.module (sampleNotes importingTree),
      v.node.kind = "import_statement" →
      (v.records .import sampleOrigin).flatMap (ImportDecl.entries sampleOrigin.resolve) =
        importedEntries := by decide +kernel
  have hroot : (sampleNotes importingTree).note.scope = importedEntries := by decide +kernel
  have hformed : ∀ c ∈ (sampleNotes importingTree).children[0]?,
      Admitted ((Syntax.Node.root (sampleNotes importingTree)).down c) ∧
      c.kind = "import_statement" ∧ (c.field? "source").isSome ∧
      (∀ p ∈ c.namedChildren, p.kind ≠ "import_require_clause") ∧
      ∀ p ∈ c.namedChildren, p.kind = "import_clause" → ∀ part ∈ p.namedChildren,
        ImportPartFormed part := by decide +kernel
  have hname : ∀ s ∈ (sampleNotes importingTree).children[1]?, ∀ e ∈ s.children[0]?,
      e.text = "e" ∧ ∀ w ∈ [e, s], w.note.scope.find? .value e.text = none := by decide +kernel
  obtain ⟨c, hc⟩ : ∃ c, (sampleNotes importingTree).children[0]? = some c := ⟨_, rfl⟩
  obtain ⟨s, hs⟩ : ∃ s, (sampleNotes importingTree).children[1]? = some s := ⟨_, rfl⟩
  obtain ⟨e, he⟩ : ∃ e, s.children[0]? = some e := by
    cases hs
    exact ⟨_, rfl⟩
  obtain ⟨hadmitted, hkind, hsource, hclauses, hparts⟩ := hformed c hc
  obtain ⟨htext, hnear⟩ := hname s hs e he
  have hn : (Syntax.Node.root (sampleNotes importingTree)).down c ∈
      (Syntax.Node.root (sampleNotes importingTree)).descendants :=
    Syntax.Node.mem_descendants_down (Syntax.Node.mem_descendants_self _)
      (List.mem_of_getElem? hc)
  have hx : ((Syntax.Node.root (sampleNotes importingTree)).down s).down e ∈
      (Syntax.Node.root (sampleNotes importingTree)).descendants :=
    Syntax.Node.mem_descendants_down (Syntax.Node.mem_descendants_down
      (Syntax.Node.mem_descendants_self _) (List.mem_of_getElem? hs)) (List.mem_of_getElem? he)
  have himport : ImportFormed ((Syntax.Node.root (sampleNotes importingTree)).down c).tree :=
    .clauses hsource hclauses hparts
  obtain ⟨v, hv, hnode, -, -, -, hbound, -, inner, u, outer, first, last, habove, -, hscope,
      hresolve⟩ :=
    imports_bind_their_records hn (List.cons_ne_nil _ _) hkind hadmitted himport
  have hvkind : v.node.kind = "import_statement" := by
    rw [hnode]
    exact hkind
  refine ⟨_, hn, List.cons_ne_nil _ _, hkind, hadmitted, himport,
    ⟨v, hv, hnode, hrecords v hv hvkind⟩, hbound.trans (hentries v hv hvkind), hroot, _, hx, htext,
    ?_⟩
  -- the scope around the import is that of the root, and it has no other entries
  obtain ⟨rfl, houter⟩ := List.append_eq_singleton_iff.mp habove.symm |>.resolve_right (by simp)
  obtain ⟨rfl, rfl⟩ := List.cons.inj houter
  have hfirst : first = [] := by
    rw [hentries v hv hvkind] at hscope
    have hlength : (first ++ importedEntries ++ last).length = importedEntries.length :=
      congrArg List.length (hscope.trans hroot)
    rw [List.length_append, List.length_append] at hlength
    exact List.length_eq_zero_iff.mp (by omega)
  -- the records in front of that of `e` have other names
  obtain ⟨earlier, rest, hsplit, hearlier, hrest⟩ := List.map_eq_append_iff.mp
    ((hrecords v hv hvkind).trans (List.take_append_drop 3 _).symm)
  obtain ⟨d, later, rfl, hd, -⟩ := List.map_eq_cons_iff.mp hrest
  obtain ⟨hlocal, htarget⟩ := Prod.mk.inj hd
  have hfront : ∀ p ∈ earlier.map (fun d => (d.localName, d.target)), p.1 ≠ "e" := by
    rw [hearlier]
    decide
  have hother : ∀ b ∈ earlier, b.localName ≠ d.localName := by
    intro b hb
    rw [hlocal]
    exact hfront _ (List.mem_map_of_mem hb)
  have hgets : GetsTo (((Syntax.Node.root (sampleNotes importingTree)).down s).down e) .value
      (sampleNotes importingTree) [] first := by
    refine ⟨⟨[e, s], rfl, hnear⟩, ?_⟩
    rw [hfirst]
    rfl
  rw [← htarget]
  exact (hresolve earlier d later hsplit hother
    (((Syntax.Node.root (sampleNotes importingTree)).down s).down e) .value
    (htext.trans hlocal.symm) hgets).1

end Extract

end CodeConcepts
