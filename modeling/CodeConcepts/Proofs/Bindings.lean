import CodeConcepts.Proofs.DistinctRecords

/-!
# Where the entries of scopes come from

A scope says what names mean. An entry that leads to a qualified name is made in one of three ways:
an import statement makes it, a namespace makes it for the first part of its name, or a declaration
makes it. In the last case the name is noted on a node of the tree (`boundIn_analyse`), also if a
container has made the entry beforehand: the function that stands for all of its name is given the
name when its statement is visited (`declaredIn_statement`). For the same reason the function that
an overload belongs to is one that is noted (`declaredIn_of_overloads`).
-/

namespace CodeConcepts

variable {α β : Type} {t c d : Syntax.Tree α} {resolve : String → QName} {f : QName}
  {assigned : Option Assignment} {taken : Taken} {frame : Frame} {i : Nat} {name : String}
  {k : Kind} {task : Task}

/-! ## Where declarations may stand -/

/-- No node of a tree makes a declaration. -/
def Barren (t : Syntax.Tree α) : Prop := ∀ u ∈ t.subtrees, Kind.declaredBy? u.kind = none

instance (t : Syntax.Tree α) : Decidable (Barren t) :=
  inferInstanceAs (Decidable (∀ u ∈ t.subtrees, Kind.declaredBy? u.kind = none))

/-- Kinds of nodes that are names, or made of names. -/
def nameKinds : List String :=
  ["identifier", "shorthand_property_identifier", "type_identifier", "nested_type_identifier",
    "jsx_closing_element"]

/-- A node that has parts has a name among them, and its body is a block of statements. -/
def HasBlock (t : Syntax.Tree α) : Prop :=
  (t.children.isEmpty ∨ (t.field? "name").isSome) ∧
    ∀ b ∈ t.children, b.label.roles.contains "body" → b.label.named ∧ b.kind = "statement_block"

instance (t : Syntax.Tree α) : Decidable (HasBlock t) :=
  inferInstanceAs (Decidable (_ ∧ ∀ b ∈ t.children, _ → _))

/-- A node has declarations below it only where the grammar has a place for them. -/
@[mk_iff]
structure PlacesDeclarations (t : Syntax.Tree α) : Prop where
  /-- There are none below names. -/
  name : t.kind ∈ nameKinds → ∀ c ∈ t.children, Barren c
  /-- There are none below the access to a member of something named. -/
  access : t.kind = "member_expression" → (t.field? "object").any (·.kind == "identifier") →
    ∀ c ∈ t.children, Barren c
  /-- There are none below the clause of an export statement that exports no declaration or
  value. -/
  clause : t.kind = "export_statement" → t.field? "declaration" = none → t.field? "value" = none →
    (t.hasToken "=" → t.namedChildren = []) → ∀ c ∈ t.children, Barren c
  /-- The declaration that an export statement exports is one of its children. -/
  exported : t.kind = "export_statement" → (t.field? "declaration").isSome →
    (t.children.find? fun c => c.label.roles.contains "declaration").any (·.label.named)
  /-- Those of a namespace stand in its body. -/
  space : ScopeRole.ofKind t.kind = .namespaceDeclaration → HasBlock t

instance (t : Syntax.Tree α) : Decidable (PlacesDeclarations t) :=
  decidable_of_iff _ (placesDeclarations_iff t).symm

/-- Declarations stand only where the grammar has a place for them. -/
def Placed (t : Syntax.Tree α) : Prop := ∀ u ∈ t.subtrees, PlacesDeclarations u

instance (t : Syntax.Tree α) : Decidable (Placed t) :=
  inferInstanceAs (Decidable (∀ u ∈ t.subtrees, PlacesDeclarations u))

/-! ## Annotated children -/

theorem mem_subtreesAll_of_getElem? {ts : List (Syntax.Tree α)} {u : Syntax.Tree α}
    (ht : ts[i]? = some t) (hu : u ∈ t.subtrees) : u ∈ Syntax.Tree.subtreesAll ts := by
  rw [Syntax.Tree.subtreesAll_eq_flatMap]
  exact List.mem_flatMap.mpr ⟨t, List.mem_of_getElem? ht, hu⟩

/-! ## Functions of a container -/

namespace Scope

variable {f : DeclaredFunction}

theorem functionNames_spec (fs : List DeclaredFunction) :
    (functionNames fs).Nodup ∧ ∀ n, n ∈ functionNames fs ↔ ∃ f ∈ fs, f.name = n := by
  -- by induction on the functions, whatever names have been collected before
  have hfold (ns : List String) (hns : ns.Nodup) :
      (fs.foldl (fun ns f => if ns.contains f.name then ns else ns ++ [f.name]) ns).Nodup ∧
        ∀ n, n ∈ fs.foldl (fun ns f => if ns.contains f.name then ns else ns ++ [f.name]) ns ↔
          n ∈ ns ∨ ∃ f ∈ fs, f.name = n := by
    induction fs generalizing ns with
    | nil => exact ⟨hns, fun n => by simp⟩
    | cons f fs ih =>
      rw [List.foldl_cons]
      by_cases hf : f.name ∈ ns
      · rw [if_pos (List.contains_iff_mem.mpr hf)]
        refine ⟨(ih ns hns).1, fun n => ?_⟩
        rw [(ih ns hns).2, List.exists_mem_cons_iff]
        constructor
        · rintro (h | h)
          · exact .inl h
          · exact .inr (.inr h)
        · rintro (h | rfl | h)
          · exact .inl h
          · exact .inl hf
          · exact .inr h
      · rw [if_neg fun h => hf (List.contains_iff_mem.mp h)]
        have hnodup : (ns ++ [f.name]).Nodup := by
          refine List.nodup_append'.mpr ⟨hns, List.nodup_singleton _, fun n hn hname => ?_⟩
          rw [List.mem_singleton.mp hname] at hn
          exact hf hn
        refine ⟨(ih _ hnodup).1, fun n => ?_⟩
        rw [(ih _ hnodup).2, List.exists_mem_cons_iff, List.mem_append, List.mem_singleton,
          or_assoc, eq_comm]
  obtain ⟨hnodup, hmem⟩ := hfold [] List.nodup_nil
  refine ⟨hnodup, fun n => (hmem n).trans ?_⟩
  simp

theorem map_fst_allocateFunctions (owner : QName) (names : List String) (taken : Taken) :
    (allocateFunctions owner names taken).1.map Prod.fst = names := by
  induction names generalizing taken with
  | nil => rfl
  | cons n ns ih =>
    rw [allocateFunctions, List.map_cons, ih]

/-- One of the functions of a name stands for all of them. -/
theorem exists_primary? {fs : List DeclaredFunction} (h : ∃ f ∈ fs, f.name = name) :
    ∃ f ∈ fs, f.name = name ∧ primary? fs name = some f := by
  have hsame (f : DeclaredFunction) : f ∈ fs.filter (fun f => f.name == name) ↔
      f ∈ fs ∧ f.name = name := by
    rw [List.mem_filter, beq_iff_eq]
  -- this is the last one with a body, or else the first one
  unfold primary?
  dsimp only
  cases hlast : ((fs.filter fun f => f.name == name).filter (·.hasBody)).getLast? with
  | some f =>
    obtain ⟨hf, hname⟩ := (hsame f).mp (List.mem_filter.mp (List.mem_of_getLast? hlast)).1
    exact ⟨f, hf, hname, rfl⟩
  | none =>
    obtain ⟨g, hg, hname⟩ := h
    cases hhead : (fs.filter fun f => f.name == name).head? with
    | some f =>
      obtain ⟨hf, hfname⟩ := (hsame f).mp (List.mem_of_mem_head? hhead)
      exact ⟨f, hf, hfname, rfl⟩
    | none =>
      have := (hsame g).mpr ⟨hg, hname⟩
      rw [List.head?_eq_none_iff.mp hhead] at this
      exact absurd this List.not_mem_nil

theorem declaredFunction?_eq_some (h : declaredFunction? c i = some f) :
    f.position = i ∧ c.label.named ∧
      ∃ d, unwrap? c = some d ∧ ScopeRole.ofKind d.kind = .functionDeclaration := by
  obtain ⟨d, hd, h⟩ := Option.bind_eq_some_iff.mp h
  split at h
  · next hfunction =>
    obtain ⟨name, -, h⟩ := Option.bind_eq_some_iff.mp h
    cases h
    exact ⟨rfl, hfunction.1, d, hd, hfunction.2⟩
  · cases h

/-- A declared function is the one that the statement at its position declares. -/
theorem mem_declaredFunctions :
    f ∈ declaredFunctions t ↔
      ∃ c, t.children[f.position]? = some c ∧ declaredFunction? c f.position = some f := by
  unfold declaredFunctions
  rw [List.mem_filterMap]
  constructor
  · rintro ⟨⟨c, i⟩, hc, hf⟩
    dsimp only at hf
    obtain ⟨rfl, -⟩ := declaredFunction?_eq_some hf
    exact ⟨c, List.mem_zipIdx_iff_getElem?.mp hc, hf⟩
  · rintro ⟨c, hc, hf⟩
    exact ⟨(c, f.position), List.mem_zipIdx_iff_getElem?.mpr hc, hf⟩

theorem find?_position (h : f ∈ declaredFunctions t) :
    (declaredFunctions t).find? (fun g => g.position == f.position) = some f := by
  cases hfind : (declaredFunctions t).find? (fun g => g.position == f.position) with
  | none => exact absurd (beq_self_eq_true _) (List.find?_eq_none.mp hfind f h)
  | some g =>
    -- one statement declares one function
    have hposition : g.position = f.position := by simpa using List.find?_some hfind
    obtain ⟨c, hc, hf⟩ := mem_declaredFunctions.mp h
    obtain ⟨c', hc', hg⟩ := mem_declaredFunctions.mp (List.mem_of_find?_eq_some hfind)
    rw [hposition, hc] at hc'
    obtain rfl := Option.some.inj hc'
    rw [hposition, hf] at hg
    exact hg.symm

/-- What a container decides for a function, given the name allocated for it. -/
theorem assignment?_of_mem {fqns : List (String × QName)} {p : String × QName}
    (h : f ∈ declaredFunctions t) (hfind : fqns.find? (fun p => p.1 == f.name) = some p) :
    assignment? (declaredFunctions t) fqns f.position =
      some (if primary? (declaredFunctions t) f.name = some f then .declares p.2
        else .overloads p.2) := by
  unfold assignment?
  rw [find?_position h, Option.bind_eq_bind, Option.bind_some, hfind]
  rfl

/-- For every name that a container allocates there is a function it decides to give it to. -/
theorem exists_assignment? {owner : QName} {fqn : QName} (h : (name, fqn) ∈
      (allocateFunctions owner (functionNames (declaredFunctions t)) taken).1) :
    ∃ f ∈ declaredFunctions t, assignment? (declaredFunctions t)
      (allocateFunctions owner (functionNames (declaredFunctions t)) taken).1 f.position =
        some (.declares fqn) := by
  obtain ⟨hnodup, hnames⟩ := functionNames_spec (declaredFunctions t)
  have hkeys := map_fst_allocateFunctions owner (functionNames (declaredFunctions t)) taken
  set fqns := (allocateFunctions owner (functionNames (declaredFunctions t)) taken).1
  have hname : name ∈ functionNames (declaredFunctions t) := by
    rw [← hkeys]
    exact List.mem_map_of_mem h
  obtain ⟨f, hf, rfl, hprimary⟩ := exists_primary? ((hnames name).mp hname)
  -- a name is allocated once, so that looking it up leads to no other entry
  have hfind : fqns.find? (fun p => p.1 == f.name) = some (f.name, fqn) := by
    cases hfind : fqns.find? (fun p => p.1 == f.name) with
    | none => exact absurd (beq_self_eq_true _) (List.find?_eq_none.mp hfind _ h)
    | some p =>
      have hp : p.1 = f.name := by simpa using List.find?_some hfind
      exact congrArg some (List.inj_on_of_nodup_map (hkeys.symm ▸ hnodup)
        (List.mem_of_find?_eq_some hfind) h hp)
  exact ⟨f, hf, by rw [assignment?_of_mem hf hfind, if_pos hprimary]⟩

/-- A container decides only on names that it has allocated. -/
theorem mem_of_assignment? {fs : List DeclaredFunction} {fqns : List (String × QName)} {fqn : QName}
    (h : assignment? fs fqns i = some (.overloads fqn)) : ∃ name, (name, fqn) ∈ fqns := by
  obtain ⟨f, -, h⟩ := Option.bind_eq_some_iff.mp h
  obtain ⟨n, hn, h⟩ := Option.bind_eq_some_iff.mp h
  obtain ⟨p, hp, rfl⟩ := Option.map_eq_some_iff.mp hn
  split at h
  · cases h
  · cases h
    exact ⟨p.1, List.mem_of_find?_eq_some hp⟩

end Scope

/-! ## Assigned names are noted -/

/-- A node of a list makes a declaration of a kind under a name. -/
def DeclaredIn (ns : List (Syntax.Tree Note)) (k : Kind) (f : QName) : Prop :=
  ∃ n ∈ ns, declaration? n.kind n.note.declares = some (k, f)

theorem DeclaredIn.mono {ns ms : List (Syntax.Tree Note)} (h : DeclaredIn ns k f) (hsub : ns ⊆ ms) :
    DeclaredIn ms k f := by
  obtain ⟨n, hn, hdeclares⟩ := h
  exact ⟨n, hsub hn, hdeclares⟩

/-- A function declaration takes the name it is given. -/
theorem declaredIn_function (resolve : String → QName) (frame : Frame) (taken : Taken)
    (hd : ScopeRole.ofKind d.kind = .functionDeclaration) (f : QName) :
    DeclaredIn (annotate resolve (.visit (some (.declares f))) frame taken d).result.subtrees
      .function f := by
  obtain ⟨l, a, cs⟩ := d
  refine ⟨_, Syntax.Tree.mem_subtrees_self _, ?_⟩
  have hplan : Plan.ofTask resolve (.visit (some (.declares f))) frame (.node l a cs) taken =
      Plan.functionDeclaration frame (.node l a cs) (some (.declares f)) taken := by
    unfold Plan.ofTask Plan.ofNode
    rw [hd]
  rw [annotate, hplan]
  exact Plan.declaration?_some (Plan.declaredBy?_of_role hd nofun) f

/-- What is noted in the child that a wrapper hands its assignment to is noted in the wrapper. -/
theorem declaredIn_wrapper {assigned : Assignment} (hrole : ScopeRole.ofKind t.kind = .other)
    (hd : t.children[i]? = some d)
    (htask : (Scope.visitWrapped t (some assigned))[i]? = some (.visit (some assigned)))
    (h : ∀ taken, DeclaredIn
      (annotate resolve (.visit (some assigned)) frame taken d).result.subtrees k f)
    (taken : Taken) :
    DeclaredIn (annotate resolve (.visit (some assigned)) frame taken t).result.subtrees k f := by
  obtain ⟨l, a, cs⟩ := t
  have hplan : Plan.ofTask resolve (.visit (some assigned)) frame (.node l a cs) taken =
      Plan.passThrough frame (.node l a cs) (some assigned) taken := by
    unfold Plan.ofTask Plan.ofNode
    rw [hrole]
  rw [annotate, hplan]
  obtain ⟨taken', hchild⟩ := getElem?_annotateAll resolve
    (Scope.visitWrapped (.node l a cs) (some assigned)) frame taken cs i
  rw [show cs[i]? = some d from hd, htask] at hchild
  exact (h taken').mono fun u hu => List.mem_cons_of_mem _ (mem_subtreesAll_of_getElem? hchild hu)

/-- A named child among tasks by position is visited. -/
theorem getElem?_visits {cs : List (Syntax.Tree α)} (hc : cs[i]? = some c) (hnamed : c.label.named)
    (assigned : Nat → Option Assignment) :
    (cs.zipIdx.map fun p => if p.1.label.named then Task.visit (assigned p.2) else .skip)[i]? =
      some (.visit (assigned i)) := by
  rw [List.getElem?_map, List.getElem?_zipIdx, hc, Option.map_some, Option.map_some, Nat.zero_add,
    if_pos hnamed]

/-- A wrapper that hands its assignment on to a position does so. -/
theorem getElem?_visitWrapped (hc : t.children[i]? = some c) (hnamed : c.label.named)
    (h : Scope.visitWrapped t assigned = t.children.zipIdx.map fun p => if p.1.label.named then
      .visit (if some i = some p.2 then assigned else none) else .skip) :
    (Scope.visitWrapped t assigned)[i]? = some (.visit assigned) := by
  rw [h, getElem?_visits hc hnamed fun j => if some i = some j then assigned else none, if_pos rfl]

/-- What is found first is found at a position. -/
theorem exists_findIdx? {p : β → Bool} {xs : List β} {x : β} (h : xs.find? p = some x) :
    ∃ i, xs.findIdx? p = some i ∧ xs[i]? = some x := by
  obtain ⟨hx, i, hi, rfl, hbefore⟩ := List.find?_eq_some_iff_getElem.mp h
  refine ⟨i, List.findIdx?_eq_some_iff_getElem.mpr ⟨hi, hx, fun j hj => ?_⟩,
    List.getElem?_eq_getElem hi⟩
  simpa using hbefore j hj

/-- A statement that declares a function takes the name that its container gives it. -/
theorem declaredIn_statement (resolve : String → QName) (frame : Frame) (taken : Taken)
    (hplaces : PlacesDeclarations c) (hunwrap : Scope.unwrap? c = some d)
    (hd : ScopeRole.ofKind d.kind = .functionDeclaration) (f : QName) :
    DeclaredIn (annotate resolve (.visit (some (.declares f))) frame taken c).result.subtrees
      .function f := by
  have hfunction (taken : Taken) := declaredIn_function resolve frame taken hd f
  unfold Scope.unwrap? at hunwrap
  split at hunwrap
  · next hkind =>
    -- the declaration that is exported is the child that the assignment is handed to
    have hexported := hplaces.exported hkind (by rw [hunwrap]; rfl)
    obtain ⟨e, he, hnamed⟩ := (Option.any_eq_true _ _).mp hexported
    have hfield : c.field? "declaration" = some e := by
      unfold Syntax.Tree.field? Syntax.Node.field?
      rw [show (Syntax.Node.root c).tree.children.find?
        (fun c => c.label.roles.contains "declaration") = some e from he]
      rfl
    rw [hfield] at hunwrap
    obtain rfl := Option.some.inj hunwrap
    obtain ⟨i, hi, hchild⟩ := exists_findIdx? he
    refine declaredIn_wrapper (by rw [hkind]; rfl) hchild ?_ hfunction taken
    refine getElem?_visitWrapped hchild hnamed ?_
    unfold Scope.visitWrapped
    rw [hkind, hi]
    rfl
  · next hkind =>
    -- in an ambient declaration this is the first named child
    unfold Syntax.Tree.namedChildren at hunwrap
    rw [List.head?_filter] at hunwrap
    obtain ⟨i, hi, hchild⟩ := exists_findIdx? hunwrap
    refine declaredIn_wrapper (by rw [hkind]; rfl) hchild ?_ hfunction taken
    have hnamed : d.label.named = true := by simpa using List.find?_some hunwrap
    refine getElem?_visitWrapped hchild hnamed ?_
    unfold Scope.visitWrapped
    rw [hkind, hi]
    rfl
  · cases hunwrap
    exact hfunction taken

/-! ## What a plan binds -/

/-- The qualified name that a meaning leads to. -/
def Meaning.path? : Meaning → Option QName
  | .declaration f => some f
  | .space f => some f
  | .localVariable => none
  | .typeParameter => none

/-- What the names that an import statement binds stand for. -/
inductive ImportTarget (resolve : String → QName) (t : Syntax.Tree α) : QName → Prop
  | default {source : String} {clause part : Syntax.Tree α} : t.fieldText? "source" = some source →
      clause ∈ t.namedChildren → clause.kind = "import_clause" → part ∈ clause.namedChildren →
      part.kind = "identifier" →
      ImportTarget resolve t ((resolve (Text.quotedContent source)).child "default")
  | named {source name : String} {clause part specifier : Syntax.Tree α} :
      t.fieldText? "source" = some source → clause ∈ t.namedChildren →
      clause.kind = "import_clause" → part ∈ clause.namedChildren → part.kind = "named_imports" →
      specifier ∈ part.namedChildren → specifier.fieldText? "name" = some name →
      ImportTarget resolve t ((resolve (Text.quotedContent source)).child (Text.plainName name))
  | whole {source : String} {clause part : Syntax.Tree α} : t.fieldText? "source" = some source →
      clause ∈ t.namedChildren → clause.kind = "import_clause" → part ∈ clause.namedChildren →
      part.kind = "namespace_import" →
      ImportTarget resolve t (resolve (Text.quotedContent source))
  | required {source : String} {clause : Syntax.Tree α} : clause ∈ t.namedChildren →
      clause.kind = "import_require_clause" → clause.fieldText? "source" = some source →
      ImportTarget resolve t (resolve (Text.quotedContent source))

/-- The path that a namespace binds: the first part of its name below the owner of the
namespace. -/
def NamespacePath (t : Syntax.Tree α) (declares : Option QName) (f : QName) : Prop :=
  ScopeRole.ofKind t.kind = .namespaceDeclaration ∧ ∃ name : Syntax.Tree α, ∃ owner : QName,
    t.field? "name" = some name ∧ name.kind ≠ "string" ∧
    declares = some (owner.child (Text.withoutBlanks name.text)) ∧
    f = owner.child (Text.trim (Text.headSegment '.' name.text))

namespace Plan

/-- A plan gives a function among the statements of its node a name. -/
def Allocates (p : Plan) (t : Syntax.Tree α) (f : QName) : Prop :=
  ∃ (i : Nat) (c d : Syntax.Tree α), t.children[i]? = some c ∧ Scope.unwrap? c = some d ∧
    ScopeRole.ofKind d.kind = .functionDeclaration ∧
    p.tasks[i]? = some (Task.visit (some (.declares f)))

/-- The ways in which a plan enters a qualified name into a scope. -/
inductive Binds (resolve : String → QName) (t : Syntax.Tree α) (p : Plan) (f : QName) : Prop
  | imported : ScopeRole.ofKind t.kind = .importStatement → ImportTarget resolve t f →
      Binds resolve t p f
  | space : NamespacePath t p.declares f → Binds resolve t p f
  | own (k : Kind) : declaration? t.kind p.declares = some (k, f) → Binds resolve t p f
  | function : p.Allocates t f → Binds resolve t p f

/-- The entries that a plan makes itself. -/
def entries (p : Plan) : Scope := p.outward ++ p.opened.getD []

end Plan

/-- No entry of a scope leads to a qualified name. -/
def Scope.Inner (s : Scope) : Prop := ∀ e ∈ s, e.meaning.path? = none

namespace Scope

theorem Inner.nil : Inner [] := nofun

theorem Inner.append {s u : Scope} (hs : s.Inner) (hu : u.Inner) : Inner (s ++ u) := by
  intro e he
  rcases List.mem_append.mp he with he | he
  · exact hs e he
  · exact hu e he

theorem inner_ofPattern (t : Syntax.Tree α) : (ofPattern t).Inner := by
  intro e he
  obtain ⟨n, -, rfl⟩ := List.mem_map.mp he
  rfl

theorem inner_ofTypeParameters (t : Syntax.Tree α) : (ofTypeParameters t).Inner := by
  unfold ofTypeParameters
  split
  · exact .nil
  · intro e he
    obtain ⟨n, -, he⟩ := List.mem_flatMap.mp he
    rw [List.mem_singleton.mp he]
    rfl

theorem inner_ofSignature (t : Syntax.Tree α) : (ofSignature t).Inner := by
  unfold ofSignature
  refine .append (.append (inner_ofTypeParameters t) ?_) ?_
  · split
    · exact .nil
    · intro e he
      obtain ⟨p, -, he⟩ := List.mem_flatMap.mp he
      exact inner_ofPattern p e he
  · split
    · exact .nil
    · exact inner_ofPattern _

theorem meaning_of_mem_both {m : Meaning} {e : Entry} (h : e ∈ both name m) : e.meaning = m := by
  rcases List.mem_cons.mp h with rfl | h
  · rfl
  · rw [List.mem_singleton.mp h]

/-- The entries of an import statement lead to what it imports. -/
theorem importTarget_of_mem {e : Entry} (he : e ∈ ofImport resolve t)
    (hf : e.meaning.path? = some f) : ImportTarget resolve t f := by
  unfold ofImport at he
  split at he
  · next source hsource =>
    obtain ⟨clause, hclause, he⟩ := List.mem_flatMap.mp he
    obtain ⟨hclause, hkind⟩ := List.mem_filter.mp hclause
    have hkind : clause.kind = "import_clause" := beq_iff_eq.mp hkind
    obtain ⟨part, hpart, he⟩ := List.mem_flatMap.mp he
    unfold ofImportPart at he
    split at he
    · next hidentifier =>
      rw [meaning_of_mem_both he] at hf
      cases hf
      exact .default hsource hclause hkind hpart hidentifier
    · next hspace =>
      split at he
      · rw [meaning_of_mem_both he] at hf
        cases hf
        exact .whole hsource hclause hkind hpart hspace
      · exact absurd he List.not_mem_nil
    · next hnamed =>
      obtain ⟨specifier, hspecifier, he⟩ := List.mem_flatMap.mp he
      split at he
      · exact absurd he List.not_mem_nil
      · next name hname =>
        rw [meaning_of_mem_both he] at hf
        cases hf
        exact .named hsource hclause hkind hpart hnamed hspecifier hname
    · exact absurd he List.not_mem_nil
  · obtain ⟨clause, hclause, he⟩ := List.mem_flatMap.mp he
    obtain ⟨hclause, hkind⟩ := List.mem_filter.mp hclause
    unfold ofRequire at he
    split at he
    · next n source _ hsource =>
      rw [meaning_of_mem_both he] at hf
      cases hf
      exact .required hclause (beq_iff_eq.mp hkind) hsource
    · exact absurd he List.not_mem_nil

end Scope

namespace Plan

variable {resolve : String → QName} {t : Syntax.Tree α} {p : Plan}

/-- All entries of a plan that lead to a qualified name are made in one of the known ways. -/
def Accounts (resolve : String → QName) (t : Syntax.Tree α) (p : Plan) : Prop :=
  ∀ e ∈ p.entries, ∀ f, e.meaning.path? = some f → p.Binds resolve t f

theorem Accounts.of_inner (h : p.entries.Inner) : p.Accounts resolve t := by
  intro e he f hf
  rw [h e he] at hf
  cases hf

/-- A plan that declares a name and enters it, beside inner entries. -/
theorem Accounts.of_declares (hdeclares : declaration? t.kind p.declares = some (k, f))
    (houtward : ∀ e ∈ p.outward, e.meaning = .declaration f)
    (hopened : Scope.Inner (p.opened.getD [])) : p.Accounts resolve t := by
  intro e he g hg
  rcases List.mem_append.mp he with he | he
  · rw [houtward e he] at hg
    cases hg
    exact .own k hdeclares
  · rw [hopened e he] at hg
    cases hg

theorem accounts_passThrough (frame : Frame) (assigned : Option Assignment) (taken : Taken) :
    (passThrough frame t assigned taken).Accounts resolve t := .of_inner .nil

/-- Every name that a container allocates is given to one of its functions. -/
theorem allocates_container (h : (name, f) ∈ (Scope.allocateFunctions frame.owner
      (Scope.functionNames (Scope.declaredFunctions t)) taken).1) :
    (container frame t taken).Allocates t f := by
  obtain ⟨g, hg, hassigned⟩ := Scope.exists_assignment? h
  obtain ⟨c, hc, hdeclared⟩ := Scope.mem_declaredFunctions.mp hg
  obtain ⟨-, hnamed, d, hunwrap, hd⟩ := Scope.declaredFunction?_eq_some hdeclared
  refine ⟨g.position, c, d, hc, hunwrap, hd, ?_⟩
  exact (getElem?_visits hc hnamed _).trans (congrArg (some ∘ Task.visit) hassigned)

theorem accounts_container (frame : Frame) (t : Syntax.Tree α) (taken : Taken) :
    (container frame t taken).Accounts resolve t := by
  intro e he g hg
  obtain ⟨⟨name, f⟩, hf, he⟩ := List.mem_flatMap.mp he
  rw [List.mem_singleton.mp he] at hg
  cases hg
  exact .function (allocates_container hf)

theorem accounts_functionDeclaration (frame : Frame) (assigned : Option Assignment) (taken : Taken)
    (hrole : ScopeRole.ofKind t.kind = .functionDeclaration) :
    (functionDeclaration frame t assigned taken).Accounts resolve t := by
  unfold functionDeclaration
  split
  -- a name that the container has assigned is entered by the container
  · exact .of_inner (.append .nil (Scope.inner_ofSignature t))
  · exact .of_inner (.append .nil (Scope.inner_ofSignature t))
  · split
    · exact .of_inner (.append .nil (Scope.inner_ofSignature t))
    · refine .of_declares (declaration?_some (declaredBy?_of_role hrole (by decide)) _) ?_
        (Scope.inner_ofSignature t)
      intro e he
      rw [List.mem_singleton.mp he]

theorem accounts_typed {enter : String → Meaning → Scope} (namedMembers : Bool) (frame : Frame)
    (taken : Taken) (hkind : Kind.declaredBy? t.kind = some k)
    (henter : ∀ name m, ∀ e ∈ enter name m, e.meaning = m) :
    (typed k enter namedMembers frame t taken).Accounts resolve t := by
  unfold typed
  split
  · exact accounts_passThrough frame none taken
  · exact .of_declares (declaration?_some hkind _) (henter _ _) (Scope.inner_ofTypeParameters t)

theorem accounts_enumDeclaration (frame : Frame) (taken : Taken)
    (hkind : Kind.declaredBy? t.kind = some .enum) :
    (enumDeclaration frame t taken).Accounts resolve t := by
  unfold enumDeclaration
  split
  · exact accounts_passThrough frame none taken
  · exact .of_declares (declaration?_some hkind _) (fun _ he => Scope.meaning_of_mem_both he) .nil

theorem accounts_namespaceDeclaration (frame : Frame) (taken : Taken)
    (hrole : ScopeRole.ofKind t.kind = .namespaceDeclaration) :
    (namespaceDeclaration frame t taken).Accounts resolve t := by
  unfold namespaceDeclaration
  split
  · exact accounts_passThrough frame none taken
  · next nameNode hname =>
    dsimp only
    by_cases hstring : nameNode.kind = "string"
    · rw [if_pos hstring]
      exact .of_inner .nil
    · rw [if_neg hstring]
      intro e he g hg
      rw [show e.meaning = _ from Scope.meaning_of_mem_both (by simpa [entries] using he)] at hg
      cases hg
      exact .space ⟨hrole, nameNode, frame.owner, hname, hstring, rfl, rfl⟩

theorem accounts_variableDeclarator (frame : Frame) (taken : Taken)
    (hkind : Kind.declaredBy? t.kind = some .variable) :
    (variableDeclarator frame t taken).Accounts resolve t := by
  unfold variableDeclarator
  split
  · exact .of_inner .nil
  · next nameNode _ =>
    split
    · refine .of_declares (declaration?_some hkind _) (fun e he => ?_) .nil
      rw [List.mem_singleton.mp he]
    · exact .of_inner (.append (Scope.inner_ofPattern nameNode) .nil)

theorem accounts_importStatement (frame : Frame) (taken : Taken)
    (hrole : ScopeRole.ofKind t.kind = .importStatement) :
    Accounts resolve t { passThrough frame t none taken with
      outward := Scope.ofImport resolve t, tasks := Scope.skipAll t } := by
  intro e he f hf
  refine .imported hrole (Scope.importTarget_of_mem (e := e) ?_ hf)
  simpa [entries, passThrough] using he

/-- A node that opens a scope of inner entries. -/
theorem accounts_opening (owner : QName) {own : Scope} (h : own.Inner) (taken : Taken) :
    (opening owner own t taken).Accounts resolve t := .of_inner (.append .nil h)

theorem accounts_ofNode (resolve : String → QName) (frame : Frame) (assigned : Option Assignment)
    (t : Syntax.Tree α) (taken : Taken) :
    (ofNode resolve frame assigned t taken).Accounts resolve t := by
  unfold ofNode
  cases hrole : ScopeRole.ofKind t.kind with
  | functionDeclaration => exact accounts_functionDeclaration frame assigned taken hrole
  | classDeclaration =>
    exact accounts_typed _ frame taken (declaredBy?_of_role hrole nofun)
      fun _ _ _ he => Scope.meaning_of_mem_both he
  | interfaceDeclaration =>
    exact accounts_typed _ frame taken (declaredBy?_of_role hrole nofun)
      fun _ _ _ he => by rw [List.mem_singleton.mp he]
  | typeAliasDeclaration =>
    exact accounts_typed _ frame taken (declaredBy?_of_role hrole nofun)
      fun _ _ _ he => by rw [List.mem_singleton.mp he]
  | enumDeclaration =>
    exact accounts_enumDeclaration frame taken (declaredBy?_of_role hrole nofun)
  | namespaceDeclaration => exact accounts_namespaceDeclaration frame taken hrole
  | importStatement => exact accounts_importStatement frame taken hrole
  | memberFunction => exact .of_inner (.append .nil (Scope.inner_ofSignature t))
  | anonymousFunction =>
    refine accounts_opening _ (.append ?_ (Scope.inner_ofSignature t)) taken
    split
    · exact fun e he => by rw [List.mem_singleton.mp he]; rfl
    · exact .nil
  | classExpression =>
    refine accounts_opening _ (.append ?_ (Scope.inner_ofTypeParameters t)) taken
    split
    · exact fun e he => by rw [Scope.meaning_of_mem_both he]; rfl
    · exact .nil
  | catchClause =>
    refine accounts_opening _ ?_ taken
    split
    · exact Scope.inner_ofPattern _
    · exact .nil
  | forLoop =>
    refine accounts_opening _ ?_ taken
    split
    · exact Scope.inner_ofPattern _
    · exact .nil
  | block => exact accounts_container _ t taken
  | property | variableStatement | other => exact .of_inner .nil

theorem accounts_ofTask (resolve : String → QName) (task : Task) (frame : Frame)
    (t : Syntax.Tree α) (taken : Taken) :
    (ofTask resolve task frame t taken).Accounts resolve t := by
  cases task with
  | skip => exact .of_inner .nil
  | visit assigned => exact accounts_ofNode resolve frame assigned t taken
  | declarator =>
    unfold ofTask
    dsimp only
    split
    · next hkind => exact accounts_variableDeclarator frame taken (by rw [hkind]; rfl)
    · exact accounts_ofNode resolve frame none t taken
  | body => exact accounts_container frame t taken

end Plan

/-! ## Whole trees -/

/-- The ways in which a qualified name gets into the scopes of a file. The trees are those that were
analysed, the nodes are those of the result. -/
inductive BoundIn (resolve : String → QName) (trees : List (Syntax.Tree α))
    (nodes : List (Syntax.Tree Note)) (f : QName) : Prop
  | imported (u : Syntax.Tree α) : u ∈ trees → ScopeRole.ofKind u.kind = .importStatement →
      ImportTarget resolve u f → BoundIn resolve trees nodes f
  | space (n : Syntax.Tree Note) : n ∈ nodes → NamespacePath n n.note.declares f →
      BoundIn resolve trees nodes f
  | declared (k : Kind) : DeclaredIn nodes k f → BoundIn resolve trees nodes f

theorem BoundIn.mono {resolve : String → QName} {us vs : List (Syntax.Tree α)}
    {ns ms : List (Syntax.Tree Note)} {f : QName} (h : BoundIn resolve us ns f) (hus : us ⊆ vs)
    (hns : ns ⊆ ms) : BoundIn resolve vs ms f := by
  cases h with
  | imported u hu hrole htarget => exact .imported u (hus hu) hrole htarget
  | space n hn hpath => exact .space n (hns hn) hpath
  | declared k h => exact .declared k (h.mono hns)

/-- Trees of one shape have the same labels in their fields. -/
theorem Syntax.Tree.label_field?_congr {t : Tree α} {u : Tree β} (h : t.shape = u.shape)
    (name : String) : (t.field? name).map (·.label) = (u.field? name).map (·.label) := by
  have hfield := congrArg (fun s => (s.field? name).map (·.label)) h
  simp only [Tree.shape, Tree.field?_mapNotes, Option.map_map, Function.comp_def,
    Tree.label_mapNotes] at hfield
  exact hfield

theorem NamespacePath.congr {u : Syntax.Tree β} (hshape : u.shape = t.shape)
    {declares : Option QName} (h : NamespacePath t declares f) : NamespacePath u declares f := by
  obtain ⟨hrole, name, owner, hname, hstring, hdeclares, hf⟩ := h
  have hlabel := Syntax.Tree.label_field?_congr hshape "name"
  rw [hname, Option.map_some, Option.map_eq_some_iff] at hlabel
  obtain ⟨name', hname', hsame⟩ := hlabel
  have hkind : u.kind = t.kind := by
    have := congrArg Syntax.Tree.kind hshape
    rwa [Syntax.Tree.shape, Syntax.Tree.shape, Syntax.Tree.kind_mapNotes,
      Syntax.Tree.kind_mapNotes] at this
  refine ⟨by rw [hkind]; exact hrole, name', owner, hname', ?_, ?_, ?_⟩
  · rwa [show name'.kind = name.kind from congrArg Syntax.Label.kind hsame]
  · rwa [show name'.text = name.text from congrArg Syntax.Label.text hsame]
  · rwa [show name'.text = name.text from congrArg Syntax.Label.text hsame]

/-- A name that a plan gives to a function is noted below its node. -/
theorem declaredIn_of_allocates {p : Plan} (hplaced : Placed t) (h : p.Allocates t f) :
    DeclaredIn (Syntax.Tree.subtreesAll
      (annotateAll resolve p.tasks p.frame p.taken t.children).result) .function f := by
  obtain ⟨i, c, d, hc, hunwrap, hd, htask⟩ := h
  obtain ⟨taken, hchild⟩ := getElem?_annotateAll resolve p.tasks p.frame p.taken t.children i
  rw [hc, htask] at hchild
  have hplaces := hplaced c (Syntax.Tree.mem_subtrees_of_mem_children (List.mem_of_getElem? hc))
  exact (declaredIn_statement resolve p.frame taken hplaces hunwrap hd f).mono
    fun u hu => mem_subtreesAll_of_getElem? hchild hu

/-- What a plan binds is bound in the tree that it is carried out on. -/
theorem boundIn_of_binds (hplaced : Placed t)
    (h : (Plan.ofTask resolve task frame t taken).Binds resolve t f) :
    BoundIn resolve t.subtrees (annotate resolve task frame taken t).result.subtrees f := by
  have hshape := shape_annotate resolve task frame taken t
  obtain ⟨l, a, cs⟩ := t
  rw [annotate] at hshape ⊢
  cases h with
  | imported hrole htarget =>
    exact .imported _ (Syntax.Tree.mem_subtrees_self _) hrole htarget
  | space hpath => exact .space _ (Syntax.Tree.mem_subtrees_self _) (hpath.congr hshape)
  | own k hdeclares => exact .declared k ⟨_, Syntax.Tree.mem_subtrees_self _, hdeclares⟩
  | function hallocates =>
    exact .declared .function ((declaredIn_of_allocates hplaced hallocates).mono
      fun u hu => List.mem_cons_of_mem _ hu)

/-- All entries of a scope that lead to a qualified name are bound. -/
def BoundAll (resolve : String → QName) (trees : List (Syntax.Tree α))
    (nodes : List (Syntax.Tree Note)) (s : Scope) : Prop :=
  ∀ e ∈ s, ∀ f, e.meaning.path? = some f → BoundIn resolve trees nodes f

theorem BoundAll.mono {resolve : String → QName} {us vs : List (Syntax.Tree α)}
    {ns ms : List (Syntax.Tree Note)} {s : Scope} (h : BoundAll resolve us ns s) (hus : us ⊆ vs)
    (hns : ns ⊆ ms) : BoundAll resolve vs ms s :=
  fun e he f hf => (h e he f hf).mono hus hns

theorem BoundAll.append {us : List (Syntax.Tree α)} {ns : List (Syntax.Tree Note)} {s u : Scope}
    (hs : BoundAll resolve us ns s) (hu : BoundAll resolve us ns u) :
    BoundAll resolve us ns (s ++ u) := by
  intro e he f hf
  rcases List.mem_append.mp he with he | he
  · exact hs e he f hf
  · exact hu e he f hf

/-- The entries that a stretch of the walk makes are bound: those for the scope around it, and those
of the scopes it opens. -/
structure EntriesBound (resolve : String → QName) (trees : List (Syntax.Tree α))
    (nodes : List (Syntax.Tree Note)) (outward : Scope) : Prop where
  outward : BoundAll resolve trees nodes outward
  scopes : ∀ n ∈ nodes, BoundAll resolve trees nodes n.note.scope

namespace EntriesBound

variable {resolve : String → QName} {us vs : List (Syntax.Tree α)} {ns ms : List (Syntax.Tree Note)}
  {s u : Scope}

/-- A node and what stands below it. -/
theorem node {t : Syntax.Tree α} {n : Syntax.Tree Note} {p : Plan} (h : EntriesBound resolve us ns s)
    (hnote : n.note = p.note s) (hplan : BoundAll resolve (t :: us) (n :: ns) p.entries) :
    EntriesBound resolve (t :: us) (n :: ns) (p.outwardWith s) := by
  have hbelow {s : Scope} (h : BoundAll resolve us ns s) : BoundAll resolve (t :: us) (n :: ns) s :=
    h.mono (fun _ => List.mem_cons_of_mem _) fun _ => List.mem_cons_of_mem _
  have hown : BoundAll resolve (t :: us) (n :: ns) p.outward :=
    fun e he => hplan e (List.mem_append_left _ he)
  constructor
  -- a node that opens a scope keeps what stands below it to itself
  · unfold Plan.outwardWith
    split
    · exact hown
    · exact hown.append (hbelow h.outward)
  · intro m hm
    rcases List.mem_cons.mp hm with rfl | hm
    · rw [hnote]
      unfold Plan.note
      dsimp only
      split
      · next own hopened =>
        refine .append (fun e he => hplan e ?_) (hbelow h.outward)
        exact List.mem_append_right _ (by rw [hopened]; exact he)
      · exact nofun
    · exact hbelow (h.scopes m hm)

/-- One tree after the other. -/
theorem append (h : EntriesBound resolve us ns s) (h' : EntriesBound resolve vs ms u) :
    EntriesBound resolve (us ++ vs) (ns ++ ms) (s ++ u) := by
  have hleft {s : Scope} (h : BoundAll resolve us ns s) :
      BoundAll resolve (us ++ vs) (ns ++ ms) s :=
    h.mono (fun _ => List.mem_append_left _) fun _ => List.mem_append_left _
  have hright {s : Scope} (h : BoundAll resolve vs ms s) :
      BoundAll resolve (us ++ vs) (ns ++ ms) s :=
    h.mono (fun _ => List.mem_append_right _) fun _ => List.mem_append_right _
  refine ⟨(hleft h.outward).append (hright h'.outward), fun n hn => ?_⟩
  rcases List.mem_append.mp hn with hn | hn
  · exact hleft (h.scopes n hn)
  · exact hright (h'.scopes n hn)

end EntriesBound

mutual

theorem entriesBound_annotate (resolve : String → QName) : ∀ (t : Syntax.Tree α) (task : Task)
    (frame : Frame) (taken : Taken), Placed t →
      EntriesBound resolve t.subtrees (annotate resolve task frame taken t).result.subtrees
        (annotate resolve task frame taken t).outward
  | .node l a cs, task, frame, taken, hplaced => by
    have hplan : BoundAll resolve _ _ (Plan.ofTask resolve task frame (.node l a cs)
        taken).entries := fun e he f hf =>
      boundIn_of_binds hplaced (Plan.accounts_ofTask resolve task frame _ taken e he f hf)
    rw [annotate] at hplan ⊢
    have hinner := entriesBound_annotateAll resolve cs
      (Plan.ofTask resolve task frame (.node l a cs) taken).tasks
      (Plan.ofTask resolve task frame (.node l a cs) taken).frame
      (Plan.ofTask resolve task frame (.node l a cs) taken).taken
      fun u hu => hplaced u (List.mem_cons_of_mem _ hu)
    exact hinner.node rfl hplan

theorem entriesBound_annotateAll (resolve : String → QName) : ∀ (ts : List (Syntax.Tree α))
    (tasks : List Task) (frame : Frame) (taken : Taken),
      (∀ u ∈ Syntax.Tree.subtreesAll ts, PlacesDeclarations u) →
      EntriesBound resolve (Syntax.Tree.subtreesAll ts)
        (Syntax.Tree.subtreesAll (annotateAll resolve tasks frame taken ts).result)
        (annotateAll resolve tasks frame taken ts).outward
  | [], tasks, frame, taken, _ => ⟨nofun, nofun⟩
  | t :: ts, tasks, frame, taken, hplaced => by
    rw [annotateAll]
    exact .append
      (entriesBound_annotate resolve t _ _ _ fun u hu => hplaced u (List.mem_append_left _ hu))
      (entriesBound_annotateAll resolve ts _ _ _
        fun u hu => hplaced u (List.mem_append_right _ hu))

end

/-- Every qualified name that a scope of a file leads to is imported, the path of a namespace or the
name of a declaration. -/
theorem boundIn_analyse (resolve : String → QName) (module : QName) (h : Placed t)
    {n : Syntax.Tree Note} (hn : n ∈ (analyse resolve module t).subtrees) :
    BoundAll resolve t.subtrees (analyse resolve module t).subtrees n.note.scope :=
  (entriesBound_annotate resolve t .body _ [] h).scopes n hn

/-! ## Overloads -/

/-- No task of a list comes with an assignment. -/
def Task.Unassigned (tasks : List Task) : Prop := ∀ a, .visit (some a) ∉ tasks

theorem unassigned_visitNamed (t : Syntax.Tree α) : Task.Unassigned (Scope.visitNamed t) := by
  intro a h
  obtain ⟨c, -, hc⟩ := List.mem_map.mp h
  split at hc <;> cases hc

theorem unassigned_skipAll (t : Syntax.Tree α) : Task.Unassigned (Scope.skipAll t) := by
  intro a h
  obtain ⟨c, -, hc⟩ := List.mem_map.mp h
  cases hc

theorem unassigned_visitDeclarators (t : Syntax.Tree α) :
    Task.Unassigned (Scope.visitDeclarators t) := by
  intro a h
  obtain ⟨c, -, hc⟩ := List.mem_map.mp h
  split at hc <;> cases hc

theorem unassigned_visitBody (t : Syntax.Tree α) : Task.Unassigned (Scope.visitBody t) := by
  unfold Scope.visitBody
  split
  · exact unassigned_skipAll t
  · intro a h
    obtain ⟨p, -, hp⟩ := List.mem_map.mp h
    dsimp only at hp
    split at hp <;> cases hp

/-- A wrapper hands on what it was assigned itself. -/
theorem assigned_of_visitWrapped {a : Assignment}
    (h : .visit (some a) ∈ Scope.visitWrapped t assigned) : assigned = some a := by
  obtain ⟨target, htasks⟩ := visitWrapped_eq t assigned
  rw [htasks] at h
  obtain ⟨p, -, hp⟩ := List.mem_map.mp h
  split at hp
  · have hhanded := Task.visit.inj hp
    split at hhanded
    · exact hhanded
    · cases hhanded
  · cases hp

theorem unassigned_passThrough (t : Syntax.Tree α) : Task.Unassigned (Scope.visitWrapped t none) := by
  intro a h
  cases assigned_of_visitWrapped h

namespace Plan

/-- An assignment that a plan makes was made to its node, or the plan has allocated the name. -/
def Assigns (p : Plan) (t : Syntax.Tree α) (assigned : Option Assignment) : Prop :=
  ∀ f, .visit (some (.overloads f)) ∈ p.tasks → assigned = some (.overloads f) ∨ p.Allocates t f

theorem assigns_container (frame : Frame) (t : Syntax.Tree α) (assigned : Option Assignment)
    (taken : Taken) : (container frame t taken).Assigns t assigned := by
  intro f hf
  obtain ⟨⟨c, i⟩, -, hc⟩ := List.mem_map.mp hf
  dsimp only at hc
  split at hc
  · obtain ⟨name, hname⟩ := Scope.mem_of_assignment? (Task.visit.inj hc)
    exact .inr (allocates_container hname)
  · cases hc

theorem assigns_ofNode (resolve : String → QName) (frame : Frame) (assigned : Option Assignment)
    (t : Syntax.Tree α) (taken : Taken) :
    (ofNode resolve frame assigned t taken).Assigns t assigned := by
  by_cases hblock : ScopeRole.ofKind t.kind = .block
  · unfold ofNode
    rw [hblock]
    exact assigns_container _ t assigned taken
  -- nothing is allocated outside of containers
  · have hnone {tasks : List Task} (h : Task.Unassigned tasks) (f : QName)
        (hf : .visit (some (.overloads f)) ∈ tasks) : assigned = some (.overloads f) :=
      absurd hf (h _)
    have hpassed := tasks_ofNode
      (P := fun tasks => ∀ f, .visit (some (.overloads f)) ∈ tasks → assigned = some (.overloads f))
      resolve frame assigned t taken (hnone (unassigned_visitNamed t))
      (hnone (unassigned_passThrough t)) (fun f hf => assigned_of_visitWrapped hf)
      (fun h => absurd h hblock) (fun _ => hnone (unassigned_visitBody t))
      (fun _ => hnone (unassigned_visitDeclarators t)) fun _ => hnone (unassigned_skipAll t)
    exact fun f hf => .inl (hpassed f hf)

/-- A plan hands the assignment of an overload on, or it has allocated the name itself. -/
theorem allocates_of_overloads
    (h : .visit (some (.overloads f)) ∈ (ofTask resolve task frame t taken).tasks) :
    task = .visit (some (.overloads f)) ∨ (ofTask resolve task frame t taken).Allocates t f := by
  cases task with
  | skip => exact absurd h (unassigned_skipAll t _)
  | visit assigned =>
    rcases assigns_ofNode resolve frame assigned t taken f h with rfl | h
    · exact .inl rfl
    · exact .inr h
  | declarator =>
    unfold ofTask at h ⊢
    dsimp only at h ⊢
    split at h
    · next hkind =>
      rw [if_pos hkind]
      unfold variableDeclarator at h
      split at h
      · exact absurd h (unassigned_skipAll t _)
      · split at h
        · exact absurd h (unassigned_visitNamed t _)
        · exact absurd h (unassigned_passThrough t _)
    · next hkind =>
      rw [if_neg hkind]
      exact .inr ((assigns_ofNode resolve frame none t taken f h).resolve_left nofun)
  | body => exact .inr ((assigns_container frame t none taken f h).resolve_left nofun)

theorem overloads_ofNode (h : (ofNode resolve frame assigned t taken).overloads = some f) :
    assigned = some (.overloads f) ∧ (ofNode resolve frame assigned t taken).declares = none := by
  have htyped {k : Kind} {enter : String → Meaning → Scope} {namedMembers : Bool}
      (h : (typed k enter namedMembers frame t taken).overloads = some f) : False := by
    unfold typed at h
    split at h <;> cases h
  unfold ofNode at h ⊢
  cases hrole : ScopeRole.ofKind t.kind <;> rw [hrole] at h <;> dsimp only at h ⊢
  case functionDeclaration =>
    unfold functionDeclaration at h ⊢
    split at h
    · cases h
    · cases h
      exact ⟨rfl, rfl⟩
    · split at h <;> cases h
  case classDeclaration => exact (htyped h).elim
  case interfaceDeclaration => exact (htyped h).elim
  case typeAliasDeclaration => exact (htyped h).elim
  case enumDeclaration =>
    unfold enumDeclaration at h
    split at h <;> cases h
  case namespaceDeclaration =>
    unfold namespaceDeclaration at h
    split at h <;> cases h
  all_goals cases h

/-- Only a function that is visited as an overload is noted as one, and then it declares nothing. -/
theorem overloads_ofTask (h : (ofTask resolve task frame t taken).overloads = some f) :
    task = .visit (some (.overloads f)) ∧ (ofTask resolve task frame t taken).declares = none := by
  cases task with
  | skip => cases h
  | visit assigned =>
    obtain ⟨rfl, hdeclares⟩ := overloads_ofNode h
    exact ⟨rfl, hdeclares⟩
  | declarator =>
    unfold ofTask at h
    dsimp only at h
    split at h
    · unfold variableDeclarator at h
      split at h
      · cases h
      · split at h <;> cases h
    · cases (overloads_ofNode h).1
  | body => cases h

end Plan

mutual

/-- The function that an overload belongs to is noted in the tree, unless the tree is that of the
overload. -/
theorem declaredIn_overloads (resolve : String → QName) {f : QName} {u : Syntax.Tree Note}
    (hu : u.note.overloads = some f) : ∀ (t : Syntax.Tree α) (task : Task) (frame : Frame)
    (taken : Taken), Placed t → u ∈ (annotate resolve task frame taken t).result.subtrees →
      task = .visit (some (.overloads f)) ∨
        DeclaredIn (annotate resolve task frame taken t).result.subtrees .function f
  | .node l a cs, task, frame, taken, hplaced, hmem => by
    rw [annotate] at hmem ⊢
    rcases List.mem_cons.mp hmem with rfl | hmem
    · exact .inl (Plan.overloads_ofTask hu).1
    -- a task below comes from the task here, or from a name that is allocated here
    · rcases declaredIn_overloadsAll resolve hu cs _ _ _
        (fun u hu => hplaced u (List.mem_cons_of_mem _ hu)) hmem with htask | hdeclared
      · rcases Plan.allocates_of_overloads htask with htask | hallocates
        · exact .inl htask
        · exact .inr ((declaredIn_of_allocates hplaced hallocates).mono
            fun _ => List.mem_cons_of_mem _)
      · exact .inr (hdeclared.mono fun _ => List.mem_cons_of_mem _)

theorem declaredIn_overloadsAll (resolve : String → QName) {f : QName} {u : Syntax.Tree Note}
    (hu : u.note.overloads = some f) : ∀ (ts : List (Syntax.Tree α)) (tasks : List Task)
    (frame : Frame) (taken : Taken), (∀ u ∈ Syntax.Tree.subtreesAll ts, PlacesDeclarations u) →
      u ∈ Syntax.Tree.subtreesAll (annotateAll resolve tasks frame taken ts).result →
      .visit (some (.overloads f)) ∈ tasks ∨
        DeclaredIn (Syntax.Tree.subtreesAll (annotateAll resolve tasks frame taken ts).result)
          .function f
  | [], _, _, _, _, hmem => absurd hmem List.not_mem_nil
  | t :: ts, tasks, frame, taken, hplaced, hmem => by
    rw [annotateAll] at hmem ⊢
    rcases List.mem_append.mp hmem with hmem | hmem
    · rcases declaredIn_overloads resolve hu t _ _ _
        (fun u hu => hplaced u (List.mem_append_left _ hu)) hmem with htask | hdeclared
      · refine .inl ?_
        cases tasks with
        | nil => cases htask
        | cons task tasks =>
          rw [← htask]
          exact List.mem_cons_self
      · exact .inr (hdeclared.mono fun _ => List.mem_append_left _)
    · rcases declaredIn_overloadsAll resolve hu ts _ _ _
        (fun u hu => hplaced u (List.mem_append_right _ hu)) hmem with htask | hdeclared
      · exact .inl (List.mem_of_mem_tail htask)
      · exact .inr (hdeclared.mono fun _ => List.mem_append_right _)

end

theorem declaredIn_of_overloads (resolve : String → QName) (module : QName) (h : Placed t)
    {u : Syntax.Tree Note} (hu : u ∈ (analyse resolve module t).subtrees)
    (hf : u.note.overloads = some f) : DeclaredIn (analyse resolve module t).subtrees .function f :=
  (declaredIn_overloads resolve hf t .body _ [] h hu).resolve_left nofun

end CodeConcepts
