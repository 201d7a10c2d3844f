import CodeConcepts.Proofs.Recording

/-!
# References inside a file lead somewhere

An identifier means what the innermost scope around it says that has an entry for it. Whatever that
scope is, its entries are bound (`boundIn_analyse`), and what a declaration binds is recorded
(`Extract.recorded_of_declared`). So a reference that resolves to a declaration leads to something
imported, to the path of a namespace or to a record of the file: shadowing, overloads, functions
that are used before their declaration and names that were changed to keep them apart make no
difference.
-/

namespace CodeConcepts

variable {α : Type} {n : ScopedNode} {space : Space}

/-! ## Nodes inside a node -/

namespace Syntax.Node

/-- The node that a path of positions leads to. -/
def at? (n : Node α) : List Nat → Option (Node α)
  | [] => some n
  | i :: path =>
    match n.tree.children[i]? with
    | some c => (n.down c).at? path
    | none => none

theorem mem_descendants_of_at? {n d : Node α} {path : List Nat} (h : n.at? path = some d) :
    d ∈ n.descendants := by
  induction path generalizing n with
  | nil =>
    cases h
    exact mem_descendants_self _
  | cons i path ih =>
    rw [at?] at h
    split at h
    · next c hc => exact descendants_down_subset (List.mem_of_getElem? hc) (ih h)
    · cases h

/-- What lies inside a node inside another one lies inside that one. -/
theorem descendants_subset {r n : Node α} (h : n ∈ r.descendants) :
    n.descendants ⊆ r.descendants := by
  rw [r.descendants_eq] at h
  rcases List.mem_cons.mp h with rfl | h
  · exact List.Subset.refl _
  · obtain ⟨b, hb, hn⟩ := List.mem_flatMap.mp h
    exact List.Subset.trans (descendants_subset hn) (descendants_down_subset hb)
termination_by r.size
decreasing_by exact Tree.size_lt_of_mem_children hb

/-- The children of the nodes inside a node lie inside it. -/
theorem mem_descendants_down {r n : Node α} (h : n ∈ r.descendants) {c : Tree α}
    (hc : c ∈ n.tree.children) : n.down c ∈ r.descendants :=
  descendants_subset h (descendants_down_subset hc (mem_descendants_self _))

end Syntax.Node

/-! ## Lookup -/

namespace ScopedNode

/-- What a lookup finds is an entry of a scope around the node. -/
theorem exists_entry_of_lookup? {name : String} {m : Meaning} (h : lookup? n space name = some m) :
    ∃ u ∈ n.tree :: n.above, ∃ e ∈ u.note.scope, e.meaning = m := by
  obtain ⟨u, hu, hfind⟩ := List.exists_of_findSome?_eq_some h
  obtain ⟨e, he, hm⟩ := Option.map_eq_some_iff.mp hfind
  exact ⟨u, hu, e, List.mem_of_find?_eq_some he, hm⟩

/-- An identifier refers to a declaration if it is found with a meaning that leads there. -/
theorem resolve_eq_declaration {f : QName} (h : resolve space n = .declaration f) :
    ∃ m, lookup? n space n.text = some m ∧ m.path? = some f := by
  unfold resolve at h
  split at h
  · next hlookup => exact ⟨_, hlookup, congrArg some (Resolution.declaration.inj h)⟩
  · next hlookup => exact ⟨_, hlookup, congrArg some (Resolution.declaration.inj h)⟩
  · cases h
  · cases h
  · cases h

end ScopedNode

/-- Every reference of a file is bound in it. -/
theorem boundIn_of_resolve {resolve : String → QName} {module : QName} {t : Syntax.Tree α}
    (hplaced : Placed t) (hn : n ∈ (Syntax.Node.root (analyse resolve module t)).descendants)
    {f : QName} (hf : ScopedNode.resolve space n = .declaration f) :
    BoundIn resolve t.subtrees (analyse resolve module t).subtrees f := by
  obtain ⟨m, hlookup, hpath⟩ := ScopedNode.resolve_eq_declaration hf
  obtain ⟨u, hu, e, he, rfl⟩ := ScopedNode.exists_entry_of_lookup? hlookup
  exact boundIn_analyse resolve module hplaced
    (Syntax.Node.mem_subtrees_of_mem_root hn u hu) e he f hpath

namespace Extract

/-- No reference inside a file is left dangling: where extraction succeeds, a name that resolves to
a declaration, as a value or as a type, is what an import statement of the file binds, the path that
a namespace of the file binds, or the name of a record of the file. -/
theorem resolve_leads_to_record {o : Origin} {resolve : String → QName} {module : QName}
    {t : Syntax.Tree α} {m : Model} (hplaced : Placed t)
    (hmodel : fileModel Extractor.all o (analyse resolve module t) = .ok m) :
    ∀ n ∈ (Syntax.Node.root (analyse resolve module t)).descendants, ∀ (space : Space) (f : QName),
      ScopedNode.resolve space n = .declaration f →
        (∃ u ∈ t.subtrees, ScopeRole.ofKind u.kind = .importStatement ∧ ImportTarget resolve u f) ∨
        (∃ u ∈ (analyse resolve module t).subtrees, NamespacePath u u.note.declares f) ∨
        m.Records f := by
  intro n hn space f hf
  cases boundIn_of_resolve hplaced hn hf with
  | imported u hu hrole htarget => exact .inl ⟨u, hu, hrole, htarget⟩
  | space u hu hpath => exact .inr (.inl ⟨u, hu, hpath⟩)
  | declared k hdeclared => exact .inr (.inr (recorded_of_declared hplaced hmodel hdeclared))

/-- Two sibling blocks that declare `f`, in the second of which it is used before its declaration,
and an import. -/
def referringTree : Syntax.Tree Unit :=
  sampleNode "program" [] "" [
    sampleNode "import_statement" [] "" [
      sampleNode "import_clause" [] "" [sampleNode "identifier" [] "f" []],
      sampleNode "string" ["source"] "'./b'" []],
    sampleNode "statement_block" [] "" [sampleFunction "function_declaration" "f"],
    sampleNode "statement_block" [] "" [
      sampleNode "expression_statement" [] "" [sampleNode "identifier" [] "f" []],
      sampleFunction "function_declaration" "f"]]

/-- The tree of the sample file with the notes of the analysis. -/
def referringNotes : Syntax.Tree Note :=
  analyse sampleOrigin.resolve sampleOrigin.module referringTree

theorem resolve_leads_to_record_shadowed : Placed referringTree ∧
    ∃ m, fileModel Extractor.all sampleOrigin referringNotes = .ok m ∧
      ∃ n ∈ (Syntax.Node.root referringNotes).descendants,
        ScopedNode.resolve .value n = .declaration ⟨"\"/p/a.ts\".f$1"⟩ ∧
          ((∃ u ∈ referringTree.subtrees, ScopeRole.ofKind u.kind = .importStatement ∧
            ImportTarget sampleOrigin.resolve u ⟨"\"/p/a.ts\".f$1"⟩) ∨
          (∃ u ∈ referringNotes.subtrees,
            NamespacePath u u.note.declares ⟨"\"/p/a.ts\".f$1"⟩) ∨
          m.Records ⟨"\"/p/a.ts\".f$1"⟩) := by
  have hplaced : Placed referringTree := by decide +kernel
  have hok : (fileModel Extractor.all sampleOrigin referringNotes).toOption.map (fun _ => ()) =
      some () := by decide +kernel
  have hresolve : ((Syntax.Node.root referringNotes).at? [2, 0, 0]).map
      (ScopedNode.resolve .value) = some (.declaration ⟨"\"/p/a.ts\".f$1"⟩) := by decide +kernel
  obtain ⟨m, hmodel, -⟩ := exists_ok_of_map hok
  obtain ⟨n, hn, hf⟩ := Option.map_eq_some_iff.mp hresolve
  have hinside := Syntax.Node.mem_descendants_of_at? hn
  exact ⟨hplaced, m, hmodel, n, hinside, hf,
    resolve_leads_to_record hplaced hmodel n hinside .value _ hf⟩

end Extract

end CodeConcepts
