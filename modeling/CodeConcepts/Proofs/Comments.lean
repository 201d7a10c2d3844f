import CodeConcepts.Proofs.DistinctRecords
import CodeConcepts.Proofs.RecordErasure
import CodeConcepts.Proofs.ScopeErasure

/-!
# Comments and the model of a file

The walk visits the comments of a tree like other nodes and finds nothing there. Without them it
visits the same other nodes in the same order (`Extract.visits_erase`), and their records are the
same, so the model of a file does not depend on comments that nothing reads
(`Extract.fileModel_erase_comments`). A comment that stands where positions count does change the
model: between the types of a union it is taken for a type of its own
(`Extract.aliasTypes_comment_in_union`).
-/

namespace CodeConcepts.Extract

open Syntax (Node Label)
open ScopedNode (declares?_erase overloads?_erase)

variable {chosen : Label → Bool} {n : ScopedNode}

/-! ## Where the walk goes -/

namespace Descent

/-- The descent without the turns for the chosen children of its node. -/
def erase (chosen : Label → Bool) (n : ScopedNode) (d : Descent) : Descent :=
  { d with turns := Syntax.Tree.kept chosen .skip n.tree.children d.turns }

theorem children_erase (owner : QName) (n : ScopedNode) :
    children owner (n.erase chosen) = (children owner n).erase chosen n := by
  refine congrArg (Descent.mk owner) (Syntax.Tree.map_children_erase (fun c => ?_) n.tree)
  rw [Syntax.Tree.label_erase]

theorem stop_erase (owner : QName) (n : ScopedNode) :
    stop owner (n.erase chosen) = (stop owner n).erase chosen n :=
  congrArg (Descent.mk owner) (Syntax.Tree.map_children_erase (fun _ => rfl) n.tree)

theorem declarators_erase (kind : VariableKind) (owner : QName) (n : ScopedNode) :
    declarators kind owner (n.erase chosen) = (declarators kind owner n).erase chosen n := by
  refine congrArg (Descent.mk owner) (Syntax.Tree.map_children_erase (fun c => ?_) n.tree)
  rw [Syntax.Tree.label_erase]

theorem body_erase (owner : QName) (h : n.tree.Idle chosen) :
    body owner (n.erase chosen) = (body owner n).erase chosen n := by
  have hrole (c : Syntax.Tree Note) : (c.erase chosen).label.roles.contains "body" =
      c.label.roles.contains "body" := by rw [Syntax.Tree.label_erase]
  have hfind : (n.erase chosen).tree.children.findIdx? (fun c => c.label.roles.contains "body") =
      (n.tree.children.findIdx? fun c => c.label.roles.contains "body").map
        (Syntax.rank (Syntax.Tree.stays chosen) n.tree.children) :=
    Syntax.Tree.findIdx?_children_erase hrole fun _ => h.stays_of_role
  unfold body
  rw [hfind]
  cases hb : n.tree.children.findIdx? fun c => c.label.roles.contains "body" with
  | none => exact stop_erase owner n
  | some b =>
    exact congrArg (Descent.mk owner)
      (Syntax.Tree.map_only_erase hrole (fun _ => h.stays_of_role) hb)

end Descent

theorem variableKind_erase (h : n.tree.Idle chosen) :
    variableKind (n.erase chosen) = variableKind n := by
  rw [variableKind, Node.fieldText?_erase h, variableKind]

theorem ownerWithin_erase (owner : QName) (n : ScopedNode) :
    ownerWithin owner (n.erase chosen) = ownerWithin owner n := by
  rw [ownerWithin, overloads?_erase, declares?_erase, ownerWithin]

theorem Role.descent_erase {r : Role} (owner : QName) (h : n.tree.Idle chosen)
    (hrole : Role.ofKind? n.kind = some r) :
    r.descent owner (n.erase chosen) = (r.descent owner n).erase chosen n := by
  cases r with
  | «import» | identifier | typeIdentifier | nestedType | closingTag =>
    exact Descent.stop_erase owner n
  | «export» =>
    unfold Role.descent
    dsimp only
    rw [Node.field?_erase h, exportedValue?_erase h (Role.kind_of_export hrole), Option.isSome_map,
      Option.isSome_map, Descent.children_erase, Descent.stop_erase]
    split <;> rfl
  | function =>
    unfold Role.descent
    dsimp only
    rw [ownerWithin_erase, Descent.children_erase]
  | classDeclaration | member | interface | typeAlias | enum =>
    unfold Role.descent
    dsimp only
    rw [declares?_erase, Descent.children_erase]
  | variableStatement =>
    unfold Role.descent
    dsimp only
    rw [variableKind_erase h, Descent.declarators_erase]
  | «namespace» => exact Descent.body_erase owner h
  | memberAccess =>
    unfold Role.descent
    dsimp only
    rw [accessedMember?_erase h, Descent.children_erase, Descent.stop_erase]
    split <;> rfl

/-! ## Visits -/

namespace Visit

variable {v : Visit}

/-- The visit of the same node in the tree without the chosen nodes. -/
def erase (chosen : Label → Bool) (v : Visit) : Visit := { v with node := v.node.erase chosen }

/-- Whether the node that is visited is kept. -/
def stays (chosen : Label → Bool) (v : Visit) : Bool := v.node.tree.stays chosen

theorem declaredVariable?_erase (v : Visit) :
    (v.erase chosen).declaredVariable? = v.declaredVariable? := by
  unfold declaredVariable?
  rw [show (v.erase chosen).node = v.node.erase chosen from rfl, declares?_erase]
  rfl

theorem ofKind?_of_handledRole? {table : List Extractor} {kind : String} {r : Role}
    (h : handledRole? table kind = some r) : Role.ofKind? kind = some r :=
  (Option.filter_eq_some_iff.mp h).1

theorem descent_erase (table : List Extractor) (h : v.node.tree.Idle chosen) :
    (v.erase chosen).descent table = (v.descent table).erase chosen v.node := by
  unfold descent
  rw [declaredVariable?_erase]
  split
  · exact Descent.children_erase _ v.node
  · rw [show (v.erase chosen).node = v.node.erase chosen from rfl, Node.kind_erase]
    split
    case h_1 r hrole => exact Role.descent_erase v.owner h (ofKind?_of_handledRole? hrole)
    case h_2 => exact Descent.children_erase v.owner v.node

/-- Removing comments that nothing reads changes no record of a visit. -/
theorem concepts_erase (table : List Extractor) (o : Origin) (h : v.node.tree.Idle chosen)
    (habove : ∀ u ∈ v.node.above, u.Idle chosen) :
    (v.erase chosen).concepts table o = v.concepts table o := by
  unfold concepts
  rw [declaredVariable?_erase, show (v.erase chosen).node = v.node.erase chosen from rfl,
    Node.kind_erase]
  split
  · rw [variableDecl_erase _ _ _ h]
  · split
    case h_1 r hrole => exact Role.concepts_erase o v.owner h habove (ofKind?_of_handledRole? hrole)
    case h_2 => rfl

/-- A bare comment without a name has no records. -/
theorem concepts_of_bare (table : List Extractor) (o : Origin) (hbare : v.node.tree.IsBareComment)
    (hdeclares : v.node.tree.note.declares = none) : v.concepts table o = .ok [] := by
  have hvariable : v.declaredVariable? = none := by
    unfold declaredVariable?
    rw [show ScopedNode.declares? v.node = none from hdeclares]
    cases v.declarator <;> rfl
  have hkind : v.node.kind = "comment" := hbare.1
  unfold concepts
  rw [hvariable, hkind]
  rfl

/-- Below a leaf nothing is visited. -/
theorem visits_of_leaf (table : List Extractor) (owner : QName) (declarator : Option VariableKind)
    (above : List (Syntax.Tree Note)) {t : Syntax.Tree Note} (h : t.children = []) :
    visits table owner declarator above t = [⟨owner, declarator, ⟨t, above⟩⟩] := by
  obtain ⟨l, a, cs⟩ := t
  obtain rfl : cs = [] := h
  rw [visits]
  rfl

end Visit

mutual

theorem visits_erase (table : List Extractor) (owner : QName) (declarator : Option VariableKind)
    (above : List (Syntax.Tree Note)) : ∀ {t : Syntax.Tree Note}, t.Idle chosen →
      t.stays chosen = true →
      visits table owner declarator (above.map (Syntax.Tree.erase chosen)) (t.erase chosen) =
        ((visits table owner declarator above t).filter (Visit.stays chosen)).map
          (Visit.erase chosen)
  | .node l a cs, h, hstays => by
    let v : Visit := ⟨owner, declarator, ⟨.node l a cs, above⟩⟩
    have hdescent := v.descent_erase table h
    have hbelow := visitsAll_erase table (v.descent table).owner (v.descent table).turns
      (.node l a cs :: above) cs fun c hc => h.of_mem_children hc
    have hv : v.stays chosen = true := hstays
    have hvisits : visits table owner declarator (above.map (Syntax.Tree.erase chosen))
        (Syntax.Tree.erase chosen (.node l a cs)) =
      v.erase chosen :: visitsAll table ((v.erase chosen).descent table).owner
        ((v.erase chosen).descent table).turns
        ((.node l a cs :: above).map (Syntax.Tree.erase chosen))
        (Syntax.Tree.eraseAll chosen cs) := by
      rw [Syntax.Tree.erase, visits]
      rfl
    rw [hvisits, hdescent, visits, List.filter_cons_of_pos hv]
    exact congrArg (v.erase chosen :: ·) hbelow

theorem visitsAll_erase (table : List Extractor) (owner : QName) (turns : List Turn)
    (above : List (Syntax.Tree Note)) : ∀ ts : List (Syntax.Tree Note), (∀ t ∈ ts, t.Idle chosen) →
      visitsAll table owner (Syntax.Tree.kept chosen .skip ts turns)
          (above.map (Syntax.Tree.erase chosen)) (Syntax.Tree.eraseAll chosen ts) =
        ((visitsAll table owner turns above ts).filter (Visit.stays chosen)).map
          (Visit.erase chosen)
  | [], _ => rfl
  | t :: ts, h => by
    have hidle := h t List.mem_cons_self
    have hrest := visitsAll_erase table owner turns.tail above ts
      fun u hu => h u (List.mem_cons_of_mem _ hu)
    rw [visitsAll, List.filter_append, List.map_append, ← hrest, Syntax.Tree.eraseAll,
      Syntax.Tree.kept]
    split
    case isTrue hchosen =>
      -- the comment is visited, and nothing below it
      have hleaf := (hidle.bare t (Syntax.Tree.mem_subtrees_self t) hchosen).2.1
      have hnone (declarator : Option VariableKind) :
          (visits table owner declarator above t).filter (Visit.stays chosen) = [] := by
        rw [Visit.visits_of_leaf table owner declarator above hleaf]
        simp [Visit.stays, Syntax.Tree.stays, hchosen]
      cases turns.head?.getD .skip with
      | skip => rfl
      | visit | declarator kind => simp only [hnone, List.map_nil, List.nil_append]
    case isFalse hchosen =>
      have hfirst (declarator : Option VariableKind) :=
        visits_erase table owner declarator above hidle
          (by simpa [Syntax.Tree.stays] using hchosen)
      rw [visitsAll]
      dsimp only [List.head?_cons, Option.getD_some, List.tail_cons]
      cases turns.head?.getD .skip with
      | skip => rfl
      | visit | declarator kind => simp only [hfirst]

end

theorem walk_erase (table : List Extractor) (module : QName) {t : Syntax.Tree Note}
    (h : t.Idle chosen) : walk table module (t.erase chosen) =
      ((walk table module t).filter (Visit.stays chosen)).map (Visit.erase chosen) := by
  have hdescent : Descent.children module ((Node.root t).erase chosen) = _ :=
    Descent.children_erase module (.root t)
  have hbelow := visitsAll_erase table module (Descent.children module (.root t)).turns [t]
    t.children fun c hc => h.of_mem_children hc
  unfold walk
  rw [show Node.root (t.erase chosen) = (Node.root t).erase chosen from rfl, hdescent,
    Syntax.Tree.children_erase, ← Syntax.Tree.eraseAll_eq_map]
  exact hbelow

/-! ## The model of a file -/

/-- Visits without records can be left out. -/
theorem conceptsOf_erase (table : List Extractor) (o : Origin) {vs : List Visit}
    (hidle : ∀ v ∈ vs, ∀ u ∈ v.node.tree :: v.node.above, u.Idle chosen)
    (hbare : ∀ v ∈ vs, v.stays chosen = false → v.concepts table o = .ok []) :
    conceptsOf table o ((vs.filter (Visit.stays chosen)).map (Visit.erase chosen)) =
      conceptsOf table o vs := by
  induction vs with
  | nil => rfl
  | cons v vs ih =>
    rw [List.forall_mem_cons] at hidle hbare
    have hrest := ih hidle.2 hbare.2
    rw [conceptsOf, List.filter_cons]
    cases hv : v.stays chosen with
    | true =>
      obtain ⟨hnode, habove⟩ := List.forall_mem_cons.mp hidle.1
      rw [if_pos rfl, List.map_cons, conceptsOf, v.concepts_erase table o hnode habove, hrest]
    | false =>
      rw [if_neg Bool.false_ne_true, hbare.1 hv, hrest]
      cases conceptsOf table o vs <;> rfl

/-- Comments do not change the model of a file, as long as none of those that are removed stands
where positions count: the tree without them gives the same fault or the same records and edges in
the same order. -/
theorem fileModel_erase_comments {α : Type} (table : List Extractor) (o : Origin)
    (resolve : String → QName) (module : QName) {t : Syntax.Tree α}
    (hdepth : t.exceedsDepth depthLimit = false) {chosen : Label → Bool} (hidle : t.Idle chosen) :
    fileModel table o (analyse resolve module (t.erase chosen)) =
      fileModel table o (analyse resolve module t) := by
  have hidle' := idle_analyse resolve module hidle
  have hsilent := silent_analyse resolve module hidle
  have hdepth' : (analyse resolve module t).exceedsDepth depthLimit = false := by
    rw [exceedsDepth_analyse, hdepth]
  have hbare (v : Visit) (hv : v ∈ walk table o.module (analyse resolve module t))
      (hstays : v.stays chosen = false) : v.concepts table o = .ok [] := by
    have hmem := tree_mem_of_mem_walk hv
    have hchosen : chosen v.node.tree.label = true := by
      simpa [Visit.stays, Syntax.Tree.stays] using hstays
    exact v.concepts_of_bare table o (hidle'.bare _ hmem hchosen) (hsilent _ hmem hchosen)
  rw [analyse_erase resolve module hidle]
  unfold fileModel
  rw [Syntax.Tree.exceedsDepth_erase chosen hdepth', hdepth', walk_erase table o.module hidle',
    conceptsOf_erase table o
      (fun v hv u hu => hidle'.of_mem_subtrees (Node.mem_subtrees_of_mem_root
        ((nodes_walk _ _).subset (List.mem_map_of_mem hv)) u hu)) hbare]

/-- A union of two types with a comment between them, as in `type T = A | /* b */ B`. -/
def commentedUnion : Syntax.Tree Unit :=
  sampleNode "type_alias_declaration" [] "type T = A | /* b */ B" [
    sampleNode "type_identifier" ["name"] "T" [],
    sampleNode "union_type" ["value"] "A | /* b */ B" [
      sampleNode "type_identifier" [] "A" [],
      sampleNode "comment" [] "/* b */" [],
      sampleNode "type_identifier" [] "B" []]]

/-- A file with that union, and with comments in a statement list, in front of a declaration, among
parameters and behind a returned value. -/
def commentedTree : Syntax.Tree Unit :=
  sampleNode "program" [] "" [
    sampleNode "comment" [] "// head" [],
    sampleNode "export_statement" [] "" [
      sampleNode "comment" [] "/* f */" [],
      sampleNode "function_declaration" ["declaration"] "" [
        sampleNode "identifier" ["name"] "f" [],
        sampleNode "formal_parameters" ["parameters"] "(/* x */ x = 1)" [
          sampleNode "comment" [] "/* x */" [],
          sampleNode "required_parameter" [] "x = 1" [
            sampleNode "identifier" ["pattern"] "x" [],
            sampleNode "number" ["value"] "1" []]],
        sampleNode "statement_block" ["body"] "" [
          sampleNode "comment" [] "// body" [],
          sampleNode "return_statement" [] "return 1 /* one */;" [
            sampleNode "number" [] "1" [],
            sampleNode "comment" [] "/* one */" []]]]],
    sampleFunction "function_signature" "g",
    sampleNode "comment" [] "// g" [],
    sampleFunction "function_declaration" "g",
    commentedUnion]

/-- All comments but the one in the union. -/
def harmless (l : Label) : Bool := l.kind == "comment" && l.text != "/* b */"

theorem fileModel_erase_comments_harmless :
    commentedTree.exceedsDepth depthLimit = false ∧ commentedTree.Idle harmless ∧
    (commentedTree.erase harmless).size + 6 = commentedTree.size ∧
    fileModel Extractor.all sampleOrigin
        (analyse sampleOrigin.resolve sampleOrigin.module (commentedTree.erase harmless)) =
      fileModel Extractor.all sampleOrigin
        (analyse sampleOrigin.resolve sampleOrigin.module commentedTree) := by
  have hdepth : commentedTree.exceedsDepth depthLimit = false := by decide
  have hidle : commentedTree.Idle harmless := by decide +kernel
  exact ⟨hdepth, hidle, by decide +kernel,
    fileModel_erase_comments Extractor.all sampleOrigin _ _ hdepth hidle⟩

/-- The types that the aliases of a file stand for. -/
def aliasTypes (t : Syntax.Tree Unit) : Option (List TypeDesc) :=
  (fileModel Extractor.all sampleOrigin
    (analyse sampleOrigin.resolve sampleOrigin.module t)).toOption.map
      fun m => (m.get .typeAlias).map (·.type)

/-- Between the types of a union a comment counts as one of them. -/
theorem aliasTypes_comment_in_union :
    aliasTypes (sampleNode "program" [] "" [commentedUnion]) =
      some [.union [.named (.bare "A"), .notIdentified "/* b */", .named (.bare "B")]] ∧
    aliasTypes ((sampleNode "program" [] "" [commentedUnion]).erase (·.kind == "comment")) =
      some [.union [.named (.bare "A"), .named (.bare "B")]] := by
  decide +kernel

end CodeConcepts.Extract
