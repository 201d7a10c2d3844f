import CodeConcepts.Proofs.StatementPaths

/-!
# Where exports come from

Records of exports are made by export statements and by nothing else (`exists_exportSite`). All of
them name the module of the file as the exporter, wherever the statement stands: one in the body of
a namespace, or in the description of another module, exports from the file like one at the top
(`exportsOf_contiguous`). So the names that are found as exports of the module are those of all
export statements of the file, and they are the names that the module itself exports if no export
statement stands deeper.
-/

namespace CodeConcepts

open scoped List

variable {α : Type} {e : ExportDecl} {o : Origin} {owner : QName}

/-! ## Looking exports up -/

namespace ExportTable

theorem exists_of_named? {m : Model} {module : QName} {name : String} {f : QName}
    (h : (ofModel m).named? module name = some f) :
    ∃ e ∈ m.exports, e.exporter = module ∧ e.exportedName = name ∧ e.declaration = f := by
  obtain ⟨e, he, hf⟩ := Option.map_eq_some_iff.mp h
  have hfound := List.find?_some he
  simp only [Bool.and_eq_true, beq_iff_eq] at hfound
  exact ⟨e, List.mem_of_find?_eq_some he, hfound.1.2, hfound.2, hf⟩

theorem isSome_named? {m : Model} (he : e ∈ m.exports) (hstar : isStar e = false) :
    ((ofModel m).named? e.exporter e.exportedName).isSome := by
  unfold named?
  rw [Option.isSome_map, List.find?_isSome]
  refine ⟨e, he, ?_⟩
  simp [hstar]

end ExportTable

namespace Extract

open ScopedNode (declares?)

/-! ## The records of an export statement -/

/-- The records of an export statement. The declaration around it has no part in them. -/
def exportsOf (o : Origin) (n : ScopedNode) : List ExportDecl :=
  (exportConcepts o o.module n).filterMap (·.as? .export)

theorem filterMap_as?_edges (es : List Edge) (r : ExportDecl) :
    (es.map (Concept.mk .edge) ++ [Concept.mk .export r]).filterMap (·.as? .export) = [r] := by
  rw [List.filterMap_append, filterMap_as?_of_ne (by decide)]
  exact filterMap_as?_self (k := .export) [r]

theorem exports_specifierConcepts (o : Origin) (owner : QName) (source : Option QName)
    (typeOnly : Bool) (specifier : ScopedNode) :
    (specifierConcepts o owner source typeOnly specifier).filterMap (·.as? .export) =
      (specifierConcepts o o.module source typeOnly specifier).filterMap (·.as? .export) := by
  unfold specifierConcepts
  cases specifier.field? "name" with
  | none => rfl
  | some nameNode =>
    dsimp only
    rw [filterMap_as?_edges, filterMap_as?_edges]

theorem exports_exportConcepts (o : Origin) (owner : QName) (n : ScopedNode) :
    (exportConcepts o owner n).filterMap (·.as? .export) = exportsOf o n := by
  unfold exportsOf exportConcepts
  cases n.field? "declaration" with
  | some d => rfl
  | none =>
    cases exportedValue? n with
    | some value => rfl
    | none =>
      dsimp only
      cases n.namedChildren.find? (·.kind == "export_clause") with
      | some clause =>
        dsimp only
        rw [List.filterMap_flatMap, List.filterMap_flatMap]
        exact List.flatMap_congr fun s _ => exports_specifierConcepts o owner _ _ s
      | none =>
        cases (n.fieldText? "source").map fun s => o.resolve (Text.quotedContent s) with
        | none => rfl
        | some target =>
          dsimp only
          unfold starConcepts
          rw [filterMap_as?_edges, filterMap_as?_edges]

theorem exporter_of_mem_exportsOf {n : ScopedNode} {r : ExportDecl} (h : r ∈ exportsOf o n) :
    r.exporter = o.module := by
  obtain ⟨c, hc, hr⟩ := List.mem_filterMap.mp h
  rcases mem_exportConcepts hc with ⟨e, rfl, -⟩ | ⟨r', rfl, hexporter⟩
  · have hne : (⟨.edge, e⟩ : Concept).kind ≠ .export := Kind.noConfusion
    rw [as?_of_ne hne] at hr
    cases hr
  · rw [as?_self] at hr
    cases hr
    exact hexporter

/-! ## Nothing else makes exports -/

/-- A visit that makes the record of an export is that of an export statement. -/
theorem Visit.export_of_mem_records {v : Visit} (h : e ∈ v.records .export o) :
    v.node.kind = "export_statement" ∧ e ∈ exportsOf o v.node := by
  obtain ⟨cs, hcs, hmem⟩ := Visit.mem_records h
  cases v.makes hcs hmem with
  | role hvariable hrole hmakes =>
    cases hmakes with
    | edge _ href =>
      obtain ⟨_, hedge, -⟩ := href
      cases hedge
    | «export» _ =>
      have hconcepts : v.concepts Extractor.all o = .ok (exportConcepts o v.owner v.node) := by
        unfold Visit.concepts
        rw [hvariable, handledRole?_all, hrole]
        rfl
      -- the owner of the visit has no part in the records, only in the edges
      rw [Visit.records_of_ok hconcepts, exports_exportConcepts] at h
      exact ⟨Role.kind_of_export hrole, h⟩
    | declaration hr _ => exact absurd (mem_declarationKinds hr) (by decide)

/-! ## Export statements of a file -/

/-- An export statement of a file makes a record. -/
structure ExportSite (o : Origin) (tree : Syntax.Tree Note) (n : ScopedNode) (e : ExportDecl) :
    Prop where
  inside : n ∈ (Syntax.Node.root tree).descendants
  below : n.above ≠ []
  kind : n.kind = "export_statement"
  record : e ∈ exportsOf o n

/-- All export statements of a file stand directly below its root. -/
def ExportsOnTop (tree : Syntax.Tree α) : Prop :=
  ∀ n ∈ (Syntax.Node.root tree).descendants, n.kind = "export_statement" → n.above = [tree]

section File

variable {o : Origin} {t : Syntax.Tree α} {m : Model}
  (h : fileModel Extractor.all o (analyse o.resolve o.module t) = .ok m)

include h

/-- Every record of an export comes from an export statement. -/
theorem exists_exportSite (he : e ∈ m.exports) :
    ∃ n, ExportSite o (analyse o.resolve o.module t) n e := by
  have hexports : m.exports = _ := get_fileModel (k := .export) (by decide) h
  rw [hexports] at he
  obtain ⟨v, hv, he⟩ := List.mem_flatMap.mp he
  obtain ⟨hkind, hrecord⟩ := Visit.export_of_mem_records he
  refine ⟨v.node, ?_, above_ne_nil v hv, hkind, hrecord⟩
  exact (nodes_walk _ _).subset (List.mem_map_of_mem hv)

/-- The records of an export statement are records of the file, however deep it stands. -/
theorem exportsOf_contiguous {n : ScopedNode}
    (hn : n ∈ (Syntax.Node.root (analyse o.resolve o.module t)).descendants)
    (habove : n.above ≠ []) (hkind : n.kind = "export_statement") (hadmitted : Admitted n) :
    exportsOf o n <:+: m.exports := by
  obtain ⟨s, task, frame, taken, hmet, -⟩ := met_of_admitted hn hadmitted
  rcases hmet.visited with ⟨hroot, -⟩ | ⟨v, hv, rfl, -⟩
  · exact absurd hroot habove
  · -- the statement declares nothing, so it is not taken for a declarator
    have hdeclares : declares? v.node = none := by
      have hs : s.kind = "export_statement" := hmet.kind.symm.trans hkind
      rw [hmet.declares]
      exact Plan.declares_ofTask_eq_none o.resolve task frame taken (.inl (by rw [hs]; rfl))
        (by rw [hs]; decide)
    have hconcepts : v.concepts Extractor.all o = .ok (exportConcepts o v.owner v.node) := by
      unfold Visit.concepts
      rw [v.declaredVariable?_of_unnamed hdeclares, handledRole?_all, hkind]
      rfl
    have hrecords := v.records_infix (k := .export) (by decide) h hv
    rw [Visit.records_of_ok hconcepts, exports_exportConcepts] at hrecords
    exact hrecords

end File

theorem ExportsOnTop.mem_children {tree : Syntax.Tree Note} (h : ExportsOnTop tree) {n : ScopedNode}
    (hsite : ExportSite o tree n e) : n ∈ (Syntax.Node.root tree).children := by
  have habove := h n hsite.inside hsite.kind
  rcases Syntax.Node.eq_or_down_of_mem_descendants hsite.inside with rfl | ⟨p, hp, c, hc, rfl⟩
  · exact absurd rfl hsite.below
  · obtain ⟨-, hnil⟩ := List.cons.inj habove
    obtain rfl := Syntax.Node.eq_root hp hnil
    exact List.mem_map_of_mem hc

/-- The exports of a file are those of its export statements, at any depth: all of them are records
of the module of the file and are found as its exports, and nothing else is. If the export
statements stand directly below the root, they are the only ones that export from the module. -/
theorem exports_of_any_depth {o : Origin} {t : Syntax.Tree α} {m : Model}
    (h : fileModel Extractor.all o (analyse o.resolve o.module t) = .ok m) :
    (∀ e ∈ m.exports, e.exporter = o.module ∧
      ∃ n, ExportSite o (analyse o.resolve o.module t) n e) ∧
    (∀ n e, ExportSite o (analyse o.resolve o.module t) n e → Admitted n → e ∈ m.exports ∧
      (ExportTable.isStar e = false →
        ((ExportTable.ofModel m).named? o.module e.exportedName).isSome)) ∧
    (∀ module name f, (ExportTable.ofModel m).named? module name = some f → module = o.module ∧
      ∃ n e, ExportSite o (analyse o.resolve o.module t) n e ∧ e.exportedName = name ∧
        e.declaration = f) ∧
    (ExportsOnTop (analyse o.resolve o.module t) →
      (∀ e ∈ m.exports, ∃ c ∈ (Syntax.Node.root (analyse o.resolve o.module t)).children,
        ExportSite o (analyse o.resolve o.module t) c e) ∧
      ∀ name f, (ExportTable.ofModel m).named? o.module name = some f →
        ∃ c ∈ (Syntax.Node.root (analyse o.resolve o.module t)).children, ∃ e,
          ExportSite o (analyse o.resolve o.module t) c e ∧ e.exportedName = name ∧
            e.declaration = f) := by
  have hexporter {n : ScopedNode} {e : ExportDecl}
      (hsite : ExportSite o (analyse o.resolve o.module t) n e) : e.exporter = o.module :=
    exporter_of_mem_exportsOf hsite.record
  have hfound {module : QName} {name : String} {f : QName}
      (hnamed : (ExportTable.ofModel m).named? module name = some f) : module = o.module ∧
        ∃ n e, ExportSite o (analyse o.resolve o.module t) n e ∧ e.exportedName = name ∧
          e.declaration = f := by
    obtain ⟨e, he, hmodule, hname, hf⟩ := ExportTable.exists_of_named? hnamed
    obtain ⟨n, hsite⟩ := exists_exportSite h he
    exact ⟨hmodule.symm.trans (hexporter hsite), n, e, hsite, hname, hf⟩
  refine ⟨fun e he => ?_, fun n e hsite hadmitted => ?_, fun module name f => hfound, ?_⟩
  · obtain ⟨n, hsite⟩ := exists_exportSite h he
    exact ⟨hexporter hsite, n, hsite⟩
  · have he : e ∈ m.exports :=
      (exportsOf_contiguous h hsite.inside hsite.below hsite.kind hadmitted).subset hsite.record
    refine ⟨he, fun hstar => ?_⟩
    rw [← hexporter hsite]
    exact ExportTable.isSome_named? he hstar
  · intro htop
    refine ⟨fun e he => ?_, fun name f hnamed => ?_⟩
    · obtain ⟨n, hsite⟩ := exists_exportSite h he
      exact ⟨n, htop.mem_children hsite, hsite⟩
    · obtain ⟨-, n, e, hsite, hname, hf⟩ := hfound hnamed
      exact ⟨n, htop.mem_children hsite, e, hsite, hname, hf⟩

/-- The file `namespace N { export const x }`. -/
def nestedExportTree : Syntax.Tree Unit :=
  sampleNode "program" [] "" [
    sampleNode "expression_statement" [] "" [
      sampleNode "internal_module" [] "" [
        sampleNode "identifier" ["name"] "N" [],
        sampleNode "statement_block" ["body"] "" [
          sampleNode "export_statement" [] "" [
            sampleNode "lexical_declaration" ["declaration"] "" [
              sampleNode "variable_declarator" [] "" [
                sampleNode "identifier" ["name"] "x" []]]]]]]]

theorem exports_of_any_depth_nested :
    ∃ m, fileModel Extractor.all sampleOrigin (sampleNotes nestedExportTree) = .ok m ∧
      ∃ n e, ExportSite sampleOrigin (sampleNotes nestedExportTree) n e ∧ Admitted n ∧
        n.above.length = 4 ∧ e ∈ m.exports ∧
        ((ExportTable.ofModel m).named? sampleOrigin.module "x").isSome := by
  have hok : (fileModel Extractor.all sampleOrigin (sampleNotes nestedExportTree)).toOption.map
      (fun _ => ()) = some () := by decide +kernel
  have hexport : ∀ n ∈ (Syntax.Node.root (sampleNotes nestedExportTree)).at? [0, 0, 1, 0],
      n.kind = "export_statement" ∧ Admitted n ∧ n.above.length = 4 ∧
        (exportsOf sampleOrigin n).map (fun e => (e.exportedName, ExportTable.isStar e)) =
          [("x", false)] := by decide +kernel
  obtain ⟨n, hn⟩ : ∃ n,
      (Syntax.Node.root (sampleNotes nestedExportTree)).at? [0, 0, 1, 0] = some n := ⟨_, rfl⟩
  obtain ⟨hkind, hadmitted, hdepth, hrecords⟩ := hexport n hn
  obtain ⟨e, rest, hexports, he, -⟩ := List.map_eq_cons_iff.mp hrecords
  obtain ⟨hname, hstar⟩ := Prod.mk.inj he
  have hsite : ExportSite sampleOrigin (sampleNotes nestedExportTree) n e := by
    refine ⟨Syntax.Node.mem_descendants_of_at? hn, ?_, hkind, ?_⟩
    · intro habove
      rw [habove] at hdepth
      cases hdepth
    · rw [hexports]
      exact List.mem_cons_self
  obtain ⟨m, hmodel, -⟩ := exists_ok_of_map hok
  obtain ⟨hrecord, hnamed⟩ := (exports_of_any_depth hmodel).2.1 n e hsite hadmitted
  refine ⟨m, hmodel, n, e, hsite, hadmitted, hdepth, hrecord, ?_⟩
  rw [← hname]
  exact hnamed hstar

theorem nested_export_is_exported :
    (∀ c ∈ (Syntax.Node.root (sampleNotes nestedExportTree)).children,
      c.kind ≠ "export_statement") ∧
    ∃ m, fileModel Extractor.all sampleOrigin (sampleNotes nestedExportTree) = .ok m ∧
      m.exports.map (fun e => (e.exporter, e.exportedName, e.declaration)) =
        [(sampleOrigin.module, "x", ⟨"\"/p/a.ts\".N.x"⟩)] ∧
      (ExportTable.ofModel m).named? sampleOrigin.module "x" = some ⟨"\"/p/a.ts\".N.x"⟩ := by
  have hfound : (fileModel Extractor.all sampleOrigin (sampleNotes nestedExportTree)).toOption.map
      (fun m => (m.exports.map fun e => (e.exporter, e.exportedName, e.declaration),
        (ExportTable.ofModel m).named? sampleOrigin.module "x")) =
      some ([(sampleOrigin.module, "x", ⟨"\"/p/a.ts\".N.x"⟩)],
        some ⟨"\"/p/a.ts\".N.x"⟩) := by decide +kernel
  obtain ⟨m, hmodel, hfound⟩ := exists_ok_of_map hfound
  exact ⟨by decide +kernel, m, hmodel, Prod.mk.inj hfound⟩

end Extract

end CodeConcepts
