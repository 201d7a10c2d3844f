import CodeConcepts.Proofs.FunctionGroups

/-!
# Overload sets are one function

The functions of a name that the statements of a container declare, bare or in one wrapper, are
recorded as one function: all of them are visited, but only the one that leads the others has a
record, and only its export is recorded (`Met.oneFunction`).

What a statement hides deeper, as `export declare` does, is not grouped. Such a function has a name
and a record of its own, also beside a group of the same name (`Met.onItsOwn`).
-/

namespace CodeConcepts

open scoped List

variable {α : Type} {d : ScopedNode}

namespace Extract

open ScopedNode (declares? overloads?)

/-! ## Visits of the members -/

theorem ofKind?_of_function {kind : String} (h : ScopeRole.ofKind kind = .functionDeclaration) :
    Role.ofKind? kind = some .function := by
  unfold ScopeRole.ofKind at h
  split at h <;> first | rfl | cases h

/-- The statements of a container are visited, one after the other. -/
theorem Met.visits_of_container {resolve : String → QName} {module owner : QName}
    {t s : Syntax.Tree α} {n : ScopedNode} {task : Task} {frame : Frame} {taken : Taken}
    (h : Met resolve (walk Extractor.all owner (analyse resolve module t)) n s task frame taken)
    (hn : n.above = [] → n = .root (analyse resolve module t)) (hcontainer : IsContainer n) :
    ∃ inner, (n.namedChildren.map (Visit.mk inner none)).flatMap (Visit.onward Extractor.all) <+
      walk Extractor.all owner (analyse resolve module t) := by
  rcases h.visited with ⟨habove, -⟩ | ⟨v, hv, rfl, -⟩
  · obtain rfl := hn habove
    rw [walk_eq, visits_children]
    exact ⟨owner, List.Sublist.refl _⟩
  · obtain ⟨inner, hplan⟩ := h.plan_of_container hcontainer
    have hdeclares : declares? v.node = none := by
      rw [h.declares, hplan]
      rfl
    have hblock : v.node.kind = "statement_block" :=
      hcontainer.resolve_right fun hfile => above_ne_nil v hv hfile.2
    have hnext : v.next Extractor.all = v.node.namedChildren.map (Visit.mk v.owner none) := by
      unfold Visit.next Visit.descent
      rw [v.declaredVariable?_of_unnamed hdeclares, hblock]
      exact visits_children v.owner v.node
    refine ⟨v.owner, List.Sublist.trans ?_ (onward_sublist_walk hv)⟩
    rw [v.onward_eq, hnext]
    exact List.sublist_cons_self _ _

/-- Where a statement is visited, so is what it declares. -/
theorem exists_visit_of_unwrap? {v : Visit} (hplain : v.declarator = none)
    (hexposes : Exposes v.node.tree) (hd : unwrap? v.node = some d) :
    ∃ u ∈ v.onward Extractor.all, u.node = d ∧ u.declarator = none := by
  rcases unwrap?_cases hexposes hd with ⟨-, rfl⟩ | ⟨hkind, i, c, -, hc, hnamed, rfl⟩
  · exact ⟨v, v.mem_onward_self, rfl, hplain⟩
  · -- a wrapper that wraps something is entered
    have hdescent : v.descent Extractor.all = .children v.owner v.node := by
      unfold Visit.descent
      rw [Visit.declaredVariable?_of_plain hplain, handledRole?_all]
      rcases List.mem_cons.mp hkind with hexport | hambient
      · have hsome : (v.node.field? "declaration").isSome := by
          rw [← unwrap?_of_export hexport, hd]
          rfl
        rw [hexport]
        show Role.descent .export v.owner v.node = _
        unfold Role.descent
        dsimp only
        rw [hsome]
        rfl
      · rw [List.mem_singleton.mp hambient]
        rfl
    refine ⟨⟨v.owner, none, v.node.down c⟩, ?_, rfl, rfl⟩
    refine Visit.onward_of_mem_next ?_ (Visit.mem_onward_self _)
    unfold Visit.next
    rw [hdescent, visits_children]
    refine List.mem_map_of_mem (List.mem_map_of_mem ?_)
    exact List.mem_filter.mpr ⟨List.mem_of_getElem? hc, hnamed⟩

/-- Visits below some of the statements of a list stand in the order of the statements. -/
theorem exists_visits {inner : QName} {pick : ScopedNode → Option ScopedNode} (cs : List ScopedNode)
    (h : ∀ c ∈ cs, ∀ d, pick c = some d →
      ∃ u ∈ (Visit.mk inner none c).onward Extractor.all, u.node = d ∧ u.declarator = none) :
    ∃ vs, vs <+ (cs.map (Visit.mk inner none)).flatMap (Visit.onward Extractor.all) ∧
      vs.map (·.node) = cs.filterMap pick ∧ ∀ v ∈ vs, v.declarator = none := by
  induction cs with
  | nil => exact ⟨[], List.Sublist.refl _, rfl, List.forall_mem_nil _⟩
  | cons c cs ih =>
    obtain ⟨hfirst, hrest⟩ := List.forall_mem_cons.mp h
    obtain ⟨vs, hsub, hnodes, hplain⟩ := ih hrest
    rw [List.map_cons, List.flatMap_cons, List.filterMap_cons]
    cases hpick : pick c with
    | none => exact ⟨vs, hsub.trans (List.sublist_append_right _ _), hnodes, hplain⟩
    | some d =>
      obtain ⟨u, hu, hnode, hu'⟩ := hfirst d hpick
      refine ⟨u :: vs, (List.singleton_sublist.mpr hu).append hsub, ?_,
        List.forall_mem_cons.mpr ⟨hu', hplain⟩⟩
      rw [List.map_cons, hnode, hnodes]

/-! ## Records of the members -/

/-- A function introduces the name it declares, unless it is an overload. -/
theorem declaredNames_of_function (hrole : ScopeRole.ofKind d.kind = .functionDeclaration) :
    declaredNames d =
      if (overloads? d).isSome then [] else (declaredName? .value d).toList := by
  have hkind := kind_of_function hrole
  unfold declaredNames
  rw [unwrap?_of_function hrole]
  dsimp only
  simp only [List.mem_cons, List.not_mem_nil, or_false] at hkind
  rcases hkind with hkind | hkind | hkind <;> rw [hkind] <;> rfl

/-- The record of an export statement that exports a function. -/
def exportRecord (o : Origin) (statement : ScopedNode) (name : String) (fqn : QName) :
    ExportDecl where
  identifier := name
  aliasName := none
  declaration := fqn
  isDefault := statement.hasToken "default"
  kind := .value
  exporter := o.module

section Records

variable {o : Origin} {v : Visit} (hplain : v.declarator = none)

include hplain

theorem Visit.concepts_of_function (hrole : ScopeRole.ofKind v.node.kind = .functionDeclaration) :
    v.concepts Extractor.all o = Role.concepts .function o v.owner v.node := by
  unfold Visit.concepts
  rw [Visit.declaredVariable?_of_plain hplain, handledRole?_all, ofKind?_of_function hrole]

/-- An overload has no records. -/
theorem Visit.records_of_overload (hrole : ScopeRole.ofKind v.node.kind = .functionDeclaration)
    (h : (overloads? v.node).isSome) (k : Kind) : v.records k o = [] := by
  have hconcepts : v.concepts Extractor.all o = .ok [] := by
    rw [Visit.concepts_of_function hplain hrole]
    unfold Role.concepts
    dsimp only
    rw [if_pos h]
  rw [Visit.records_of_ok hconcepts]
  rfl

/-- A function that is no overload has one record, under the name it declares. -/
theorem Visit.records_of_function (hrole : ScopeRole.ofKind v.node.kind = .functionDeclaration)
    (h : overloads? v.node = none) (hok : ∃ cs, v.concepts Extractor.all o = .ok cs) :
    ∃ r, v.records .function o = [r] ∧ declares? v.node = some r.fqn := by
  obtain ⟨cs, hcs⟩ := hok
  have hconcepts := hcs
  rw [Visit.concepts_of_function hplain hrole] at hconcepts
  unfold Role.concepts at hconcepts
  dsimp only at hconcepts
  rw [h] at hconcepts
  obtain ⟨r, hr, rfl⟩ := map_eq_ok.mp hconcepts
  refine ⟨r, ?_, fqn_functionDecl hr⟩
  rw [Visit.records_of_ok hcs]
  exact filterMap_as?_self (k := .function) [r]

/-- The export of a function is recorded, unless the function is an overload. -/
theorem Visit.records_of_export (hkind : v.node.kind = "export_statement") {name : String}
    (hd : functionOf? name v.node = some d) :
    v.records .export o = if (overloads? d).isSome then []
      else (declares? d).toList.map (exportRecord o v.node name) := by
  obtain ⟨hunwrap, hrole, hname⟩ := functionOf?_eq_some.mp hd
  have hconcepts : v.concepts Extractor.all o = .ok ((declaredNames d).map
      (declarationConcept o (v.node.hasToken "default"))) := by
    unfold Visit.concepts
    rw [Visit.declaredVariable?_of_plain hplain, handledRole?_all, hkind]
    show Except.ok (exportConcepts o v.owner v.node) = _
    unfold exportConcepts
    rw [← unwrap?_of_export hkind, hunwrap]
  rw [Visit.records_of_ok hconcepts, declaredNames_of_function hrole]
  split
  · rfl
  · unfold declaredName?
    rw [hname]
    cases declares? d with
    | none => rfl
    | some fqn => exact filterMap_as?_self (k := .export) [exportRecord o v.node name fqn]

end Records

/-! ## Overload sets -/

/-- The members of an overload set are one function: one of them leads the others and has its
qualified name. -/
structure OneFunction (o : Origin) (tree : Syntax.Tree Note) (name : String) (fqn : QName)
    (before : List (ScopedNode × ScopedNode)) (lead : ScopedNode × ScopedNode)
    (after : List (ScopedNode × ScopedNode)) : Prop where
  leads : Scope.Leads (fun q => HasBody q.2) before lead after
  declares : declares? lead.2 = some fqn ∧ overloads? lead.2 = none
  overloads : ∀ q ∈ before ++ after, declares? q.2 = none ∧ overloads? q.2 = some fqn
  /-- All members are visited, and they have one record together. -/
  record : ∃ vs, vs <+ walk Extractor.all o.module tree ∧
    vs.map (·.node) = (before ++ lead :: after).map (·.2) ∧
    ∀ m, fileModel Extractor.all o tree = .ok m →
      ∃ r ∈ m.functions, vs.flatMap (·.records .function o) = [r] ∧ r.fqn = fqn
  /-- The statements that export members are visited, and they have one record together if the one
  that leads is among them. -/
  exported : ∃ vs, vs <+ walk Extractor.all o.module tree ∧
    vs.map (·.node) =
      ((before ++ lead :: after).map (·.1)).filter (·.kind == "export_statement") ∧
    (vs.flatMap (·.records .export o) =
      if lead.1.kind = "export_statement" then [exportRecord o lead.1 name fqn] else []) ∧
    ∀ m, fileModel Extractor.all o tree = .ok m → vs.flatMap (·.records .export o) <+ m.exports

/-- A function stands for itself: it declares a name and has a record. -/
structure OnItsOwn (o : Origin) (tree : Syntax.Tree Note) (d : ScopedNode) : Prop where
  overloads : overloads? d = none
  record : ∃ fqn, declares? d = some fqn ∧
    ∃ v ∈ walk Extractor.all o.module tree, v.node = d ∧
      ∀ m, fileModel Extractor.all o tree = .ok m →
        ∃ r ∈ m.functions, v.records .function o = [r] ∧ r.fqn = fqn

/-- A node stands in a statement, inside any number of wrappers. -/
inductive Wrapped : ScopedNode → ScopedNode → Prop
  | bare (m : ScopedNode) : Wrapped m m
  | within {m d : ScopedNode} {c : Syntax.Tree Note} : m.kind ∈ wrapperKinds →
      c ∈ m.tree.children → Admits m.tree c → Wrapped (m.down c) d → Wrapped m d

section Sets

variable {o : Origin} {resolve : String → QName} {module owner : QName} {t s : Syntax.Tree α}
  {n d : ScopedNode} {task : Task} {frame : Frame} {taken : Taken} {name : String}

/-- Visits of some of the statements in an overload set, or of what these declare. -/
theorem Met.exists_visits_of_members
    (h : Met resolve (walk Extractor.all owner (analyse resolve module t)) n s task frame taken)
    (hn : n.above = [] → n = .root (analyse resolve module t)) (hcontainer : IsContainer n)
    (hexposes : ∀ c ∈ n.tree.namedChildren, Exposes c) (name : String)
    (pick : ScopedNode × ScopedNode → Option ScopedNode)
    (hpick : ∀ q d, pick q = some d → d = q.1 ∨ d = q.2) :
    ∃ vs, vs <+ walk Extractor.all owner (analyse resolve module t) ∧
      vs.map (·.node) = (overloadSet name n).filterMap pick ∧ ∀ v ∈ vs, v.declarator = none := by
  obtain ⟨inner, hvisits⟩ := h.visits_of_container hn hcontainer
  unfold overloadSet
  rw [List.filterMap_filterMap]
  obtain ⟨vs, hsub, hnodes, hplain⟩ : ∃ vs,
      vs <+ (n.namedChildren.map (Visit.mk inner none)).flatMap (Visit.onward Extractor.all) ∧
      vs.map (·.node) = n.namedChildren.filterMap
        (fun c => ((functionOf? name c).map (c, ·)).bind pick) ∧ ∀ v ∈ vs, v.declarator = none := by
    refine exists_visits n.namedChildren fun c hc d hd => ?_
    obtain ⟨q, hq, hd⟩ := Option.bind_eq_some_iff.mp hd
    obtain ⟨e, he, rfl⟩ := Option.map_eq_some_iff.mp hq
    rcases hpick _ d hd with rfl | rfl
    · exact ⟨_, Visit.mem_onward_self _, rfl, rfl⟩
    · obtain ⟨c', hc', rfl⟩ := List.mem_map.mp hc
      exact exists_visit_of_unwrap? rfl (hexposes c' hc') (functionOf?_eq_some.mp he).1
  exact ⟨vs, hsub.trans hvisits, hnodes, hplain⟩

/-- Where all visits but one have no records, the records are those of the one. -/
theorem flatMap_of_lead {β : Type} {f : Visit → List β} {vs : List Visit}
    {front rest : List ScopedNode} {p : ScopedNode} (hnodes : vs.map (·.node) = front ++ p :: rest)
    (hothers : ∀ v ∈ vs, v.node ∈ front ++ rest → f v = []) :
    ∃ v ∈ vs, v.node = p ∧ vs.flatMap f = f v := by
  obtain ⟨before, others, rfl, hbefore, hothers'⟩ := List.map_eq_append_iff.mp hnodes
  obtain ⟨v, after, rfl, hv, hafter⟩ := List.map_eq_cons_iff.mp hothers'
  have hfront : before.flatMap f = [] := by
    refine List.flatMap_eq_nil_iff.mpr fun w hw => hothers w (List.mem_append_left _ hw) ?_
    rw [← hbefore]
    exact List.mem_append_left _ (List.mem_map_of_mem hw)
  have hrest : after.flatMap f = [] := by
    refine List.flatMap_eq_nil_iff.mpr fun w hw => hothers w
      (List.mem_append_right _ (List.mem_cons_of_mem _ hw)) ?_
    rw [← hafter]
    exact List.mem_append_right _ (List.mem_map_of_mem hw)
  refine ⟨v, List.mem_append_right _ List.mem_cons_self, hv, ?_⟩
  rw [List.flatMap_append, List.flatMap_cons, hfront, hrest, List.nil_append, List.append_nil]

/-- The records of visits stand in the model in the order of the visits. -/
theorem records_sublist {k : Kind} (hk : k ≠ .module) {tree : Syntax.Tree Note} {m : Model}
    (h : fileModel Extractor.all o tree = .ok m) {vs : List Visit}
    (hvs : vs <+ walk Extractor.all o.module tree) : vs.flatMap (·.records k o) <+ m.get k := by
  rw [get_fileModel hk h]
  exact hvs.flatMap _

theorem exists_concepts_of_ok {tree : Syntax.Tree Note} {m : Model}
    (h : fileModel Extractor.all o tree = .ok m) {v : Visit}
    (hv : v ∈ walk Extractor.all o.module tree) : ∃ cs, v.concepts Extractor.all o = .ok cs := by
  obtain ⟨cs, hcs, -⟩ := fileModel_eq_ok h
  obtain ⟨made, hmade, -⟩ := concepts_of_mem hcs hv
  exact ⟨made, hmade⟩

section Members

variable {fqn : QName} {before after : List (ScopedNode × ScopedNode)}
  {lead : ScopedNode × ScopedNode}
  (h : Met resolve (walk Extractor.all o.module (analyse resolve module t)) n s task frame taken)
  (hn : n.above = [] → n = .root (analyse resolve module t)) (hcontainer : IsContainer n)
  (hexposes : ∀ c ∈ n.tree.namedChildren, Exposes c)
  (hsplit : overloadSet name n = before ++ lead :: after)
  (hlead : declares? lead.2 = some fqn ∧ overloads? lead.2 = none)
  (hothers : ∀ q ∈ before ++ after, declares? q.2 = none ∧ overloads? q.2 = some fqn)

include hsplit in
theorem functionOf?_of_lead : functionOf? name lead.1 = some lead.2 := by
  have hmem : lead ∈ overloadSet name n := by
    rw [hsplit]
    exact List.mem_append_right _ List.mem_cons_self
  exact (mem_overloadSet hmem).2

include hsplit in
theorem functionOf?_of_other {q : ScopedNode × ScopedNode} (hq : q ∈ before ++ after) :
    functionOf? name q.1 = some q.2 := by
  have hmem : q ∈ overloadSet name n := by
    rw [hsplit]
    exact ((List.sublist_cons_self lead after).append_left before).subset hq
  exact (mem_overloadSet hmem).2

include h hn hcontainer hexposes hsplit hlead hothers

/-- The one that leads has the only record. -/
theorem Met.record_of_members :
    ∃ vs, vs <+ walk Extractor.all o.module (analyse resolve module t) ∧
      vs.map (·.node) = (before ++ lead :: after).map (·.2) ∧
      ∀ m, fileModel Extractor.all o (analyse resolve module t) = .ok m →
        ∃ r ∈ m.functions, vs.flatMap (·.records .function o) = [r] ∧ r.fqn = fqn := by
  obtain ⟨vs, hsub, hnodes, hplain⟩ := h.exists_visits_of_members hn hcontainer hexposes name
    (fun q => some q.2) fun q d hd => .inr (Option.some.inj hd).symm
  rw [hsplit, List.filterMap_eq_map'] at hnodes
  refine ⟨vs, hsub, hnodes, fun m hm => ?_⟩
  rw [List.map_append, List.map_cons] at hnodes
  have hoverloads : ∀ v ∈ vs, v.node ∈ before.map (·.2) ++ after.map (·.2) →
      v.records .function o = [] := by
    intro v hv hnode
    rw [← List.map_append] at hnode
    obtain ⟨q, hq, hnode⟩ := List.mem_map.mp hnode
    have hfunction := functionOf?_eq_some.mp (functionOf?_of_other hsplit hq)
    refine v.records_of_overload (hplain v hv) ?_ ?_ .function
    · rw [← hnode]
      exact hfunction.2.1
    · rw [← hnode, (hothers q hq).2]
      rfl
  obtain ⟨v, hv, hnode, hrecords⟩ := flatMap_of_lead hnodes hoverloads
  have hfunction := functionOf?_eq_some.mp (functionOf?_of_lead hsplit)
  rw [← hnode] at hfunction hlead
  obtain ⟨r, hr, hfqn⟩ := v.records_of_function (hplain v hv) hfunction.2.1 hlead.2
    (exists_concepts_of_ok hm (hsub.subset hv))
  have hmem : r ∈ m.functions := by
    refine (records_sublist (k := .function) (by decide) hm hsub).subset ?_
    rw [hrecords, hr]
    exact List.mem_singleton_self r
  exact ⟨r, hmem, hrecords.trans hr, Option.some.inj (hfqn.symm.trans hlead.1)⟩

/-- The exports of overloads have no records. -/
theorem Met.exports_of_members :
    ∃ vs, vs <+ walk Extractor.all o.module (analyse resolve module t) ∧
      vs.map (·.node) =
        ((before ++ lead :: after).map (·.1)).filter (·.kind == "export_statement") ∧
      (vs.flatMap (·.records .export o) =
        if lead.1.kind = "export_statement" then [exportRecord o lead.1 name fqn] else []) ∧
      ∀ m, fileModel Extractor.all o (analyse resolve module t) = .ok m →
        vs.flatMap (·.records .export o) <+ m.exports := by
  obtain ⟨vs, hsub, hnodes, hplain⟩ := h.exists_visits_of_members hn hcontainer hexposes name
    (fun q => Option.guard (·.kind == "export_statement") q.1) fun q d hd =>
      .inl (Option.guard_eq_some_iff.mp hd).1.symm
  have hfilter : vs.map (·.node) =
      ((before ++ lead :: after).map (·.1)).filter (·.kind == "export_statement") := by
    rw [hnodes, hsplit, ← List.filterMap_eq_filter, List.filterMap_map]
    rfl
  refine ⟨vs, hsub, hfilter, ?_, fun m hm => records_sublist (k := .export) (by decide) hm hsub⟩
  rw [List.map_append, List.map_cons, List.filter_append, List.filter_cons] at hfilter
  have hoverloads : ∀ v ∈ vs, v.node ∈ (before.map (·.1)).filter (·.kind == "export_statement") ++
      (after.map (·.1)).filter (·.kind == "export_statement") → v.records .export o = [] := by
    intro v hv hnode
    rw [← List.filter_append, ← List.map_append] at hnode
    obtain ⟨hmem, hkind⟩ := List.mem_filter.mp hnode
    obtain ⟨q, hq, hnode⟩ := List.mem_map.mp hmem
    have hfunction := functionOf?_of_other hsplit hq
    rw [hnode] at hfunction
    rw [v.records_of_export (hplain v hv) (beq_iff_eq.mp hkind) hfunction, (hothers q hq).2]
    rfl
  -- the filter keeps the one that leads only if it is exported
  by_cases hexport : lead.1.kind = "export_statement"
  · rw [if_pos (beq_iff_eq.mpr hexport)] at hfilter
    rw [if_pos hexport]
    obtain ⟨v, hv, hnode, hrecords⟩ := flatMap_of_lead hfilter hoverloads
    have hfunction := functionOf?_of_lead hsplit
    rw [← hnode] at hfunction hexport ⊢
    rw [hrecords, v.records_of_export (hplain v hv) hexport hfunction, hlead.1, hlead.2]
    rfl
  · rw [if_neg fun h => hexport (beq_iff_eq.mp h)] at hfilter
    rw [if_neg hexport]
    refine List.flatMap_eq_nil_iff.mpr fun v hv => hoverloads v hv ?_
    rw [← hfilter]
    exact List.mem_map_of_mem hv

end Members

/-- The members of an overload set are one function. -/
theorem Met.oneFunction
    (h : Met resolve (walk Extractor.all o.module (analyse resolve module t)) n s task frame taken)
    (hn : n.above = [] → n = .root (analyse resolve module t)) (hcontainer : IsContainer n)
    (hexposes : ∀ c ∈ n.tree.namedChildren, Exposes c) (hset : overloadSet name n ≠ []) :
    ∃ fqn before lead after, overloadSet name n = before ++ lead :: after ∧
      OneFunction o (analyse resolve module t) name fqn before lead after := by
  obtain ⟨fqn, before, lead, after, hsplit, hleads, hlead, hothers⟩ :=
    h.exists_leading_member hn hcontainer hexposes hset
  exact ⟨fqn, before, lead, after, hsplit, hleads, hlead, hothers,
    h.record_of_members hn hcontainer hexposes hsplit hlead hothers,
    h.exports_of_members hn hcontainer hexposes hsplit hlead hothers⟩

/-! ## Functions outside of overload sets -/

/-- Nothing is assigned to what stands in a statement that nothing is assigned to. -/
theorem Met.of_wrapped {m : ScopedNode} (hwrapped : Wrapped m d) {b : Syntax.Tree α}
    {frame : Frame} {taken : Taken}
    (h : Met resolve (walk Extractor.all owner (analyse resolve module t)) m b (.visit none) frame
      taken) (hm : m.above ≠ []) : ∃ (e : Syntax.Tree α) (frame : Frame) (taken : Taken),
      Met resolve (walk Extractor.all owner (analyse resolve module t)) d e (.visit none) frame
        taken := by
  induction hwrapped generalizing b frame taken with
  | bare m => exact ⟨b, frame, taken, h⟩
  | @within m d c hkind hc hadmits _ ih =>
    obtain ⟨i, hi⟩ := List.mem_iff_getElem?.mp hc
    obtain ⟨e, taken', -, -, hdown, -⟩ := h.down (fun habove => absurd habove hm) hi hadmits
    rw [h.task_of_wrapper hkind hi hadmits.named, ite_self] at hdown
    exact ih hdown (List.cons_ne_nil _ _)

/-- Wrapped functions are no wrappers. -/
theorem Wrapped.eq_of_function {m : ScopedNode} (h : Wrapped m d)
    (hrole : ScopeRole.ofKind m.kind = .functionDeclaration) : d = m := by
  cases h with
  | bare => rfl
  | within hkind =>
    have hother : ∀ kind ∈ wrapperKinds, ScopeRole.ofKind kind ≠ .functionDeclaration := by decide
    exact absurd hrole (hother _ hkind)

/-- A container decides only about statements that declare functions. -/
theorem exists_unwrap?_of_assigned {c : Syntax.Tree Note} {i : Nat}
    (hc : n.tree.children[i]? = some c) {a : Assignment}
    (ha : Scope.assigned? owner taken n.tree i = some a) : ∃ d, unwrap? (n.down c) = some d ∧
      ScopeRole.ofKind d.kind = .functionDeclaration := by
  obtain ⟨g, hg, -⟩ := Option.bind_eq_some_iff.mp ha
  obtain rfl : g.position = i := by simpa using List.find?_some hg
  obtain ⟨c', hc', hfunction⟩ := Scope.mem_declaredFunctions.mp (List.mem_of_find?_eq_some hg)
  obtain rfl := Option.some.inj (hc.symm.trans hc')
  obtain ⟨-, -, u, hu, hrole⟩ := Scope.declaredFunction?_eq_some hfunction
  rw [show Scope.unwrap? c = _ from (tree_unwrap? (n.down c)).symm] at hu
  obtain ⟨d, hd, rfl⟩ := Option.map_eq_some_iff.mp hu
  exact ⟨d, hd, hrole⟩

/-- A function that a statement declares is a member of the overload set, or the analysis comes to
it without an assignment. -/
theorem Met.member_or_unassigned
    (h : Met resolve (walk Extractor.all owner (analyse resolve module t)) n s task frame taken)
    (hn : n.above = [] → n = .root (analyse resolve module t)) (hcontainer : IsContainer n)
    (hexposes : ∀ c ∈ n.tree.namedChildren, Exposes c) {c : ScopedNode} (hc : c ∈ n.namedChildren)
    (hwrapped : Wrapped c d) (hrole : ScopeRole.ofKind d.kind = .functionDeclaration)
    (hname : d.fieldText? "name" = some name) :
    (c, d) ∈ overloadSet name n ∨ ∃ (e : Syntax.Tree α) (frame : Frame) (taken : Taken),
      Met resolve (walk Extractor.all owner (analyse resolve module t)) d e (.visit none) frame
        taken := by
  have hmember (hfunction : functionOf? name c = some d) : (c, d) ∈ overloadSet name n := by
    refine List.mem_filterMap.mpr ⟨c, hc, ?_⟩
    rw [hfunction]
    rfl
  obtain ⟨inner, hplan⟩ := h.plan_of_container hcontainer
  obtain ⟨c, hnamedChild, rfl⟩ := List.mem_map.mp hc
  obtain ⟨hchild, hnamed⟩ := List.mem_filter.mp hnamedChild
  obtain ⟨i, hi⟩ := List.mem_iff_getElem?.mp hchild
  obtain ⟨b, taken', -, -, hdown, -⟩ := h.down hn hi (admits_of_container hcontainer hnamed)
  rw [h.task_of_container hplan hi hnamed] at hdown
  cases hassigned : Scope.assigned? inner.owner taken n.tree i with
  | none =>
    rw [hassigned] at hdown
    exact .inr (hdown.of_wrapped hwrapped (List.cons_ne_nil _ _))
  | some a =>
    rw [hassigned] at hdown
    cases hwrapped with
    | bare =>
      exact .inl (hmember (functionOf?_eq_some.mpr ⟨unwrap?_of_function hrole, hrole, hname⟩))
    | @within _ _ e hkind he hadmits hrest =>
      obtain ⟨j, hj⟩ := List.mem_iff_getElem?.mp he
      by_cases hj' : Scope.wrapped? (n.down c).tree = some j
      · -- this is the function that the statement has been assigned for
        obtain ⟨f, hf, hfrole⟩ := exists_unwrap?_of_assigned hi hassigned
        rcases unwrap?_cases (hexposes c hnamedChild) hf with
          ⟨hnot, -⟩ | ⟨-, k, u, hk, hu, -, rfl⟩
        · exact absurd hkind hnot
        · obtain rfl := Option.some.inj (hj'.symm.trans hk)
          obtain rfl := Option.some.inj (hj.symm.trans hu)
          obtain rfl := hrest.eq_of_function hfrole
          exact .inl (hmember (functionOf?_eq_some.mpr ⟨hf, hrole, hname⟩))
      · -- the assignment goes to another child
        obtain ⟨_, _, -, -, hbelow, -⟩ :=
          hdown.down (fun habove => absurd habove (List.cons_ne_nil _ _)) hj hadmits
        rw [hdown.task_of_wrapper hkind hj hadmits.named, if_neg hj'] at hbelow
        exact .inr (hbelow.of_wrapped hrest (List.cons_ne_nil _ _))

/-- A function that the analysis comes to without an assignment stands for itself. -/
theorem Met.onItsOwn {e : Syntax.Tree α}
    (h : Met resolve (walk Extractor.all o.module (analyse resolve module t)) d e (.visit none)
      frame taken) (hrole : ScopeRole.ofKind d.kind = .functionDeclaration)
    (hname : d.fieldText? "name" = some name) : OnItsOwn o (analyse resolve module t) d := by
  obtain ⟨hsome, hoverloads⟩ := h.note_of_unassigned hrole hname
  obtain ⟨fqn, hfqn⟩ := Option.isSome_iff_exists.mp hsome
  rcases h.visited with ⟨-, hbody⟩ | ⟨v, hv, rfl, hfollows⟩
  · cases hbody
  · have hplain : v.declarator = none := by
      unfold Visit.turn at hfollows
      cases hdeclarator : v.declarator with
      | none => rfl
      | some keyword =>
        rw [hdeclarator] at hfollows
        cases hfollows
    refine ⟨hoverloads, fqn, hfqn, v, hv, rfl, fun m hm => ?_⟩
    obtain ⟨r, hr, hname⟩ := v.records_of_function hplain hrole hoverloads
      (exists_concepts_of_ok hm hv)
    have hmem : r ∈ m.functions := by
      refine (v.records_infix (k := .function) (by decide) hm hv).subset ?_
      rw [hr]
      exact List.mem_singleton_self r
    exact ⟨r, hmem, hr, Option.some.inj (hname.symm.trans hfqn)⟩

end Sets

/-- In a container, the functions of a name that statements declare bare or in one wrapper are one
function. What is wrapped more deeply stands for itself. -/
theorem overload_set_is_one_function {o : Origin} {t : Syntax.Tree α} {n : ScopedNode}
    (hn : n ∈ (Syntax.Node.root (analyse o.resolve o.module t)).descendants)
    (hadmitted : Admitted n) (hcontainer : IsContainer n)
    (hexposes : ∀ c ∈ n.tree.namedChildren, Exposes c) (name : String) :
    (overloadSet name n ≠ [] → ∃ fqn before lead after,
      overloadSet name n = before ++ lead :: after ∧
      OneFunction o (analyse o.resolve o.module t) name fqn before lead after) ∧
    ∀ c ∈ n.namedChildren, ∀ d, Wrapped c d → ScopeRole.ofKind d.kind = .functionDeclaration →
      d.fieldText? "name" = some name →
      (c, d) ∈ overloadSet name n ∨ OnItsOwn o (analyse o.resolve o.module t) d := by
  have hroot := Syntax.Node.eq_root hn
  obtain ⟨s, task, frame, taken, hmet, -⟩ := met_of_admitted hn hadmitted
  refine ⟨hmet.oneFunction hroot hcontainer hexposes, fun c hc d hwrapped hrole hname => ?_⟩
  refine (hmet.member_or_unassigned hroot hcontainer hexposes hc hwrapped hrole hname).imp_right ?_
  rintro ⟨e, frame, taken, hmet⟩
  exact hmet.onItsOwn hrole hname

/-- A statement that wraps a declaration. -/
def sampleWrapper (kind : String) (roles : List String) (declaration : Syntax.Tree Unit) :
    Syntax.Tree Unit := sampleNode kind roles "" [declaration]

/-- A function as the declaration of an `export`. -/
def exportedFunction (kind name : String) : Syntax.Tree Unit :=
  sampleNode kind ["declaration"] "" [sampleNode "identifier" ["name"] name [],
    sampleNode "formal_parameters" ["parameters"] "()" []]

/-- The statement `export declare function f(): void`. -/
def exportDeclare (name : String) : Syntax.Tree Unit :=
  sampleWrapper "export_statement" []
    (sampleWrapper "ambient_declaration" ["declaration"] (sampleFunction "function_signature" name))

/-- `export` of a signature and of an implementation of `f`, and `export declare` of another
signature. -/
def overloadedTree : Syntax.Tree Unit :=
  sampleNode "program" [] "" [
    sampleWrapper "export_statement" [] (exportedFunction "function_signature" "f"),
    sampleWrapper "export_statement" [] (exportedFunction "function_declaration" "f"),
    exportDeclare "f"]

theorem overload_set_is_one_function_exported :
    (overloadSet "f" (.root (sampleNotes overloadedTree))).map (·.2.kind) =
      ["function_signature", "function_declaration"] ∧
    (∃ fqn before lead after,
      overloadSet "f" (.root (sampleNotes overloadedTree)) = before ++ lead :: after ∧
      OneFunction sampleOrigin (sampleNotes overloadedTree) "f" fqn before lead after) ∧
    ∃ c ∈ (Syntax.Node.root (sampleNotes overloadedTree)).namedChildren, ∃ d, Wrapped c d ∧
      d.fieldText? "name" = some "f" ∧ OnItsOwn sampleOrigin (sampleNotes overloadedTree) d := by
  have hkinds : (overloadSet "f" (.root (sampleNotes overloadedTree))).map (·.2.kind) =
      ["function_signature", "function_declaration"] := by decide +kernel
  have hexposes : ∀ c ∈ (sampleNotes overloadedTree).namedChildren, Exposes c := by decide +kernel
  have hnested : ∀ c ∈ (sampleNotes overloadedTree).children[2]?, ∀ e ∈ c.children[0]?,
      ∀ f ∈ e.children[0]?, c.label.named ∧ c.kind ∈ wrapperKinds ∧ Admits c e ∧
        e.kind ∈ wrapperKinds ∧ Admits e f ∧ ScopeRole.ofKind f.kind = .functionDeclaration ∧
        f.fieldText? "name" = some "f" ∧
        (functionOf? "f" ((Syntax.Node.root (sampleNotes overloadedTree)).down c)).isNone := by
    decide +kernel
  obtain ⟨hone, hrest⟩ := overload_set_is_one_function (o := sampleOrigin) (t := overloadedTree)
    (Syntax.Node.mem_descendants_self _) (admitted_root _) (.inr ⟨by decide +kernel, rfl⟩)
    hexposes "f"
  refine ⟨hkinds, hone ?_, ?_⟩
  · intro hempty
    rw [show overloadSet "f" (.root (sampleNotes overloadedTree)) = [] from hempty] at hkinds
    cases hkinds
  · obtain ⟨c, hc⟩ : ∃ c, (sampleNotes overloadedTree).children[2]? = some c := ⟨_, rfl⟩
    obtain ⟨e, he⟩ : ∃ e, c.children[0]? = some e := by
      cases hc
      exact ⟨_, rfl⟩
    obtain ⟨f, hf⟩ : ∃ f, e.children[0]? = some f := by
      cases hc
      cases he
      exact ⟨_, rfl⟩
    obtain ⟨hnamed, hcwrapper, hcadmits, hewrapper, headmits, hrole, hname, hnone⟩ :=
      hnested c hc e he f hf
    have hwrapped : Wrapped ((Syntax.Node.root (sampleNotes overloadedTree)).down c)
        ((((Syntax.Node.root (sampleNotes overloadedTree)).down c).down e).down f) :=
      .within hcwrapper (List.mem_of_getElem? he) hcadmits
        (.within hewrapper (List.mem_of_getElem? hf) headmits (.bare _))
    have hname : ((((Syntax.Node.root (sampleNotes overloadedTree)).down c).down e).down
        f).fieldText? "name" = some "f" := by
      rw [← fieldText?_tree]
      exact hname
    have hstatement : (Syntax.Node.root (sampleNotes overloadedTree)).down c ∈
        (Syntax.Node.root (sampleNotes overloadedTree)).namedChildren :=
      List.mem_map_of_mem (List.mem_filter.mpr ⟨List.mem_of_getElem? hc, hnamed⟩)
    refine ⟨_, hstatement, _, hwrapped, hname, ?_⟩
    refine (hrest _ hstatement _ hwrapped hrole hname).resolve_left fun hmem => ?_
    rw [(mem_overloadSet hmem).2] at hnone
    cases hnone

/-- Two signatures of `f`, both in `export declare`. -/
def exportDeclareTree : Syntax.Tree Unit :=
  sampleNode "program" [] "" [exportDeclare "f", exportDeclare "f"]

theorem export_declare_functions_split :
    ∃ m, fileModel Extractor.all sampleOrigin (sampleNotes exportDeclareTree) = .ok m ∧
      m.functions.map (·.fqn) = [⟨"\"/p/a.ts\".f"⟩, ⟨"\"/p/a.ts\".f$1"⟩] ∧
      m.exports.map (fun e => (e.identifier, e.declaration)) =
        [("f", ⟨"\"/p/a.ts\".f"⟩), ("f", ⟨"\"/p/a.ts\".f$1"⟩)] := by
  have hrecords :
      (fileModel Extractor.all sampleOrigin (sampleNotes exportDeclareTree)).toOption.map
        (fun m => (m.functions.map (·.fqn), m.exports.map fun e => (e.identifier, e.declaration))) =
      some ([⟨"\"/p/a.ts\".f"⟩, ⟨"\"/p/a.ts\".f$1"⟩],
        [("f", ⟨"\"/p/a.ts\".f"⟩), ("f", ⟨"\"/p/a.ts\".f$1"⟩)]) := by decide +kernel
  obtain ⟨m, hmodel, hrecords⟩ := exists_ok_of_map hrecords
  exact ⟨m, hmodel, Prod.mk.inj hrecords⟩

end Extract

end CodeConcepts
