import CodeConcepts.Model.Catalogue
import CodeConcepts.Proofs.Attribution
import CodeConcepts.Proofs.ExportResolution
import CodeConcepts.Proofs.Merging
import Mathlib.Algebra.Ring.Nat

/-!
# What a catalogue holds

A catalogue is well kept if no kind is entered without concepts and every concept stands under its
own kind. Just these are the catalogues of models (`Catalogue.ofModel`), and every operation does to
the catalogue of a model what the operation of the same name does to the model: `push_ofModel`,
`set_ofModel`, `merge_ofModel`, `ofText_eq`, `unify_ofModel`, `run_ofModel`. So a catalogue that is
built from nothing by these operations is well kept, and what follows from that holds of all of them
(`built_wellKept`).
-/

namespace CodeConcepts.Catalogue

open Extract (filterMap_as?_self)

variable {c d : Catalogue} {m n : Model} {k : Kind}

theorem ext (h : ∀ k, c.find? k = d.find? k) : c = d := congrArg Catalogue.mk (funext h)

/-- The catalogue of a model: the kinds of which there are records are entered. -/
def ofModel (m : Model) : Catalogue :=
  ⟨fun k => if m.get k = [] then none else some ((m.get k).map (Concept.mk k))⟩

theorem get_ofModel (m : Model) (k : Kind) : (ofModel m).get k = (m.get k).map (Concept.mk k) := by
  show (if m.get k = [] then none else some ((m.get k).map (Concept.mk k))).getD [] = _
  split
  · next h => rw [h]; rfl
  · rfl

/-- A catalogue holds all records of its model. -/
theorem model_ofModel (m : Model) : (ofModel m).model = m := by
  refine Model.ext_get fun k => ?_
  rw [model, Model.get_ofFn, get_ofModel, filterMap_as?_self]

theorem new_eq : new = ofModel .empty := by
  refine ext fun k => ?_
  show none = if Model.empty.get k = [] then none else _
  rw [Model.get_empty, if_pos rfl]

/-! ## Operations -/

/-- Whether a kind is struck out or entered, the catalogue is that of the changed model. -/
theorem set_ofModel (m : Model) (k : Kind) (rs : List k.Record) :
    (ofModel m).set k (rs.map (Concept.mk k)) = ofModel (m.set k rs) := by
  refine ext fun l => ?_
  show _ = if (m.set k rs).get l = [] then none else _
  by_cases hl : l = k
  · subst hl
    rw [Model.get_set_self, set]
    cases rs with
    | nil | cons r rs => exact if_pos rfl
  · rw [Model.get_set_of_ne m rs (Ne.symm hl), set]
    split <;> exact if_neg hl

theorem take_ofModel (m : Model) (k : Kind) :
    (ofModel m).take k = ((m.get k).map (Concept.mk k), ofModel (m.set k [])) := by
  rw [take, get_ofModel, ← set_ofModel]
  rfl

theorem extend_ofModel (m : Model) {rs : List k.Record} (h : rs ≠ []) :
    (ofModel m).extend k (rs.map (Concept.mk k)) = ofModel (m.set k (m.get k ++ rs)) := by
  rw [← set_ofModel, set, if_neg (by simp [h]), extend, get_ofModel, List.map_append]

theorem push_ofModel (m : Model) (x : Concept) : (ofModel m).push x = ofModel (m.push x) :=
  extend_ofModel m (List.cons_ne_nil x.record [])

/-- The entries of some kinds are added one after the other, each to the list of its own kind. -/
theorem foldl_extend_ofModel {ks : List Kind} (hks : ks.Nodup) (m n : Model) :
    (ks.filterMap fun k => ((ofModel n).find? k).map (k, ·)).foldl
        (fun c e => c.extend e.1 e.2) (ofModel m) =
      ofModel (.ofFn fun k => if k ∈ ks then m.get k ++ n.get k else m.get k) := by
  induction ks generalizing m with
  | nil => exact congrArg ofModel (Model.ext_get fun k => by simp)
  | cons k ks ih =>
    obtain ⟨hk, hks⟩ := List.nodup_cons.mp hks
    by_cases hnil : n.get k = []
    · have hfind : (ofModel n).find? k = none := if_pos hnil
      rw [List.filterMap_cons_none (by rw [hfind]; rfl), ih hks]
      refine congrArg ofModel (Model.ext_get fun l => ?_)
      by_cases hl : l = k
      · subst hl
        simp [hk, hnil]
      · simp [hl]
    · have hfind : (ofModel n).find? k = some ((n.get k).map (Concept.mk k)) := if_neg hnil
      rw [List.filterMap_cons_some (by rw [hfind]; rfl), List.foldl_cons, extend_ofModel m hnil,
        ih hks]
      refine congrArg ofModel (Model.ext_get fun l => ?_)
      by_cases hl : l = k
      · subst hl
        simp [hk]
      · simp [hl, Model.get_set_of_ne m _ (Ne.symm hl)]

theorem merge_ofModel (m n : Model) : (ofModel m).merge (ofModel n) = ofModel (m.merge n) := by
  rw [merge, entries, foldl_extend_ofModel (by decide)]
  exact congrArg ofModel (Model.ext_get fun k => by simp [Kind.mem_all])

theorem rename_ofModel (f : QName → QName) (m : Model) :
    (ofModel m).rename f = ofModel (mapNames f m) := by
  refine ext fun k => ?_
  show Option.map _ (if m.get k = [] then none else some ((m.get k).map (Concept.mk k))) =
    if (mapNames f m).get k = [] then none else _
  rw [Model.get_mapNames]
  by_cases hnil : m.get k = []
  · rw [if_pos hnil, if_pos (List.map_eq_nil_iff.mpr hnil)]
    rfl
  · rw [if_neg hnil, if_neg (List.map_eq_nil_iff.not.mpr hnil), Option.map_some, List.map_map,
      List.map_map]
    rfl

/-! ## Reading -/

theorem readRecords_ofModel (m : Model) (k : Kind) (items : List Json) :
    (ofModel m).readRecords k items =
      match items.mapM k.decode? with
      | some rs => .ok (ofModel (m.set k (m.get k ++ rs)))
      | none => .error .malformed := by
  unfold readRecords
  induction items generalizing m with
  | nil =>
    rw [List.mapM_nil]
    show Except.ok _ = Except.ok (ofModel (m.set k (m.get k ++ [])))
    rw [List.append_nil, Model.set_get]
  | cons j items ih =>
    rw [List.foldlM_cons, List.mapM_cons]
    cases k.decode? j with
    | none => rfl
    | some r =>
      show List.foldlM _ ((ofModel m).push ⟨k, r⟩) items = _
      rw [push_ofModel, ih, Model.push, Model.get_set_self]
      cases items.mapM k.decode? with
      | none => rfl
      | some rs =>
        show Except.ok (ofModel ((m.set k _).set k _)) = Except.ok (ofModel (m.set k _))
        rw [Model.set_set, List.append_assoc]
        rfl

theorem readKind_ofModel (m : Model) (id : String) (records : Json) :
    (ofModel m).readKind id records = (m.decodeKind id records).map ofModel := by
  unfold readKind Model.decodeKind
  cases Kind.ofId? id with
  | none => rfl
  | some k =>
    cases records with
    | array items =>
      show (ofModel m).readRecords k items = _
      rw [readRecords_ofModel]
      dsimp only
      cases items.mapM k.decode? <;> rfl
    | _ => rfl

/-- A text is read into the catalogue of the model it stands for. -/
theorem ofText_eq (text : String) : ofText text = (Model.ofText text).map ofModel := by
  have hmembers (members : List (String × Json)) (m : Model) :
      members.foldlM (fun c p => c.readKind p.1 p.2) (ofModel m) =
        (members.foldlM (fun m p => Model.decodeKind m p.1 p.2) m).map ofModel := by
    induction members generalizing m with
    | nil => rfl
    | cons p members ih =>
      rw [List.foldlM_cons, List.foldlM_cons, readKind_ofModel]
      cases m.decodeKind p.1 p.2 with
      | error e => rfl
      | ok m => exact ih m
  unfold ofText Model.ofText
  cases Json.parse? Json.nestingLimit text with
  | none => rfl
  | some j =>
    cases j with
    | object members =>
      show members.foldlM _ new = _
      rw [new_eq]
      exact hmembers members .empty
    | _ => rfl

/-! ## Unification and passes -/

theorem requireDistinct_ofModel (m : Model) :
    (ofModel m).requireDistinct = m.requireDistinct.map ofModel := by
  rw [requireDistinct, Model.requireDistinct, model_ofModel]
  cases m.duplicates <;> rfl

theorem unify_ofModel (root : String) (m : Model) :
    (ofModel m).unify root = (m.unify root).map ofModel := by
  unfold unify Model.unify
  dsimp only
  split
  · rw [take_ofModel, filterMap_as?_self, show m.get .project = m.projects from rfl]
    cases Model.foldProjects m.projects with
    | error v => rfl
    | ok ps =>
      dsimp only
      rw [set_ofModel, Model.set_set, requireDistinct_ofModel]
      rfl
  · rw [rename_ofModel, requireDistinct_ofModel]

theorem addRecords_ofModel (m : Model) (k : Kind) (rs : List k.Record) :
    (ofModel m).addRecords k rs = ofModel (m.set k (m.get k ++ rs)) := by
  rw [addRecords, take_ofModel]
  dsimp only
  rw [← List.map_append, set_ofModel, Model.set_set]

theorem aggregateEdges_ofModel (m : Model) :
    (ofModel m).aggregateEdges = (Pass.dependencyAggregation.run m).map ofModel := by
  unfold aggregateEdges Pass.run Pass.edit
  rw [get_ofModel, List.length_map, model_ofModel]
  dsimp only
  by_cases hone : (m.get .project).length = 1
  · rw [Model.aggregateEdges_of_one hone, if_neg (not_not_intro hone), take_ofModel,
      addRecords_ofModel, Model.get_set_of_ne m _ (by decide)]
    rfl
  · rw [Model.aggregateEdges_of_not_one hone, if_pos hone]
    rfl

theorem run_ofModel (p : Pass) (m : Model) : (ofModel m).run p = (p.run m).map ofModel := by
  cases p with
  | exportResolution =>
    show Except.ok (resolveExports _) = Except.ok (ofModel m.resolveExports)
    rw [Model.resolveExports_eq_mapNames, resolveExports, model_ofModel, ← rename_ofModel]
    -- nothing has been searched for before
    exact congrArg (fun f => Except.ok ((ofModel m).rename f)) (funext fun n =>
      ((ExportTable.ofModel m).gives_resolve n [] (by simp [ExportTable.Remembers])).1)
  | dependencyAggregation => exact aggregateEdges_ofModel m
  | moduleDependencies =>
    show Except.ok (deriveModuleDependencies _) = Except.ok (ofModel m.deriveModuleDependencies)
    rw [deriveModuleDependencies, model_ofModel, addRecords_ofModel]
    rfl

/-! ## Catalogues that are built -/

/-- No kind is entered without concepts, and every concept stands under its own kind. -/
structure WellKept (c : Catalogue) : Prop where
  nonempty : ∀ k, c.find? k ≠ some []
  own : ∀ k cs, c.find? k = some cs → ∀ x ∈ cs, x.kind = k

theorem wellKept_ofModel (m : Model) : (ofModel m).WellKept := by
  have hfind {k : Kind} {cs : List Concept} (h : (ofModel m).find? k = some cs) :
      m.get k ≠ [] ∧ (m.get k).map (Concept.mk k) = cs := by
    have h : (if m.get k = [] then none else some ((m.get k).map (Concept.mk k))) = some cs := h
    split at h
    · cases h
    · next hne => exact ⟨hne, Option.some.inj h⟩
  refine ⟨fun k h => ?_, fun k cs h x hx => ?_⟩
  · exact (hfind h).1 (List.map_eq_nil_iff.mp (hfind h).2)
  · rw [← (hfind h).2] at hx
    obtain ⟨r, -, rfl⟩ := List.mem_map.mp hx
    rfl

/-- A catalogue is built from nothing by pushing, taking, setting concepts of the kind in question,
merging, reading a text, unifying and running passes. -/
inductive Built : Catalogue → Prop
  | new : Built new
  | push {c : Catalogue} (x : Concept) : Built c → Built (c.push x)
  | take {c : Catalogue} (k : Kind) : Built c → Built (c.take k).2
  | set {c : Catalogue} {k : Kind} {cs : List Concept} : Built c → (∀ x ∈ cs, x.kind = k) →
      Built (c.set k cs)
  | merge {c d : Catalogue} : Built c → Built d → Built (c.merge d)
  | ofText {text : String} {c : Catalogue} : ofText text = .ok c → Built c
  | unify {root : String} {c d : Catalogue} : Built c → c.unify root = .ok d → Built d
  | run {p : Pass} {c d : Catalogue} : Built c → c.run p = .ok d → Built d

theorem exists_records {cs : List Concept} (h : ∀ x ∈ cs, x.kind = k) :
    ∃ rs : List k.Record, cs = rs.map (Concept.mk k) := by
  induction cs with
  | nil => exact ⟨[], rfl⟩
  | cons x cs ih =>
    obtain ⟨rfl, hcs⟩ := List.forall_mem_cons.mp h
    obtain ⟨rs, rfl⟩ := ih hcs
    exact ⟨x.record :: rs, rfl⟩

/-- Whatever is built is the catalogue of a model. -/
theorem Built.exists_model (h : Built c) : ∃ m, c = ofModel m := by
  induction h with
  | new => exact ⟨_, new_eq⟩
  | push x _ ih =>
    obtain ⟨m, rfl⟩ := ih
    exact ⟨_, push_ofModel m x⟩
  | take k _ ih =>
    obtain ⟨m, rfl⟩ := ih
    exact ⟨_, congrArg Prod.snd (take_ofModel m k)⟩
  | set _ hcs ih =>
    obtain ⟨m, rfl⟩ := ih
    obtain ⟨rs, rfl⟩ := exists_records hcs
    exact ⟨_, set_ofModel m _ rs⟩
  | merge _ _ ihc ihd =>
    obtain ⟨m, rfl⟩ := ihc
    obtain ⟨n, rfl⟩ := ihd
    exact ⟨_, merge_ofModel m n⟩
  | ofText h =>
    rw [ofText_eq] at h
    obtain ⟨m, -, rfl⟩ := map_eq_ok.mp h
    exact ⟨m, rfl⟩
  | unify _ h ih =>
    obtain ⟨m, rfl⟩ := ih
    rw [unify_ofModel] at h
    obtain ⟨n, -, rfl⟩ := map_eq_ok.mp h
    exact ⟨n, rfl⟩
  | run _ h ih =>
    obtain ⟨m, rfl⟩ := ih
    rw [run_ofModel] at h
    obtain ⟨n, -, rfl⟩ := map_eq_ok.mp h
    exact ⟨n, rfl⟩

theorem size_eq (c : Catalogue) : c.size = (Kind.all.flatMap c.get).length := by
  have hfold (ks : List Kind) (n : Nat) :
      (ks.filterMap fun k => (c.find? k).map (k, ·)).foldl (fun n e => n + e.2.length) n =
        n + (ks.flatMap c.get).length := by
    induction ks generalizing n with
    | nil => rfl
    | cons k ks ih =>
      rw [List.flatMap_cons, List.length_append, get]
      cases hfind : c.find? k with
      | none =>
        rw [List.filterMap_cons_none (by rw [hfind]; rfl), ih, Option.getD_none, List.length_nil,
          Nat.zero_add]
      | some cs =>
        rw [List.filterMap_cons_some (by rw [hfind]; rfl), List.foldl_cons, ih]
        exact Nat.add_assoc _ _ _
  exact (hfold Kind.all 0).trans (Nat.zero_add _)

namespace WellKept

theorem contains_iff (h : c.WellKept) (k : Kind) : c.contains k = true ↔ c.get k ≠ [] := by
  rw [contains, get]
  cases hfind : c.find? k with
  | none => simp
  | some cs =>
    have hne : cs ≠ [] := fun e => h.nonempty k (e ▸ hfind)
    simpa using hne

theorem isEmpty_iff (h : c.WellKept) : c.isEmpty = true ↔ c.size = 0 := by
  have hentries : c.isEmpty = true ↔ ∀ k, c.contains k = false := by
    rw [isEmpty, List.isEmpty_iff, entries, List.filterMap_eq_nil_iff]
    simp [Kind.mem_all, contains]
  have hsum : c.size = 0 ↔ ∀ k, c.get k = [] := by
    rw [size_eq, List.length_eq_zero_iff, List.flatMap_eq_nil_iff]
    simp [Kind.mem_all]
  rw [hentries, hsum]
  refine forall_congr' fun k => ?_
  rw [← not_iff_not, Bool.not_eq_false, h.contains_iff]

end WellKept

/-- Whatever is built is well kept. Hence a kind is entered just if it has concepts, a catalogue is
empty just if its size is zero, the size is the sum over all kinds, and merging is associative, adds
the concepts kind by kind and has the catalogue without entries as its unit. -/
theorem built_wellKept (hc : Built c) :
    c.WellKept ∧ (∀ k, c.contains k = true ↔ c.get k ≠ []) ∧ (c.isEmpty = true ↔ c.size = 0) ∧
    c.size = (Kind.all.map fun k => (c.get k).length).sum ∧
    c.merge new = c ∧ new.merge c = c ∧
    ∀ d, Built d → (∀ k, (c.merge d).get k = c.get k ++ d.get k) ∧
      ∀ e, Built e → (c.merge d).merge e = c.merge (d.merge e) := by
  obtain ⟨m, rfl⟩ := hc.exists_model
  have hkept := wellKept_ofModel m
  refine ⟨hkept, hkept.contains_iff, hkept.isEmpty_iff,
    (size_eq _).trans List.length_flatMap, ?_, ?_, fun d hd => ?_⟩
  · rw [new_eq, merge_ofModel]
    exact congrArg ofModel (Model.ext_get fun k => by simp)
  · rw [new_eq, merge_ofModel]
    exact congrArg ofModel (Model.ext_get fun k => by simp)
  · obtain ⟨n, rfl⟩ := hd.exists_model
    refine ⟨fun k => ?_, fun e he => ?_⟩
    · rw [merge_ofModel, get_ofModel, get_ofModel, get_ofModel, Model.get_merge, List.map_append]
    · obtain ⟨l, rfl⟩ := he.exists_model
      rw [merge_ofModel, merge_ofModel, merge_ofModel, merge_ofModel]
      exact congrArg ofModel (Model.ext_get fun k => by simp)

/-- A catalogue in which a kind was entered and is not any more. -/
def emptied : Catalogue :=
  (((new.push ⟨.project, ⟨"/p"⟩⟩).merge (new.push ⟨.edge, ⟨⟨"a"⟩, ⟨"b"⟩, .call⟩⟩)).take .edge).2

theorem built_wellKept_emptied :
    Built emptied ∧ emptied.WellKept ∧ emptied.get .edge = [] ∧ emptied.contains .edge = false ∧
      emptied.size = 1 ∧ emptied.isEmpty = false := by
  have hc : Built emptied := .take .edge (.merge (.push _ .new) (.push _ .new))
  exact ⟨hc, (built_wellKept hc).1, rfl, rfl, rfl, rfl⟩

end CodeConcepts.Catalogue
