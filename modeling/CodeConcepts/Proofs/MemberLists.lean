import CodeConcepts.Model.Dependencies
import CodeConcepts.Proofs.Recording

/-!
# The member lists of classes and interfaces are complete

The children of a node are looked at in the same way by the scope analysis, so the members that
stand side by side in one body have names below one owner, or none at all (`exists_memberOwner`).
That is what the lists of a class or an interface rely on when they leave members out: a signature
is an overload of the method with the body, a getter and a setter make one accessor, signatures of
one name make one method. The member that is kept has the name of those left out, so the name of
every member of a kind that is listed is in the list (`mem_partLabels_classDecl`,
`mem_partLabels_interfaceDecl`).
-/

namespace CodeConcepts

variable {α : Type} {t : Syntax.Tree α} {a : AccessorDecl} {o : Origin} {owner f above : QName}

/-! ## Members side by side -/

/-- Either all named trees of a list are visited as what they are, or none. -/
def Task.Uniform (tasks : List Task) (cs : List (Syntax.Tree α)) : Prop :=
  Task.Full tasks cs ∨ ∀ task ∈ tasks, task.isVisit = false

theorem isVisit_skipAll (t : Syntax.Tree α) : ∀ task ∈ Scope.skipAll t, task.isVisit = false := by
  intro task htask
  obtain ⟨c, -, rfl⟩ := List.mem_map.mp htask
  rfl

theorem isVisit_visitBody (t : Syntax.Tree α) :
    ∀ task ∈ Scope.visitBody t, task.isVisit = false := by
  unfold Scope.visitBody
  split
  · exact isVisit_skipAll t
  · intro task htask
    obtain ⟨p, -, rfl⟩ := List.mem_map.mp htask
    dsimp only
    split <;> rfl

namespace Plan

theorem uniform_ofNode (resolve : String → QName) (frame : Frame) (assigned : Option Assignment)
    (t : Syntax.Tree α) (taken : Taken) :
    Task.Uniform (ofNode resolve frame assigned t taken).tasks t.children :=
  tasks_ofNode (P := fun tasks => Task.Uniform tasks t.children) resolve frame assigned t taken
    (.inl (full_visitNamed t)) (.inl (full_visitWrapped t none))
    (.inl (full_visitWrapped t assigned)) (fun _ => .inl (full_container _ t taken))
    (fun _ => .inr (isVisit_visitBody t)) (fun _ => .inl (full_visitDeclarators t))
    fun _ => .inr (isVisit_skipAll t)

theorem uniform_ofTask (resolve : String → QName) (task : Task) (frame : Frame)
    (t : Syntax.Tree α) (taken : Taken) :
    Task.Uniform (ofTask resolve task frame t taken).tasks t.children := by
  cases task with
  | skip => exact .inr (isVisit_skipAll t)
  | visit assigned => exact uniform_ofNode resolve frame assigned t taken
  | declarator =>
    unfold ofTask
    dsimp only
    split
    · unfold variableDeclarator
      split
      · exact .inr (isVisit_skipAll t)
      · split
        · exact .inl (full_visitNamed t)
        · exact .inl (full_visitWrapped t none)
    · exact uniform_ofNode resolve frame none t taken
  | body => exact .inl (full_container frame t taken)

/-- A member that is visited takes its name from the frame it stands in. -/
theorem declares_of_member (resolve : String → QName) {task : Task} (frame : Frame) (taken : Taken)
    (htask : task.isVisit) (hmember : Extract.Role.ofKind? t.kind = some .member) :
    (ofTask resolve task frame t taken).declares = memberName? frame t := by
  have hnode (assigned : Option Assignment) :
      (ofNode resolve frame assigned t taken).declares = memberName? frame t := by
    unfold ofNode
    rcases List.mem_cons.mp (Extract.scopeRole_of_ofKind? hmember) with hrole | hrole
    · rw [hrole]
      rfl
    · rw [List.mem_singleton.mp hrole]
      rfl
  cases task with
  | skip => cases htask
  | visit assigned => exact hnode assigned
  | declarator =>
    unfold ofTask
    dsimp only
    split
    · next hkind =>
      rw [hkind] at hmember
      cases hmember
    · exact hnode none
  | body => cases htask

theorem declares_of_not_isVisit (resolve : String → QName) {task : Task} (frame : Frame)
    (t : Syntax.Tree α) (taken : Taken) (htask : task.isVisit = false) :
    (ofTask resolve task frame t taken).declares = none := by
  cases task with
  | skip => rfl
  | visit assigned | declarator => cases htask
  | body => rfl

end Plan

/-- Trees of one shape have the same texts in their fields. -/
theorem Syntax.Tree.fieldText?_congr {β : Type} {u : Syntax.Tree β} (h : t.shape = u.shape)
    (name : String) : t.fieldText? name = u.fieldText? name := by
  have hlabel := congrArg (Option.map Syntax.Label.text) (Syntax.Tree.label_field?_congr h name)
  rw [Option.map_map, Option.map_map] at hlabel
  exact hlabel

/-- The name of a member below the owner of members, where they have one. -/
def memberNameBelow (owner : Option QName) (name : Option String) : Option QName :=
  owner.bind fun o => name.map o.child

/-- The members among the children of one node are named below one owner, or have no names. -/
theorem exists_memberOwner (resolve : String → QName) (module : QName) {b : Syntax.Tree Note}
    (hb : b ∈ (analyse resolve module t).subtrees) :
    ∃ owner, ∀ c ∈ b.namedChildren, Extract.Role.ofKind? c.kind = some .member →
      c.note.declares = memberNameBelow owner (c.fieldText? "name") := by
  obtain ⟨⟨l, a, cs⟩, task, frame, taken, rfl⟩ := exists_annotate resolve t _ _ _ hb
  rw [annotate]
  set plan := Plan.ofTask resolve task frame (.node l a cs) taken
  -- a child is the result for the tree at its position, with the task at that position
  have hchild {c : Syntax.Tree Note} (hc : c ∈ Syntax.Tree.namedChildren (.node l
      (plan.note (annotateAll resolve plan.tasks plan.frame plan.taken cs).outward)
      (annotateAll resolve plan.tasks plan.frame plan.taken cs).result)) :
      ∃ (i : Nat) (c' : Syntax.Tree α) (taken' : Taken), cs[i]? = some c' ∧ c'.label.named ∧
        c = (annotate resolve (plan.tasks[i]?.getD .skip) plan.frame taken' c').result := by
    obtain ⟨hmem, hnamed⟩ := List.mem_filter.mp hc
    obtain ⟨i, hi⟩ := List.mem_iff_getElem?.mp hmem
    obtain ⟨taken', htaken⟩ := getElem?_annotateAll resolve plan.tasks plan.frame plan.taken cs i
    obtain ⟨c', hc', rfl⟩ := Option.map_eq_some_iff.mp (htaken.symm.trans hi)
    have hlabel := (Extract.annotates_annotate resolve (plan.tasks[i]?.getD .skip) plan.frame
      taken' c' []).label
    refine ⟨i, c', taken', hc', ?_, rfl⟩
    rw [← hlabel]
    exact hnamed
  have hnote (task : Task) (taken' : Taken) (c' : Syntax.Tree α) :
      (annotate resolve task plan.frame taken' c').result.note.declares =
        (Plan.ofTask resolve task plan.frame c' taken').declares :=
    (Extract.annotates_annotate resolve task plan.frame taken' c' []).declares
  -- either all named children are visited with one frame, or none is visited
  rcases Plan.uniform_ofTask resolve task frame (.node l a cs) taken with hfull | hnone
  · refine ⟨if plan.frame.namedMembers then some plan.frame.owner else none, fun c hc hmember => ?_⟩
    obtain ⟨i, c', taken', hc', hnamed, rfl⟩ := hchild hc
    have hkind : (annotate resolve (plan.tasks[i]?.getD .skip) plan.frame taken' c').result.kind =
        c'.kind := congrArg Syntax.Label.kind
      (Extract.annotates_annotate resolve _ plan.frame taken' c' []).label
    rw [hkind] at hmember
    rw [hnote, Plan.declares_of_member resolve plan.frame taken' (hfull i c' hc' hnamed) hmember,
      Syntax.Tree.fieldText?_congr (shape_annotate resolve _ plan.frame taken' c') "name"]
    unfold Plan.memberName? memberNameBelow
    split <;> rfl
  · refine ⟨none, fun c hc _ => ?_⟩
    obtain ⟨i, c', taken', -, -, rfl⟩ := hchild hc
    rw [hnote]
    refine Plan.declares_of_not_isVisit resolve plan.frame c' taken' ?_
    cases htask : plan.tasks[i]? with
    | none => rfl
    | some task => exact hnone task (List.mem_of_getElem? htask)

namespace Extract

open ScopedNode (declares?)

/-! ## Names that are kept -/

/-- What a member is listed under. -/
def MemberPart.fqn : MemberPart → QName
  | .construct _ c => c.fqn
  | .accessor a => a.fqn
  | .method m => m.fqn
  | .property p => p.fqn

/-- An accessor is joined to one that has the same name, if both are named below one owner. -/
theorem fqn_addAccessor {as : List AccessorDecl} (ha : a.fqn = owner.child a.name)
    (has : ∀ b ∈ as, b.fqn = owner.child b.name) :
    (∀ b ∈ addAccessor a as, b.fqn = owner.child b.name) ∧
      ∀ f ∈ (a :: as).map (·.fqn), f ∈ (addAccessor a as).map (·.fqn) := by
  induction as with
  | nil => exact ⟨List.forall_mem_singleton.mpr ha, fun f hf => hf⟩
  | cons b bs ih =>
    obtain ⟨hb, hbs⟩ := List.forall_mem_cons.mp has
    obtain ⟨hnamed, hkept⟩ := ih hbs
    rw [addAccessor]
    split
    · next hsame =>
      refine ⟨List.forall_mem_cons.mpr ⟨hb, hbs⟩, fun f hf => ?_⟩
      rcases List.mem_cons.mp hf with rfl | hf
      -- the name of the accessor that is given up is the name of the one that stays
      · have hfqn : a.fqn = b.fqn := by rw [ha, ← hsame.1, ← hb]
        exact List.mem_cons.mpr (.inl hfqn)
      · exact hf
    · refine ⟨List.forall_mem_cons.mpr ⟨hb, hnamed⟩, fun f hf => ?_⟩
      rcases List.mem_cons.mp hf with rfl | hf
      · exact List.mem_cons_of_mem _ (hkept _ List.mem_cons_self)
      · rcases List.mem_cons.mp hf with rfl | hf
        · exact List.mem_cons_self
        · exact List.mem_cons_of_mem _ (hkept f (List.mem_cons_of_mem _ hf))

theorem fqn_foldl_addAccessor (owner : QName) {as : List AccessorDecl}
    (has : ∀ a ∈ as, a.fqn = owner.child a.name) (ha : a ∈ as) :
    a.fqn ∈ (as.foldl (fun bs a => addAccessor a bs) []).map (·.fqn) := by
  suffices hfold : ∀ bs : List AccessorDecl, (∀ b ∈ bs, b.fqn = owner.child b.name) →
      ∀ f ∈ (bs ++ as).map (·.fqn),
        f ∈ (as.foldl (fun bs a => addAccessor a bs) bs).map (·.fqn) from
    hfold [] (List.forall_mem_nil _) a.fqn (List.mem_map_of_mem ha)
  clear ha
  induction as with
  | nil =>
    intro bs _ f hf
    rwa [List.append_nil] at hf
  | cons c cs ih =>
    intro bs hbs f hf
    obtain ⟨hc, hcs⟩ := List.forall_mem_cons.mp has
    obtain ⟨hnamed, hkept⟩ := fqn_addAccessor hc hbs
    refine ih hcs _ hnamed f ?_
    rw [List.map_append, List.mem_append] at hf ⊢
    rcases hf with hf | hf
    · exact .inl (hkept f (List.mem_cons_of_mem _ hf))
    · rcases List.mem_cons.mp hf with rfl | hf
      · exact .inl (hkept _ List.mem_cons_self)
      · exact .inr hf

theorem fqn_firstMethods {ms : List MethodDecl} {m : MethodDecl} (hm : m ∈ ms) :
    m.fqn ∈ (firstMethods ms).map (·.fqn) := by
  suffices hfold : ∀ kept : List MethodDecl, ∀ f ∈ (kept ++ ms).map (·.fqn),
      f ∈ (ms.foldl (fun kept m => if kept.any (·.fqn == m.fqn) then kept else kept ++ [m])
        kept).map (·.fqn) from hfold [] m.fqn (List.mem_map_of_mem hm)
  clear hm
  induction ms with
  | nil =>
    intro kept f hf
    rwa [List.append_nil] at hf
  | cons e es ih =>
    intro kept f hf
    rw [List.foldl_cons]
    refine ih _ f ?_
    split
    · next hany =>
      obtain ⟨k, hk, hsame⟩ := List.any_eq_true.mp hany
      rw [List.map_append, List.mem_append] at hf ⊢
      rcases hf with hf | hf
      · exact .inl hf
      · rcases List.mem_cons.mp hf with rfl | hf
        · exact .inl (List.mem_map.mpr ⟨k, hk, beq_iff_eq.mp hsame⟩)
        · exact .inr hf
    · rwa [List.append_assoc]

/-! ## Members of a body -/

/-- The members of a body are named below one owner. -/
def NamedBelow (owner : QName) (body : ScopedNode) : Prop :=
  ∀ c ∈ body.namedChildren, Role.ofKind? c.kind = some .member →
    declares? c = (c.fieldText? "name").map owner.child

theorem fieldText?_tree (n : ScopedNode) (name : String) :
    n.tree.fieldText? name = n.fieldText? name := by
  unfold Syntax.Tree.fieldText? Syntax.Node.fieldText?
  rw [← Syntax.Node.tree_field?, Option.map_map]
  rfl

/-- If one member of a body has a name, they all have. -/
theorem exists_namedBelow {resolve : String → QName} {module : QName} {body c : ScopedNode}
    (hbody : body.tree ∈ (analyse resolve module t).subtrees) (hc : c ∈ body.namedChildren)
    (hmember : Role.ofKind? c.kind = some .member) (hf : declares? c = some f) :
    ∃ owner, NamedBelow owner body := by
  obtain ⟨owner, howner⟩ := exists_memberOwner resolve module hbody
  have hall (d : ScopedNode) (hd : d ∈ body.namedChildren)
      (hmember : Role.ofKind? d.kind = some .member) :
      declares? d = memberNameBelow owner (d.fieldText? "name") := by
    obtain ⟨u, hu, rfl⟩ := List.mem_map.mp hd
    rw [← fieldText?_tree]
    exact howner u hu hmember
  cases owner with
  | none => cases (hall c hc hmember).symm.trans hf
  | some o => exact ⟨o, hall⟩

/-- The kinds of members that the record of a class lists. -/
def classMemberKinds : List String :=
  ["method_definition", "method_signature", "abstract_method_signature", "public_field_definition"]

/-- The kinds of members that the record of an interface lists. -/
def interfaceMemberKinds : List String := ["property_signature", "method_signature"]

theorem ofKind?_of_classMember {kind : String} (h : kind ∈ classMemberKinds) :
    Role.ofKind? kind = some .member := by
  simp only [classMemberKinds, List.mem_cons, List.not_mem_nil, or_false] at h
  rcases h with rfl | rfl | rfl | rfl <;> rfl

theorem ofKind?_of_interfaceMember {kind : String} (h : kind ∈ interfaceMemberKinds) :
    Role.ofKind? kind = some .member := by
  simp only [interfaceMemberKinds, List.mem_cons, List.not_mem_nil, or_false] at h
  rcases h with rfl | rfl <;> rfl

section Parts

variable {o : Origin} {n : ScopedNode} {f : QName}

theorem exists_method? (hname : (n.fieldText? "name").isSome) (hf : declares? n = some f) :
    ∃ m, method? o n = some m ∧ m.fqn = f := by
  obtain ⟨name, hname⟩ := Option.isSome_iff_exists.mp hname
  unfold method?
  rw [hname, hf]
  exact ⟨_, rfl, rfl⟩

theorem exists_property? (hname : (n.fieldText? "name").isSome) (hf : declares? n = some f) :
    ∃ p, property? o n = some p ∧ p.fqn = f := by
  obtain ⟨name, hname⟩ := Option.isSome_iff_exists.mp hname
  unfold property?
  rw [hname, hf]
  exact ⟨_, rfl, rfl⟩

theorem exists_accessorHalf? (hname : (n.fieldText? "name").isSome) (hf : declares? n = some f) :
    ∃ a, accessorHalf? o n = some a ∧ a.fqn = f := by
  obtain ⟨name, hname⟩ := Option.isSome_iff_exists.mp hname
  unfold accessorHalf?
  rw [hname, hf]
  dsimp only
  split <;> exact ⟨_, rfl, rfl⟩

/-- An accessor has the name that is noted on its node. -/
theorem accessorHalf?_eq_some (h : accessorHalf? o n = some a) :
    n.fieldText? "name" = some a.name ∧ declares? n = some a.fqn := by
  unfold accessorHalf? at h
  split at h
  · next hname hdeclares =>
    dsimp only at h
    split at h <;> cases h <;> exact ⟨hname, hdeclares⟩
  · cases h

end Parts

/-- A method with a body is listed under its name. -/
theorem exists_part_of_definition {implemented : List String} {n : ScopedNode}
    (hkind : n.kind = "method_definition") (hparameters : (n.field? "parameters").isSome)
    (hname : (n.fieldText? "name").isSome) (hf : declares? n = some f) :
    ∃ p, memberPart? o owner implemented n = some p ∧ p.fqn = f := by
  unfold memberPart?
  rw [hkind]
  show ∃ p, (if n.fieldText? "name" = some "constructor" then _ else _) = some p ∧ _
  split
  · obtain ⟨ps, hps⟩ := Option.isSome_iff_exists.mp hparameters
    rw [hps]
    refine ⟨_, rfl, ?_⟩
    show (declares? n).getD _ = f
    rw [hf]
    rfl
  · split
    · obtain ⟨a, ha, hfqn⟩ := exists_accessorHalf? (o := o) hname hf
      rw [ha]
      exact ⟨_, rfl, hfqn⟩
    · obtain ⟨m, hm, hfqn⟩ := exists_method? (o := o) hname hf
      rw [hm]
      exact ⟨_, rfl, hfqn⟩

/-- The name of a member of a class is that of a part of the class. -/
theorem exists_part {body c : ScopedNode} (hnamed : NamedBelow above body)
    (hparameters : ∀ d ∈ body.namedChildren, d.kind = "method_definition" →
      (d.field? "parameters").isSome) (hc : c ∈ body.namedChildren)
    (hkind : c.kind ∈ classMemberKinds) (hf : declares? c = some f) :
    ∃ p ∈ memberParts o owner body, p.fqn = f := by
  have hdeclares := hnamed c hc (ofKind?_of_classMember hkind)
  rw [hf] at hdeclares
  obtain ⟨name, hname, hbelow⟩ := Option.map_eq_some_iff.mp hdeclares.symm
  have hsome : (c.fieldText? "name").isSome := by rw [hname]; rfl
  have hpart {d : ScopedNode} (hd : d ∈ body.namedChildren)
      (h : ∃ p, memberPart? o owner (implementedMethods body) d = some p ∧ p.fqn = f) :
      ∃ p ∈ memberParts o owner body, p.fqn = f := by
    obtain ⟨p, hp, hfqn⟩ := h
    exact ⟨p, List.mem_filterMap.mpr ⟨d, hd, hp⟩, hfqn⟩
  simp only [classMemberKinds, List.mem_cons, List.not_mem_nil, or_false] at hkind
  rcases hkind with hkind | hkind | hkind | hkind
  · exact hpart hc (exists_part_of_definition hkind (hparameters c hc hkind) hsome hf)
  · by_cases himplemented : (c.fieldText? "name").any (implementedMethods body).contains
    · -- the signature is left out, and the method with the body has its name
      rw [hname] at himplemented
      obtain ⟨d, hd, hdname⟩ := List.mem_filterMap.mp (List.contains_iff_mem.mp himplemented)
      obtain ⟨hd, hdkind⟩ := List.mem_filter.mp hd
      have hdkind : d.kind = "method_definition" := beq_iff_eq.mp hdkind
      have hddeclares := hnamed d hd (by rw [hdkind]; rfl)
      rw [hdname, Option.map_some, hbelow] at hddeclares
      exact hpart hd (exists_part_of_definition hdkind (hparameters d hd hdkind)
        (by rw [hdname]; rfl) hddeclares)
    · refine hpart hc ?_
      obtain ⟨m, hm, hfqn⟩ := exists_method? (o := o) hsome hf
      unfold memberPart?
      rw [hkind]
      show ∃ p, (if (c.fieldText? "name").any (implementedMethods body).contains then none
        else (method? o c).map MemberPart.method) = some p ∧ _
      rw [if_neg himplemented, hm]
      exact ⟨_, rfl, hfqn⟩
  · refine hpart hc ?_
    obtain ⟨m, hm, hfqn⟩ := exists_method? (o := o) hsome hf
    unfold memberPart?
    rw [hkind]
    show ∃ p, (method? o c).map MemberPart.method = some p ∧ _
    rw [hm]
    exact ⟨_, rfl, hfqn⟩
  · refine hpart hc ?_
    obtain ⟨m, hm, hfqn⟩ := exists_property? (o := o) hsome hf
    unfold memberPart?
    rw [hkind]
    show ∃ p, (property? o c).map MemberPart.property = some p ∧ _
    rw [hm]
    exact ⟨_, rfl, hfqn⟩

/-- The accessors among the parts of a class are named below the owner of its members. -/
theorem fqn_of_accessor {body : ScopedNode} (hnamed : NamedBelow above body)
    (ha : .accessor a ∈ memberParts o owner body) : a.fqn = above.child a.name := by
  obtain ⟨c, hc, hpart⟩ := List.mem_filterMap.mp ha
  unfold memberPart? at hpart
  split at hpart
  · next hkind =>
    split at hpart
    · obtain ⟨ps, -, hpart⟩ := Option.map_eq_some_iff.mp hpart
      cases hpart
    · split at hpart
      · obtain ⟨a', ha', hpart⟩ := Option.map_eq_some_iff.mp hpart
        cases hpart
        obtain ⟨hname, hdeclares⟩ := accessorHalf?_eq_some ha'
        have hbelow := hnamed c hc (by rw [hkind]; rfl)
        rw [hname, hdeclares] at hbelow
        exact Option.some.inj hbelow
      · obtain ⟨m, -, hpart⟩ := Option.map_eq_some_iff.mp hpart
        cases hpart
  · split at hpart
    · cases hpart
    · obtain ⟨m, -, hpart⟩ := Option.map_eq_some_iff.mp hpart
      cases hpart
  · obtain ⟨m, -, hpart⟩ := Option.map_eq_some_iff.mp hpart
    cases hpart
  · obtain ⟨m, -, hpart⟩ := Option.map_eq_some_iff.mp hpart
    cases hpart
  · cases hpart

/-! ## Records -/

/-- The name of every member that a class lists is in its lists. -/
theorem mem_partLabels_classDecl {n body c : ScopedNode} {d : ClassDecl} (h : classDecl o n = .ok d)
    (hbody : n.field? "body" = some body) (hnamed : NamedBelow above body)
    (hparameters : ∀ d ∈ body.namedChildren, d.kind = "method_definition" →
      (d.field? "parameters").isSome) (hc : c ∈ body.namedChildren)
    (hkind : c.kind ∈ classMemberKinds) (hf : declares? c = some f) :
    f ∈ (Model.partLabels .classDeclaration d).map (·.1) := by
  unfold classDecl at h
  obtain ⟨name, -, h⟩ := bind_eq_ok.mp h
  obtain ⟨fqn, -, h⟩ := bind_eq_ok.mp h
  obtain ⟨body', hbody', h⟩ := bind_eq_ok.mp h
  obtain rfl : body = body' := by
    unfold need at hbody'
    rw [hbody] at hbody'
    cases hbody'
    rfl
  obtain ⟨p, hp, rfl⟩ : ∃ p ∈ memberParts o fqn body, p.fqn = f :=
    exists_part hnamed hparameters hc hkind hf
  cases h
  simp only [Model.partLabels, List.map_append, List.map_map, List.mem_append, List.mem_map,
    Function.comp_apply]
  cases p with
  | construct ps k => exact .inl (.inl (.inl ⟨k, List.mem_filterMap.mpr ⟨_, hp, rfl⟩, rfl⟩))
  | property q =>
    exact .inl (.inl (.inr ⟨q, List.mem_flatMap.mpr ⟨_, hp, List.mem_singleton_self q⟩, rfl⟩))
  | method m => exact .inl (.inr ⟨m, List.mem_filterMap.mpr ⟨_, hp, rfl⟩, rfl⟩)
  | accessor a =>
    refine .inr (List.mem_map.mp (fqn_foldl_addAccessor above (fun b hb => ?_)
      (List.mem_filterMap.mpr ⟨_, hp, rfl⟩)))
    obtain ⟨q, hq, hb⟩ := List.mem_filterMap.mp hb
    split at hb
    · cases hb
      exact fqn_of_accessor hnamed hq
    · cases hb

/-- The name of every member that an interface lists is in its lists. -/
theorem mem_partLabels_interfaceDecl {n c : ScopedNode} {d : InterfaceDecl}
    (h : interfaceDecl o n = .ok d) (hc : c ∈ interfaceMembers n)
    (hkind : c.kind ∈ interfaceMemberKinds) (hname : (c.fieldText? "name").isSome)
    (hf : declares? c = some f) : f ∈ (Model.partLabels .interface d).map (·.1) := by
  unfold interfaceDecl at h
  obtain ⟨name, -, h⟩ := bind_eq_ok.mp h
  obtain ⟨fqn, -, h⟩ := bind_eq_ok.mp h
  cases h
  simp only [Model.partLabels, List.map_append, List.map_map, List.mem_append, List.mem_map,
    Function.comp_apply]
  simp only [interfaceMemberKinds, List.mem_cons, List.not_mem_nil, or_false] at hkind
  rcases hkind with hkind | hkind
  · obtain ⟨p, hp, hfqn⟩ := exists_property? (o := o) hname hf
    refine .inl ⟨p, List.mem_filterMap.mpr ⟨c, List.mem_filter.mpr ⟨hc, ?_⟩, hp⟩, hfqn⟩
    exact beq_iff_eq.mpr hkind
  · obtain ⟨m, hm, hfqn⟩ := exists_method? (o := o) hname hf
    refine .inr (hfqn ▸ List.mem_map.mp (fqn_firstMethods ?_))
    exact List.mem_filterMap.mpr ⟨c, List.mem_filter.mpr ⟨hc, beq_iff_eq.mpr hkind⟩, hm⟩

end Extract

end CodeConcepts
