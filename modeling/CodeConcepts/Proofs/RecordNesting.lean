import CodeConcepts.Proofs.Nesting
import CodeConcepts.Proofs.RecordNames

/-!
# Nesting of records

The record of a declaration puts its types and values into lists of parameters, members and type
parameters. Each of these lists is filled from a node below the declaration, so the record of a node
of height `h` is at most `2 * h + 2` levels deep (`legible_of_made`), and the records of a file at
most `2 * h + 1` where `h` is the height of its tree (`legible_fileModel`).
-/

namespace CodeConcepts

variable {n ps : ScopedNode} {o : Origin} {b : Nat} {owner : QName} {p : MemberPart}

theorem TypeParameter.depth_encode_le {p : TypeParameter} (hb : 1 ≤ b)
    (h : ∀ t ∈ p.constraint, t.encode.depth < b) : p.encode.depth ≤ b := by
  refine Json.depth_fields_le hb ?_
  rw [List.forall_cons]
  exact ⟨hb, Json.depth_optionalField_lt h⟩

@[simp] theorem Coordinates.depth_encode (c : Coordinates) : c.encode.depth = 1 :=
  Json.depth_record_of_scalars (by simp [Json.nat, Json.depth])

namespace Extract

open Typing
open Syntax (Node)

/-- What is read below a node is bounded. -/
theorem below (n : ScopedNode) : ∀ m : ScopedNode, m.height < n.height → Bounded m :=
  fun m _ => bounded m

/-! ## Parameters -/

theorem depth_parameters_le {p : Param} (hp : p ∈ parametersOf n) :
    p.encode.depth ≤ 2 * n.height + 2 := by
  have htype := depth_parametersOf_le (below n) hp
  have hencode := p.depth_encode_le
  omega

theorem depth_parametersOf_field_le (hps : n.field? "parameters" = some ps) :
    ∀ p ∈ parametersOf ps, p.encode.depth + 2 ≤ 2 * n.height + 2 := by
  intro p hp
  have hlt := Node.height_lt_of_field? hps
  have := depth_parameters_le hp
  omega

theorem depth_parametersIn_encode_le :
    ∀ p ∈ parametersIn n, p.encode.depth + 2 ≤ 2 * n.height + 2 := by
  intro p hp
  have htype := depth_parametersIn_le (below n) hp
  have hencode := p.depth_encode_le
  omega

theorem depth_typeParametersOf_le :
    ∀ p ∈ typeParametersOf n, p.encode.depth + 2 ≤ 2 * n.height + 2 := by
  intro p hp
  unfold typeParametersOf at hp
  split at hp
  case h_1 => cases hp
  case h_2 list hlist =>
    obtain ⟨c, hc, hp⟩ := List.mem_filterMap.mp hp
    obtain ⟨name, -, rfl⟩ := Option.map_eq_some_iff.mp hp
    have hlistlt := Node.height_lt_of_field? hlist
    have hclt := Node.height_lt_of_mem_namedChildren hc
    refine Nat.add_le_add_right (TypeParameter.depth_encode_le (by omega) fun t ht => ?_) 2
    obtain ⟨m, hm, rfl⟩ := Option.map_eq_some_iff.mp ht
    obtain ⟨constraint, hconstraint, hm⟩ := Option.bind_eq_some_iff.mp hm
    have hconstraintlt := Node.height_lt_of_field? hconstraint
    have hmlt := Node.height_lt_of_namedChild? hm
    have := (bounded m).type
    omega

/-! ## Functions, aliases and variables -/

theorem legible_functionDecl {d : FunctionDecl} (h : functionDecl o n = .ok d) :
    Kind.Legible (2 * n.height + 2) .function d := by
  unfold functionDecl at h
  obtain ⟨name, -, h⟩ := bind_eq_ok.mp h
  obtain ⟨fqn, -, h⟩ := bind_eq_ok.mp h
  obtain ⟨ps, hps, h⟩ := bind_eq_ok.mp h
  cases h
  have hparameters := depth_parametersOf_field_le (need_eq_ok hps)
  have hresult := depth_returnTypeOf_le (below n)
  refine ⟨Json.depth_fields_le (Nat.succ_pos _) ⟨Nat.succ_pos _, Nat.succ_pos _,
    Json.depth_list_lt (by omega) hparameters, Nat.lt_succ_of_le hresult,
    Json.depth_list_lt (by omega) depth_typeParametersOf_le, Nat.succ_pos _, ?_⟩, nofun⟩
  simp

theorem legible_typeAliasDecl {d : TypeAliasDecl} (h : typeAliasDecl o n = .ok d) :
    Kind.Legible (2 * n.height + 2) .typeAlias d := by
  unfold typeAliasDecl at h
  obtain ⟨name, -, h⟩ := bind_eq_ok.mp h
  obtain ⟨fqn, -, h⟩ := bind_eq_ok.mp h
  obtain ⟨value, hvalue, h⟩ := bind_eq_ok.mp h
  cases h
  have hlt := Node.height_lt_of_field? (need_eq_ok hvalue)
  have htype := (bounded value).type
  refine ⟨Json.depth_fields_le (Nat.succ_pos _) ⟨Nat.succ_pos _, Nat.succ_pos _,
    Json.depth_list_lt (by omega) depth_typeParametersOf_le, ?_, ?_⟩, nofun⟩
  · exact show (typeOf value).encode.depth < _ by omega
  · simp

theorem legible_variableDecl {kind : VariableKind} {fqn : QName} {d : VariableDecl}
    (h : variableDecl o kind fqn n = .ok d) : Kind.Legible (2 * n.height + 2) .variable d := by
  unfold variableDecl at h
  obtain ⟨name, -, h⟩ := bind_eq_ok.mp h
  cases h
  have htype := depth_declaredType_le (below n)
  have hvalue : ∀ v ∈ (n.field? "value").map valueOf, v.Within (2 * n.height + 1) := by
    intro v hv
    obtain ⟨m, hm, rfl⟩ := Option.map_eq_some_iff.mp hv
    have hlt := Node.height_lt_of_field? hm
    exact (within_valueOf m).mono (by omega)
  refine ⟨Json.depth_fields_le (Nat.succ_pos _) ?_,
    fun v hv => (hvalue v (Option.mem_toList.mp hv)).ordered⟩
  simp only [List.forall_append]
  exact ⟨⟨⟨Nat.succ_pos _, Nat.succ_pos _, Nat.succ_pos _, Nat.lt_succ_of_le htype⟩,
    Json.depth_optionalField_lt fun v hv => Nat.lt_succ_of_le (hvalue v hv).depth_le⟩,
    by simp⟩

/-! ## Enumerations -/

theorem within_enumMember? {m : EnumMember} (h : enumMember? owner n = some m) :
    ∀ v ∈ m.init, v.Within (2 * n.height + 1) := by
  unfold enumMember? at h
  dsimp only at h
  split at h
  · obtain ⟨name, -, rfl⟩ := Option.map_eq_some_iff.mp h
    intro v hv
    obtain ⟨k, hk, rfl⟩ := Option.map_eq_some_iff.mp hv
    have hlt := Node.height_lt_of_field? hk
    exact (within_valueOf k).mono (by omega)
  · split at h
    · cases h
      exact nofun
    · cases h

theorem depth_enumMember_le {d : EnumMember} (hb : 1 ≤ b) (h : ∀ v ∈ d.init, v.encode.depth < b) :
    d.encode.depth ≤ b := by
  refine Json.depth_fields_le hb ?_
  rw [List.forall_append]
  exact ⟨⟨hb, hb⟩, Json.depth_optionalField_lt h⟩

theorem legible_enumDecl {d : EnumDecl} (h : enumDecl o n = .ok d) :
    Kind.Legible (2 * n.height + 2) .enum d := by
  unfold enumDecl at h
  obtain ⟨name, hname, h⟩ := bind_eq_ok.mp h
  obtain ⟨fqn, -, h⟩ := bind_eq_ok.mp h
  obtain ⟨body, hbody, h⟩ := bind_eq_ok.mp h
  cases h
  have hlt := Node.height_lt_of_field? (need_eq_ok hbody)
  have hmembers : ∀ m ∈ body.namedChildren.filterMap (enumMember? fqn),
      ∀ v ∈ m.init, v.Within (2 * body.height) := by
    intro m hm
    obtain ⟨c, hc, hm⟩ := List.mem_filterMap.mp hm
    have hclt := Node.height_lt_of_mem_namedChildren hc
    exact fun v hv => (within_enumMember? hm v hv).mono (by omega)
  refine ⟨Json.depth_fields_le (Nat.succ_pos _) ⟨Nat.succ_pos _, Nat.succ_pos _,
    Json.depth_list_lt (by omega) fun m hm => ?_, Nat.succ_pos _, Nat.succ_pos _, by simp⟩,
    fun v hv => ?_⟩
  · have hencode : m.encode.depth ≤ 2 * body.height + 1 :=
      depth_enumMember_le (by omega) fun v hv =>
        Nat.lt_succ_of_le (hmembers m hm v hv).depth_le
    omega
  · obtain ⟨m, hm, hv⟩ := List.mem_filterMap.mp hv
    exact (hmembers m hm v hv).ordered

/-! ## Members of classes and interfaces -/

theorem depth_property?_le {d : PropertyDecl} (h : property? o n = some d) :
    d.encode.depth ≤ 2 * n.height + 4 := by
  unfold property? at h
  split at h
  case h_2 => cases h
  case h_1 =>
    cases h
    have htype := depth_declaredType_le (below n)
    have hundefined := (declaredType n).depth_withUndefined_le
    refine Json.depth_fields_le (Nat.succ_pos _) ⟨Nat.succ_pos _, Nat.succ_pos _, Nat.succ_pos _,
      ?_, Nat.succ_pos _, Nat.succ_pos _, Nat.succ_pos _, Nat.succ_pos _, by simp⟩
    dsimp only
    split <;> omega

theorem depth_method?_le {d : MethodDecl} (h : method? o n = some d) :
    d.encode.depth ≤ 2 * n.height + 2 := by
  unfold method? at h
  split at h
  case h_2 => cases h
  case h_1 =>
    cases h
    have hresult := depth_returnTypeOf_le (below n)
    exact Json.depth_fields_le (Nat.succ_pos _) ⟨Nat.succ_pos _, Nat.succ_pos _,
      Json.depth_list_lt (by omega) depth_parametersIn_encode_le, Nat.lt_succ_of_le hresult,
      Json.depth_list_lt (by omega) depth_typeParametersOf_le, Nat.succ_pos _, Nat.succ_pos _,
      Nat.succ_pos _, Nat.succ_pos _, Nat.succ_pos _, by simp⟩

theorem depth_parameterProperty?_le {d : PropertyDecl}
    (h : parameterProperty? o owner (parametersOf ps) n = some d) :
    d.encode.depth ≤ 2 * ps.height + 2 := by
  unfold parameterProperty? at h
  dsimp only at h
  split at h
  case isFalse => cases h
  case isTrue =>
    split at h
    case h_1 => cases h
    case h_2 =>
      obtain ⟨p, hp, rfl⟩ := Option.map_eq_some_iff.mp h
      have htype := depth_parametersOf_le (below ps) (List.mem_of_find?_eq_some hp)
      exact Json.depth_fields_le (Nat.succ_pos _) ⟨Nat.succ_pos _, Nat.succ_pos _, Nat.succ_pos _,
        Nat.lt_succ_of_le htype, Nat.succ_pos _, Nat.succ_pos _, Nat.succ_pos _, Nat.succ_pos _,
        by simp⟩

theorem depth_constructorOf_le (hps : n.field? "parameters" = some ps) :
    (constructorOf o owner n ps).encode.depth ≤ 2 * n.height + 2 :=
  Json.depth_fields_le (Nat.succ_pos _)
    ⟨Nat.succ_pos _, Json.depth_list_lt (by omega) (depth_parametersOf_field_le hps), by simp⟩

/-- Both halves of an accessor property are less than `b` levels deep. -/
def HalvesBelow (b : Nat) (d : AccessorDecl) : Prop :=
  (∀ x ∈ d.getter, x.encode.depth < b) ∧ ∀ x ∈ d.setter, x.encode.depth < b

theorem depth_accessor_le {d : AccessorDecl} (hb : 1 ≤ b) (h : HalvesBelow b d) :
    d.encode.depth ≤ b := by
  refine Json.depth_fields_le hb ?_
  simp only [List.forall_append]
  exact ⟨⟨⟨⟨hb, hb⟩, Json.depth_optionalField_lt h.1⟩, Json.depth_optionalField_lt h.2⟩, hb⟩

theorem depth_half_lt {t : TypeDesc} (h : t.encode.depth + 2 ≤ b) (visibility : Visibility)
    (c : Coordinates) : (Accessor.encode ⟨t, visibility, c⟩).depth < b := by
  have hpos := t.depth_pos
  have hencode : (Accessor.encode ⟨t, visibility, c⟩).depth ≤ t.encode.depth + 1 :=
    Json.depth_fields_le (Nat.succ_pos _)
      ⟨Nat.lt_succ_self _, Nat.succ_pos _, (Coordinates.depth_encode c).trans_lt (by omega)⟩
  omega

theorem halvesBelow_accessorHalf? {d : AccessorDecl} (h : accessorHalf? o n = some d) :
    HalvesBelow (2 * n.height + 4) d := by
  unfold accessorHalf? at h
  split at h
  case h_2 => cases h
  case h_1 =>
    dsimp only at h
    split at h
    case isTrue =>
      cases h
      have hresult := depth_returnTypeOf_le (below n)
      refine ⟨fun x hx => ?_, nofun⟩
      cases hx
      exact depth_half_lt (by omega) _ _
    case isFalse =>
      cases h
      refine ⟨nofun, fun x hx => ?_⟩
      cases hx
      refine depth_half_lt ?_ _ _
      split
      case h_1 p hp =>
        have := depth_parametersIn_le (below n) (List.mem_of_mem_head? hp)
        omega
      case h_2 => simp

theorem halvesBelow_addAccessor {a : AccessorDecl} {as : List AccessorDecl} (ha : HalvesBelow b a)
    (has : ∀ x ∈ as, HalvesBelow b x) : ∀ x ∈ addAccessor a as, HalvesBelow b x := by
  induction as with
  | nil => exact List.forall_mem_singleton.mpr ha
  | cons c cs ih =>
    obtain ⟨hc, hcs⟩ := List.forall_mem_cons.mp has
    rw [addAccessor]
    split
    · refine List.forall_mem_cons.mpr ⟨⟨fun x hx => ?_, fun x hx => ?_⟩, hcs⟩
      · rcases Option.or_eq_some_iff.mp hx with hx | ⟨-, hx⟩
        · exact ha.1 x hx
        · exact hc.1 x hx
      · rcases Option.or_eq_some_iff.mp hx with hx | ⟨-, hx⟩
        · exact ha.2 x hx
        · exact hc.2 x hx
    · exact List.forall_mem_cons.mpr ⟨hc, ih hcs⟩

theorem halvesBelow_foldl {as : List AccessorDecl} (h : ∀ x ∈ as, HalvesBelow b x) :
    ∀ x ∈ as.foldl (fun acc a => addAccessor a acc) [], HalvesBelow b x := by
  suffices hfold : ∀ acc : List AccessorDecl, (∀ x ∈ acc, HalvesBelow b x) →
      ∀ x ∈ as.foldl (fun acc a => addAccessor a acc) acc, HalvesBelow b x from hfold [] nofun
  induction as with
  | nil => exact fun acc hacc => hacc
  | cons a as ih =>
    obtain ⟨ha, has⟩ := List.forall_mem_cons.mp h
    exact fun acc hacc => ih has _ (halvesBelow_addAccessor ha hacc)

/-- What a member adds to its class is at most `b` levels deep. -/
def MemberPart.Within (b : Nat) : MemberPart → Prop
  | .construct ps c => (∀ p ∈ ps, p.encode.depth ≤ b) ∧ c.encode.depth ≤ b
  | .accessor a => HalvesBelow b a
  | .method d => d.encode.depth ≤ b
  | .property d => d.encode.depth ≤ b

theorem MemberPart.Within.mono {c : Nat} (h : p.Within b) (hle : b ≤ c) : p.Within c := by
  cases p with
  | construct ps d => exact ⟨fun p hp => (h.1 p hp).trans hle, h.2.trans hle⟩
  | accessor d => exact ⟨fun x hx => (h.1 x hx).trans_le hle, fun x hx => (h.2 x hx).trans_le hle⟩
  | method d | property d => exact Nat.le_trans h hle

theorem within_method (h : (method? o n).map .method = some p) : p.Within (2 * n.height + 4) := by
  obtain ⟨d, hd, rfl⟩ := Option.map_eq_some_iff.mp h
  exact (depth_method?_le hd).trans (by omega)

theorem within_memberPart? {implemented : List String}
    (h : memberPart? o owner implemented n = some p) : p.Within (2 * n.height + 4) := by
  unfold memberPart? at h
  split at h
  case h_1 =>
    split at h
    · obtain ⟨ps, hps, rfl⟩ := Option.map_eq_some_iff.mp h
      have hlt := Node.height_lt_of_field? hps
      refine ⟨fun d hd => ?_, (depth_constructorOf_le hps).trans (by omega)⟩
      obtain ⟨c, -, hd⟩ := List.mem_filterMap.mp hd
      exact (depth_parameterProperty?_le hd).trans (by omega)
    · split at h
      · obtain ⟨d, hd, rfl⟩ := Option.map_eq_some_iff.mp h
        exact halvesBelow_accessorHalf? hd
      · exact within_method h
  case h_2 =>
    split at h
    · cases h
    · exact within_method h
  case h_3 => exact within_method h
  case h_4 =>
    obtain ⟨d, hd, rfl⟩ := Option.map_eq_some_iff.mp h
    exact depth_property?_le hd
  case h_5 => cases h

/-! ## Classes and interfaces -/

theorem height_lt_of_mem_heritageClauses {c : ScopedNode} (h : c ∈ heritageClauses n) :
    c.height < n.height := by
  unfold heritageClauses at h
  split at h
  case h_1 heritage hheritage =>
    have hlt := Node.height_lt_of_mem_namedChildren (List.mem_of_find?_eq_some hheritage)
    exact (Node.height_lt_of_mem_namedChildren h).trans hlt
  case h_2 => cases h

theorem depth_baseType_le {clause value : ScopedNode} (h : clause.field? "value" = some value) :
    (baseType clause value).encode.depth ≤ 2 * clause.height + 1 := by
  have hlt := Node.height_lt_of_field? h
  have harguments : ∀ t ∈ typeArguments clause, t.encode.depth + 2 ≤ 2 * clause.height + 1 := by
    intro t ht
    have := depth_typeArguments_le (below clause) ht
    omega
  unfold baseType
  dsimp only
  split
  · exact TypeDesc.depth_declared_le _ (by omega) harguments
  · exact TypeDesc.depth_declared_le _ (by omega) harguments
  · simp

theorem depth_extendedClass?_le : ∀ t ∈ extendedClass? n, t.encode.depth < 2 * n.height + 2 := by
  intro t ht
  unfold extendedClass? at ht
  split at ht
  case h_1 clause hclause =>
    obtain ⟨value, hvalue, rfl⟩ := Option.map_eq_some_iff.mp ht
    have hlt := height_lt_of_mem_heritageClauses
      (List.mem_filter.mp (List.mem_of_getLast? hclause)).1
    have := depth_baseType_le hvalue
    omega
  case h_2 => cases ht

theorem depth_implementedInterfaces_le :
    ∀ t ∈ implementedInterfaces n, t.encode.depth + 2 ≤ 2 * n.height + 2 := by
  intro t ht
  unfold implementedInterfaces at ht
  split at ht
  case h_1 clause hclause =>
    have hlt := height_lt_of_mem_heritageClauses
      (List.mem_filter.mp (List.mem_of_getLast? hclause)).1
    have := depth_clauseTypes_le (below clause) ht
    omega
  case h_2 => cases ht

theorem legible_classDecl {d : ClassDecl} (h : classDecl o n = .ok d) :
    Kind.Legible (2 * n.height + 2) .classDeclaration d := by
  unfold classDecl at h
  obtain ⟨name, -, h⟩ := bind_eq_ok.mp h
  obtain ⟨fqn, -, h⟩ := bind_eq_ok.mp h
  obtain ⟨body, hbody, h⟩ := bind_eq_ok.mp h
  cases h
  have hlt := Node.height_lt_of_field? (need_eq_ok hbody)
  have hparts : ∀ p ∈ memberParts o fqn body, p.Within (2 * n.height) := by
    intro p hp
    obtain ⟨c, hc, hp⟩ := List.mem_filterMap.mp hp
    have hclt := Node.height_lt_of_mem_namedChildren hc
    exact (within_memberPart? hp).mono (by omega)
  refine ⟨Json.depth_fields_le (Nat.succ_pos _) ?_, nofun⟩
  simp only [List.forall_append]
  refine ⟨⟨⟨Nat.succ_pos _, Nat.succ_pos _, Nat.succ_pos _,
    Json.depth_list_lt (by omega) depth_typeParametersOf_le⟩,
    Json.depth_optionalField_lt depth_extendedClass?_le⟩,
    Json.depth_list_lt (by omega) depth_implementedInterfaces_le,
    Json.depth_list_lt (by omega) fun c hc => ?_, Json.depth_list_lt (by omega) fun p hp => ?_,
    Json.depth_list_lt (by omega) fun m hm => ?_, Json.depth_list_lt (by omega) fun a ha => ?_,
    by simp⟩
  · obtain ⟨part, hpart, hc⟩ := List.mem_filterMap.mp hc
    split at hc
    · cases hc
      exact Nat.add_le_add_right (hparts _ hpart).2 2
    · cases hc
  · obtain ⟨part, hpart, hp⟩ := List.mem_flatMap.mp hp
    split at hp
    · exact Nat.add_le_add_right ((hparts _ hpart).1 p hp) 2
    · rw [List.mem_singleton.mp hp]
      exact Nat.add_le_add_right (hparts _ hpart) 2
    · cases hp
  · obtain ⟨part, hpart, hm⟩ := List.mem_filterMap.mp hm
    split at hm
    · cases hm
      exact Nat.add_le_add_right (hparts _ hpart) 2
    · cases hm
  · refine Nat.add_le_add_right (depth_accessor_le (by omega) (halvesBelow_foldl ?_ a ha)) 2
    intro x hx
    obtain ⟨part, hpart, hx⟩ := List.mem_filterMap.mp hx
    split at hx
    · cases hx
      exact hparts _ hpart
    · cases hx

theorem mem_of_mem_firstMethods {d : MethodDecl} {ds : List MethodDecl}
    (h : d ∈ firstMethods ds) : d ∈ ds := by
  suffices hfold : ∀ kept : List MethodDecl,
      d ∈ ds.foldl (fun kept m => if kept.any (·.fqn == m.fqn) then kept else kept ++ [m]) kept →
        d ∈ kept ∨ d ∈ ds from (hfold [] h).resolve_left List.not_mem_nil
  clear h
  induction ds with
  | nil => exact fun kept h => .inl h
  | cons e es ih =>
    intro kept h
    rcases ih _ h with h | h
    · dsimp only at h
      split at h
      · exact .inl h
      · rcases List.mem_append.mp h with h | h
        · exact .inl h
        · exact .inr (List.mem_cons.mpr (.inl (List.mem_singleton.mp h)))
    · exact .inr (List.mem_cons_of_mem _ h)

theorem height_of_mem_interfaceMembers {c : ScopedNode} (h : c ∈ interfaceMembers n) :
    c.height + 2 ≤ n.height := by
  unfold interfaceMembers at h
  split at h
  case h_1 body hbody =>
    have hlt := Node.height_lt_of_field? hbody
    have hclt := Node.height_lt_of_mem_namedChildren h
    omega
  case h_2 => cases h

theorem legible_interfaceDecl {d : InterfaceDecl} (h : interfaceDecl o n = .ok d) :
    Kind.Legible (2 * n.height + 2) .interface d := by
  unfold interfaceDecl at h
  obtain ⟨name, -, h⟩ := bind_eq_ok.mp h
  obtain ⟨fqn, -, h⟩ := bind_eq_ok.mp h
  cases h
  refine ⟨Json.depth_fields_le (Nat.succ_pos _) ⟨Nat.succ_pos _, Nat.succ_pos _,
    Json.depth_list_lt (by omega) depth_typeParametersOf_le,
    Json.depth_list_lt (by omega) fun t ht => ?_, Json.depth_list_lt (by omega) fun p hp => ?_,
    Json.depth_list_lt (by omega) fun m hm => ?_, by simp⟩, nofun⟩
  · dsimp only at ht
    split at ht
    case h_1 clause hclause =>
      have hlt := Node.height_lt_of_mem_namedChildren (List.mem_of_find?_eq_some hclause)
      have := depth_clauseTypes_le (below clause) ht
      omega
    case h_2 => cases ht
  · obtain ⟨c, hc, hp⟩ := List.mem_filterMap.mp hp
    have hheight := height_of_mem_interfaceMembers (List.mem_filter.mp hc).1
    have := depth_property?_le hp
    omega
  · obtain ⟨c, hc, hm⟩ := List.mem_filterMap.mp (mem_of_mem_firstMethods hm)
    have hheight := height_of_mem_interfaceMembers (List.mem_filter.mp hc).1
    have := depth_method?_le hm
    omega

/-! ## Files -/

theorem Anonymous.isFlat {c : Concept} (h : Anonymous c) : c.kind.isFlat = true := by
  obtain ⟨k, r⟩ := c
  obtain ⟨hproject, hfqn⟩ := h
  cases k <;> simp_all [Kind.fqn?, Kind.isFlat]

/-- What is made at a node is at most two levels deeper than twice the height of the node. -/
theorem legible_of_made {c : Concept} (h : Made o n c) :
    c.kind.Legible (2 * n.height + 2) c.record := by
  cases h with
  | anonymous h => exact .of_isFlat h.isFlat (by omega)
  | function hd => exact legible_functionDecl hd
  | classDeclaration hd => exact legible_classDecl hd
  | interface hd => exact legible_interfaceDecl hd
  | typeAlias hd => exact legible_typeAliasDecl hd
  | enum hd => exact legible_enumDecl hd
  | declarator _ hd => exact legible_variableDecl hd

theorem height_lt_of_mem_walk {table : List Extractor} {module : QName} {t : Syntax.Tree Note}
    {v : Visit} (h : v ∈ walk table module t) : v.node.height < t.height := by
  obtain ⟨l, a, cs⟩ := t
  rw [Syntax.Tree.height]
  exact Syntax.Tree.height_lt_of_mem_subtreesAll
    ((trees_walk_below module _).subset (List.mem_map_of_mem h))

/-- The records of a file nest at most twice as deep as its tree. -/
theorem legible_fileModel {table : List Extractor} {t : Syntax.Tree Note} {m : Model}
    (h : fileModel table o t = .ok m) (k : Kind) :
    ∀ r ∈ m.get k, k.Legible (2 * t.height + 1) r := by
  obtain ⟨cs, hcs, rfl⟩ := fileModel_eq_ok h
  intro r hr
  rcases List.mem_cons.mp (mem_get_ofConcepts.mp hr) with hr | hr
  · cases hr
    exact .of_isFlat rfl (by omega)
  · obtain ⟨v, hv, hmade⟩ := exists_made_of_mem hcs hr
    have hlt := height_lt_of_mem_walk hv
    exact (legible_of_made hmade).mono (by omega)

end Extract

end CodeConcepts
