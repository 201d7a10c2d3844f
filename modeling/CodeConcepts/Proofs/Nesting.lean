import CodeConcepts.Proofs.EncodingDepth
import CodeConcepts.Proofs.Shape
import CodeConcepts.Proofs.TypingForms

/-!
# Nesting of types and values

Every level of a syntax tree adds at most two levels to the type or value that is read from it: an
array of parts and the part itself. So what is read at a node of height `h` is encoded in at most
`2 * h + 3` levels (`Typing.bounded`, `Typing.within_valueOf`).
-/

namespace CodeConcepts

variable {ts : List TypeDesc} {t : TypeDesc}

/-! ## Heights -/

namespace Syntax

variable {α : Type} {t : Tree α}

mutual

/-- The number of levels below the root. -/
def Tree.height : Tree α → Nat
  | .node _ _ cs => heightAll cs

/-- The number of levels of a list of trees. -/
def Tree.heightAll : List (Tree α) → Nat
  | [] => 0
  | t :: ts => max (height t + 1) (heightAll ts)

end

theorem Tree.height_lt_heightAll {ts : List (Tree α)} (h : t ∈ ts) : t.height < heightAll ts := by
  induction ts with
  | nil => cases h
  | cons u us ih =>
    rw [heightAll]
    rcases List.mem_cons.mp h with rfl | h
    · omega
    · have := ih h
      omega

theorem Tree.height_lt_of_mem_children {c : Tree α} (h : c ∈ t.children) : c.height < t.height := by
  obtain ⟨l, a, cs⟩ := t
  rw [Tree.height]
  exact height_lt_heightAll h

theorem Tree.heightAll_le_succ_iff {limit : Nat} {ts : List (Tree α)} :
    heightAll ts ≤ limit + 1 ↔ ∀ t ∈ ts, t.height ≤ limit := by
  induction ts with
  | nil => simp [heightAll]
  | cons t ts ih => rw [heightAll, Nat.max_le, Nat.add_le_add_iff_right, ih, List.forall_mem_cons]

theorem Tree.exceedsDepth_eq_false_iff {limit : Nat} :
    t.exceedsDepth limit = false ↔ t.height ≤ limit := by
  obtain ⟨l, a, cs⟩ := t
  induction limit generalizing l a cs with
  | zero => cases cs <;> simp [exceedsDepth_zero, children, height, heightAll]
  | succ limit ih =>
    rw [exceedsDepth_succ, List.any_eq_false, height, heightAll_le_succ_iff]
    refine forall₂_congr fun c _ => ?_
    obtain ⟨l, a, cs⟩ := c
    rw [Bool.not_eq_true, ih]

mutual

theorem Tree.height_le_of_mem_subtrees {u : Tree α} : ∀ {t : Tree α}, u ∈ t.subtrees →
    u.height ≤ t.height
  | .node l a cs, h => by
    rw [subtrees] at h
    rcases List.mem_cons.mp h with rfl | h
    · exact le_rfl
    · rw [height.eq_def (.node l a cs)]
      exact (Tree.height_lt_of_mem_subtreesAll h).le

theorem Tree.height_lt_of_mem_subtreesAll {u : Tree α} : ∀ {ts : List (Tree α)},
    u ∈ subtreesAll ts → u.height < heightAll ts
  | [], h => by cases h
  | t :: ts, h => by
    rw [subtreesAll] at h
    rw [heightAll]
    rcases List.mem_append.mp h with h | h
    · have := Tree.height_le_of_mem_subtrees h
      omega
    · have := Tree.height_lt_of_mem_subtreesAll h
      omega

end

namespace Node

/-- The number of levels below a node. -/
def height (n : Node α) : Nat := n.tree.height

theorem height_lt_of_mem_namedChildren {c n : Node α} (h : c ∈ n.namedChildren) :
    c.height < n.height := by
  obtain ⟨t, ht, rfl⟩ := List.mem_map.mp h
  exact Tree.height_lt_of_mem_children (List.mem_filter.mp ht).1

theorem height_lt_of_namedChild? {c n : Node α} {i : Nat} (h : n.namedChild? i = some c) :
    c.height < n.height :=
  height_lt_of_mem_namedChildren (List.mem_of_getElem? h)

theorem height_lt_of_field? {name : String} {c n : Node α} (h : n.field? name = some c) :
    c.height < n.height := by
  have hmem := mem_subtreesAll_of_field? h
  obtain ⟨⟨l, a, cs⟩, above⟩ := n
  exact Tree.height_lt_of_mem_subtreesAll hmem

end Node

end Syntax

/-! ## Depths of types and values -/

namespace Json

variable {α : Type} {b : Nat}

theorem depth_fields_le {ms : List (String × Json)} (hb : 1 ≤ b)
    (h : ms.Forall fun m => m.2.depth < b) : (record ms).depth ≤ b :=
  depth_record_le hb (List.forall_iff_forall_mem.mp h)

theorem depth_list_lt {encode : α → Json} {xs : List α} (hb : 2 ≤ b)
    (h : ∀ x ∈ xs, (encode x).depth + 2 ≤ b) : (list encode xs).depth < b := by
  have hlist : (list encode xs).depth ≤ b - 1 := by
    refine depth_array_le (by omega) (List.forall_mem_map.mpr fun x hx => ?_)
    have := h x hx
    omega
  omega

theorem depth_optionalField_lt {name : String} {encode : α → Json} {o : Option α}
    (h : ∀ x ∈ o, (encode x).depth < b) :
    (optionalField name encode o).Forall fun m => m.2.depth < b := by
  cases o with
  | none => exact trivial
  | some x => exact h x rfl

end Json

namespace TypeDesc

variable {b : Nat}

@[simp] theorem depth_primitive (name : String) : (primitive name).encode.depth = 1 := by
  rw [encode]
  exact Json.depth_record_of_scalars (by simp [Json.depth])

@[simp] theorem depth_typeParameter (name : String) : (typeParameter name).encode.depth = 1 := by
  rw [encode]
  exact Json.depth_record_of_scalars (by simp [Json.depth])

@[simp] theorem depth_literal (value : String) : (literal value).encode.depth = 1 := by
  rw [encode]
  exact Json.depth_record_of_scalars (by simp [Json.depth])

@[simp] theorem depth_notIdentified (text : String) : (notIdentified text).encode.depth = 1 := by
  rw [encode]
  exact Json.depth_record_of_scalars (by simp [Json.depth])

theorem depth_encodeTypes_lt (hb : 2 ≤ b) (h : ∀ t ∈ ts, t.encode.depth + 2 ≤ b) :
    (Json.array (encodeTypes ts)).depth < b := by
  rw [encodeTypes_eq_map]
  exact Json.depth_list_lt hb h

theorem depth_declared_le (n : QName) {args : List TypeDesc} (hb : 2 ≤ b)
    (h : ∀ t ∈ args, t.encode.depth + 2 ≤ b) : (declared n args).encode.depth ≤ b := by
  have hpos : 1 ≤ b := by omega
  rw [encode]
  exact Json.depth_fields_le hpos ⟨hpos, hpos, depth_encodeTypes_lt hb h⟩

theorem depth_named (n : QName) : (named n).encode.depth ≤ 2 :=
  depth_declared_le n le_rfl fun _ ht => absurd ht List.not_mem_nil

/-- Unions, intersections and tuples are written alike. -/
theorem depth_several_le (tag : String) (hb : 2 ≤ b) (h : ∀ t ∈ ts, t.encode.depth + 2 ≤ b) :
    (Json.record [("type", .string tag), ("types", .array (encodeTypes ts))]).depth ≤ b := by
  have hpos : 1 ≤ b := by omega
  exact Json.depth_fields_le hpos ⟨hpos, depth_encodeTypes_lt hb h⟩

theorem depth_union_le (hb : 2 ≤ b) (h : ∀ t ∈ ts, t.encode.depth + 2 ≤ b) :
    (union ts).encode.depth ≤ b := by
  rw [encode]
  exact depth_several_le "union" hb h

theorem depth_intersection_le (hb : 2 ≤ b) (h : ∀ t ∈ ts, t.encode.depth + 2 ≤ b) :
    (intersection ts).encode.depth ≤ b := by
  rw [encode]
  exact depth_several_le "intersection" hb h

theorem depth_tuple_le (hb : 2 ≤ b) (h : ∀ t ∈ ts, t.encode.depth + 2 ≤ b) :
    (tuple ts).encode.depth ≤ b := by
  rw [encode]
  exact depth_several_le "tuple" hb h

theorem depth_encodeMember_le (m : ObjectMember TypeDesc) :
    (encodeMember m).depth ≤ m.type.encode.depth + 1 :=
  Json.depth_fields_le (Nat.succ_pos _)
    ⟨Nat.succ_pos _, Nat.lt_succ_self _, Nat.succ_pos _, Nat.succ_pos _⟩

theorem depth_object_le {ms : List (ObjectMember TypeDesc)} (hb : 2 ≤ b)
    (h : ∀ m ∈ ms, m.type.encode.depth + 3 ≤ b) : (object ms).encode.depth ≤ b := by
  have hpos : 1 ≤ b := by omega
  rw [encode, encodeMembers_eq_map]
  refine Json.depth_fields_le hpos ⟨hpos, Json.depth_list_lt hb fun m hm => ?_⟩
  have hmember := depth_encodeMember_le m
  have htype := h m hm
  omega

end TypeDesc

theorem Parameter.depth_encode_le (p : Param) : p.encode.depth ≤ p.type.encode.depth + 1 :=
  Json.depth_fields_le (Nat.succ_pos _)
    ⟨Nat.succ_pos _, Nat.succ_pos _, Nat.lt_succ_self _, Nat.succ_pos _⟩

namespace TypeDesc

variable {b : Nat}

theorem depth_function_le {ps : List Param} (hb : 2 ≤ b)
    (hps : ∀ p ∈ ps, p.type.encode.depth + 3 ≤ b) (ht : t.encode.depth < b) :
    (function ps t).encode.depth ≤ b := by
  have hpos : 1 ≤ b := by omega
  rw [encode, encodeParameters_eq_map]
  refine Json.depth_fields_le hpos ⟨hpos, Json.depth_list_lt hb fun p hp => ?_, ht⟩
  have hparameter := p.depth_encode_le
  have htype := hps p hp
  omega

theorem depth_pos (t : TypeDesc) : 1 ≤ t.encode.depth := by
  cases t <;> rw [encode] <;> exact Json.depth_record_pos _

theorem depth_add_two_le_of_mem_union (h : t ∈ ts) :
    t.encode.depth + 2 ≤ (union ts).encode.depth := by
  have hitem : t.encode.depth ≤ Json.depthItems (encodeTypes ts) := by
    rw [encodeTypes_eq_map]
    exact Json.depth_le_depthItems (List.mem_map_of_mem h)
  have htypes : (Json.array (encodeTypes ts)).depth < (union ts).encode.depth := by
    rw [encode]
    exact Json.depth_lt_depth_record (m := ("types", .array (encodeTypes ts))) (by simp)
      (List.mem_cons_of_mem _ List.mem_cons_self)
  rw [Json.depth] at htypes
  omega

theorem depth_withUndefined_le (t : TypeDesc) :
    t.withUndefined.encode.depth ≤ t.encode.depth + 2 := by
  have hundefined := depth_primitive "undefined"
  have hpos := t.depth_pos
  unfold withUndefined
  split
  · omega
  · split
    case h_1 ts =>
      refine depth_union_le (by omega) fun u hu => ?_
      rcases List.mem_append.mp hu with hu | hu
      · have := depth_add_two_le_of_mem_union hu
        omega
      · rw [List.mem_singleton.mp hu]
        omega
    case h_2 =>
      refine depth_union_le (by omega) (List.forall_mem_cons.mpr ⟨le_rfl, ?_⟩)
      exact List.forall_mem_singleton.mpr (by omega)

end TypeDesc

namespace Typing

open Extract (clauseTypes declaredType parametersIn)

/-- How deep what is read at a node nests, if it is a type, an expression, or a list of the parts of
a union. -/
structure Bounded (n : ScopedNode) : Prop where
  type : (typeOf n).encode.depth ≤ 2 * n.height + 3
  expression : (expressionType n).encode.depth ≤ 2 * n.height + 3
  parts : ∀ kind, ∀ t ∈ flattened kind n, t.encode.depth ≤ 2 * n.height + 1

section

variable {n : ScopedNode}

theorem depth_commonPrimitive (ts : List TypeDesc) (text : String) :
    (commonPrimitive ts text).encode.depth = 1 := by
  unfold commonPrimitive
  split
  · exact TypeDesc.depth_primitive _
  · split
    · exact TypeDesc.depth_primitive _
    · exact TypeDesc.depth_notIdentified _
  · exact TypeDesc.depth_notIdentified _

theorem depth_inferredType (body : ScopedNode) : (inferredType body).encode.depth = 1 := by
  unfold inferredType
  split <;> exact depth_commonPrimitive _ _

theorem depth_namedType_le (n : ScopedNode) : (namedType n).encode.depth ≤ 2 := by
  unfold namedType
  split
  · exact (TypeDesc.depth_primitive _).trans_le (by omega)
  · split
    · exact TypeDesc.depth_named _
    · exact TypeDesc.depth_named _
    · exact (TypeDesc.depth_typeParameter _).trans_le (by omega)
    · exact (TypeDesc.depth_notIdentified _).trans_le (by omega)

theorem depth_literalType (n : ScopedNode) : (literalType n).encode.depth = 1 := by
  unfold literalType
  split
  · exact TypeDesc.depth_primitive _
  · exact TypeDesc.depth_primitive _
  · exact TypeDesc.depth_literal _

theorem depth_constructedType_le (n : ScopedNode) : (constructedType n).encode.depth ≤ 2 := by
  unfold constructedType
  split
  · split
    · exact TypeDesc.depth_named _
    · exact (TypeDesc.depth_notIdentified _).trans_le (by omega)
  · exact (TypeDesc.depth_notIdentified _).trans_le (by omega)

theorem depth_unaryType (operator : Option String) (operand : Option TypeDesc) (text : String) :
    (unaryType operator operand text).encode.depth = 1 := by
  unfold unaryType
  repeat' split
  all_goals simp

theorem depth_binaryType (operator : String) (left right : TypeDesc) (text : String) :
    (binaryType operator left right text).encode.depth = 1 := by
  unfold binaryType
  dsimp only
  repeat' split
  all_goals simp

/-! What is read at a node is bounded if what is read below it is. -/

variable (ih : ∀ m : ScopedNode, m.height < n.height → Bounded m)

include ih

/-- The type that a node below says, if that node is there. -/
theorem depth_elim_typeOf_le {o : Option ScopedNode} (ho : ∀ m, o = some m → m.height < n.height)
    (ht : t.encode.depth = 1) : (o.elim t typeOf).encode.depth ≤ 2 * n.height + 1 := by
  cases o with
  | none => exact ht.trans_le (by omega)
  | some m =>
    have hlt := ho m rfl
    have := (ih m hlt).type
    dsimp only [Option.elim]
    omega

theorem depth_typeOf_field_le (name : String) (ht : t.encode.depth = 1) :
    ((n.field? name).elim t typeOf).encode.depth ≤ 2 * n.height + 1 :=
  depth_elim_typeOf_le ih (fun _ => Syntax.Node.height_lt_of_field?) ht

theorem depth_typeOf_namedChild_le (i : Nat) (text : String) :
    ((n.namedChild? i).elim (.notIdentified text) typeOf).encode.depth ≤ 2 * n.height + 1 :=
  depth_elim_typeOf_le ih (fun _ => Syntax.Node.height_lt_of_namedChild?)
    (TypeDesc.depth_notIdentified text)

theorem depth_declaredType_le : (declaredType n).encode.depth ≤ 2 * n.height + 1 := by
  unfold declaredType
  split
  case h_1 t ht =>
    have hlt := Syntax.Node.height_lt_of_field? ht
    have := (ih t hlt).type
    omega
  case h_2 =>
    split
    case h_1 v hv =>
      have hlt := Syntax.Node.height_lt_of_field? hv
      have := (ih v hlt).expression
      omega
    case h_2 =>
      rw [TypeDesc.depth_primitive]
      omega

theorem depth_parameter?_le {p : String × TypeDesc × Bool} (hp : parameter? n = some p) :
    p.2.1.encode.depth ≤ 2 * n.height + 3 := by
  have htype := depth_declaredType_le ih
  have hundefined := (declaredType n).depth_withUndefined_le
  rw [parameter?_eq] at hp
  split at hp
  case isFalse => cases hp
  case isTrue =>
    obtain ⟨pattern, -, hp⟩ := Option.bind_eq_some_iff.mp hp
    split at hp
    · cases hp
    · cases hp
      dsimp only
      split <;> omega

theorem depth_parametersOf_le {p : Param} (hp : p ∈ parametersOf n) :
    p.type.encode.depth ≤ 2 * n.height + 1 := by
  rw [parametersOf_eq, numbered] at hp
  obtain ⟨⟨q, i⟩, hq, rfl⟩ := List.mem_map.mp hp
  obtain ⟨c, hc, hcq⟩ := List.mem_filterMap.mp (List.fst_mem_of_mem_zipIdx hq)
  have hlt := Syntax.Node.height_lt_of_mem_namedChildren hc
  have htype : q.2.1.encode.depth ≤ _ := depth_parameter?_le (fun m hm => ih m (hm.trans hlt)) hcq
  dsimp only
  omega

theorem depth_parametersIn_le {p : Param} (hp : p ∈ parametersIn n) :
    p.type.encode.depth + 1 ≤ 2 * n.height := by
  unfold parametersIn at hp
  split at hp
  case h_1 ps hps =>
    have hlt := Syntax.Node.height_lt_of_field? hps
    have := depth_parametersOf_le (fun m hm => ih m (hm.trans hlt)) hp
    omega
  case h_2 => cases hp

theorem depth_returnTypeOf_le : (returnTypeOf n).encode.depth ≤ 2 * n.height + 1 := by
  rw [returnTypeOf_eq]
  cases hdeclared : n.field? "return_type" with
  | some declared =>
    have hlt := Syntax.Node.height_lt_of_field? hdeclared
    have htype := (ih declared hlt).type
    dsimp only [Option.elim]
    split
    · simp
    · split
      · simp
      · omega
  | none =>
    cases hbody : n.field? "body" with
    | none => simp
    | some body =>
      have hlt := Syntax.Node.height_lt_of_field? hbody
      have hinferred := depth_inferredType body
      dsimp only [Option.elim]
      split
      · -- a promise of a primitive type
        exact TypeDesc.depth_declared_le _ (by omega)
          (List.forall_mem_singleton.mpr (by omega))
      · omega

theorem depth_objectMember?_le {m : ObjectMember TypeDesc} (hm : objectMember? n = some m) :
    m.type.encode.depth ≤ 2 * n.height + 2 := by
  rw [objectMember?_eq] at hm
  obtain ⟨name, hname, hm⟩ := Option.bind_eq_some_iff.mp hm
  split at hm
  · cases hm
    exact (depth_typeOf_field_le ih "type" (TypeDesc.depth_primitive _)).trans (by omega)
  · split at hm
    · cases hm
      have hresult := depth_returnTypeOf_le ih
      refine TypeDesc.depth_function_le (by omega) (fun p hp => ?_) (by omega)
      have := depth_parametersIn_le ih hp
      omega
    · cases hm

theorem depth_clauseTypes_le (ht : t ∈ clauseTypes n) : t.encode.depth ≤ 2 * n.height + 1 := by
  obtain ⟨c, hc, rfl⟩ := List.mem_map.mp ht
  have hlt := Syntax.Node.height_lt_of_mem_namedChildren hc
  have := (ih c hlt).type
  omega

theorem depth_typeArguments_le (ht : t ∈ typeArguments n) : t.encode.depth + 1 ≤ 2 * n.height := by
  unfold typeArguments at ht
  cases hargs : n.field? "type_arguments" with
  | none => simp [hargs] at ht
  | some args =>
    rw [hargs] at ht
    have hlt := Syntax.Node.height_lt_of_field? hargs
    have := depth_clauseTypes_le (fun m hm => ih m (hm.trans hlt)) ht
    omega

theorem depth_flattened_le (kind : String) (ht : t ∈ flattened kind n) :
    t.encode.depth ≤ 2 * n.height + 1 := by
  rw [flattened_eq] at ht
  obtain ⟨c, hc, ht⟩ := List.mem_flatMap.mp ht
  have hlt := Syntax.Node.height_lt_of_mem_namedChildren hc
  split at ht
  · have := (ih c hlt).parts kind t ht
    omega
  · rw [List.mem_singleton.mp ht]
    have := (ih c hlt).type
    omega

theorem depth_typeOf_le_of_below : (typeOf n).encode.depth ≤ 2 * n.height + 3 := by
  rw [typeOf_eq]
  cases TypeForm.ofKind n.kind with
  | wrapped => exact (depth_typeOf_namedChild_le ih 0 _).trans (by omega)
  | predefined => simp
  | name => exact (depth_namedType_le n).trans (by omega)
  | dottedName => exact (TypeDesc.depth_named _).trans (by omega)
  | generic =>
    have hname := depth_typeOf_field_le ih "name" (TypeDesc.depth_notIdentified n.text)
    dsimp only
    unfold applied
    split
    · refine TypeDesc.depth_declared_le _ (by omega) fun t ht => ?_
      have := depth_typeArguments_le ih ht
      omega
    · exact hname.trans (by omega)
  | union =>
    refine TypeDesc.depth_union_le (by omega) fun t ht => ?_
    have := depth_flattened_le ih "union_type" ht
    omega
  | intersection =>
    refine TypeDesc.depth_intersection_le (by omega) fun t ht => ?_
    have := depth_flattened_le ih "intersection_type" ht
    omega
  | array =>
    refine TypeDesc.depth_declared_le _ (by omega) fun t ht => ?_
    cases hinner : n.namedChild? 0 with
    | none => simp [hinner] at ht
    | some inner =>
      rw [hinner] at ht
      have hlt := Syntax.Node.height_lt_of_namedChild? hinner
      have := (ih inner hlt).type
      rw [List.mem_singleton.mp ht]
      omega
  | tuple =>
    refine TypeDesc.depth_tuple_le (by omega) fun t ht => ?_
    have := depth_clauseTypes_le ih ht
    omega
  | object =>
    refine TypeDesc.depth_object_le (by omega) fun m hm => ?_
    obtain ⟨c, hc, hm⟩ := List.mem_filterMap.mp hm
    have hlt := Syntax.Node.height_lt_of_mem_namedChildren hc
    have := depth_objectMember?_le (fun m hm => ih m (hm.trans hlt)) hm
    omega
  | function =>
    have hresult := depth_typeOf_field_le ih "return_type" (TypeDesc.depth_primitive "void")
    refine TypeDesc.depth_function_le (by omega) (fun p hp => ?_) (by omega)
    have := depth_parametersIn_le ih hp
    omega
  | literal => exact (depth_literalType n).trans_le (by omega)
  | other => simp

theorem depth_expressionType_le_of_below :
    (expressionType n).encode.depth ≤ 2 * n.height + 3 := by
  rw [expressionType_eq]
  cases hform : ExpressionForm.ofKind n.kind with
  | number =>
    dsimp only
    split <;> simp
  | literal type => simp
  | regex => exact (TypeDesc.depth_named _).trans (by omega)
  | wrapped =>
    cases hinner : n.namedChild? 0 with
    | none => simp
    | some inner =>
      have hlt := Syntax.Node.height_lt_of_namedChild? hinner
      have := (ih inner hlt).expression
      dsimp only [Option.elim]
      omega
  | cast => exact (depth_typeOf_namedChild_le ih 1 _).trans (by omega)
  | unary => exact (depth_unaryType _ _ _).trans_le (by omega)
  | binary =>
    dsimp only
    cases n.field? "operator" with
    | none => simp
    | some operator => exact (depth_binaryType _ _ _ _).trans_le (by omega)
  | construct => exact (depth_constructedType_le n).trans (by omega)
  | function =>
    have hresult := depth_returnTypeOf_le ih
    refine TypeDesc.depth_function_le (by omega) (fun p hp => ?_) (by omega)
    have := depth_parametersIn_le ih hp
    omega
  | other => simp

end

theorem bounded (n : ScopedNode) : Bounded n := by
  induction h : n.height using Nat.strong_induction_on generalizing n with
  | _ height ih =>
    have hbelow : ∀ m : ScopedNode, m.height < n.height → Bounded m :=
      fun m hm => ih m.height (h ▸ hm) m rfl
    exact ⟨depth_typeOf_le_of_below hbelow, depth_expressionType_le_of_below hbelow,
      fun kind t ht => depth_flattened_le hbelow kind ht⟩

end Typing

namespace Value

/-- A value that is at most `b` levels deep and lists the members of its objects in order. -/
structure Within (b : Nat) (v : Value) : Prop where
  depth_le : v.encode.depth ≤ b
  ordered : v.Ordered

namespace Within

variable {b : Nat}

theorem mono {c : Nat} {v : Value} (h : v.Within b) (hle : b ≤ c) : v.Within c :=
  ⟨h.depth_le.trans hle, h.ordered⟩

theorem complex (text : String) (hb : 1 ≤ b) : (Value.complex text).Within b := by
  refine ⟨?_, .complex⟩
  rw [encode]
  exact Json.depth_fields_le hb ⟨hb, hb⟩

theorem declared (n : QName) (hb : 1 ≤ b) : (Value.declared n).Within b := by
  refine ⟨?_, .declared⟩
  rw [encode]
  exact Json.depth_fields_le hb ⟨hb, hb⟩

theorem null (undefined : Bool) (hb : 1 ≤ b) : (Value.null undefined).Within b := by
  refine ⟨?_, .null⟩
  rw [encode]
  exact Json.depth_fields_le hb ⟨hb, hb⟩

theorem function (hb : 1 ≤ b) : Value.function.Within b := by
  refine ⟨?_, .function⟩
  rw [encode]
  exact Json.depth_fields_le hb hb

theorem classValue (hb : 1 ≤ b) : Value.classValue.Within b := by
  refine ⟨?_, .classValue⟩
  rw [encode]
  exact Json.depth_fields_le hb hb

theorem literal (l : Literal) {t : TypeDesc} (h : t.encode.depth < b) :
    (Value.literal l t).Within b := by
  have hb : 1 ≤ b := by omega
  have hscalar : l.encode.depth < b := by cases l <;> exact hb
  refine ⟨?_, .literal⟩
  rw [encode]
  exact Json.depth_fields_le hb ⟨hb, hscalar, h⟩

theorem member {v : Value} (h : v.Within b) (name : String) :
    (Value.member v name).Within (b + 1) := by
  refine ⟨?_, .member h.ordered⟩
  rw [encode]
  exact Json.depth_fields_le (Nat.succ_pos b)
    ⟨Nat.succ_pos b, Nat.lt_succ_of_le h.depth_le, Nat.succ_pos b⟩

theorem array {vs : List Value} (h : ∀ v ∈ vs, v.Within b) : (Value.array vs).Within (b + 2) := by
  refine ⟨?_, .array fun v hv => (h v hv).ordered⟩
  rw [encode, encodeItems_eq_map]
  refine Json.depth_fields_le (by omega)
    ⟨Nat.succ_pos _, Json.depth_list_lt (by omega) fun v hv => ?_⟩
  exact Nat.add_le_add_right (h v hv).depth_le 2

theorem call {v : Value} {vs : List Value} (hv : v.Within (b + 1)) (hvs : ∀ w ∈ vs, w.Within b) :
    (Value.call v vs).Within (b + 2) := by
  refine ⟨?_, .call hv.ordered fun w hw => (hvs w hw).ordered⟩
  rw [encode, encodeItems_eq_map]
  refine Json.depth_fields_le (by omega)
    ⟨Nat.succ_pos _, Nat.lt_succ_of_le hv.depth_le, Json.depth_list_lt (by omega) fun w hw => ?_⟩
  exact Nat.add_le_add_right (hvs w hw).depth_le 2

theorem object {ms : List (String × Value)} (h : ∀ m ∈ ms, m.2.Within b) :
    (Value.object (Json.sorted ms)).Within (b + 2) := by
  have hmembers : ∀ m ∈ Json.sorted ms, m.2.Within b :=
    fun m hm => h m (Json.mem_of_mem_sorted hm)
  refine ⟨?_, .object (Json.increasing_sorted ms) fun m hm => (hmembers m hm).ordered⟩
  rw [encode, encodeMembers_eq_map]
  refine Json.depth_fields_le (by omega) ⟨Nat.succ_pos _, ?_⟩
  refine Nat.lt_succ_of_le (Json.depth_record_le (by omega) ?_)
  exact List.forall_mem_map.mpr fun m hm => Nat.lt_succ_of_le (hmembers m hm).depth_le

end Within

end Value

namespace Typing

theorem within_stringValue (text : String) {b : Nat} (hb : 2 ≤ b) : (stringValue text).Within b :=
  .literal _ (by rw [TypeDesc.depth_primitive]; omega)

theorem within_numberValue (text : String) {b : Nat} (hb : 2 ≤ b) :
    (numberValue text).Within b := by
  unfold numberValue
  dsimp only
  split <;> exact .literal _ (by rw [TypeDesc.depth_primitive]; omega)

theorem within_negated? {v w : Value} {b : Nat} (hv : v.Within b) (hw : negated? v = some w) :
    w.Within b := by
  cases v with
  | literal l t =>
    have htype : t.encode.depth < (Value.literal l t).encode.depth := by
      rw [Value.encode]
      exact Json.depth_lt_depth_record (m := ("type", t.encode)) (by simp) (by simp)
    have hlt : t.encode.depth < b := htype.trans_le hv.depth_le
    cases l with
    | bool => cases hw
    | number x =>
      cases hw
      exact .literal _ hlt
    | text digits =>
      rw [negated?] at hw
      split at hw
      · cases hw
        exact .literal _ hlt
      · cases hw
  | _ => cases hw

theorem within_member? {n : ScopedNode} {m : String × Value}
    (ih : ∀ k : ScopedNode, k.height ≤ n.height → (valueOf k).Within (2 * k.height + 2))
    (hm : member? n = some m) : m.2.Within (2 * n.height + 2) := by
  rw [member?_eq] at hm
  split at hm
  · obtain ⟨key, -, hm⟩ := Option.bind_eq_some_iff.mp hm
    obtain ⟨value, hvalue, rfl⟩ := Option.map_eq_some_iff.mp hm
    have hlt := Syntax.Node.height_lt_of_field? hvalue
    exact (ih value hlt.le).mono (by omega)
  · split at hm
    · cases hm
      exact ih n le_rfl
    · split at hm
      · obtain ⟨name, -, rfl⟩ := Option.map_eq_some_iff.mp hm
        exact .function (by omega)
      · cases hm

theorem within_valueOf (n : ScopedNode) : (valueOf n).Within (2 * n.height + 2) := by
  induction h : n.height using Nat.strong_induction_on generalizing n with
  | _ height ih =>
    subst h
    have hbelow : ∀ m : ScopedNode, m.height < n.height → (valueOf m).Within (2 * m.height + 2) :=
      fun m hm => ih m.height hm m rfl
    rw [valueOf_eq]
    cases ValueForm.ofKind n.kind with
    | number => exact within_numberValue n.text (by omega)
    | string => exact within_stringValue n.text (by omega)
    | template =>
      dsimp only
      split
      · exact .complex _ (by omega)
      · exact within_stringValue n.text (by omega)
    | boolean b => exact .literal _ (by rw [TypeDesc.depth_primitive]; omega)
    | null undefined => exact .null _ (by omega)
    | function => exact .function (by omega)
    | classValue => exact .classValue (by omega)
    | name =>
      dsimp only
      cases (ScopedNode.resolve .value n).target? with
      | none => exact .complex _ (by omega)
      | some fqn => exact .declared _ (by omega)
    | member =>
      dsimp only
      cases hobject : n.field? "object" with
      | none => exact .complex _ (by omega)
      | some object =>
        have hlt := Syntax.Node.height_lt_of_field? hobject
        dsimp only [Option.elim]
        split
        · exact .declared _ (by omega)
        · exact ((hbelow object hlt).member _).mono (by omega)
    | call =>
      dsimp only
      cases hcallee : n.field? "function" with
      | none => exact .complex _ (by omega)
      | some callee =>
        have hlt := Syntax.Node.height_lt_of_field? hcallee
        refine .call ((hbelow callee hlt).mono (by omega)) fun w hw => ?_
        cases hargs : n.field? "arguments" with
        | none => simp [hargs] at hw
        | some args =>
          rw [hargs] at hw
          obtain ⟨c, hc, rfl⟩ := List.mem_map.mp hw
          have hargslt := Syntax.Node.height_lt_of_field? hargs
          have hclt := Syntax.Node.height_lt_of_mem_namedChildren hc
          exact (hbelow c (by omega)).mono (by omega)
    | object =>
      refine .object fun m hm => ?_
      obtain ⟨c, hc, hm⟩ := List.mem_filterMap.mp hm
      have hlt := Syntax.Node.height_lt_of_mem_namedChildren hc
      exact (within_member? (fun k hk => hbelow k (by omega)) hm).mono (by omega)
    | array =>
      refine .array fun v hv => ?_
      obtain ⟨c, hc, rfl⟩ := List.mem_map.mp hv
      have hlt := Syntax.Node.height_lt_of_mem_namedChildren hc
      exact (hbelow c hlt).mono (by omega)
    | wrapped =>
      cases hinner : n.namedChild? 0 with
      | none => exact .complex _ (by omega)
      | some inner =>
        have hlt := Syntax.Node.height_lt_of_namedChild? hinner
        exact (hbelow inner hlt).mono (by omega)
    | unary =>
      dsimp only
      cases hargument : n.field? "argument" with
      | none => exact .complex _ (by omega)
      | some argument =>
        have hlt := Syntax.Node.height_lt_of_field? hargument
        dsimp only [Option.elim]
        split
        · cases hneg : negated? (valueOf argument) with
          | none => exact .complex _ (by omega)
          | some w => exact (within_negated? (hbelow argument hlt) hneg).mono (by omega)
        · exact .complex _ (by omega)
    | other => exact .complex _ (by omega)

end Typing

end CodeConcepts
