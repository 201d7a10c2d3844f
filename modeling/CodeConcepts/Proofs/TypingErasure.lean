import CodeConcepts.Proofs.Erasure
import CodeConcepts.Proofs.TypingForms

/-!
# Types and values without comments

What an identifier refers to is seen from the notes around it, so removing nodes does not change it.
What a node says as a type, an expression or a value is read from the nodes below it, and removing
comments that nothing reads does not change that either (`Typing.steady`,
`Typing.valueOf_erase`).
-/

namespace CodeConcepts

open Syntax (Node Label)
open Syntax.Tree (Reading)

variable {chosen : Label → Bool} {kind : String} {n c : ScopedNode} {r : Reading}

/-! ## Names -/

namespace ScopedNode

@[simp] theorem lookup?_erase (n : ScopedNode) (space : Space) (name : String) :
    lookup? (n.erase chosen) space name = lookup? n space name := by
  unfold lookup?
  rw [show (n.erase chosen).tree :: (n.erase chosen).above =
    (n.tree :: n.above).map (Syntax.Tree.erase chosen) from rfl, List.findSome?_map]
  congr 1
  funext t
  rw [Function.comp, Syntax.Tree.note_erase]

@[simp] theorem resolve_erase (space : Space) (n : ScopedNode) :
    resolve space (n.erase chosen) = resolve space n := by
  unfold resolve
  rw [lookup?_erase, Node.text_erase]

@[simp] theorem resolveMember?_erase (n : ScopedNode) (member : String) :
    resolveMember? (n.erase chosen) member = resolveMember? n member := by
  unfold resolveMember? namespace?
  simp only [Node.kind_erase, Node.text_erase, lookup?_erase]

@[simp] theorem declares?_erase (n : ScopedNode) : declares? (n.erase chosen) = declares? n :=
  congrArg Note.declares (Node.note_erase n)

@[simp] theorem overloads?_erase (n : ScopedNode) : overloads? (n.erase chosen) = overloads? n :=
  congrArg Note.overloads (Node.note_erase n)

end ScopedNode

namespace Typing

open Extract (clauseTypes declaredType parametersIn)
open ScopedNode (resolve resolveMember?)

/-- The name a dotted name stands for is seen from the notes around it. -/
theorem dottedName_erase (o : Option ScopedNode) (member text : String) :
    dottedName (o.map (Node.erase chosen)) member text = dottedName o member text := by
  cases o with
  | none => rfl
  | some n => simp [dottedName]

theorem namedType_erase (n : ScopedNode) : namedType (n.erase chosen) = namedType n := by
  simp [namedType]

/-! ## Which children are read by position -/

/-- The positions that count at a type node. -/
def TypeForm.reading? : TypeForm → Option Reading
  | .wrapped | .array | .literal => some (.leading 1)
  | .union | .intersection | .tuple => some .all
  | .generic => some (.allIn "type_arguments")
  | _ => none

theorem TypeForm.reading_of_kind (h : (TypeForm.ofKind kind).reading? = some r) :
    Reading.ofKind kind = r := by
  unfold TypeForm.ofKind at h
  split at h <;> cases h <;> rfl

theorem TypeForm.kind_of_union (h : TypeForm.ofKind kind = .union) : kind = "union_type" := by
  unfold TypeForm.ofKind at h
  split at h <;> cases h
  rfl

theorem TypeForm.kind_of_intersection (h : TypeForm.ofKind kind = .intersection) :
    kind = "intersection_type" := by
  unfold TypeForm.ofKind at h
  split at h <;> cases h
  rfl

/-- The positions that count where the type of an expression is inferred. -/
def ExpressionForm.reading? : ExpressionForm → Option Reading
  | .wrapped => some (.leading 1)
  | .cast => some (.leading 2)
  | _ => none

theorem ExpressionForm.reading_of_kind (h : (ExpressionForm.ofKind kind).reading? = some r) :
    Reading.ofKind kind = r := by
  unfold ExpressionForm.ofKind at h
  split at h <;> cases h <;> rfl

/-- The positions that count where a value is described, apart from those of wrapped ones. -/
def ValueForm.reading? : ValueForm → Option Reading
  | .array => some .all
  | .call => some (.allIn "arguments")
  | _ => none

theorem ValueForm.reading_of_kind (h : (ValueForm.ofKind kind).reading? = some r) :
    Reading.ofKind kind = r := by
  unfold ValueForm.ofKind at h
  split at h <;> cases h <;> rfl

theorem ValueForm.reading_of_wrapped (h : ValueForm.ofKind kind = .wrapped) :
    ∃ k, Reading.ofKind kind = .leading k ∧ 0 < k := by
  unfold ValueForm.ofKind at h
  split at h <;> cases h
  · exact ⟨1, rfl, Nat.one_pos⟩
  · exact ⟨2, rfl, Nat.two_pos⟩
  · exact ⟨2, rfl, Nat.two_pos⟩
  · exact ⟨1, rfl, Nat.one_pos⟩

/-! ## Returned values -/

theorem returnStatements_of_leaf (h : n.tree.children = []) : returnStatements n = [] := by
  rw [returnStatements_eq, Node.namedChildren_of_leaf h]
  rfl

theorem returnStatements_erase {n : ScopedNode} (h : n.tree.Idle chosen) :
    returnStatements (n.erase chosen) = (returnStatements n).map (Node.erase chosen) := by
  rw [returnStatements_eq, returnStatements_eq n, List.map_flatMap]
  refine Node.flatMap_erase h (fun c hc hidle => ?_) fun c hbare => ?_
  · have hlt := Node.size_lt_of_mem_namedChildren hc
    have ih := returnStatements_erase hidle
    rw [Node.kind_erase, ih]
    split
    · rfl
    · split <;> rfl
  · have hkind : c.kind = "comment" := hbare.1
    rw [returnStatements_of_leaf hbare.2.1, hkind]
    rfl
termination_by n.size

/-- The statements found are `return` statements of the same tree. -/
theorem of_mem_returnStatements {r n : ScopedNode} (h : n.tree.Idle chosen)
    (hr : r ∈ returnStatements n) : r.kind = "return_statement" ∧ r.tree.Idle chosen := by
  rw [returnStatements_eq] at hr
  obtain ⟨c, hc, hr⟩ := List.mem_flatMap.mp hr
  have hlt := Node.size_lt_of_mem_namedChildren hc
  have hidle := Node.idle_of_mem_namedChildren h hc
  split at hr
  case isTrue hkind =>
    rw [List.mem_singleton.mp hr]
    exact ⟨hkind, hidle⟩
  case isFalse =>
    split at hr
    · cases hr
    · exact of_mem_returnStatements hidle hr
termination_by n.size

theorem returnedValues_erase (h : n.tree.Idle chosen) :
    returnedValues (n.erase chosen) = (returnedValues n).map (Node.erase chosen) := by
  unfold returnedValues
  rw [returnStatements_erase h, List.filterMap_map, List.map_filterMap]
  refine List.filterMap_congr fun r hr => ?_
  obtain ⟨hkind, hidle⟩ := of_mem_returnStatements h hr
  refine Node.namedChild?_erase hidle (k := 1) ?_ Nat.one_pos
  rw [hkind]
  rfl

theorem idle_of_mem_returnedValues {v : ScopedNode} (h : n.tree.Idle chosen)
    (hv : v ∈ returnedValues n) : v.tree.Idle chosen := by
  obtain ⟨r, hr, hv⟩ := List.mem_filterMap.mp hv
  exact Node.idle_of_namedChild? (of_mem_returnStatements h hr).2 hv

/-! ## Types -/

/-- What is read at a node as a type, as an expression or as a list of the parts of a union does not
change when the chosen nodes are removed. -/
structure Steady (chosen : Label → Bool) (n : ScopedNode) : Prop where
  type : typeOf (n.erase chosen) = typeOf n
  expression : expressionType (n.erase chosen) = expressionType n
  parts : Reading.ofKind n.kind = .all →
    flattened n.kind (n.erase chosen) = flattened n.kind n

section

variable {n : ScopedNode}

/-! What is read at a node is steady if what is read below it is. -/

variable (ih : ∀ m : ScopedNode, m.size < n.size → m.tree.Idle chosen → Steady chosen m)
  (h : n.tree.Idle chosen)

include ih h

theorem steady_of_field? {name : String} (hc : n.field? name = some c) : Steady chosen c :=
  ih c (Node.size_lt_of_field? hc) (Node.idle_of_field? h hc)

theorem steady_of_mem_namedChildren (hc : c ∈ n.namedChildren) : Steady chosen c :=
  ih c (Node.size_lt_of_mem_namedChildren hc) (Node.idle_of_mem_namedChildren h hc)

theorem typeOf_field_erase (name : String) (t : TypeDesc) :
    ((n.erase chosen).field? name).elim t typeOf = (n.field? name).elim t typeOf := by
  rw [Node.field?_erase h]
  cases hc : n.field? name with
  | none => rfl
  | some c => exact (steady_of_field? ih h hc).type

theorem typeOf_namedChild_erase {i k : Nat} (hkind : Reading.ofKind n.kind = .leading k)
    (hi : i < k) (t : TypeDesc) :
    ((n.erase chosen).namedChild? i).elim t typeOf = (n.namedChild? i).elim t typeOf := by
  rw [Node.namedChild?_erase h hkind hi]
  cases hc : n.namedChild? i with
  | none => rfl
  | some c => exact (steady_of_mem_namedChildren ih h (List.mem_of_getElem? hc)).type

theorem map_typeOf_erase (hall : Reading.ofKind n.kind = .all) :
    (n.erase chosen).namedChildren.map typeOf = n.namedChildren.map typeOf := by
  rw [Node.namedChildren_erase_of_all h hall, List.map_map]
  exact List.map_congr_left fun c hc => (steady_of_mem_namedChildren ih h hc).type

theorem typeArguments_erase (hkind : Reading.ofKind n.kind = .allIn "type_arguments") :
    typeArguments (n.erase chosen) = typeArguments n := by
  unfold typeArguments
  rw [Node.field?_erase h]
  cases hargs : n.field? "type_arguments" with
  | none => rfl
  | some args =>
    have hlt := Node.size_lt_of_field? hargs
    have hidle := Node.idle_of_field? h hargs
    simp only [Option.map_some, Option.getD_some, clauseTypes]
    rw [Node.namedChildren_field_erase h hkind hargs, List.map_map]
    refine List.map_congr_left fun c hc => Steady.type ?_
    exact steady_of_mem_namedChildren (fun m hm => ih m (Nat.lt_trans hm hlt)) hidle hc

theorem flattened_erase (hall : Reading.ofKind n.kind = .all) :
    flattened n.kind (n.erase chosen) = flattened n.kind n := by
  rw [flattened_eq, flattened_eq, Node.namedChildren_erase_of_all h hall, List.flatMap_map]
  refine List.flatMap_congr fun c hc => ?_
  have hsteady := steady_of_mem_namedChildren ih h hc
  rw [Node.kind_erase]
  split
  case isTrue hkind =>
    -- a union in a union is spliced into it, so its own parts count, and not its type
    rw [← hkind] at hall ⊢
    exact hsteady.parts hall
  case isFalse => rw [hsteady.type]

theorem declaredType_erase : declaredType (n.erase chosen) = declaredType n := by
  unfold declaredType
  rw [Node.field?_erase h, Node.field?_erase h]
  cases htype : n.field? "type" with
  | some t => exact (steady_of_field? ih h htype).type
  | none =>
    cases hvalue : n.field? "value" with
    | some v => exact (steady_of_field? ih h hvalue).expression
    | none => rfl

theorem parameter?_erase : parameter? (n.erase chosen) = parameter? n := by
  rw [parameter?_eq, parameter?_eq, Node.kind_erase, Node.field?_erase h,
    declaredType_erase ih h]
  cases n.field? "pattern" with
  | none => rfl
  | some pattern => simp only [Option.map_some, Option.bind_some, Node.kind_erase, Node.text_erase]

theorem parametersOf_erase : parametersOf (n.erase chosen) = parametersOf n := by
  rw [parametersOf_eq, parametersOf_eq]
  refine congrArg numbered (Node.filterMap_erase h (fun c hc hidle => ?_) fun c hbare => ?_)
  · have hlt := Node.size_lt_of_mem_namedChildren hc
    exact parameter?_erase (fun m hm => ih m (Nat.lt_trans hm hlt)) hidle
  · have hkind : c.kind = "comment" := hbare.1
    rw [parameter?_eq, hkind]
    rfl

theorem parametersIn_erase : parametersIn (n.erase chosen) = parametersIn n := by
  unfold parametersIn
  rw [Node.field?_erase h]
  cases hps : n.field? "parameters" with
  | none => rfl
  | some ps =>
    have hlt := Node.size_lt_of_field? hps
    exact parametersOf_erase (fun m hm => ih m (Nat.lt_trans hm hlt)) (Node.idle_of_field? h hps)

theorem inferredType_erase {body : ScopedNode} (hbody : n.field? "body" = some body) :
    inferredType (body.erase chosen) = inferredType body := by
  have hlt := Node.size_lt_of_field? hbody
  have hidle := Node.idle_of_field? h hbody
  unfold inferredType
  rw [Node.kind_erase, Node.text_erase, (ih body hlt hidle).expression,
    returnedValues_erase hidle, List.map_map, List.head?_map, Node.map_text_erase]
  have htypes : (returnedValues body).map (expressionType ∘ Node.erase chosen) =
      (returnedValues body).map expressionType := by
    refine List.map_congr_left fun v hv => Steady.expression ?_
    exact ih v (Nat.lt_trans (size_lt_of_mem_returnedValues hv) hlt)
      (idle_of_mem_returnedValues hidle hv)
  rw [htypes]

theorem returnTypeOf_erase : returnTypeOf (n.erase chosen) = returnTypeOf n := by
  rw [returnTypeOf_eq, returnTypeOf_eq, Node.field?_erase h, Node.field?_erase h,
    Node.hasToken_erase h (by decide)]
  cases hdeclared : n.field? "return_type" with
  | some declared =>
    simp only [Option.map_some, Option.elim_some, Node.kind_erase,
      (steady_of_field? ih h hdeclared).type]
  | none =>
    cases hbody : n.field? "body" with
    | none => rfl
    | some body =>
      simp only [Option.map_some, Option.map_none, Option.elim_some, Option.elim_none,
        inferredType_erase ih h hbody]

theorem objectMember?_erase : objectMember? (n.erase chosen) = objectMember? n := by
  rw [objectMember?_eq, objectMember?_eq, Node.fieldText?_erase h, Node.kind_erase,
    typeOf_field_erase ih h, parametersIn_erase ih h, returnTypeOf_erase ih h,
    Node.hasToken_erase h (by decide), Node.hasToken_erase h (by decide)]

theorem typeOf_erase_of_below : typeOf (n.erase chosen) = typeOf n := by
  rw [typeOf_eq, typeOf_eq n, Node.kind_erase]
  have hreading {r : Reading} (hr : (TypeForm.ofKind n.kind).reading? = some r) :
      Reading.ofKind n.kind = r := TypeForm.reading_of_kind hr
  cases hform : TypeForm.ofKind n.kind <;> rw [hform] at hreading <;> dsimp only
  case wrapped => rw [typeOf_namedChild_erase ih h (hreading rfl) Nat.one_pos, Node.text_erase]
  case predefined => rw [Node.text_erase]
  case name => exact namedType_erase n
  case dottedName =>
    rw [Node.field?_erase h, dottedName_erase, Node.fieldText?_erase h, Node.text_erase]
  case generic =>
    rw [typeArguments_erase ih h (hreading rfl), typeOf_field_erase ih h, Node.text_erase]
  case union =>
    rw [show "union_type" = n.kind from (TypeForm.kind_of_union hform).symm,
      flattened_erase ih h (hreading rfl)]
  case intersection =>
    rw [show "intersection_type" = n.kind from (TypeForm.kind_of_intersection hform).symm,
      flattened_erase ih h (hreading rfl)]
  case array =>
    rw [Node.namedChild?_erase h (hreading rfl) Nat.one_pos]
    cases hc : n.namedChild? 0 with
    | none => rfl
    | some c =>
      have hsteady := steady_of_mem_namedChildren ih h (List.mem_of_getElem? hc)
      simp only [Option.map_some, Option.elim_some, hsteady.type]
  case tuple => rw [map_typeOf_erase ih h (hreading rfl)]
  case object =>
    refine congrArg TypeDesc.object
      (Node.filterMap_erase h (fun c hc hidle => ?_) fun c hbare => ?_)
    · have hlt := Node.size_lt_of_mem_namedChildren hc
      exact objectMember?_erase (fun m hm => ih m (Nat.lt_trans hm hlt)) hidle
    · rw [objectMember?_eq, Node.fieldText?_of_leaf hbare.2.1, Option.bind_none]
  case function => rw [parametersIn_erase ih h, typeOf_field_erase ih h]
  case literal =>
    unfold literalType
    rw [Node.namedChild?_erase h (hreading rfl) Nat.one_pos, Node.text_erase, Node.map_kind_erase]
  case other => rw [Node.text_erase]

theorem expressionType_erase_of_below : expressionType (n.erase chosen) = expressionType n := by
  rw [expressionType_eq, expressionType_eq n, Node.kind_erase]
  have hreading {r : Reading} (hr : (ExpressionForm.ofKind n.kind).reading? = some r) :
      Reading.ofKind n.kind = r := ExpressionForm.reading_of_kind hr
  have hfield (name : String) (t : TypeDesc) :
      ((n.erase chosen).field? name).elim t expressionType =
        (n.field? name).elim t expressionType := by
    rw [Node.field?_erase h]
    cases hc : n.field? name with
    | none => rfl
    | some c => exact (steady_of_field? ih h hc).expression
  cases hform : ExpressionForm.ofKind n.kind <;> rw [hform] at hreading <;> dsimp only
  case number => rw [Node.text_erase]
  case wrapped =>
    rw [Node.namedChild?_erase h (hreading rfl) Nat.one_pos, Node.text_erase]
    cases hc : n.namedChild? 0 with
    | none => rfl
    | some c => exact (steady_of_mem_namedChildren ih h (List.mem_of_getElem? hc)).expression
  case cast => rw [typeOf_namedChild_erase ih h (hreading rfl) Nat.one_lt_two, Node.text_erase]
  case unary =>
    rw [Node.field?_erase h, Node.field?_erase h, Node.text_erase, Node.map_kind_erase]
    cases hargument : n.field? "argument" with
    | none => rfl
    | some argument =>
      simp only [Option.map_some, (steady_of_field? ih h hargument).expression]
  case binary =>
    rw [Node.field?_erase h "operator", hfield, hfield, Node.text_erase]
    cases n.field? "operator" with
    | none => rfl
    | some operator => simp only [Option.map_some, Option.elim_some, Node.kind_erase]
  case construct =>
    unfold constructedType
    rw [Node.field?_erase h, Node.text_erase]
    cases n.field? "constructor" with
    | none => rfl
    | some c => cases hc : c.kind == "identifier" <;> simp [Option.filter, hc]
  case function => rw [parametersIn_erase ih h, returnTypeOf_erase ih h]
  case other => rw [Node.text_erase]

end

/-- Removing comments that nothing reads changes no type. -/
theorem steady {n : ScopedNode} (h : n.tree.Idle chosen) : Steady chosen n := by
  have ih (m : ScopedNode) (_ : m.size < n.size) (hm : m.tree.Idle chosen) : Steady chosen m :=
    steady hm
  exact ⟨typeOf_erase_of_below ih h, expressionType_erase_of_below ih h, flattened_erase ih h⟩
termination_by n.size

theorem steady_below (m : ScopedNode) (_ : m.size < n.size) (h : m.tree.Idle chosen) :
    Steady chosen m :=
  steady h

theorem typeParametersOf_erase (h : n.tree.Idle chosen) :
    typeParametersOf (n.erase chosen) = typeParametersOf n := by
  unfold typeParametersOf
  rw [Node.field?_erase h]
  cases hlist : n.field? "type_parameters" with
  | none => rfl
  | some list =>
    refine Node.filterMap_erase (Node.idle_of_field? h hlist) (fun p hp hidle => ?_)
      fun p hbare => ?_
    · rw [Node.fieldText?_erase hidle, Node.field?_erase hidle]
      cases hconstraint : p.field? "constraint" with
      | none => rfl
      | some constraint =>
        rw [Option.map_some, Option.bind_some, Option.bind_some,
          Node.namedChild?_constraint_erase hidle hconstraint]
        cases hc : constraint.namedChild? 0 with
        | none => rfl
        | some c =>
          have hsteady := steady
            (Node.idle_of_namedChild? (Node.idle_of_field? hidle hconstraint) hc)
          simp only [Option.map_some, hsteady.type]
    · rw [Node.fieldText?_of_leaf hbare.2.1, Option.map_none]

/-! ## Values -/

theorem memberKey_erase (key : ScopedNode) : memberKey (key.erase chosen) = memberKey key := by
  simp [memberKey]

section

variable {n : ScopedNode}
  (ih : ∀ m : ScopedNode, m.size < n.size → m.tree.Idle chosen →
    valueOf (m.erase chosen) = valueOf m)
  (h : n.tree.Idle chosen)

include ih h

theorem valueOf_erase_of_field? {name : String} (hc : n.field? name = some c) :
    valueOf (c.erase chosen) = valueOf c :=
  ih c (Node.size_lt_of_field? hc) (Node.idle_of_field? h hc)

theorem map_valueOf_erase
    (hall : (n.erase chosen).namedChildren = n.namedChildren.map (Node.erase chosen)) :
    (n.erase chosen).namedChildren.map valueOf = n.namedChildren.map valueOf := by
  rw [hall, List.map_map]
  exact List.map_congr_left fun c hc =>
    ih c (Node.size_lt_of_mem_namedChildren hc) (Node.idle_of_mem_namedChildren h hc)

theorem member?_erase (hself : valueOf (n.erase chosen) = valueOf n) :
    member? (n.erase chosen) = member? n := by
  rw [member?_eq, member?_eq, Node.kind_erase, Node.text_erase, Node.fieldText?_erase h,
    Node.field?_erase h, Node.field?_erase h, hself]
  cases n.field? "key" with
  | none => rfl
  | some key =>
    cases hvalue : n.field? "value" with
    | none => rfl
    | some value =>
      simp only [Option.map_some, Option.bind_some, memberKey_erase,
        valueOf_erase_of_field? ih h hvalue]

theorem valueOf_erase_of_below : valueOf (n.erase chosen) = valueOf n := by
  rw [valueOf_eq, valueOf_eq n, Node.kind_erase]
  have hreading {r : Reading} (hr : (ValueForm.ofKind n.kind).reading? = some r) :
      Reading.ofKind n.kind = r := ValueForm.reading_of_kind hr
  cases hform : ValueForm.ofKind n.kind <;> rw [hform] at hreading <;> dsimp only
  case number => rw [Node.text_erase]
  case string => rw [Node.text_erase]
  case template => rw [Node.any_kind_erase h (by decide), Node.text_erase]
  case name => rw [ScopedNode.resolve_erase, Node.text_erase]
  case member =>
    rw [Node.field?_erase h, Node.fieldText?_erase h, Node.text_erase]
    cases hobject : n.field? "object" with
    | none => rfl
    | some object =>
      simp only [Option.map_some, Option.elim_some, ScopedNode.resolveMember?_erase,
        valueOf_erase_of_field? ih h hobject]
  case call =>
    rw [Node.field?_erase h, Node.field?_erase h, Node.text_erase]
    have harguments : ((n.field? "arguments").map (Node.erase chosen)).elim []
        (·.namedChildren.map valueOf) =
          (n.field? "arguments").elim [] (·.namedChildren.map valueOf) := by
      cases hargs : n.field? "arguments" with
      | none => rfl
      | some args =>
        have hlt := Node.size_lt_of_field? hargs
        exact map_valueOf_erase (fun m hm => ih m (Nat.lt_trans hm hlt))
          (Node.idle_of_field? h hargs) (Node.namedChildren_field_erase h (hreading rfl) hargs)
    rw [harguments]
    cases hcallee : n.field? "function" with
    | none => rfl
    | some callee =>
      simp only [Option.map_some, Option.elim_some, valueOf_erase_of_field? ih h hcallee]
  case object =>
    refine congrArg (Value.object ∘ Json.sorted)
      (Node.filterMap_erase h (fun c hc hidle => ?_) fun c hbare => ?_)
    · have hlt := Node.size_lt_of_mem_namedChildren hc
      exact member?_erase (fun m hm => ih m (Nat.lt_trans hm hlt)) hidle (ih c hlt hidle)
    · have hkind : c.kind = "comment" := hbare.1
      rw [member?_eq, hkind]
      rfl
  case array => rw [map_valueOf_erase ih h (Node.namedChildren_erase_of_all h (hreading rfl))]
  case wrapped =>
    obtain ⟨k, hkind, hk⟩ := ValueForm.reading_of_wrapped hform
    rw [Node.namedChild?_erase h hkind hk, Node.text_erase]
    cases hc : n.namedChild? 0 with
    | none => rfl
    | some c => exact ih c (Node.size_lt_of_namedChild? hc) (Node.idle_of_namedChild? h hc)
  case unary =>
    rw [Node.field?_erase h, Node.field?_erase h, Node.map_kind_erase, Node.text_erase]
    cases hargument : n.field? "argument" with
    | none => rfl
    | some argument =>
      simp only [Option.map_some, Option.elim_some, valueOf_erase_of_field? ih h hargument]
  case other => rw [Node.text_erase]

end

/-- Removing comments that nothing reads changes no value. -/
theorem valueOf_erase {n : ScopedNode} (h : n.tree.Idle chosen) :
    valueOf (n.erase chosen) = valueOf n := by
  have ih (m : ScopedNode) (_ : m.size < n.size) (hm : m.tree.Idle chosen) :
      valueOf (m.erase chosen) = valueOf m :=
    valueOf_erase hm
  exact valueOf_erase_of_below ih h
termination_by n.size

end Typing

end CodeConcepts
