import CodeConcepts.Proofs.TypingForms
import Mathlib.Logic.Relation

/-!
# Where the names in a type come from

A type is read off a node by reading parts of the node in turn: as types, as members of an object
type, as parameters, as the result of a function, or as expressions where a parameter has a default
value in place of a type. A name in the type either is written at one of these parts or is implied
by its form, as `Array` is by `T[]` (`NodeReading.written_or_implied`).
-/

namespace CodeConcepts

variable {g : QName} {r : NodeReading}

namespace TypeDesc

theorem namesOfTypes_eq (ts : List TypeDesc) : namesOfTypes ts = ts.flatMap names := by
  induction ts with
  | nil => rfl
  | cons t ts ih => rw [namesOfTypes, ih, List.flatMap_cons]

theorem namesOfMembers_eq (ms : List (ObjectMember TypeDesc)) :
    namesOfMembers ms = ms.flatMap (·.type.names) := by
  induction ms with
  | nil => rfl
  | cons x ms ih =>
    obtain ⟨name, type, optional, readonly⟩ := x
    rw [namesOfMembers, ih, List.flatMap_cons]

theorem namesOfParameters_eq (ps : List (Parameter TypeDesc)) :
    namesOfParameters ps = ps.flatMap (·.type.names) := by
  induction ps with
  | nil => rfl
  | cons x ps ih =>
    obtain ⟨index, name, type, optional⟩ := x
    rw [namesOfParameters, ih, List.flatMap_cons]

/-- That a value may be missing adds no name to its type. -/
theorem names_withUndefined (t : TypeDesc) : t.withUndefined.names = t.names := by
  unfold withUndefined
  split
  · rfl
  · split
    · next ts =>
      rw [names, names, namesOfTypes_eq, namesOfTypes_eq, List.flatMap_append]
      exact List.append_nil _
    · rw [names, namesOfTypes_eq]
      simp [names]

end TypeDesc

namespace Typing

open Extract (clauseTypes declaredType parametersIn)
open ScopedNode (resolve)
open TypeDesc (names)

/-! ## Readings -/

/-- A node and what it is read as. -/
inductive NodeReading where
  | type (n : ScopedNode)
  /-- A member of an object type. -/
  | member (n : ScopedNode)
  | parameter (n : ScopedNode)
  /-- What the function at the node returns. -/
  | result (n : ScopedNode)
  | expression (n : ScopedNode)

namespace NodeReading

/-- The names in what is read. -/
def names : NodeReading → List QName
  | .type n => (typeOf n).names
  | .member n => (objectMember? n).toList.flatMap (·.type.names)
  | .parameter n => (parameter? n).toList.flatMap (·.2.1.names)
  | .result n => (returnTypeOf n).names
  | .expression n => (expressionType n).names

/-- A node stands in the list of parameters of another one. -/
def IsParameterOf (c n : ScopedNode) : Prop :=
  ∃ list, n.field? "parameters" = some list ∧ c ∈ list.namedChildren

/-- What is read to read a node. -/
inductive Part : NodeReading → NodeReading → Prop
  | wrapped {n c} : TypeForm.ofKind n.kind = .wrapped → n.namedChild? 0 = some c →
      Part (.type n) (.type c)
  | element {n c} : TypeForm.ofKind n.kind = .array → n.namedChild? 0 = some c →
      Part (.type n) (.type c)
  | genericName {n c} : TypeForm.ofKind n.kind = .generic → n.field? "name" = some c →
      Part (.type n) (.type c)
  | argument {n list c} : TypeForm.ofKind n.kind = .generic →
      n.field? "type_arguments" = some list → c ∈ list.namedChildren → Part (.type n) (.type c)
  | component {n c} : TypeForm.ofKind n.kind ∈ [.union, .intersection, .tuple] →
      c ∈ n.namedChildren → Part (.type n) (.type c)
  | objectMember {n c} : TypeForm.ofKind n.kind = .object → c ∈ n.namedChildren →
      Part (.type n) (.member c)
  | functionParameter {n c} : TypeForm.ofKind n.kind = .function → IsParameterOf c n →
      Part (.type n) (.parameter c)
  | functionResult {n c} : TypeForm.ofKind n.kind = .function → n.field? "return_type" = some c →
      Part (.type n) (.type c)
  | propertyType {n c} : n.kind = "property_signature" → n.field? "type" = some c →
      Part (.member n) (.type c)
  | methodParameter {n c} : n.kind = "method_signature" → IsParameterOf c n →
      Part (.member n) (.parameter c)
  | methodResult {n} : n.kind = "method_signature" → Part (.member n) (.result n)
  | parameterType {n c} : n.kind = "required_parameter" ∨ n.kind = "optional_parameter" →
      n.field? "type" = some c → Part (.parameter n) (.type c)
  /-- A default value stands in for a type. -/
  | defaultValue {n c} : n.kind = "required_parameter" ∨ n.kind = "optional_parameter" →
      n.field? "type" = none → n.field? "value" = some c → Part (.parameter n) (.expression c)
  | resultType {n c} : n.field? "return_type" = some c → Part (.result n) (.type c)
  | inner {n c} : ExpressionForm.ofKind n.kind = .wrapped → n.namedChild? 0 = some c →
      Part (.expression n) (.expression c)
  | cast {n c} : ExpressionForm.ofKind n.kind = .cast → n.namedChild? 1 = some c →
      Part (.expression n) (.type c)
  | valueParameter {n c} : ExpressionForm.ofKind n.kind = .function → IsParameterOf c n →
      Part (.expression n) (.parameter c)
  | valueResult {n} : ExpressionForm.ofKind n.kind = .function → Part (.expression n) (.result n)

/-- The name that is written at a node: a type name, a dotted type name, or the name of a
constructor. -/
def written? : NodeReading → Option QName
  | .type n =>
    match TypeForm.ofKind n.kind with
    | .name => if n.text ∈ primitiveNames then none else (resolve .type n).target?
    | .dottedName => some (dottedName (n.field? "module") ((n.fieldText? "name").getD "") n.text)
    | _ => none
  | .expression n =>
    match ExpressionForm.ofKind n.kind with
    | .construct =>
      ((n.field? "constructor").filter (·.kind == "identifier")).bind fun c =>
        (resolve .value c).target?
    | _ => none
  | _ => none

/-- The name that the form of a node stands for: `Array` for an array type, `RegExp` for a regular
expression, and `Promise` for an asynchronous function without a result type. -/
def implied? : NodeReading → Option QName
  | .type n => if TypeForm.ofKind n.kind = .array then some (.bare "Array") else none
  | .expression n => if ExpressionForm.ofKind n.kind = .regex then some (.bare "RegExp") else none
  | .result n =>
    if (n.field? "return_type").isNone && (n.field? "body").isSome && n.hasToken "async" then
      some (.bare "Promise")
    else none
  | _ => none

/-- What is read to read a node, at whatever depth, the node itself included. -/
def Reads : NodeReading → NodeReading → Prop := Relation.ReflTransGen Part

/-- A name is written somewhere in what is read. -/
def Written (r : NodeReading) (g : QName) : Prop := ∃ s, Reads r s ∧ s.written? = some g

/-- A name is implied by the form of something that is read. -/
def Implied (r : NodeReading) (g : QName) : Prop := ∃ s, Reads r s ∧ s.implied? = some g

/-! ## Parts are smaller -/

/-- The result of a function is read after the function. -/
def weight : NodeReading → Nat
  | .result n => 2 * n.size
  | .type n | .member n | .parameter n | .expression n => 2 * n.size + 1

theorem IsParameterOf.size_lt {c n : ScopedNode} (h : IsParameterOf c n) : c.size < n.size := by
  obtain ⟨list, hlist, hmem⟩ := h
  have houter := Syntax.Node.size_lt_of_field? hlist
  have hinner := Syntax.Node.size_lt_of_mem_namedChildren hmem
  omega

theorem Part.weight_lt {s : NodeReading} (h : Part r s) : s.weight < r.weight := by
  have hchild {c n : ScopedNode} (h : c.size < n.size) : 2 * c.size + 1 < 2 * n.size + 1 := by omega
  cases h with
  | wrapped _ hc | element _ hc => exact hchild (Syntax.Node.size_lt_of_namedChild? hc)
  | genericName _ hc => exact hchild (Syntax.Node.size_lt_of_field? hc)
  | argument _ hlist hc =>
    have houter := Syntax.Node.size_lt_of_field? hlist
    have hinner := Syntax.Node.size_lt_of_mem_namedChildren hc
    exact hchild (by omega)
  | component _ hc | objectMember _ hc => exact hchild (Syntax.Node.size_lt_of_mem_namedChildren hc)
  | functionParameter _ hc => exact hchild hc.size_lt
  | functionResult _ hc | propertyType _ hc => exact hchild (Syntax.Node.size_lt_of_field? hc)
  | methodParameter _ hc => exact hchild hc.size_lt
  | methodResult _ => exact Nat.lt_succ_self _
  | parameterType _ hc | defaultValue _ _ hc => exact hchild (Syntax.Node.size_lt_of_field? hc)
  | resultType hc =>
    have := Syntax.Node.size_lt_of_field? hc
    show 2 * _ + 1 < 2 * _
    omega
  | inner _ hc | cast _ hc => exact hchild (Syntax.Node.size_lt_of_namedChild? hc)
  | valueParameter _ hc => exact hchild hc.size_lt
  | valueResult _ => exact Nat.lt_succ_self _

/-! ## One step -/

theorem mem_names_parameter {n : ScopedNode} :
    g ∈ (NodeReading.parameter n).names ↔ ∃ p ∈ parameter? n, g ∈ p.2.1.names := by
  refine List.mem_flatMap.trans (exists_congr fun p => and_congr_left fun _ => ?_)
  exact Option.mem_toList

theorem mem_names_member {n : ScopedNode} :
    g ∈ (NodeReading.member n).names ↔ ∃ x ∈ objectMember? n, g ∈ x.type.names := by
  refine List.mem_flatMap.trans (exists_congr fun p => and_congr_left fun _ => ?_)
  exact Option.mem_toList

/-- A name comes from the node itself or from a part. -/
def Sourced (r : NodeReading) (g : QName) : Prop :=
  (r.written? = some g ∨ r.implied? = some g) ∨ ∃ s, Part r s ∧ g ∈ s.names

/-- A name in what is read off a part that may be missing comes from the part. -/
theorem exists_of_mem_elim {x : Option ScopedNode} {f : ScopedNode → TypeDesc} {other : TypeDesc}
    (hother : other.names = []) (h : g ∈ (x.elim other f).names) :
    ∃ c, x = some c ∧ g ∈ (f c).names := by
  cases x with
  | none =>
    rw [Option.elim_none, hother] at h
    cases h
  | some c => exact ⟨c, rfl, h⟩

theorem exists_parameter {n : ScopedNode} (h : g ∈ TypeDesc.namesOfParameters (parametersIn n)) :
    ∃ c, IsParameterOf c n ∧ g ∈ (NodeReading.parameter c).names := by
  rw [TypeDesc.namesOfParameters_eq] at h
  obtain ⟨q, hq, hg⟩ := List.mem_flatMap.mp h
  unfold parametersIn at hq
  cases hlist : n.field? "parameters" with
  | none =>
    rw [hlist] at hq
    cases hq
  | some list =>
    rw [hlist] at hq
    have hq : q ∈ parametersOf list := hq
    rw [parametersOf_eq, numbered] at hq
    obtain ⟨⟨p, i⟩, hp, rfl⟩ := List.mem_map.mp hq
    obtain ⟨c, hc, hparameter⟩ := List.mem_filterMap.mp (List.fst_mem_of_mem_zipIdx hp)
    exact ⟨c, ⟨list, hlist, hc⟩, mem_names_parameter.mpr ⟨p, hparameter, hg⟩⟩

theorem sourced_function {n : ScopedNode} {result : TypeDesc}
    (hparameter : ∀ c, IsParameterOf c n → Part r (.parameter c))
    (hresult : g ∈ result.names → r.Sourced g)
    (h : g ∈ (TypeDesc.function (parametersIn n) result).names) : r.Sourced g := by
  rw [TypeDesc.names] at h
  rcases List.mem_append.mp h with h | h
  · obtain ⟨c, hc, hg⟩ := exists_parameter h
    exact .inr ⟨_, hparameter c hc, hg⟩
  · exact hresult h

/-- The names of a union or intersection are those of its components. -/
theorem exists_component (form : List TypeDesc → TypeDesc) {kind : String} {n : ScopedNode}
    (hform : ∀ ts, (form ts).names = TypeDesc.namesOfTypes ts)
    (htype : ∀ c : ScopedNode, c.kind = kind → typeOf c = form (flattened kind c))
    (h : g ∈ TypeDesc.namesOfTypes (flattened kind n)) :
    ∃ c ∈ n.namedChildren, g ∈ (typeOf c).names := by
  rw [TypeDesc.namesOfTypes_eq, flattened_eq] at h
  obtain ⟨d, hd, hg⟩ := List.mem_flatMap.mp h
  obtain ⟨c, hc, hd⟩ := List.mem_flatMap.mp hd
  refine ⟨c, hc, ?_⟩
  split at hd
  · next hkind =>
    rw [htype c hkind, hform, TypeDesc.namesOfTypes_eq]
    exact List.mem_flatMap.mpr ⟨d, hd, hg⟩
  · rw [List.mem_singleton.mp hd] at hg
    exact hg

/-- A name that is left when a name is taken for a type is the one that is written. -/
theorem target_of_namedType {n : ScopedNode} (h : g ∈ (namedType n).names) :
    n.text ∉ primitiveNames ∧ (resolve .type n).target? = some g := by
  unfold namedType at h
  split at h
  · cases h
  · next hprimitive =>
    refine ⟨hprimitive, ?_⟩
    cases hresolve : resolve .type n with
    | declaration fqn =>
      rw [hresolve] at h
      rw [List.mem_singleton.mp h]
      rfl
    | unresolved fqn =>
      rw [hresolve] at h
      rw [List.mem_singleton.mp h]
      rfl
    | typeParameter name =>
      rw [hresolve] at h
      cases h
    | localVariable =>
      rw [hresolve] at h
      cases h

theorem sourced_generic {n : ScopedNode} (hform : TypeForm.ofKind n.kind = .generic)
    (h : g ∈ (applied (typeArguments n)
      ((n.field? "name").elim (.notIdentified n.text) typeOf)).names) :
    (NodeReading.type n).Sourced g := by
  cases hname : n.field? "name" with
  | none =>
    rw [hname] at h
    cases h
  | some c =>
    rw [hname] at h
    have hpart : Part (.type n) (.type c) := .genericName hform hname
    -- a declared type takes over the arguments, any other type is left as it is
    by_cases hdeclared : ∃ fqn args, typeOf c = .declared fqn args
    · obtain ⟨fqn, args, hc⟩ := hdeclared
      have h : g ∈ fqn :: TypeDesc.namesOfTypes (typeArguments n) := by
        rw [Option.elim_some, hc] at h
        exact h
      rcases List.mem_cons.mp h with rfl | h
      · refine .inr ⟨_, hpart, ?_⟩
        show g ∈ (typeOf c).names
        rw [hc]
        exact List.mem_cons_self
      · rw [TypeDesc.namesOfTypes_eq] at h
        obtain ⟨d, hd, hg⟩ := List.mem_flatMap.mp h
        unfold typeArguments at hd
        cases hlist : n.field? "type_arguments" with
        | none =>
          rw [hlist] at hd
          cases hd
        | some list =>
          rw [hlist] at hd
          obtain ⟨a, ha, rfl⟩ := List.mem_map.mp hd
          exact .inr ⟨.type a, .argument hform hlist ha, hg⟩
    · have hsame : applied (typeArguments n) (typeOf c) = typeOf c := by
        cases hc : typeOf c with
        | declared fqn args => exact absurd ⟨fqn, args, hc⟩ hdeclared
        | _ => rfl
      rw [Option.elim_some, hsame] at h
      exact .inr ⟨_, hpart, h⟩

theorem sourced_type {n : ScopedNode} (h : g ∈ (NodeReading.type n).names) :
    (NodeReading.type n).Sourced g := by
  have h : g ∈ (typeOf n).names := h
  rw [typeOf_eq] at h
  cases hform : TypeForm.ofKind n.kind <;> simp only [hform] at h
  case wrapped =>
    obtain ⟨c, hc, h⟩ := exists_of_mem_elim rfl h
    exact .inr ⟨_, .wrapped hform hc, h⟩
  case name =>
    obtain ⟨hprimitive, htarget⟩ := target_of_namedType h
    refine .inl (.inl ?_)
    simp only [written?, hform]
    rw [if_neg hprimitive, htarget]
  case dottedName =>
    refine .inl (.inl ?_)
    simp only [written?, hform]
    rw [List.mem_singleton.mp h]
  case generic =>
    exact sourced_generic hform h
  case union =>
    have htype (c : ScopedNode) (hkind : c.kind = "union_type") :
        typeOf c = .union (flattened "union_type" c) := by
      rw [typeOf_eq, hkind]
      rfl
    obtain ⟨c, hc, hg⟩ := exists_component .union (fun _ => rfl) htype h
    exact .inr ⟨.type c, .component (by rw [hform]; decide) hc, hg⟩
  case intersection =>
    have htype (c : ScopedNode) (hkind : c.kind = "intersection_type") :
        typeOf c = .intersection (flattened "intersection_type" c) := by
      rw [typeOf_eq, hkind]
      rfl
    obtain ⟨c, hc, hg⟩ := exists_component .intersection (fun _ => rfl) htype h
    exact .inr ⟨.type c, .component (by rw [hform]; decide) hc, hg⟩
  case array =>
    rcases List.mem_cons.mp h with rfl | h
    · refine .inl (.inr ?_)
      simp only [implied?, hform, if_true]
    · cases hc : n.namedChild? 0 with
      | none =>
        rw [hc] at h
        cases h
      | some c =>
        rw [hc] at h
        have h : g ∈ TypeDesc.namesOfTypes [typeOf c] := h
        rw [TypeDesc.namesOfTypes_eq, List.flatMap_singleton] at h
        exact .inr ⟨_, .element hform hc, h⟩
  case tuple =>
    have h : g ∈ TypeDesc.namesOfTypes (n.namedChildren.map typeOf) := h
    rw [TypeDesc.namesOfTypes_eq, List.flatMap_map] at h
    obtain ⟨c, hc, hg⟩ := List.mem_flatMap.mp h
    exact .inr ⟨.type c, .component (by rw [hform]; decide) hc, hg⟩
  case object =>
    have h : g ∈ TypeDesc.namesOfMembers (n.namedChildren.filterMap objectMember?) := h
    rw [TypeDesc.namesOfMembers_eq] at h
    obtain ⟨x, hx, hg⟩ := List.mem_flatMap.mp h
    obtain ⟨c, hc, hmember⟩ := List.mem_filterMap.mp hx
    exact .inr ⟨.member c, .objectMember hform hc, mem_names_member.mpr ⟨x, hmember, hg⟩⟩
  case function =>
    refine sourced_function (fun c hc => .functionParameter hform hc) (fun hresult => ?_) h
    obtain ⟨c, hc, hresult⟩ := exists_of_mem_elim rfl hresult
    exact .inr ⟨_, .functionResult hform hc, hresult⟩
  case literal =>
    unfold literalType at h
    split at h <;> cases h
  case predefined =>
    cases h
  case other =>
    cases h

theorem sourced_result {n : ScopedNode} (h : g ∈ (NodeReading.result n).names) :
    (NodeReading.result n).Sourced g := by
  have h : g ∈ (returnTypeOf n).names := h
  rw [returnTypeOf_eq] at h
  cases hdeclared : n.field? "return_type" with
  | some c =>
    rw [hdeclared, Option.elim_some] at h
    split at h
    · cases h
    · split at h
      · cases h
      · exact .inr ⟨_, .resultType hdeclared, h⟩
  | none =>
    rw [hdeclared, Option.elim_none] at h
    cases hbody : n.field? "body" with
    | none =>
      rw [hbody] at h
      cases h
    | some body =>
      rw [hbody, Option.elim_some] at h
      -- what is inferred from returned values is primitive or not identified
      have hinferred : (inferredType body).names = [] := by
        have hcommon (ts : List TypeDesc) (text : String) :
            (commonPrimitive ts text).names = [] := by
          unfold commonPrimitive
          split
          · rfl
          · split <;> rfl
          · rfl
        unfold inferredType
        split <;> exact hcommon _ _
      split at h
      · next hasync =>
        have h : g ∈ QName.bare "Promise" :: TypeDesc.namesOfTypes [inferredType body] := h
        rw [TypeDesc.namesOfTypes_eq, List.flatMap_singleton, hinferred] at h
        refine .inl (.inr ?_)
        simp only [implied?, hdeclared, hbody, hasync]
        rw [List.mem_singleton.mp h]
        rfl
      · rw [hinferred] at h
        cases h

theorem sourced_member {n : ScopedNode} (h : g ∈ (NodeReading.member n).names) :
    (NodeReading.member n).Sourced g := by
  obtain ⟨x, hx, hg⟩ := mem_names_member.mp h
  rw [objectMember?_eq] at hx
  obtain ⟨name, -, hx⟩ := Option.bind_eq_some_iff.mp hx
  split at hx
  · next hkind =>
    cases hx
    obtain ⟨c, hc, hg⟩ := exists_of_mem_elim rfl hg
    exact .inr ⟨_, .propertyType hkind hc, hg⟩
  · split at hx
    · next hkind =>
      cases hx
      refine sourced_function (fun c hc => .methodParameter hkind hc) (fun hresult => ?_) hg
      exact .inr ⟨_, .methodResult hkind, hresult⟩
    · cases hx

/-- A parameter is read off a node of its kind, and its names are those of its type or default
value. -/
theorem names_of_parameter? {n : ScopedNode} {p : String × TypeDesc × Bool}
    (h : parameter? n = some p) : (n.kind = "required_parameter" ∨ n.kind = "optional_parameter") ∧
      p.2.1.names = (declaredType n).names := by
  rw [parameter?_eq] at h
  split at h
  · next hkind =>
    refine ⟨hkind, ?_⟩
    obtain ⟨pattern, -, h⟩ := Option.bind_eq_some_iff.mp h
    split at h
    · cases h
    · cases h
      dsimp only
      split
      · exact TypeDesc.names_withUndefined _
      · rfl
  · cases h

theorem sourced_parameter {n : ScopedNode} (h : g ∈ (NodeReading.parameter n).names) :
    (NodeReading.parameter n).Sourced g := by
  obtain ⟨p, hp, hg⟩ := mem_names_parameter.mp h
  obtain ⟨hkind, hnames⟩ := names_of_parameter? hp
  rw [hnames] at hg
  unfold declaredType at hg
  cases htype : n.field? "type" with
  | some c =>
    simp only [htype] at hg
    exact .inr ⟨_, .parameterType hkind htype, hg⟩
  | none =>
    cases hvalue : n.field? "value" with
    | some c =>
      simp only [htype, hvalue] at hg
      exact .inr ⟨_, .defaultValue hkind htype hvalue, hg⟩
    | none =>
      simp only [htype, hvalue] at hg
      cases hg

theorem names_unaryType (operator : Option String) (operand : Option TypeDesc) (text : String) :
    (unaryType operator operand text).names = [] := by
  unfold unaryType
  split
  all_goals first | rfl | skip
  split
  · split <;> rfl
  · rfl

theorem names_binaryType (operator : String) (left right : TypeDesc) (text : String) :
    (binaryType operator left right text).names = [] := by
  unfold binaryType
  dsimp only
  split
  · rfl
  · split
    · split
      · rfl
      · split <;> rfl
    · split
      · split <;> rfl
      · rfl

theorem sourced_expression {n : ScopedNode} (h : g ∈ (NodeReading.expression n).names) :
    (NodeReading.expression n).Sourced g := by
  have h : g ∈ (expressionType n).names := h
  rw [expressionType_eq] at h
  cases hform : ExpressionForm.ofKind n.kind <;> simp only [hform] at h
  case number =>
    split at h <;> cases h
  case literal type =>
    cases h
  case regex =>
    refine .inl (.inr ?_)
    simp only [implied?, hform, if_true]
    rw [List.mem_singleton.mp h]
  case wrapped =>
    obtain ⟨c, hc, h⟩ := exists_of_mem_elim rfl h
    exact .inr ⟨_, .inner hform hc, h⟩
  case cast =>
    obtain ⟨c, hc, h⟩ := exists_of_mem_elim rfl h
    exact .inr ⟨_, .cast hform hc, h⟩
  case unary =>
    rw [names_unaryType] at h
    cases h
  case binary =>
    obtain ⟨operator, -, h⟩ := exists_of_mem_elim rfl h
    rw [names_binaryType] at h
    cases h
  case construct =>
    refine .inl (.inl ?_)
    simp only [written?, hform]
    unfold constructedType at h
    cases hc : (n.field? "constructor").filter (·.kind == "identifier") with
    | none =>
      simp only [hc] at h
      cases h
    | some c =>
      simp only [hc] at h
      rw [Option.bind_some]
      cases htarget : (resolve .value c).target? with
      | none =>
        simp only [htarget] at h
        cases h
      | some f =>
        simp only [htarget] at h
        rw [List.mem_singleton.mp h]
  case function =>
    refine sourced_function (fun c hc => .valueParameter hform hc) (fun hresult => ?_) h
    exact .inr ⟨_, .valueResult hform, hresult⟩
  case other =>
    cases h

theorem sourced_of_mem_names (h : g ∈ r.names) : r.Sourced g := by
  cases r with
  | type n => exact sourced_type h
  | member n => exact sourced_member h
  | parameter n => exact sourced_parameter h
  | result n => exact sourced_result h
  | expression n => exact sourced_expression h

/-! ## All steps -/

/-- Every name in what is read is written or implied somewhere in it. -/
theorem written_or_implied {r : NodeReading} {g : QName} (h : g ∈ r.names) :
    r.Written g ∨ r.Implied g := by
  rcases sourced_of_mem_names h with (hwritten | himplied) | ⟨s, hpart, hs⟩
  · exact .inl ⟨r, .refl, hwritten⟩
  · exact .inr ⟨r, .refl, himplied⟩
  · have hless := hpart.weight_lt
    rcases written_or_implied hs with ⟨u, hu, hwritten⟩ | ⟨u, hu, himplied⟩
    · exact .inl ⟨u, .head hpart hu, hwritten⟩
    · exact .inr ⟨u, .head hpart hu, himplied⟩
termination_by r.weight

end NodeReading

end Typing

end CodeConcepts
