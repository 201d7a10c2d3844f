import CodeConcepts.Concept.TypeDesc
import CodeConcepts.Scope.Lookup

/-!
# Types

Types are read off annotations. Where there is none, the type of an expression is inferred from
literals and operators, and that of a function from the values it returns; anything else is not
identified and described by its text.
-/

namespace CodeConcepts.Typing

open Syntax (Node)
open ScopedNode (resolve resolveMember?)

/-- Names of primitive types, also where the grammar takes them for declared ones. -/
def primitiveNames : List String :=
  ["any", "bigint", "boolean", "never", "null", "number", "object", "string", "symbol", "undefined",
    "unknown", "void"]

/-- Functions and classes, whose `return` statements are their own. -/
def functionBoundaries : List String :=
  ["function_declaration", "generator_function_declaration", "function_expression", "function",
    "generator_function", "arrow_function", "method_definition", "class", "class_declaration",
    "abstract_class_declaration"]

/-- The type of a promise. -/
def promiseOf (t : TypeDesc) : TypeDesc := .declared (.bare "Promise") [t]

/-- The type a type name stands for. -/
def namedType (n : ScopedNode) : TypeDesc :=
  if n.text ∈ primitiveNames then .primitive n.text
  else
    match resolve .type n with
    | .declaration fqn => .named fqn
    | .unresolved fqn => .named fqn
    | .typeParameter name => .typeParameter name
    | .localVariable => .notIdentified n.text

/-- The name a dotted name stands for: a member of a namespace, or its own text. -/
def dottedName (object? : Option ScopedNode) (member : String) (text : String) : QName :=
  (object?.bind fun o => resolveMember? o member).getD (.bare text)

/-! ## Returned values -/

/-- The `return` statements of a body, without those of functions and classes inside it. -/
def returnStatements (n : ScopedNode) : List ScopedNode :=
  n.namedChildren.attach.flatMap fun c =>
    if c.1.kind = "return_statement" then [c.1]
    else if c.1.kind ∈ functionBoundaries then []
    else returnStatements c.1
termination_by n.size
decreasing_by exact Node.size_lt_of_mem_namedChildren c.2

theorem size_lt_of_mem_returnStatements {r n : ScopedNode} (h : r ∈ returnStatements n) :
    r.size < n.size := by
  rw [returnStatements] at h
  obtain ⟨c, -, hc⟩ := List.mem_flatMap.1 h
  have lt := Node.size_lt_of_mem_namedChildren c.2
  split at hc
  · rw [List.mem_singleton.1 hc]; exact lt
  · split at hc
    · simp at hc
    · have := size_lt_of_mem_returnStatements hc
      omega
termination_by n.size

/-- The values that the `return` statements of a body return. -/
def returnedValues (body : ScopedNode) : List ScopedNode :=
  (returnStatements body).filterMap (·.namedChild? 0)

theorem size_lt_of_mem_returnedValues {v n : ScopedNode} (h : v ∈ returnedValues n) :
    v.size < n.size := by
  obtain ⟨r, hr, hv⟩ := List.mem_filterMap.1 h
  have := size_lt_of_mem_returnStatements hr
  have := Node.size_lt_of_namedChild? hv
  omega

/-- The type of a function that returns values of the given types, the first of which has the given
text: the primitive type that all of them have. -/
def commonPrimitive (types : List TypeDesc) (firstText : String) : TypeDesc :=
  match types with
  | [] => .primitive "void"
  | .primitive p :: rest =>
    if rest.all (· == .primitive p) then .primitive p else .notIdentified firstText
  | _ :: _ => .notIdentified firstText

/-! ## Operators -/

/-- The type of a comparison, sum or other operation on values of two types. -/
def binaryType (operator : String) (left right : TypeDesc) (text : String) : TypeDesc :=
  let is (t : TypeDesc) (p : String) : Bool := t == .primitive p
  if operator ∈ ["==", "===", "!=", "!==", "<", "<=", ">", ">=", "instanceof", "in"] then
    .primitive "boolean"
  else if operator = "+" then
    if is left "string" || is right "string" then .primitive "string"
    else if is left "number" && is right "number" then .primitive "number"
    else .notIdentified text
  else if operator ∈ ["-", "*", "/", "%", "**", "<<", ">>", ">>>", "&", "|", "^"] then
    if is left "bigint" && is right "bigint" then .primitive "bigint" else .primitive "number"
  else .notIdentified text

/-- The type of an operation on one value. -/
def unaryType (operator : Option String) (operand : Option TypeDesc) (text : String) : TypeDesc :=
  match operator with
  | some "!" => .primitive "boolean"
  | some "delete" => .primitive "boolean"
  | some "typeof" => .primitive "string"
  | some "void" => .primitive "undefined"
  | some operator =>
    if operator ∈ ["-", "+", "~"] then
      if operand = some (.primitive "bigint") then .primitive "bigint" else .primitive "number"
    else .notIdentified text
  | none => .notIdentified text

/-- Parameters numbered in their order. -/
def numbered (ps : List (String × TypeDesc × Bool)) : List Param :=
  ps.zipIdx.map fun (p, i) => ⟨i, p.1, p.2.1, p.2.2⟩

/-- A text without dots in groups of three at its start. -/
def dropEllipsis : List Char → List Char
  | '.' :: '.' :: '.' :: cs => dropEllipsis cs
  | cs => cs

mutual

/-- The type that a type node or an annotation describes. -/
def typeOf (n : ScopedNode) : TypeDesc :=
  match n.kind with
  | "type_annotation" | "opting_type_annotation" | "omitting_type_annotation"
  | "adding_type_annotation" | "parenthesized_type" | "readonly_type" =>
    match h : n.namedChild? 0 with
    | some inner =>
      have := Node.size_lt_of_namedChild? h
      typeOf inner
    | none => .notIdentified n.text
  | "predefined_type" => .primitive n.text
  | "type_identifier" => namedType n
  | "nested_type_identifier" =>
    .named (dottedName (n.field? "module") ((n.fieldText? "name").getD "") n.text)
  | "generic_type" =>
    let base := match h : n.field? "name" with
      | some name =>
        have := Node.size_lt_of_field? h
        typeOf name
      | none => .notIdentified n.text
    match base with
    | .declared fqn _ =>
      .declared fqn (match h : n.field? "type_arguments" with
        | some args => args.namedChildren.attach.map fun c =>
          have := Node.size_lt_of_field? h
          have := Node.size_lt_of_mem_namedChildren c.2
          typeOf c.1
        | none => [])
    | other => other
  | "union_type" => .union (flattened "union_type" n)
  | "intersection_type" => .intersection (flattened "intersection_type" n)
  | "array_type" =>
    .declared (.bare "Array") (match h : n.namedChild? 0 with
      | some element =>
        have := Node.size_lt_of_namedChild? h
        [typeOf element]
      | none => [])
  | "tuple_type" =>
    .tuple (n.namedChildren.attach.map fun c =>
      have := Node.size_lt_of_mem_namedChildren c.2
      typeOf c.1)
  | "object_type" =>
    .object (n.namedChildren.attach.filterMap fun c =>
      have := Node.size_lt_of_mem_namedChildren c.2
      objectMember? c.1)
  | "function_type" =>
    .function
      (match h : n.field? "parameters" with
        | some ps =>
          have := Node.size_lt_of_field? h
          parametersOf ps
        | none => [])
      (match h : n.field? "return_type" with
        | some r =>
          have := Node.size_lt_of_field? h
          typeOf r
        | none => .primitive "void")
  | "literal_type" =>
    match (n.namedChild? 0).map (·.kind) with
    | some "null" => .primitive "null"
    | some "undefined" => .primitive "undefined"
    | _ => .literal n.text
  | _ => .notIdentified n.text
termination_by 8 * n.size + 4

/-- The types of a union or intersection, those of nested ones of the same kind included. -/
def flattened (kind : String) (n : ScopedNode) : List TypeDesc :=
  n.namedChildren.attach.flatMap fun c =>
    have := Node.size_lt_of_mem_namedChildren c.2
    if c.1.kind = kind then flattened kind c.1 else [typeOf c.1]
termination_by 8 * n.size + 3

/-- A member of an object type. -/
def objectMember? (n : ScopedNode) : Option (ObjectMember TypeDesc) :=
  match n.fieldText? "name" with
  | none => none
  | some name =>
    match n.kind with
    | "property_signature" =>
      let type := match h : n.field? "type" with
        | some t =>
          have := Node.size_lt_of_field? h
          typeOf t
        | none => .primitive "any"
      some ⟨name, type, n.hasToken "?", n.hasToken "readonly"⟩
    | "method_signature" =>
      let parameters := match h : n.field? "parameters" with
        | some ps =>
          have := Node.size_lt_of_field? h
          parametersOf ps
        | none => []
      some ⟨name, .function parameters (returnTypeOf n), n.hasToken "?", n.hasToken "readonly"⟩
    | _ => none
termination_by 8 * n.size + 6

/-- Name, type and optionality of a parameter; `this` is no parameter. -/
def parameter? (n : ScopedNode) : Option (String × TypeDesc × Bool) :=
  if n.kind = "required_parameter" ∨ n.kind = "optional_parameter" then
    match n.field? "pattern" with
    | none => none
    | some pattern =>
      if pattern.kind = "this" then none
      else
        let optional := n.kind = "optional_parameter"
        let type := match h : n.field? "type" with
          | some t =>
            have := Node.size_lt_of_field? h
            typeOf t
          | none =>
            match h : n.field? "value" with
            | some v =>
              have := Node.size_lt_of_field? h
              expressionType v
            | none => .primitive "any"
        some (String.ofList (dropEllipsis pattern.text.toList),
          if optional then type.withUndefined else type, optional)
  else none
termination_by 8 * n.size + 1

/-- The parameters of a list of formal parameters. -/
def parametersOf (n : ScopedNode) : List Param :=
  numbered (n.namedChildren.attach.filterMap fun c =>
    have := Node.size_lt_of_mem_namedChildren c.2
    parameter? c.1)
termination_by 8 * n.size + 2

/-- The declared or inferred type of the values a function returns. -/
def returnTypeOf (n : ScopedNode) : TypeDesc :=
  match h : n.field? "return_type" with
  | some declared =>
    match declared.kind with
    | "type_predicate_annotation" => .primitive "boolean"
    | "asserts_annotation" => .primitive "void"
    | _ =>
      have := Node.size_lt_of_field? h
      typeOf declared
  | none =>
    match h : n.field? "body" with
    | none => .primitive "any"
    | some body =>
      have := Node.size_lt_of_field? h
      let inferred :=
        if body.kind = "statement_block" then
          commonPrimitive
            ((returnedValues body).attach.map fun v =>
              have := size_lt_of_mem_returnedValues v.2
              expressionType v.1)
            (((returnedValues body).head?.map (·.text)).getD "")
        else commonPrimitive [expressionType body] body.text
      if n.hasToken "async" then promiseOf inferred else inferred
termination_by 8 * n.size + 5

/-- The type of an expression, as far as it follows from the expression alone. -/
def expressionType (n : ScopedNode) : TypeDesc :=
  match n.kind with
  | "number" => if n.text.toList.getLast? = some 'n' then .primitive "bigint" else .primitive "number"
  | "string" | "template_string" => .primitive "string"
  | "true" | "false" => .primitive "boolean"
  | "null" => .primitive "null"
  | "undefined" => .primitive "undefined"
  | "regex" => .named (.bare "RegExp")
  | "parenthesized_expression" | "non_null_expression" =>
    match h : n.namedChild? 0 with
    | some inner =>
      have := Node.size_lt_of_namedChild? h
      expressionType inner
    | none => .notIdentified n.text
  | "as_expression" | "satisfies_expression" =>
    match h : n.namedChild? 1 with
    | some t =>
      have := Node.size_lt_of_namedChild? h
      typeOf t
    | none => .notIdentified n.text
  | "unary_expression" =>
    let operand := match h : n.field? "argument" with
      | some a =>
        have := Node.size_lt_of_field? h
        some (expressionType a)
      | none => none
    unaryType ((n.field? "operator").map (·.kind)) operand n.text
  | "binary_expression" =>
    match n.field? "operator" with
    | none => .notIdentified n.text
    | some operator =>
      let left := match h : n.field? "left" with
        | some l =>
          have := Node.size_lt_of_field? h
          expressionType l
        | none => .notIdentified ""
      let right := match h : n.field? "right" with
        | some r =>
          have := Node.size_lt_of_field? h
          expressionType r
        | none => .notIdentified ""
      binaryType operator.kind left right n.text
  | "new_expression" =>
    match (n.field? "constructor").filter (·.kind == "identifier") with
    | some c =>
      match (resolve .value c).target? with
      | some fqn => .named fqn
      | none => .notIdentified n.text
    | none => .notIdentified n.text
  | "arrow_function" | "function_expression" | "function" =>
    .function
      (match h : n.field? "parameters" with
        | some ps =>
          have := Node.size_lt_of_field? h
          parametersOf ps
        | none => [])
      (returnTypeOf n)
  | _ => .notIdentified n.text
termination_by 8 * n.size + 6

end

/-- The type parameters of a declaration. -/
def typeParametersOf (n : ScopedNode) : List TypeParameter :=
  match n.field? "type_parameters" with
  | none => []
  | some list =>
    list.namedChildren.filterMap fun p =>
      (p.fieldText? "name").map fun name =>
        ⟨name, ((p.field? "constraint").bind (·.namedChild? 0)).map typeOf⟩

end CodeConcepts.Typing
