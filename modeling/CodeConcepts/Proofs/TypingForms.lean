import CodeConcepts.Extract.Declarations
import Mathlib.Data.List.Basic

/-!
# Forms of types and values

What a node says as a type, as an expression or as a value depends on its kind first. The kinds fall
into a few forms, and for each form there is one equation that says what is read and from where
(`typeOf_eq`, `expressionType_eq`, `valueOf_eq`). Everything that holds of all types and values is
proved from these equations, by cases on the form.
-/

namespace CodeConcepts.Typing

open Extract (clauseTypes declaredType parametersIn)
open ScopedNode (resolve resolveMember?)

/-! ## Types -/

/-- How a type node is read. -/
inductive TypeForm where
  /-- An annotation, or a type in brackets. -/
  | wrapped
  | predefined
  | name
  | dottedName
  | generic
  | union
  | intersection
  | array
  | tuple
  | object
  | function
  | literal
  | other
deriving DecidableEq, Repr

/-- The form of the type nodes of a kind. -/
def TypeForm.ofKind : String → TypeForm
  | "type_annotation" | "opting_type_annotation" | "omitting_type_annotation"
  | "adding_type_annotation" | "parenthesized_type" | "readonly_type" => .wrapped
  | "predefined_type" => .predefined
  | "type_identifier" => .name
  | "nested_type_identifier" => .dottedName
  | "generic_type" => .generic
  | "union_type" => .union
  | "intersection_type" => .intersection
  | "array_type" => .array
  | "tuple_type" => .tuple
  | "object_type" => .object
  | "function_type" => .function
  | "literal_type" => .literal
  | _ => .other

/-- The type arguments of a node. -/
def typeArguments (n : ScopedNode) : List TypeDesc :=
  ((n.field? "type_arguments").map clauseTypes).getD []

/-- A declared type with the given arguments in place of its own; other types take none. -/
def applied (args : List TypeDesc) : TypeDesc → TypeDesc
  | .declared fqn _ => .declared fqn args
  | t => t

/-- The type of the literal a node holds. -/
def literalType (n : ScopedNode) : TypeDesc :=
  match (n.namedChild? 0).map (·.kind) with
  | some "null" => .primitive "null"
  | some "undefined" => .primitive "undefined"
  | _ => .literal n.text

theorem returnStatements_eq (n : ScopedNode) : returnStatements n =
    n.namedChildren.flatMap fun c =>
      if c.kind = "return_statement" then [c]
      else if c.kind ∈ functionBoundaries then [] else returnStatements c := by
  rw [returnStatements]
  simp

theorem flattened_eq (kind : String) (n : ScopedNode) : flattened kind n =
    n.namedChildren.flatMap fun c => if c.kind = kind then flattened kind c else [typeOf c] := by
  rw [flattened]
  simp

theorem parametersOf_eq (n : ScopedNode) :
    parametersOf n = numbered (n.namedChildren.filterMap parameter?) := by
  rw [parametersOf]
  simp

/-- What a type node says, by its form. -/
theorem typeOf_eq (n : ScopedNode) : typeOf n =
    match TypeForm.ofKind n.kind with
    | .wrapped => (n.namedChild? 0).elim (.notIdentified n.text) typeOf
    | .predefined => .primitive n.text
    | .name => namedType n
    | .dottedName => .named (dottedName (n.field? "module") ((n.fieldText? "name").getD "") n.text)
    | .generic => applied (typeArguments n) ((n.field? "name").elim (.notIdentified n.text) typeOf)
    | .union => .union (flattened "union_type" n)
    | .intersection => .intersection (flattened "intersection_type" n)
    | .array => .declared (.bare "Array") ((n.namedChild? 0).elim [] fun c => [typeOf c])
    | .tuple => .tuple (n.namedChildren.map typeOf)
    | .object => .object (n.namedChildren.filterMap objectMember?)
    | .function =>
      .function (parametersIn n) ((n.field? "return_type").elim (.primitive "void") typeOf)
    | .literal => literalType n
    | .other => .notIdentified n.text := by
  rw [typeOf]
  split
  case h_18 => rw [TypeForm.ofKind] <;> assumption
  all_goals
    rename_i hkind
    rw [hkind]
    simp only [TypeForm.ofKind]
  case h_10 =>
    unfold typeArguments clauseTypes
    cases n.field? "name" with
    | none => rfl
    | some name =>
      dsimp only [Option.elim]
      cases typeOf name <;> cases n.field? "type_arguments" <;> simp [applied]
  case h_13 => cases n.namedChild? 0 <;> rfl
  case h_14 => simp
  case h_15 => simp
  case h_16 =>
    unfold parametersIn
    cases n.field? "parameters" <;> cases n.field? "return_type" <;> rfl
  case h_17 => rfl
  all_goals cases n.namedChild? 0 <;> rfl

theorem objectMember?_eq (n : ScopedNode) : objectMember? n =
    (n.fieldText? "name").bind fun name =>
      if n.kind = "property_signature" then
        some ⟨name, (n.field? "type").elim (.primitive "any") typeOf, n.hasToken "?",
          n.hasToken "readonly"⟩
      else if n.kind = "method_signature" then
        some ⟨name, .function (parametersIn n) (returnTypeOf n), n.hasToken "?",
          n.hasToken "readonly"⟩
      else none := by
  rw [objectMember?]
  cases n.fieldText? "name" with
  | none => rfl
  | some name =>
    simp only [Option.bind_some]
    split
    case h_1 hkind =>
      rw [if_pos hkind]
      cases n.field? "type" <;> rfl
    case h_2 hkind =>
      rw [if_neg (by simp [hkind]), if_pos hkind]
      unfold parametersIn
      cases n.field? "parameters" <;> rfl
    case h_3 hproperty hmethod => rw [if_neg hproperty, if_neg hmethod]

theorem parameter?_eq (n : ScopedNode) : parameter? n =
    if n.kind = "required_parameter" ∨ n.kind = "optional_parameter" then
      (n.field? "pattern").bind fun pattern =>
        if pattern.kind = "this" then none
        else
          some (String.ofList (dropEllipsis pattern.text.toList),
            if n.kind = "optional_parameter" then (declaredType n).withUndefined
            else declaredType n, decide (n.kind = "optional_parameter"))
    else none := by
  rw [parameter?]
  dsimp only [declaredType]
  cases n.field? "pattern" with
  | none => rfl
  | some pattern => cases n.field? "type" <;> cases n.field? "value" <;> rfl

/-- The type inferred for a function with the given body. -/
def inferredType (body : ScopedNode) : TypeDesc :=
  if body.kind = "statement_block" then
    commonPrimitive ((returnedValues body).map expressionType)
      (((returnedValues body).head?.map (·.text)).getD "")
  else commonPrimitive [expressionType body] body.text

theorem returnTypeOf_eq (n : ScopedNode) : returnTypeOf n =
    (n.field? "return_type").elim
      ((n.field? "body").elim (.primitive "any") fun body =>
        if n.hasToken "async" then promiseOf (inferredType body) else inferredType body)
      fun declared =>
        if declared.kind = "type_predicate_annotation" then .primitive "boolean"
        else if declared.kind = "asserts_annotation" then .primitive "void"
        else typeOf declared := by
  rw [returnTypeOf]
  dsimp only [inferredType]
  cases n.field? "return_type" with
  | none => cases n.field? "body" <;> simp
  | some declared =>
    dsimp only [Option.elim]
    split
    case h_1 hkind => rw [if_pos hkind]
    case h_2 hkind => rw [if_neg (by simp [hkind]), if_pos hkind]
    case h_3 hpredicate hasserts => rw [if_neg hpredicate, if_neg hasserts]

/-! ## Expressions -/

/-- How the type of an expression is found. -/
inductive ExpressionForm where
  | number
  /-- A literal of a primitive type. -/
  | literal (type : String)
  | regex
  /-- An expression in brackets. -/
  | wrapped
  /-- An expression with a type beside it. -/
  | cast
  | unary
  | binary
  | construct
  | function
  | other
deriving DecidableEq, Repr

/-- The form of the expressions of a kind. -/
def ExpressionForm.ofKind : String → ExpressionForm
  | "number" => .number
  | "string" | "template_string" => .literal "string"
  | "true" | "false" => .literal "boolean"
  | "null" => .literal "null"
  | "undefined" => .literal "undefined"
  | "regex" => .regex
  | "parenthesized_expression" | "non_null_expression" => .wrapped
  | "as_expression" | "satisfies_expression" => .cast
  | "unary_expression" => .unary
  | "binary_expression" => .binary
  | "new_expression" => .construct
  | "arrow_function" | "function_expression" | "function" => .function
  | _ => .other

/-- The type of what a constructor of a given name makes. -/
def constructedType (n : ScopedNode) : TypeDesc :=
  match (n.field? "constructor").filter (·.kind == "identifier") with
  | some c =>
    match (resolve .value c).target? with
    | some fqn => .named fqn
    | none => .notIdentified n.text
  | none => .notIdentified n.text

/-- The type of an expression, by its form. -/
theorem expressionType_eq (n : ScopedNode) : expressionType n =
    match ExpressionForm.ofKind n.kind with
    | .number =>
      if n.text.toList.getLast? = some 'n' then .primitive "bigint" else .primitive "number"
    | .literal type => .primitive type
    | .regex => .named (.bare "RegExp")
    | .wrapped => (n.namedChild? 0).elim (.notIdentified n.text) expressionType
    | .cast => (n.namedChild? 1).elim (.notIdentified n.text) typeOf
    | .unary =>
      unaryType ((n.field? "operator").map (·.kind)) ((n.field? "argument").map expressionType)
        n.text
    | .binary =>
      (n.field? "operator").elim (.notIdentified n.text) fun operator =>
        binaryType operator.kind ((n.field? "left").elim (.notIdentified "") expressionType)
          ((n.field? "right").elim (.notIdentified "") expressionType) n.text
    | .construct => constructedType n
    | .function => .function (parametersIn n) (returnTypeOf n)
    | .other => .notIdentified n.text := by
  rw [expressionType]
  split
  case h_19 => rw [ExpressionForm.ofKind] <;> assumption
  all_goals
    rename_i hkind
    rw [hkind]
    simp only [ExpressionForm.ofKind]
  case h_9 => cases n.namedChild? 0 <;> rfl
  case h_10 => cases n.namedChild? 0 <;> rfl
  case h_11 => cases n.namedChild? 1 <;> rfl
  case h_12 => cases n.namedChild? 1 <;> rfl
  case h_13 => cases n.field? "argument" <;> rfl
  case h_14 =>
    cases n.field? "operator" with
    | none => rfl
    | some operator => cases n.field? "left" <;> cases n.field? "right" <;> rfl
  case h_15 => rfl
  all_goals
    unfold parametersIn
    cases n.field? "parameters" <;> rfl

/-! ## Values -/

/-- How the value of an expression is described. -/
inductive ValueForm where
  | number
  | string
  | template
  | boolean (b : Bool)
  | null (undefined : Bool)
  | function
  | classValue
  | name
  | member
  | call
  | object
  | array
  | wrapped
  | unary
  | other
deriving DecidableEq, Repr

/-- The form of the values of a kind. -/
def ValueForm.ofKind : String → ValueForm
  | "number" => .number
  | "string" => .string
  | "template_string" => .template
  | "true" => .boolean true
  | "false" => .boolean false
  | "null" => .null false
  | "undefined" => .null true
  | "identifier" | "shorthand_property_identifier" => .name
  | "member_expression" => .member
  | "call_expression" => .call
  | "object" => .object
  | "array" => .array
  | "arrow_function" | "function_expression" | "function" | "generator_function" => .function
  | "class" => .classValue
  | "parenthesized_expression" | "as_expression" | "satisfies_expression" | "non_null_expression" =>
    .wrapped
  | "unary_expression" => .unary
  | _ => .other

/-- What is known of a value, by its form. -/
theorem valueOf_eq (n : ScopedNode) : valueOf n =
    match ValueForm.ofKind n.kind with
    | .number => numberValue n.text
    | .string => stringValue n.text
    | .template =>
      if n.namedChildren.any (·.kind == "template_substitution") then .complex n.text
      else stringValue n.text
    | .boolean b => .literal (.bool b) (.primitive "boolean")
    | .null undefined => .null undefined
    | .function => .function
    | .classValue => .classValue
    | .name => ((resolve .value n).target?).elim (.complex n.text) .declared
    | .member =>
      (n.field? "object").elim (.complex n.text) fun object =>
        (resolveMember? object ((n.fieldText? "property").getD "")).elim
          (.member (valueOf object) ((n.fieldText? "property").getD "")) .declared
    | .call =>
      (n.field? "function").elim (.complex n.text) fun callee =>
        .call (valueOf callee)
          ((n.field? "arguments").elim [] fun args => args.namedChildren.map valueOf)
    | .object => .object (Json.sorted (n.namedChildren.filterMap member?))
    | .array => .array (n.namedChildren.map valueOf)
    | .wrapped => (n.namedChild? 0).elim (.complex n.text) valueOf
    | .unary =>
      (n.field? "argument").elim (.complex n.text) fun argument =>
        if (n.field? "operator").map (·.kind) = some "-" then
          (negated? (valueOf argument)).getD (.complex n.text)
        else .complex n.text
    | .other => .complex n.text := by
  rw [valueOf]
  split
  case h_24 => rw [ValueForm.ofKind] <;> assumption
  all_goals
    rename_i hkind
    rw [hkind]
    simp only [ValueForm.ofKind]
  case h_8 => cases (resolve .value n).target? <;> rfl
  case h_9 => cases (resolve .value n).target? <;> rfl
  case h_10 =>
    cases n.field? "object" with
    | none => rfl
    | some object =>
      dsimp only [Option.elim]
      cases resolveMember? object ((n.fieldText? "property").getD "") <;> rfl
  case h_11 =>
    cases n.field? "function" with
    | none => rfl
    | some callee => cases n.field? "arguments" <;> simp
  case h_12 => simp
  case h_13 => simp
  case h_23 => cases n.field? "argument" <;> rfl
  all_goals cases n.namedChild? 0 <;> rfl

theorem member?_eq (n : ScopedNode) : member? n =
    if n.kind = "pair" then
      (n.field? "key").bind fun key =>
        (n.field? "value").map fun value => (memberKey key, valueOf value)
    else if n.kind = "shorthand_property_identifier" then some (n.text, valueOf n)
    else if n.kind = "method_definition" then
      (n.fieldText? "name").map fun name => (name, .function)
    else none := by
  rw [member?]
  dsimp only
  split
  case h_1 hkind =>
    rw [if_pos hkind]
    cases n.field? "key" <;> cases n.field? "value" <;> rfl
  case h_2 hkind => rw [if_neg (by simp [hkind]), if_pos hkind]
  case h_3 hkind => rw [if_neg (by simp [hkind]), if_neg (by simp [hkind]), if_pos hkind]
  case h_4 hpair hshort hmethod => rw [if_neg hpair, if_neg hshort, if_neg hmethod]

end CodeConcepts.Typing
