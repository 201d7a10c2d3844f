import CodeConcepts.Json.Basic
import CodeConcepts.Text.Quoted
import CodeConcepts.Typing.Numbers
import CodeConcepts.Typing.Types

/-!
# Values of expressions

What an initialiser stands for, as far as its text shows: literals, names, and the objects, arrays
and calls built from them. Everything else is described by its text.
-/

namespace CodeConcepts.Typing

open Syntax (Node)
open ScopedNode (resolve resolveMember?)

/-- A string literal. -/
def stringValue (text : String) : Value :=
  .literal (.text (Text.quotedContent text)) (.primitive "string")

/-- The value behind a minus sign, if it is a number. -/
def negated? : Value → Option Value
  | .literal (.number x) t => some (.literal (.number x.neg) t)
  | .literal (.text digits) t =>
    if t = .primitive "bigint" then some (.literal (.text ("-" ++ digits)) t) else none
  | _ => none

/-- The name of a member of an object literal. -/
def memberKey (key : ScopedNode) : String :=
  if key.kind = "string" then Text.quotedContent key.text else key.text

mutual

/-- What is known of the value of an expression. -/
def valueOf (n : ScopedNode) : Value :=
  match n.kind with
  | "number" => numberValue n.text
  | "string" => stringValue n.text
  | "template_string" =>
    if n.namedChildren.any (·.kind == "template_substitution") then .complex n.text
    else stringValue n.text
  | "true" => .literal (.bool true) (.primitive "boolean")
  | "false" => .literal (.bool false) (.primitive "boolean")
  | "null" => .null false
  | "undefined" => .null true
  | "identifier" | "shorthand_property_identifier" =>
    match (resolve .value n).target? with
    | some fqn => .declared fqn
    | none => .complex n.text
  | "member_expression" =>
    match h : n.field? "object" with
    | none => .complex n.text
    | some object =>
      let property := (n.fieldText? "property").getD ""
      match resolveMember? object property with
      | some fqn => .declared fqn
      | none =>
        have := Node.size_lt_of_field? h
        .member (valueOf object) property
  | "call_expression" =>
    match h : n.field? "function" with
    | none => .complex n.text
    | some callee =>
      have := Node.size_lt_of_field? h
      .call (valueOf callee) (match h : n.field? "arguments" with
        | some args => args.namedChildren.attach.map fun c =>
          have := Node.size_lt_of_field? h
          have := Node.size_lt_of_mem_namedChildren c.2
          valueOf c.1
        | none => [])
  | "object" =>
    .object (Json.sorted (n.namedChildren.attach.filterMap fun c =>
      have := Node.size_lt_of_mem_namedChildren c.2
      member? c.1))
  | "array" =>
    .array (n.namedChildren.attach.map fun c =>
      have := Node.size_lt_of_mem_namedChildren c.2
      valueOf c.1)
  | "arrow_function" | "function_expression" | "function" | "generator_function" => .function
  | "class" => .classValue
  | "parenthesized_expression" | "as_expression" | "satisfies_expression" | "non_null_expression" =>
    match h : n.namedChild? 0 with
    | some inner =>
      have := Node.size_lt_of_namedChild? h
      valueOf inner
    | none => .complex n.text
  | "unary_expression" =>
    match h : n.field? "argument" with
    | none => .complex n.text
    | some argument =>
      have := Node.size_lt_of_field? h
      if (n.field? "operator").map (·.kind) = some "-" then
        (negated? (valueOf argument)).getD (.complex n.text)
      else .complex n.text
  | _ => .complex n.text
termination_by 2 * n.size

/-- A member of an object literal. -/
def member? (n : ScopedNode) : Option (String × Value) :=
  match n.kind with
  | "pair" =>
    match n.field? "key" with
    | none => none
    | some key =>
      match h : n.field? "value" with
      | none => none
      | some value =>
        have := Node.size_lt_of_field? h
        some (memberKey key, valueOf value)
  | "shorthand_property_identifier" => some (n.text, valueOf n)
  | "method_definition" => (n.fieldText? "name").map fun name => (name, .function)
  | _ => none
termination_by 2 * n.size + 1

end

end CodeConcepts.Typing
