import CodeConcepts.Concept.Reference
import CodeConcepts.Extract.Walk
import CodeConcepts.Typing.Types

/-!
# References

Identifiers, type names and members of namespaces refer to declarations. A reference becomes an edge
from the declaration it stands in, unless it stays inside its function or refers to that declaration
itself.
-/

namespace CodeConcepts.Extract

open ScopedNode (resolve)

/-- Nodes whose `name` declares a name rather than refers to one. -/
def declaringKinds : List String :=
  ["function_declaration", "generator_function_declaration", "function_signature",
    "function_expression", "generator_function", "class_declaration", "abstract_class_declaration",
    "class", "interface_declaration", "type_alias_declaration", "enum_declaration",
    "variable_declarator", "type_parameter", "internal_module", "module"]

/-- Whether a node is the name in a declaration. -/
def isDeclarationName (n : ScopedNode) : Bool :=
  match n.parent? with
  | some p => declaringKinds.contains p.kind && n.isField "name"
  | none => false

/-- Whether a node names a built-in element such as `div` in a tag. -/
def isIntrinsicTag (n : ScopedNode) : Bool :=
  match n.parent? with
  | some p =>
    (p.kind == "jsx_opening_element" || p.kind == "jsx_self_closing_element") &&
      n.text.toList.head?.any Char.isLower
  | none => false

/-- How a node is used by the node above it. -/
def usageIn (parent : ScopedNode) (n : ScopedNode) (otherwise : ReferenceKind) : ReferenceKind :=
  match parent.kind with
  | "call_expression" => if n.isField "function" then .call else otherwise
  | "new_expression" => if n.isField "constructor" then .construct else otherwise
  | "extends_clause" => .extends
  | "extends_type_clause" => .extends
  | "implements_clause" => .implements
  | _ => otherwise

/-- How a node is used; the name of a generic type is used as the type is. -/
def usage (n : ScopedNode) (otherwise : ReferenceKind) : ReferenceKind :=
  match n.parent? with
  | none => otherwise
  | some p =>
    if p.kind = "generic_type" ∧ n.isField "name" then
      match p.parent? with
      | some g => usageIn g p otherwise
      | none => otherwise
    else usageIn p n otherwise

/-- The edge from an owner to a name; no declaration depends on itself. -/
def depend (owner target : QName) (kind : ReferenceKind) : List Edge :=
  if owner = target then [] else [⟨owner, target, kind⟩]

/-- The edge of an identifier. -/
def identifierEdges (owner : QName) (n : ScopedNode) : List Edge :=
  if isDeclarationName n || isIntrinsicTag n then []
  else
    match (resolve .value n).target? with
    | some target => depend owner target (usage n .read)
    | none => []

/-- The edge of a type name. -/
def typeIdentifierEdges (owner : QName) (n : ScopedNode) : List Edge :=
  if isDeclarationName n then []
  else
    match (resolve .type n).target? with
    | some target => depend owner target (usage n .typeReference)
    | none => []

/-- The edge of an access to a member of a namespace. -/
def memberAccessEdges (owner : QName) (n : ScopedNode) : List Edge :=
  match accessedMember? n with
  | some target => depend owner target (usage n .read)
  | none => []

/-- The edge of a dotted type name. -/
def nestedTypeEdges (owner : QName) (n : ScopedNode) : List Edge :=
  depend owner
    (Typing.dottedName (n.field? "module") ((n.fieldText? "name").getD "") n.text)
    (usage n .typeReference)

end CodeConcepts.Extract
