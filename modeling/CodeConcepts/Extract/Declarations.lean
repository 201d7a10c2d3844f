import CodeConcepts.Concept.Kind
import CodeConcepts.Extract.Members
import CodeConcepts.Extract.Walk
import CodeConcepts.Typing.Values

/-!
# Declarations

The records of functions, classes, interfaces, type aliases, enumerations and variables. A
declaration that lacks its name or another part its kind needs is a fault.
-/

namespace CodeConcepts.Extract

open ScopedNode (declares? overloads?)
open Typing (typeOf parametersOf returnTypeOf typeParametersOf valueOf)

/-- A function. -/
def functionDecl (o : Origin) (n : ScopedNode) : Except Fault FunctionDecl := do
  let name ← need n "name"
  let fqn ← needName n
  let parameters ← need n "parameters"
  return {
    fqn := fqn
    name := name.text
    parameters := parametersOf parameters
    returnType := returnTypeOf n
    typeParameters := typeParametersOf n
    async := n.hasToken "async"
    coordinates := o.coordinates n }

/-- The types that a clause lists. -/
def clauseTypes (clause : ScopedNode) : List TypeDesc := clause.namedChildren.map typeOf

/-- The type that the expression behind `extends` names. -/
def baseType (clause value : ScopedNode) : TypeDesc :=
  let arguments := ((clause.field? "type_arguments").map clauseTypes).getD []
  match value.kind with
  | "identifier" =>
    .declared ((ScopedNode.resolve .value value).target?.getD (.bare value.text)) arguments
  | "member_expression" =>
    .declared
      (Typing.dottedName (value.field? "object") ((value.fieldText? "property").getD "") value.text)
      arguments
  | _ => .notIdentified value.text

/-- The clauses behind the name of a class. -/
def heritageClauses (n : ScopedNode) : List ScopedNode :=
  match n.namedChildren.find? (·.kind == "class_heritage") with
  | some heritage => heritage.namedChildren
  | none => []

/-- The class a class extends. -/
def extendedClass? (n : ScopedNode) : Option TypeDesc :=
  match ((heritageClauses n).filter (·.kind == "extends_clause")).getLast? with
  | some clause => (clause.field? "value").map (baseType clause)
  | none => none

/-- The interfaces a class implements. -/
def implementedInterfaces (n : ScopedNode) : List TypeDesc :=
  match ((heritageClauses n).filter (·.kind == "implements_clause")).getLast? with
  | some clause => clauseTypes clause
  | none => []

/-- A class. -/
def classDecl (o : Origin) (n : ScopedNode) : Except Fault ClassDecl := do
  let name ← need n "name"
  let fqn ← needName n
  let body ← need n "body"
  let parts := memberParts o fqn body
  return {
    fqn := fqn
    name := name.text
    abstract := n.kind = "abstract_class_declaration"
    typeParameters := typeParametersOf n
    extendsClass := extendedClass? n
    implementsInterfaces := implementedInterfaces n
    constructors := parts.filterMap fun p => match p with
      | .construct _ c => some c
      | _ => none
    properties := parts.flatMap fun p => match p with
      | .construct ps _ => ps
      | .property p => [p]
      | _ => []
    methods := parts.filterMap fun p => match p with
      | .method m => some m
      | _ => none
    accessors := (parts.filterMap fun p => match p with
      | .accessor a => some a
      | _ => none).foldl (fun as a => addAccessor a as) []
    coordinates := o.coordinates n }

/-- Methods without later ones of a name that has occurred: overloads share one name. -/
def firstMethods (ms : List MethodDecl) : List MethodDecl :=
  ms.foldl (fun kept m => if kept.any (·.fqn == m.fqn) then kept else kept ++ [m]) []

/-- The members of an interface. -/
def interfaceMembers (n : ScopedNode) : List ScopedNode :=
  match n.field? "body" with
  | some body => body.namedChildren
  | none => []

/-- An interface. -/
def interfaceDecl (o : Origin) (n : ScopedNode) : Except Fault InterfaceDecl := do
  let name ← need n "name"
  let fqn ← needName n
  let members := interfaceMembers n
  return {
    fqn := fqn
    name := name.text
    typeParameters := typeParametersOf n
    extendsInterfaces := match n.namedChildren.find? (·.kind == "extends_type_clause") with
      | some clause => clauseTypes clause
      | none => []
    properties := (members.filter (·.kind == "property_signature")).filterMap (property? o)
    methods := firstMethods ((members.filter (·.kind == "method_signature")).filterMap (method? o))
    coordinates := o.coordinates n }

/-- A type alias. -/
def typeAliasDecl (o : Origin) (n : ScopedNode) : Except Fault TypeAliasDecl := do
  let name ← need n "name"
  let fqn ← needName n
  let value ← need n "value"
  return {
    fqn := fqn
    name := name.text
    typeParameters := typeParametersOf n
    type := typeOf value
    coordinates := o.coordinates n }

/-- A member of an enumeration. -/
def enumMember? (owner : QName) (n : ScopedNode) : Option EnumMember :=
  let member (name : ScopedNode) (init : Option Value) : EnumMember :=
    let text := Text.plainName name.text
    ⟨owner.child text, text, init⟩
  if n.kind = "enum_assignment" then
    ((n.field? "name").or (n.namedChild? 0)).map fun name =>
      member name ((n.field? "value").map valueOf)
  else if n.kind ∈ ["property_identifier", "string", "number", "computed_property_name"] then
    some (member n none)
  else none

/-- An enumeration. -/
def enumDecl (o : Origin) (n : ScopedNode) : Except Fault EnumDecl := do
  let name ← need n "name"
  let fqn ← needName n
  let body ← need n "body"
  return {
    fqn := fqn
    name := name.text
    members := body.namedChildren.filterMap (enumMember? fqn)
    constant := n.hasToken "const"
    declared := n.above.any (·.kind == "ambient_declaration")
    coordinates := o.coordinates n }

/-- A variable of a module or namespace. -/
def variableDecl (o : Origin) (kind : VariableKind) (fqn : QName) (n : ScopedNode) :
    Except Fault VariableDecl := do
  let name ← need n "name"
  return {
    fqn := fqn
    name := name.text
    kind := kind
    type := declaredType n
    initValue := (n.field? "value").map valueOf
    coordinates := o.coordinates n }

end CodeConcepts.Extract
