import CodeConcepts.Extract.Origin
import CodeConcepts.Typing.Types

/-!
# Members

The fields, methods, constructors and accessors of classes, and the properties and methods of
interfaces.
-/

namespace CodeConcepts.Extract

open ScopedNode (declares?)
open Typing (typeOf expressionType parametersOf returnTypeOf typeParametersOf)

/-- The type of a declaration: the annotated one, else that of its initial value. -/
def declaredType (n : ScopedNode) : TypeDesc :=
  match n.field? "type" with
  | some t => typeOf t
  | none =>
    match n.field? "value" with
    | some v => expressionType v
    | none => .primitive "any"

/-- Who may use a member. Without a modifier a name that starts with `#` is private. -/
def visibilityOf (n : ScopedNode) : Visibility :=
  match n.namedChildren.find? (·.kind == "accessibility_modifier") with
  | some m => .ofModifier m.text
  | none =>
    if (n.fieldText? "name").any fun name => name.toList.head? = some '#' then .owner
    else .everyone

/-- A field of a class or a property of an interface. -/
def property? (o : Origin) (n : ScopedNode) : Option PropertyDecl :=
  match n.fieldText? "name", declares? n with
  | some name, some fqn =>
    let optional := n.hasToken "?"
    some {
      fqn := fqn
      name := name
      optional := optional
      type := if optional then (declaredType n).withUndefined else declaredType n
      visibility := visibilityOf n
      readonly := n.hasToken "readonly"
      static := n.hasToken "static"
      abstract := n.hasToken "abstract"
      coordinates := o.coordinates n }
  | _, _ => none

/-- The parameters of a function or method; none if it has no list of them. -/
def parametersIn (n : ScopedNode) : List Param :=
  match n.field? "parameters" with
  | some ps => parametersOf ps
  | none => []

/-- A method. -/
def method? (o : Origin) (n : ScopedNode) : Option MethodDecl :=
  match n.fieldText? "name", declares? n with
  | some name, some fqn =>
    some {
      fqn := fqn
      name := name
      parameters := parametersIn n
      returnType := returnTypeOf n
      typeParameters := typeParametersOf n
      optional := n.hasToken "?"
      visibility := visibilityOf n
      static := n.hasToken "static"
      abstract := n.kind = "abstract_method_signature" || n.hasToken "abstract"
      async := n.hasToken "async"
      coordinates := o.coordinates n }
  | _, _ => none

/-! ## Constructors -/

/-- The property that a constructor parameter with a modifier declares. -/
def parameterProperty? (o : Origin) (owner : QName) (parameters : List Param) (n : ScopedNode) :
    Option PropertyDecl :=
  let readonly := n.hasToken "readonly"
  let modified := n.namedChildren.any (·.kind == "accessibility_modifier")
  if (n.kind = "required_parameter" ∨ n.kind = "optional_parameter") ∧ (modified ∨ readonly) then
    match n.fieldText? "pattern" with
    | none => none
    | some name =>
      (parameters.find? (·.name == name)).map fun p =>
        { fqn := owner.child name
          name := name
          optional := p.optional
          type := p.type
          visibility := visibilityOf n
          readonly := readonly
          static := false
          abstract := false
          coordinates := o.coordinates n }
  else none

/-- A constructor. -/
def constructorOf (o : Origin) (owner : QName) (n ps : ScopedNode) : ConstructorDecl where
  fqn := (declares? n).getD (owner.child "constructor")
  parameters := parametersOf ps
  coordinates := o.coordinates n

/-! ## Accessors -/

/-- A getter or setter on its own. -/
def accessorHalf? (o : Origin) (n : ScopedNode) : Option AccessorDecl :=
  match n.fieldText? "name", declares? n with
  | some name, some fqn =>
    let static := n.hasToken "static"
    let half (type : TypeDesc) : Accessor := ⟨type, visibilityOf n, o.coordinates n⟩
    if n.hasToken "get" then some ⟨fqn, name, some (half (returnTypeOf n)), none, static⟩
    else
      let type := match (parametersIn n).head? with
        | some p => p.type
        | none => .primitive "any"
      some ⟨fqn, name, none, some (half type), static⟩
  | _, _ => none

/-- Two accessors of one name as one: what the later one has counts. -/
def joinAccessors (a b : AccessorDecl) : AccessorDecl :=
  { a with getter := b.getter.or a.getter, setter := b.setter.or a.setter }

/-- Adds an accessor to those before it, joining it to one of the same name. -/
def addAccessor (a : AccessorDecl) : List AccessorDecl → List AccessorDecl
  | [] => [a]
  | b :: bs =>
    if b.name = a.name ∧ b.static = a.static then joinAccessors b a :: bs
    else b :: addAccessor a bs

/-! ## Bodies of classes -/

/-- What one member adds to a class. -/
inductive MemberPart where
  | construct (properties : List PropertyDecl) (declaration : ConstructorDecl)
  | accessor (declaration : AccessorDecl)
  | method (declaration : MethodDecl)
  | property (declaration : PropertyDecl)

/-- What a member adds to a class; `implemented` are the names of its methods with a body, whose
signatures are overloads. -/
def memberPart? (o : Origin) (owner : QName) (implemented : List String) (n : ScopedNode) :
    Option MemberPart :=
  match n.kind with
  | "method_definition" =>
    if n.fieldText? "name" = some "constructor" then
      (n.field? "parameters").map fun ps =>
        .construct (ps.namedChildren.filterMap (parameterProperty? o owner (parametersOf ps)))
          (constructorOf o owner n ps)
    else if n.hasToken "get" || n.hasToken "set" then (accessorHalf? o n).map .accessor
    else (method? o n).map .method
  | "method_signature" =>
    if (n.fieldText? "name").any implemented.contains then none else (method? o n).map .method
  | "abstract_method_signature" => (method? o n).map .method
  | "public_field_definition" => (property? o n).map .property
  | _ => none

/-- The names of the methods of a class that have a body. -/
def implementedMethods (body : ScopedNode) : List String :=
  (body.namedChildren.filter (·.kind == "method_definition")).filterMap (·.fieldText? "name")

/-- What the members of a class add to it, in order. -/
def memberParts (o : Origin) (owner : QName) (body : ScopedNode) : List MemberPart :=
  body.namedChildren.filterMap (memberPart? o owner (implementedMethods body))

end CodeConcepts.Extract
