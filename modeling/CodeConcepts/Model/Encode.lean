import CodeConcepts.Json.Printer
import CodeConcepts.Model.Basic

/-!
# Models as JSON

Every record is an object whose members are its fields. Optional fields that are absent are left
out. Variants of types and values are told apart by a tag. A model is an object that maps the name
of each kind of which there are records to the list of them.
-/

namespace CodeConcepts

open Json (record)

/-- A name as JSON. -/
def QName.encode (n : QName) : Json := .string n.text

/-- A list as JSON. -/
def Json.list {α : Type} (encode : α → Json) (xs : List α) : Json := .array (xs.map encode)

/-- A natural number as JSON. -/
def Json.nat (n : Nat) : Json := .int (n : Int)

/-- A field that is left out if it is absent. -/
def Json.optionalField {α : Type} (name : String) (encode : α → Json) : Option α → List (String × Json)
  | none => []
  | some x => [(name, encode x)]

namespace TypeDesc

mutual

/-- A type description as JSON, tagged by `type`. -/
def encode : TypeDesc → Json
  | .primitive n => record [("type", .string "primitive"), ("name", .string n)]
  | .declared n args =>
    record [("type", .string "declared"), ("fqn", n.encode), ("typeArguments", .array (encodeTypes args))]
  | .union ts => record [("type", .string "union"), ("types", .array (encodeTypes ts))]
  | .intersection ts => record [("type", .string "intersection"), ("types", .array (encodeTypes ts))]
  | .typeParameter n => record [("type", .string "typeParameter"), ("name", .string n)]
  | .object ms => record [("type", .string "object"), ("members", .array (encodeMembers ms))]
  | .function ps t =>
    record [("type", .string "function"), ("parameters", .array (encodeParameters ps)),
      ("returnType", encode t)]
  | .literal v => record [("type", .string "literal"), ("value", .string v)]
  | .tuple ts => record [("type", .string "tuple"), ("types", .array (encodeTypes ts))]
  | .notIdentified i => record [("type", .string "notIdentified"), ("identifier", .string i)]

/-- A list of type descriptions as JSON. -/
def encodeTypes : List TypeDesc → List Json
  | [] => []
  | t :: ts => encode t :: encodeTypes ts

/-- The members of an object type as JSON. -/
def encodeMembers : List (ObjectMember TypeDesc) → List Json
  | [] => []
  | ⟨n, t, o, r⟩ :: ms =>
    record [("name", .string n), ("type", encode t), ("optional", .bool o), ("readonly", .bool r)] ::
      encodeMembers ms

/-- Parameters as JSON. -/
def encodeParameters : List (Parameter TypeDesc) → List Json
  | [] => []
  | ⟨i, n, t, o⟩ :: ps =>
    record [("index", Json.nat i), ("name", .string n), ("type", encode t), ("optional", .bool o)] ::
      encodeParameters ps

end

end TypeDesc

/-- A parameter as JSON. -/
def Parameter.encode (p : Param) : Json :=
  record [("index", Json.nat p.index), ("name", .string p.name), ("type", p.type.encode),
    ("optional", .bool p.optional)]

/-- A type parameter as JSON. -/
def TypeParameter.encode (p : TypeParameter) : Json :=
  record (("name", .string p.name) :: Json.optionalField "constraint" TypeDesc.encode p.constraint)

/-- A literal as JSON. -/
def Literal.encode : Literal → Json
  | .bool b => .bool b
  | .number x => .double x
  | .text s => .string s

namespace Value

mutual

/-- A value as JSON, tagged by `kind`. -/
def encode : Value → Json
  | .null u => record [("kind", .string "null"), ("undefined", .bool u)]
  | .literal l t => record [("kind", .string "literal"), ("value", l.encode), ("type", t.encode)]
  | .declared n => record [("kind", .string "declared"), ("fqn", n.encode)]
  | .member v m => record [("kind", .string "member"), ("parent", encode v), ("member", .string m)]
  | .object ms => record [("kind", .string "object"), ("members", record (encodeMembers ms))]
  | .array vs => record [("kind", .string "array"), ("items", .array (encodeItems vs))]
  | .call v vs =>
    record [("kind", .string "call"), ("callee", encode v), ("args", .array (encodeItems vs))]
  | .function => record [("kind", .string "function")]
  | .classValue => record [("kind", .string "class")]
  | .complex e => record [("kind", .string "complex"), ("expression", .string e)]

/-- A list of values as JSON. -/
def encodeItems : List Value → List Json
  | [] => []
  | v :: vs => encode v :: encodeItems vs

/-- The members of an object value as JSON. -/
def encodeMembers : List (String × Value) → List (String × Json)
  | [] => []
  | (m, v) :: ms => (m, encode v) :: encodeMembers ms

end

end Value

/-- Coordinates as JSON. -/
def Coordinates.encode (c : Coordinates) : Json :=
  record [("fileName", .string c.fileName), ("startLine", Json.nat c.startLine),
    ("startColumn", Json.nat c.startColumn), ("endLine", Json.nat c.endLine),
    ("endColumn", Json.nat c.endColumn)]

/-- A visibility as JSON. -/
def Visibility.encode (v : Visibility) : Json := .string v.keyword

/-- A project as JSON. -/
def Project.encode (p : Project) : Json := record [("rootPath", .string p.rootPath)]

/-- A module as JSON. -/
def Module.encode (m : Module) : Json := record [("fqn", m.fqn.encode), ("path", .string m.path)]

/-- A function as JSON. -/
def FunctionDecl.encode (d : FunctionDecl) : Json :=
  record [("fqn", d.fqn.encode), ("functionName", .string d.name),
    ("parameters", Json.list Parameter.encode d.parameters), ("returnType", d.returnType.encode),
    ("typeParameters", Json.list TypeParameter.encode d.typeParameters), ("async", .bool d.async),
    ("coordinates", d.coordinates.encode)]

/-- A property as JSON. -/
def PropertyDecl.encode (d : PropertyDecl) : Json :=
  record [("fqn", d.fqn.encode), ("propertyName", .string d.name), ("optional", .bool d.optional),
    ("type", d.type.encode), ("visibility", d.visibility.encode), ("readonly", .bool d.readonly),
    ("static", .bool d.static), ("abstract", .bool d.abstract),
    ("coordinates", d.coordinates.encode)]

/-- A method as JSON. -/
def MethodDecl.encode (d : MethodDecl) : Json :=
  record [("fqn", d.fqn.encode), ("methodName", .string d.name),
    ("parameters", Json.list Parameter.encode d.parameters), ("returnType", d.returnType.encode),
    ("typeParameters", Json.list TypeParameter.encode d.typeParameters),
    ("optional", .bool d.optional), ("visibility", d.visibility.encode), ("static", .bool d.static),
    ("abstract", .bool d.abstract), ("async", .bool d.async), ("coordinates", d.coordinates.encode)]

/-- A constructor as JSON. -/
def ConstructorDecl.encode (d : ConstructorDecl) : Json :=
  record [("fqn", d.fqn.encode), ("parameters", Json.list Parameter.encode d.parameters),
    ("coordinates", d.coordinates.encode)]

/-- Half of an accessor property as JSON. -/
def Accessor.encode (d : Accessor) : Json :=
  record [("type", d.type.encode), ("visibility", d.visibility.encode),
    ("coordinates", d.coordinates.encode)]

/-- An accessor property as JSON. -/
def AccessorDecl.encode (d : AccessorDecl) : Json :=
  record ([("fqn", d.fqn.encode), ("accessorName", .string d.name)] ++
    Json.optionalField "getter" Accessor.encode d.getter ++
    Json.optionalField "setter" Accessor.encode d.setter ++ [("static", .bool d.static)])

/-- A class as JSON. -/
def ClassDecl.encode (d : ClassDecl) : Json :=
  record ([("fqn", d.fqn.encode), ("className", .string d.name), ("abstract", .bool d.abstract),
    ("typeParameters", Json.list TypeParameter.encode d.typeParameters)] ++
    Json.optionalField "extendsClass" TypeDesc.encode d.extendsClass ++
    [("implementsInterfaces", Json.list TypeDesc.encode d.implementsInterfaces),
      ("constructors", Json.list ConstructorDecl.encode d.constructors),
      ("properties", Json.list PropertyDecl.encode d.properties),
      ("methods", Json.list MethodDecl.encode d.methods),
      ("accessorProperties", Json.list AccessorDecl.encode d.accessors),
      ("coordinates", d.coordinates.encode)])

/-- An interface as JSON. -/
def InterfaceDecl.encode (d : InterfaceDecl) : Json :=
  record [("fqn", d.fqn.encode), ("interfaceName", .string d.name),
    ("typeParameters", Json.list TypeParameter.encode d.typeParameters),
    ("extendsInterfaces", Json.list TypeDesc.encode d.extendsInterfaces),
    ("properties", Json.list PropertyDecl.encode d.properties),
    ("methods", Json.list MethodDecl.encode d.methods), ("coordinates", d.coordinates.encode)]

/-- A type alias as JSON. -/
def TypeAliasDecl.encode (d : TypeAliasDecl) : Json :=
  record [("fqn", d.fqn.encode), ("typeAliasName", .string d.name),
    ("typeParameters", Json.list TypeParameter.encode d.typeParameters), ("type", d.type.encode),
    ("coordinates", d.coordinates.encode)]

/-- A member of an enumeration as JSON. -/
def EnumMember.encode (d : EnumMember) : Json :=
  record ([("fqn", d.fqn.encode), ("name", .string d.name)] ++
    Json.optionalField "init" Value.encode d.init)

/-- An enumeration as JSON. -/
def EnumDecl.encode (d : EnumDecl) : Json :=
  record [("fqn", d.fqn.encode), ("enumName", .string d.name),
    ("members", Json.list EnumMember.encode d.members), ("constant", .bool d.constant),
    ("declared", .bool d.declared), ("coordinates", d.coordinates.encode)]

/-- A variable as JSON. -/
def VariableDecl.encode (d : VariableDecl) : Json :=
  record ([("fqn", d.fqn.encode), ("variableName", .string d.name), ("kind", .string d.kind.keyword),
    ("type", d.type.encode)] ++ Json.optionalField "initValue" Value.encode d.initValue ++
    [("coordinates", d.coordinates.encode)])

/-- An import as JSON. -/
def ImportDecl.encode (d : ImportDecl) : Json :=
  record ([("importer", d.importer.encode), ("source", .string d.source),
    ("importedName", .string d.importedName)] ++ Json.optionalField "alias" Json.string d.aliasName ++
    [("target", d.target.encode), ("isTypeOnly", .bool d.typeOnly)])

/-- An export as JSON. -/
def ExportDecl.encode (d : ExportDecl) : Json :=
  record ([("identifier", .string d.identifier)] ++ Json.optionalField "alias" Json.string d.aliasName ++
    [("declFqn", d.declaration.encode), ("isDefault", .bool d.isDefault),
      ("kind", .string d.kind.keyword), ("sourceFilePath", d.exporter.encode)])

/-- An edge as JSON. -/
def Edge.encode (d : Edge) : Json :=
  record [("sourceFqn", d.source.encode), ("targetFqn", d.target.encode),
    ("referenceKind", .string d.kind.keyword)]

/-- A dependency as JSON. -/
def Dependency.encode (d : Dependency) : Json :=
  record ([("sourceFqn", d.source.encode)] ++
    Json.optionalField "sourceType" Json.string d.sourceType ++
    [("targetFqn", d.target.encode), ("targetType", .string d.targetType),
      ("cardinality", Json.nat d.cardinality)])

/-- A dependency between modules as JSON. -/
def ModuleDependency.encode (d : ModuleDependency) : Json :=
  record [("sourceModule", d.source.encode), ("targetModule", d.target.encode),
    ("cardinality", Json.nat d.cardinality)]

/-- A record as JSON. -/
def Kind.encode : (k : Kind) → k.Record → Json
  | .project, r => Project.encode r
  | .module, r => Module.encode r
  | .function, r => FunctionDecl.encode r
  | .classDeclaration, r => ClassDecl.encode r
  | .interface, r => InterfaceDecl.encode r
  | .typeAlias, r => TypeAliasDecl.encode r
  | .enum, r => EnumDecl.encode r
  | .variable, r => VariableDecl.encode r
  | .import, r => ImportDecl.encode r
  | .export, r => ExportDecl.encode r
  | .edge, r => Edge.encode r
  | .dependency, r => Dependency.encode r
  | .moduleDependency, r => ModuleDependency.encode r

namespace Model

/-- A model as JSON. -/
def encode (m : Model) : Json :=
  record (m.kinds.map fun k => (k.id, Json.list (Kind.encode k) (m.get k)))

/-- The text of a model. -/
def render (style : Json.Style) (m : Model) : String := m.encode.render style

end Model

end CodeConcepts
