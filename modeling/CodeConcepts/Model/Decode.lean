import CodeConcepts.Json.Fields
import CodeConcepts.Json.Reader
import CodeConcepts.Model.Basic
import CodeConcepts.Model.Violation

/-!
# Models from JSON

The reading direction of `Model.encode`, with the latitude of `Json.slots?`. A text of a model is an
object; its members are read in the order of their names and the first failure is reported.
-/

namespace CodeConcepts

open Json (required optional text? bool? nat? list? variantName?)

/-- A name from JSON. -/
def QName.decode? (j : Json) : Option QName := (text? j).map QName.mk

namespace TypeDesc

/-- The variants of type descriptions in the order of their declaration. -/
def variants : List String :=
  ["primitive", "declared", "union", "intersection", "typeParameter", "object", "function",
    "literal", "tuple", "notIdentified"]

/-- A type description from JSON; `nested` says that it stands inside another tagged value. -/
def decode? (nested : Bool) (j : Json) : Option TypeDesc :=
  match j.tagged? "type" with
  | none => none
  | some (tag, slots) =>
    match Json.tagName? nested variants tag with
    | some "primitive" =>
      match slots ["name"] with
      | some [some n] => (text? n.1).map .primitive
      | _ => none
    | some "declared" =>
      match slots ["fqn", "typeArguments"] with
      | some [some n, none] => (QName.decode? n.1).map (.declared · [])
      | some [some n, some args] => do
        let xs ← args.items?
        return .declared (← QName.decode? n.1) (← xs.mapM fun x => decode? true x.1)
      | _ => none
    | some "union" =>
      match slots ["types"] with
      | some [some ts] => do
        let xs ← ts.items?
        return .union (← xs.mapM fun x => decode? true x.1)
      | _ => none
    | some "intersection" =>
      match slots ["types"] with
      | some [some ts] => do
        let xs ← ts.items?
        return .intersection (← xs.mapM fun x => decode? true x.1)
      | _ => none
    | some "typeParameter" =>
      match slots ["name"] with
      | some [some n] => (text? n.1).map .typeParameter
      | _ => none
    | some "object" =>
      match slots ["members"] with
      | some [some ms] => do
        let xs ← ms.items?
        return .object (← xs.mapM fun x =>
          match x.slots? ["name", "type", "optional", "readonly"] with
          | some [some n, some t, some o, some r] => do
            return ⟨← text? n.1, ← decode? true t.1, ← bool? o.1, ← bool? r.1⟩
          | _ => none)
      | _ => none
    | some "function" =>
      match slots ["parameters", "returnType"] with
      | some [some ps, some t] => do
        let xs ← ps.items?
        return .function
          (← xs.mapM fun x =>
            match x.slots? ["index", "name", "type", "optional"] with
            | some [some i, some n, some t, some o] => do
              return ⟨← nat? i.1, ← text? n.1, ← decode? true t.1, ← bool? o.1⟩
            | _ => none)
          (← decode? true t.1)
      | _ => none
    | some "literal" =>
      match slots ["value"] with
      | some [some v] => (text? v.1).map .literal
      | _ => none
    | some "tuple" =>
      match slots ["types"] with
      | some [some ts] => do
        let xs ← ts.items?
        return .tuple (← xs.mapM fun x => decode? true x.1)
      | _ => none
    | some "notIdentified" =>
      match slots ["identifier"] with
      | some [some i] => (text? i.1).map .notIdentified
      | _ => none
    | _ => none
termination_by j.size
decreasing_by all_goals exact Json.Part.size_lt _

end TypeDesc

/-- A literal from JSON: a truth value, a number or a text. -/
def Literal.decode? : Json → Option Literal
  | .bool b => some (.bool b)
  | .int n => (Double.ofInt? n).map .number
  | .double x => some (.number x)
  | .string s => some (.text s)
  | _ => none

namespace Value

/-- The variants of values in the order of their declaration. -/
def variants : List String :=
  ["null", "literal", "declared", "member", "object", "array", "call", "function", "class", "complex"]

/-- A value from JSON; `nested` says that it stands inside another tagged value. -/
def decode? (nested : Bool) (j : Json) : Option Value :=
  match j.tagged? "kind" with
  | none => none
  | some (tag, slots) =>
    match Json.tagName? nested variants tag with
    | some "null" =>
      match slots ["undefined"] with
      | some [some u] => (bool? u.1).map .null
      | _ => none
    | some "literal" =>
      match slots ["value", "type"] with
      | some [some l, some t] => do return .literal (← Literal.decode? l.1) (← TypeDesc.decode? true t.1)
      | _ => none
    | some "declared" =>
      match slots ["fqn"] with
      | some [some n] => (QName.decode? n.1).map .declared
      | _ => none
    | some "member" =>
      match slots ["parent", "member"] with
      | some [some v, some m] => do return .member (← decode? true v.1) (← text? m.1)
      | _ => none
    | some "object" =>
      match slots ["members"] with
      | some [some ms] => do
        let xs ← ms.members?
        return .object (← xs.mapM fun x => (decode? true x.2.1).map (x.1, ·))
      | _ => none
    | some "array" =>
      match slots ["items"] with
      | some [some vs] => do
        let xs ← vs.items?
        return .array (← xs.mapM fun x => decode? true x.1)
      | _ => none
    | some "call" =>
      match slots ["callee", "args"] with
      | some [some v, some vs] => do
        let xs ← vs.items?
        return .call (← decode? true v.1) (← xs.mapM fun x => decode? true x.1)
      | _ => none
    | some "function" =>
      match slots [] with
      | some [] => some .function
      | _ => none
    | some "class" =>
      match slots [] with
      | some [] => some .classValue
      | _ => none
    | some "complex" =>
      match slots ["expression"] with
      | some [some e] => (text? e.1).map .complex
      | _ => none
    | _ => none
termination_by j.size
decreasing_by all_goals exact Json.Part.size_lt _

end Value

/-- A type description that is a field of a record. -/
def TypeDesc.ofField? (j : Json) : Option TypeDesc := TypeDesc.decode? false j

/-- A value that is a field of a record. -/
def Value.ofField? (j : Json) : Option Value := Value.decode? false j

/-- A parameter from JSON. -/
def Parameter.decode? (j : Json) : Option Param :=
  match j.fields? ["index", "name", "type", "optional"] with
  | some [i, n, t, o] => do
    return ⟨← required nat? i, ← required text? n, ← required TypeDesc.ofField? t, ← required bool? o⟩
  | _ => none

/-- A type parameter from JSON. -/
def TypeParameter.decode? (j : Json) : Option TypeParameter :=
  match j.fields? ["name", "constraint"] with
  | some [n, c] => do return ⟨← required text? n, ← optional TypeDesc.ofField? c⟩
  | _ => none

/-- Coordinates from JSON. -/
def Coordinates.decode? (j : Json) : Option Coordinates :=
  match j.fields? ["fileName", "startLine", "startColumn", "endLine", "endColumn"] with
  | some [f, sl, sc, el, ec] => do
    return ⟨← required text? f, ← required nat? sl, ← required nat? sc, ← required nat? el,
      ← required nat? ec⟩
  | _ => none

/-- A visibility from JSON. -/
def Visibility.decode? (j : Json) : Option Visibility :=
  (variantName? j).bind fun s => [Visibility.everyone, .heirs, .owner].find? (·.keyword == s)

/-- A keyword of variables from JSON. -/
def VariableKind.decode? (j : Json) : Option VariableKind :=
  (variantName? j).bind fun s => [VariableKind.var, .let, .const].find? (·.keyword == s)

/-- A kind of export from JSON. -/
def ExportKind.decode? (j : Json) : Option ExportKind :=
  (variantName? j).bind fun s => [ExportKind.value, .type].find? (·.keyword == s)

/-- A kind of reference from JSON. -/
def ReferenceKind.decode? (j : Json) : Option ReferenceKind :=
  (variantName? j).bind fun s =>
    [ReferenceKind.call, .construct, .read, .typeReference, .extends, .implements, .import,
      .export].find? (·.keyword == s)

/-- A project from JSON. -/
def Project.decode? (j : Json) : Option Project :=
  match j.fields? ["rootPath"] with
  | some [p] => do return ⟨← required text? p⟩
  | _ => none

/-- A module from JSON. -/
def Module.decode? (j : Json) : Option Module :=
  match j.fields? ["fqn", "path"] with
  | some [n, p] => do return ⟨← required QName.decode? n, ← required text? p⟩
  | _ => none

/-- A function from JSON. -/
def FunctionDecl.decode? (j : Json) : Option FunctionDecl :=
  match j.fields? ["fqn", "functionName", "parameters", "returnType", "typeParameters", "async",
    "coordinates"] with
  | some [fqn, name, ps, ret, tps, async, at_] => do
    return {
      fqn := ← required QName.decode? fqn
      name := ← required text? name
      parameters := ← required (list? Parameter.decode?) ps
      returnType := ← required TypeDesc.ofField? ret
      typeParameters := ← required (list? TypeParameter.decode?) tps
      async := ← required bool? async
      coordinates := ← required Coordinates.decode? at_ }
  | _ => none

/-- A property from JSON. -/
def PropertyDecl.decode? (j : Json) : Option PropertyDecl :=
  match j.fields? ["fqn", "propertyName", "optional", "type", "visibility", "readonly", "static",
    "abstract", "coordinates"] with
  | some [fqn, name, opt, type, vis, ro, static, abstract, at_] => do
    return {
      fqn := ← required QName.decode? fqn
      name := ← required text? name
      optional := ← required bool? opt
      type := ← required TypeDesc.ofField? type
      visibility := ← required Visibility.decode? vis
      readonly := ← required bool? ro
      static := ← required bool? static
      abstract := ← required bool? abstract
      coordinates := ← required Coordinates.decode? at_ }
  | _ => none

/-- A method from JSON. -/
def MethodDecl.decode? (j : Json) : Option MethodDecl :=
  match j.fields? ["fqn", "methodName", "parameters", "returnType", "typeParameters", "optional",
    "visibility", "static", "abstract", "async", "coordinates"] with
  | some [fqn, name, ps, ret, tps, opt, vis, static, abstract, async, at_] => do
    return {
      fqn := ← required QName.decode? fqn
      name := ← required text? name
      parameters := ← required (list? Parameter.decode?) ps
      returnType := ← required TypeDesc.ofField? ret
      typeParameters := ← required (list? TypeParameter.decode?) tps
      optional := ← required bool? opt
      visibility := ← required Visibility.decode? vis
      static := ← required bool? static
      abstract := ← required bool? abstract
      async := ← required bool? async
      coordinates := ← required Coordinates.decode? at_ }
  | _ => none

/-- A constructor from JSON. -/
def ConstructorDecl.decode? (j : Json) : Option ConstructorDecl :=
  match j.fields? ["fqn", "parameters", "coordinates"] with
  | some [fqn, ps, at_] => do
    return {
      fqn := ← required QName.decode? fqn
      parameters := ← required (list? Parameter.decode?) ps
      coordinates := ← required Coordinates.decode? at_ }
  | _ => none

/-- Half of an accessor property from JSON. -/
def Accessor.decode? (j : Json) : Option Accessor :=
  match j.fields? ["type", "visibility", "coordinates"] with
  | some [type, vis, at_] => do
    return {
      type := ← required TypeDesc.ofField? type
      visibility := ← required Visibility.decode? vis
      coordinates := ← required Coordinates.decode? at_ }
  | _ => none

/-- An accessor property from JSON. -/
def AccessorDecl.decode? (j : Json) : Option AccessorDecl :=
  match j.fields? ["fqn", "accessorName", "getter", "setter", "static"] with
  | some [fqn, name, getter, setter, static] => do
    return {
      fqn := ← required QName.decode? fqn
      name := ← required text? name
      getter := ← optional Accessor.decode? getter
      setter := ← optional Accessor.decode? setter
      static := ← required bool? static }
  | _ => none

/-- A class from JSON. -/
def ClassDecl.decode? (j : Json) : Option ClassDecl :=
  match j.fields? ["fqn", "className", "abstract", "typeParameters", "extendsClass",
    "implementsInterfaces", "constructors", "properties", "methods", "accessorProperties",
    "coordinates"] with
  | some [fqn, name, abstract, tps, ext, impl, ctors, props, methods, accs, at_] => do
    return {
      fqn := ← required QName.decode? fqn
      name := ← required text? name
      abstract := ← required bool? abstract
      typeParameters := ← required (list? TypeParameter.decode?) tps
      extendsClass := ← optional TypeDesc.ofField? ext
      implementsInterfaces := ← required (list? TypeDesc.ofField?) impl
      constructors := ← required (list? ConstructorDecl.decode?) ctors
      properties := ← required (list? PropertyDecl.decode?) props
      methods := ← required (list? MethodDecl.decode?) methods
      accessors := ← required (list? AccessorDecl.decode?) accs
      coordinates := ← required Coordinates.decode? at_ }
  | _ => none

/-- An interface from JSON. -/
def InterfaceDecl.decode? (j : Json) : Option InterfaceDecl :=
  match j.fields? ["fqn", "interfaceName", "typeParameters", "extendsInterfaces", "properties",
    "methods", "coordinates"] with
  | some [fqn, name, tps, ext, props, methods, at_] => do
    return {
      fqn := ← required QName.decode? fqn
      name := ← required text? name
      typeParameters := ← required (list? TypeParameter.decode?) tps
      extendsInterfaces := ← required (list? TypeDesc.ofField?) ext
      properties := ← required (list? PropertyDecl.decode?) props
      methods := ← required (list? MethodDecl.decode?) methods
      coordinates := ← required Coordinates.decode? at_ }
  | _ => none

/-- A type alias from JSON. -/
def TypeAliasDecl.decode? (j : Json) : Option TypeAliasDecl :=
  match j.fields? ["fqn", "typeAliasName", "typeParameters", "type", "coordinates"] with
  | some [fqn, name, tps, type, at_] => do
    return {
      fqn := ← required QName.decode? fqn
      name := ← required text? name
      typeParameters := ← required (list? TypeParameter.decode?) tps
      type := ← required TypeDesc.ofField? type
      coordinates := ← required Coordinates.decode? at_ }
  | _ => none

/-- A member of an enumeration from JSON. -/
def EnumMember.decode? (j : Json) : Option EnumMember :=
  match j.fields? ["fqn", "name", "init"] with
  | some [fqn, name, init] => do
    return {
      fqn := ← required QName.decode? fqn
      name := ← required text? name
      init := ← optional Value.ofField? init }
  | _ => none

/-- An enumeration from JSON. -/
def EnumDecl.decode? (j : Json) : Option EnumDecl :=
  match j.fields? ["fqn", "enumName", "members", "constant", "declared", "coordinates"] with
  | some [fqn, name, members, constant, declared, at_] => do
    return {
      fqn := ← required QName.decode? fqn
      name := ← required text? name
      members := ← required (list? EnumMember.decode?) members
      constant := ← required bool? constant
      declared := ← required bool? declared
      coordinates := ← required Coordinates.decode? at_ }
  | _ => none

/-- A variable from JSON. -/
def VariableDecl.decode? (j : Json) : Option VariableDecl :=
  match j.fields? ["fqn", "variableName", "kind", "type", "initValue", "coordinates"] with
  | some [fqn, name, kind, type, init, at_] => do
    return {
      fqn := ← required QName.decode? fqn
      name := ← required text? name
      kind := ← required VariableKind.decode? kind
      type := ← required TypeDesc.ofField? type
      initValue := ← optional Value.ofField? init
      coordinates := ← required Coordinates.decode? at_ }
  | _ => none

/-- An import from JSON. -/
def ImportDecl.decode? (j : Json) : Option ImportDecl :=
  match j.fields? ["importer", "source", "importedName", "alias", "target", "isTypeOnly"] with
  | some [importer, source, name, aliasName, target, typeOnly] => do
    return {
      importer := ← required QName.decode? importer
      source := ← required text? source
      importedName := ← required text? name
      aliasName := ← optional text? aliasName
      target := ← required QName.decode? target
      typeOnly := ← required bool? typeOnly }
  | _ => none

/-- An export from JSON. -/
def ExportDecl.decode? (j : Json) : Option ExportDecl :=
  match j.fields? ["identifier", "alias", "declFqn", "isDefault", "kind", "sourceFilePath"] with
  | some [identifier, aliasName, declaration, isDefault, kind, exporter] => do
    return {
      identifier := ← required text? identifier
      aliasName := ← optional text? aliasName
      declaration := ← required QName.decode? declaration
      isDefault := ← required bool? isDefault
      kind := ← required ExportKind.decode? kind
      exporter := ← required QName.decode? exporter }
  | _ => none

/-- An edge from JSON. -/
def Edge.decode? (j : Json) : Option Edge :=
  match j.fields? ["sourceFqn", "targetFqn", "referenceKind"] with
  | some [source, target, kind] => do
    return {
      source := ← required QName.decode? source
      target := ← required QName.decode? target
      kind := ← required ReferenceKind.decode? kind }
  | _ => none

/-- A dependency from JSON. -/
def Dependency.decode? (j : Json) : Option Dependency :=
  match j.fields? ["sourceFqn", "sourceType", "targetFqn", "targetType", "cardinality"] with
  | some [source, sourceType, target, targetType, cardinality] => do
    return {
      source := ← required QName.decode? source
      sourceType := ← optional text? sourceType
      target := ← required QName.decode? target
      targetType := ← required text? targetType
      cardinality := ← required nat? cardinality }
  | _ => none

/-- A dependency between modules from JSON. -/
def ModuleDependency.decode? (j : Json) : Option ModuleDependency :=
  match j.fields? ["sourceModule", "targetModule", "cardinality"] with
  | some [source, target, cardinality] => do
    return {
      source := ← required QName.decode? source
      target := ← required QName.decode? target
      cardinality := ← required nat? cardinality }
  | _ => none

/-- A record of a kind from JSON. -/
def Kind.decode? : (k : Kind) → Json → Option k.Record
  | .project => Project.decode?
  | .module => Module.decode?
  | .function => FunctionDecl.decode?
  | .classDeclaration => ClassDecl.decode?
  | .interface => InterfaceDecl.decode?
  | .typeAlias => TypeAliasDecl.decode?
  | .enum => EnumDecl.decode?
  | .variable => VariableDecl.decode?
  | .import => ImportDecl.decode?
  | .export => ExportDecl.decode?
  | .edge => Edge.decode?
  | .dependency => Dependency.decode?
  | .moduleDependency => ModuleDependency.decode?

namespace Model

/-- Why a text is not a model. -/
inductive ReadError where
  /-- The text is not JSON, or a record does not have the fields it should have. -/
  | malformed
  | violation (v : Violation)
deriving DecidableEq, Repr

/-- Reads the records of one kind into a model. -/
def decodeKind (m : Model) (id : String) (records : Json) : Except ReadError Model :=
  match Kind.ofId? id with
  | none => .error (.violation (.unknownKind id))
  | some k =>
    match records with
    | .array items =>
      match items.mapM k.decode? with
      | some rs => .ok (m.set k (m.get k ++ rs))
      | none => .error .malformed
    | _ => .error (.violation (.notAList id))

/-- A model from JSON. -/
def decode : Json → Except ReadError Model
  | .object members => members.foldlM (fun m p => m.decodeKind p.1 p.2) empty
  | _ => .error .malformed

/-- The model a text stands for. -/
def ofText (text : String) : Except ReadError Model :=
  match Json.parse? Json.nestingLimit text with
  | some j => decode j
  | none => .error .malformed

end Model

end CodeConcepts
