import CodeConcepts.Concept.Value

/-!
# Declarations

The records of functions, classes, interfaces, type aliases, enumerations and variables, with the
parts they own. The names of a record are visited in a fixed order: its own first.
-/

namespace CodeConcepts

/-- Where a declaration stands. Lines and columns count from one, columns in bytes. -/
structure Coordinates where
  fileName : String
  startLine : Nat
  startColumn : Nat
  endLine : Nat
  endColumn : Nat
deriving DecidableEq, Repr

/-- File, line and column of the start. -/
def Coordinates.display (c : Coordinates) : String :=
  c.fileName ++ ":" ++ toString c.startLine ++ ":" ++ toString c.startColumn

/-- Who may use a member: everyone, only heirs of the class, or only the class itself. -/
inductive Visibility where
  | everyone
  | heirs
  | owner
deriving DecidableEq, Repr

namespace Visibility

/-- The keyword. -/
def keyword : Visibility → String
  | .everyone => "public"
  | .heirs => "protected"
  | .owner => "private"

/-- The visibility a modifier stands for; any other text means public. -/
def ofModifier (s : String) : Visibility :=
  if s = "private" then .owner else if s = "protected" then .heirs else .everyone

end Visibility

/-- A function. -/
structure FunctionDecl where
  fqn : QName
  name : String
  parameters : List Param
  returnType : TypeDesc
  typeParameters : List TypeParameter
  async : Bool
  coordinates : Coordinates
deriving DecidableEq, Repr

instance : HasNames FunctionDecl where
  names d := d.fqn :: (names d.parameters ++ names d.returnType ++ names d.typeParameters)
  mapNames f d :=
    { d with
      fqn := f d.fqn
      parameters := mapNames f d.parameters
      returnType := mapNames f d.returnType
      typeParameters := mapNames f d.typeParameters }
  visitNames f d := do
    return { d with
      fqn := ← f d.fqn
      parameters := ← visitNames f d.parameters
      returnType := ← visitNames f d.returnType
      typeParameters := ← visitNames f d.typeParameters }

/-- A field of a class or a property of an interface. -/
structure PropertyDecl where
  fqn : QName
  name : String
  optional : Bool
  type : TypeDesc
  visibility : Visibility
  readonly : Bool
  static : Bool
  abstract : Bool
  coordinates : Coordinates
deriving DecidableEq, Repr

instance : HasNames PropertyDecl where
  names d := d.fqn :: names d.type
  mapNames f d := { d with fqn := f d.fqn, type := mapNames f d.type }
  visitNames f d := do return { d with fqn := ← f d.fqn, type := ← visitNames f d.type }

/-- A method. -/
structure MethodDecl where
  fqn : QName
  name : String
  parameters : List Param
  returnType : TypeDesc
  typeParameters : List TypeParameter
  optional : Bool
  visibility : Visibility
  static : Bool
  abstract : Bool
  async : Bool
  coordinates : Coordinates
deriving DecidableEq, Repr

instance : HasNames MethodDecl where
  names d := d.fqn :: (names d.parameters ++ names d.returnType ++ names d.typeParameters)
  mapNames f d :=
    { d with
      fqn := f d.fqn
      parameters := mapNames f d.parameters
      returnType := mapNames f d.returnType
      typeParameters := mapNames f d.typeParameters }
  visitNames f d := do
    return { d with
      fqn := ← f d.fqn
      parameters := ← visitNames f d.parameters
      returnType := ← visitNames f d.returnType
      typeParameters := ← visitNames f d.typeParameters }

/-- A constructor. -/
structure ConstructorDecl where
  fqn : QName
  parameters : List Param
  coordinates : Coordinates
deriving DecidableEq, Repr

instance : HasNames ConstructorDecl where
  names d := d.fqn :: names d.parameters
  mapNames f d := { d with fqn := f d.fqn, parameters := mapNames f d.parameters }
  visitNames f d := do return { d with fqn := ← f d.fqn, parameters := ← visitNames f d.parameters }

/-- One half of an accessor property. -/
structure Accessor where
  type : TypeDesc
  visibility : Visibility
  coordinates : Coordinates
deriving DecidableEq, Repr

instance : HasNames Accessor where
  names d := names d.type
  mapNames f d := { d with type := mapNames f d.type }
  visitNames f d := do return { d with type := ← visitNames f d.type }

/-- A getter, a setter or both. -/
structure AccessorDecl where
  fqn : QName
  name : String
  getter : Option Accessor
  setter : Option Accessor
  static : Bool
deriving DecidableEq, Repr

instance : HasNames AccessorDecl where
  names d := d.fqn :: (names d.getter ++ names d.setter)
  mapNames f d :=
    { d with fqn := f d.fqn, getter := mapNames f d.getter, setter := mapNames f d.setter }
  visitNames f d := do
    return { d with
      fqn := ← f d.fqn
      getter := ← visitNames f d.getter
      setter := ← visitNames f d.setter }

/-- A class. -/
structure ClassDecl where
  fqn : QName
  name : String
  abstract : Bool
  typeParameters : List TypeParameter
  extendsClass : Option TypeDesc
  implementsInterfaces : List TypeDesc
  constructors : List ConstructorDecl
  properties : List PropertyDecl
  methods : List MethodDecl
  accessors : List AccessorDecl
  coordinates : Coordinates
deriving DecidableEq, Repr

instance : HasNames ClassDecl where
  names d :=
    d.fqn :: (names d.typeParameters ++ names d.extendsClass ++ names d.implementsInterfaces ++
      names d.constructors ++ names d.properties ++ names d.methods ++ names d.accessors)
  mapNames f d :=
    { d with
      fqn := f d.fqn
      typeParameters := mapNames f d.typeParameters
      extendsClass := mapNames f d.extendsClass
      implementsInterfaces := mapNames f d.implementsInterfaces
      constructors := mapNames f d.constructors
      properties := mapNames f d.properties
      methods := mapNames f d.methods
      accessors := mapNames f d.accessors }
  visitNames f d := do
    return { d with
      fqn := ← f d.fqn
      typeParameters := ← visitNames f d.typeParameters
      extendsClass := ← visitNames f d.extendsClass
      implementsInterfaces := ← visitNames f d.implementsInterfaces
      constructors := ← visitNames f d.constructors
      properties := ← visitNames f d.properties
      methods := ← visitNames f d.methods
      accessors := ← visitNames f d.accessors }

/-- An interface. -/
structure InterfaceDecl where
  fqn : QName
  name : String
  typeParameters : List TypeParameter
  extendsInterfaces : List TypeDesc
  properties : List PropertyDecl
  methods : List MethodDecl
  coordinates : Coordinates
deriving DecidableEq, Repr

instance : HasNames InterfaceDecl where
  names d :=
    d.fqn :: (names d.typeParameters ++ names d.extendsInterfaces ++ names d.properties ++
      names d.methods)
  mapNames f d :=
    { d with
      fqn := f d.fqn
      typeParameters := mapNames f d.typeParameters
      extendsInterfaces := mapNames f d.extendsInterfaces
      properties := mapNames f d.properties
      methods := mapNames f d.methods }
  visitNames f d := do
    return { d with
      fqn := ← f d.fqn
      typeParameters := ← visitNames f d.typeParameters
      extendsInterfaces := ← visitNames f d.extendsInterfaces
      properties := ← visitNames f d.properties
      methods := ← visitNames f d.methods }

/-- A type alias. -/
structure TypeAliasDecl where
  fqn : QName
  name : String
  typeParameters : List TypeParameter
  type : TypeDesc
  coordinates : Coordinates
deriving DecidableEq, Repr

instance : HasNames TypeAliasDecl where
  names d := d.fqn :: (names d.typeParameters ++ names d.type)
  mapNames f d :=
    { d with
      fqn := f d.fqn
      typeParameters := mapNames f d.typeParameters
      type := mapNames f d.type }
  visitNames f d := do
    return { d with
      fqn := ← f d.fqn
      typeParameters := ← visitNames f d.typeParameters
      type := ← visitNames f d.type }

/-- A member of an enumeration. -/
structure EnumMember where
  fqn : QName
  name : String
  init : Option Value
deriving DecidableEq, Repr

instance : HasNames EnumMember where
  names d := d.fqn :: names d.init
  mapNames f d := { d with fqn := f d.fqn, init := mapNames f d.init }
  visitNames f d := do return { d with fqn := ← f d.fqn, init := ← visitNames f d.init }

/-- An enumeration. -/
structure EnumDecl where
  fqn : QName
  name : String
  members : List EnumMember
  constant : Bool
  declared : Bool
  coordinates : Coordinates
deriving DecidableEq, Repr

instance : HasNames EnumDecl where
  names d := d.fqn :: names d.members
  mapNames f d := { d with fqn := f d.fqn, members := mapNames f d.members }
  visitNames f d := do return { d with fqn := ← f d.fqn, members := ← visitNames f d.members }

/-- The keyword a variable is declared with. -/
inductive VariableKind where
  | var
  | let
  | const
deriving DecidableEq, Repr

namespace VariableKind

/-- The keyword. -/
def keyword : VariableKind → String
  | .var => "var"
  | .let => "let"
  | .const => "const"

/-- The kind a keyword stands for; any other text means `var`. -/
def ofKeyword (s : String) : VariableKind :=
  if s = "let" then .let else if s = "const" then .const else .var

end VariableKind

/-- A variable of a module or namespace. -/
structure VariableDecl where
  fqn : QName
  name : String
  kind : VariableKind
  type : TypeDesc
  initValue : Option Value
  coordinates : Coordinates
deriving DecidableEq, Repr

instance : HasNames VariableDecl where
  names d := d.fqn :: (names d.type ++ names d.initValue)
  mapNames f d :=
    { d with fqn := f d.fqn, type := mapNames f d.type, initValue := mapNames f d.initValue }
  visitNames f d := do
    return { d with
      fqn := ← f d.fqn
      type := ← visitNames f d.type
      initValue := ← visitNames f d.initValue }

end CodeConcepts
