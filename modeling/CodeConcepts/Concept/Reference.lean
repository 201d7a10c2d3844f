import CodeConcepts.Concept.Names

/-!
# Modules and references

The records of a project, its modules, their imports and exports, and the dependencies between
declarations, raw and counted.
-/

namespace CodeConcepts

/-- The project that is described. -/
structure Project where
  rootPath : String
deriving DecidableEq, Repr

instance : HasNames Project := ⟨fun _ => [], fun _ p => p, fun _ p => return p⟩

/-- A source file. -/
structure Module where
  fqn : QName
  path : String
deriving DecidableEq, Repr

instance : HasNames Module where
  names m := [m.fqn]
  mapNames f m := { m with fqn := f m.fqn }
  visitNames f m := do return { m with fqn := ← f m.fqn }

/-- A name that a module imports. -/
structure ImportDecl where
  importer : QName
  /-- The module specifier as written. -/
  source : String
  /-- `default`, `*` or the imported name. -/
  importedName : String
  aliasName : Option String
  target : QName
  typeOnly : Bool
deriving DecidableEq, Repr

instance : HasNames ImportDecl where
  names d := [d.importer, d.target]
  mapNames f d := { d with importer := f d.importer, target := f d.target }
  visitNames f d := do return { d with importer := ← f d.importer, target := ← f d.target }

/-- Whether a value or only a type is exported. -/
inductive ExportKind where
  | value
  | type
deriving DecidableEq, Repr

/-- The word for it. -/
def ExportKind.keyword : ExportKind → String
  | .value => "value"
  | .type => "type"

/-- A name that a module exports. -/
structure ExportDecl where
  /-- The exported name inside the module, `*` for all names of another module. -/
  identifier : String
  /-- The name it is exported by, if that is another one. -/
  aliasName : Option String
  declaration : QName
  isDefault : Bool
  kind : ExportKind
  /-- The exporting module. -/
  exporter : QName
deriving DecidableEq, Repr

instance : HasNames ExportDecl where
  names d := [d.declaration, d.exporter]
  mapNames f d := { d with declaration := f d.declaration, exporter := f d.exporter }
  visitNames f d := do
    return { d with declaration := ← f d.declaration, exporter := ← f d.exporter }

/-- The name importers see. -/
def ExportDecl.exportedName (d : ExportDecl) : String :=
  if d.isDefault then "default" else d.aliasName.getD d.identifier

/-- How a declaration is referred to. -/
inductive ReferenceKind where
  | call
  | construct
  | read
  | typeReference
  | extends
  | implements
  | import
  | export
deriving DecidableEq, Repr

/-- The word for it. -/
def ReferenceKind.keyword : ReferenceKind → String
  | .call => "call"
  | .construct => "construct"
  | .read => "read"
  | .typeReference => "typeReference"
  | .extends => "extends"
  | .implements => "implements"
  | .import => "import"
  | .export => "export"

/-- One reference of one declaration to another. -/
structure Edge where
  source : QName
  target : QName
  kind : ReferenceKind
deriving DecidableEq, Repr

instance : HasNames Edge where
  names d := [d.source, d.target]
  mapNames f d := { d with source := f d.source, target := f d.target }
  visitNames f d := do return { d with source := ← f d.source, target := ← f d.target }

/-- All references of one declaration to another, counted. The count has 64 bits. -/
structure Dependency where
  source : QName
  sourceType : Option String
  target : QName
  targetType : String
  cardinality : Nat
deriving DecidableEq, Repr

instance : HasNames Dependency where
  names d := [d.source, d.target]
  mapNames f d := { d with source := f d.source, target := f d.target }
  visitNames f d := do return { d with source := ← f d.source, target := ← f d.target }

/-- The type of a target that nothing declares. -/
def externalTarget : String := "external"

/-- Whether nothing declares the target. -/
def Dependency.isExternal (d : Dependency) : Bool := d.targetType == externalTarget

/-- All references between the declarations of two modules, counted. -/
structure ModuleDependency where
  source : QName
  target : QName
  cardinality : Nat
deriving DecidableEq, Repr

instance : HasNames ModuleDependency where
  names d := [d.source, d.target]
  mapNames f d := { d with source := f d.source, target := f d.target }
  visitNames f d := do return { d with source := ← f d.source, target := ← f d.target }

end CodeConcepts
