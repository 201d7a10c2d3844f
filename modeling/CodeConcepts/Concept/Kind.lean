import CodeConcepts.Concept.Declaration
import CodeConcepts.Concept.Reference

/-!
# Kinds of concepts

The closed list of kinds, in the order in which a model lists them, and the type of records of each
kind. A concept is a record together with its kind.
-/

namespace CodeConcepts

/-- A kind of concept. -/
inductive Kind where
  | project
  | module
  | function
  | classDeclaration
  | interface
  | typeAlias
  | enum
  | variable
  | import
  | export
  | edge
  | dependency
  | moduleDependency
deriving DecidableEq, Repr

namespace Kind

/-- All kinds in their order. -/
def all : List Kind :=
  [.project, .module, .function, .classDeclaration, .interface, .typeAlias, .enum, .variable, .import,
    .export, .edge, .dependency, .moduleDependency]

theorem mem_all (k : Kind) : k ∈ all := by cases k <;> decide

/-- The name of a kind in the text of a model. -/
def id : Kind → String
  | .project => "typescript-project"
  | .module => "typescript-module"
  | .function => "function-declaration"
  | .classDeclaration => "class-declaration"
  | .interface => "interface-declaration"
  | .typeAlias => "type-alias-declaration"
  | .enum => "enum-declaration"
  | .variable => "variable-declaration"
  | .import => "import-declaration"
  | .export => "export-declaration"
  | .edge => "dependency-edge"
  | .dependency => "dependency"
  | .moduleDependency => "module-dependency"

/-- The kind with a given name. -/
def ofId? (s : String) : Option Kind := all.find? fun k => k.id == s

/-- Whether records of the kind are identified by their qualified name, so that no two of them may
share one. -/
def isIdentified : Kind → Bool
  | .module | .function | .classDeclaration | .interface | .typeAlias | .enum | .variable => true
  | _ => false

/-- The type of the records of a kind. -/
@[reducible] def Record : Kind → Type
  | .project => Project
  | .module => Module
  | .function => FunctionDecl
  | .classDeclaration => ClassDecl
  | .interface => InterfaceDecl
  | .typeAlias => TypeAliasDecl
  | .enum => EnumDecl
  | .variable => VariableDecl
  | .import => ImportDecl
  | .export => ExportDecl
  | .edge => Edge
  | .dependency => Dependency
  | .moduleDependency => ModuleDependency

instance : (k : Kind) → HasNames k.Record
  | .project => inferInstanceAs (HasNames Project)
  | .module => inferInstanceAs (HasNames Module)
  | .function => inferInstanceAs (HasNames FunctionDecl)
  | .classDeclaration => inferInstanceAs (HasNames ClassDecl)
  | .interface => inferInstanceAs (HasNames InterfaceDecl)
  | .typeAlias => inferInstanceAs (HasNames TypeAliasDecl)
  | .enum => inferInstanceAs (HasNames EnumDecl)
  | .variable => inferInstanceAs (HasNames VariableDecl)
  | .import => inferInstanceAs (HasNames ImportDecl)
  | .export => inferInstanceAs (HasNames ExportDecl)
  | .edge => inferInstanceAs (HasNames Edge)
  | .dependency => inferInstanceAs (HasNames Dependency)
  | .moduleDependency => inferInstanceAs (HasNames ModuleDependency)

instance : (k : Kind) → DecidableEq k.Record
  | .project => inferInstanceAs (DecidableEq Project)
  | .module => inferInstanceAs (DecidableEq Module)
  | .function => inferInstanceAs (DecidableEq FunctionDecl)
  | .classDeclaration => inferInstanceAs (DecidableEq ClassDecl)
  | .interface => inferInstanceAs (DecidableEq InterfaceDecl)
  | .typeAlias => inferInstanceAs (DecidableEq TypeAliasDecl)
  | .enum => inferInstanceAs (DecidableEq EnumDecl)
  | .variable => inferInstanceAs (DecidableEq VariableDecl)
  | .import => inferInstanceAs (DecidableEq ImportDecl)
  | .export => inferInstanceAs (DecidableEq ExportDecl)
  | .edge => inferInstanceAs (DecidableEq Edge)
  | .dependency => inferInstanceAs (DecidableEq Dependency)
  | .moduleDependency => inferInstanceAs (DecidableEq ModuleDependency)

/-- The qualified name that identifies a record, for kinds that have one. -/
def fqn? : (k : Kind) → k.Record → Option QName
  | .module, r => some r.fqn
  | .function, r => some r.fqn
  | .classDeclaration, r => some r.fqn
  | .interface, r => some r.fqn
  | .typeAlias, r => some r.fqn
  | .enum, r => some r.fqn
  | .variable, r => some r.fqn
  | _, _ => none

/-- The declared name of a record, for kinds that have one. -/
def declaredName? : (k : Kind) → k.Record → Option String
  | .function, r => some r.name
  | .classDeclaration, r => some r.name
  | .interface, r => some r.name
  | .typeAlias, r => some r.name
  | .enum, r => some r.name
  | .variable, r => some r.name
  | _, _ => none

/-- Where a record is declared, for kinds that say so. -/
def coordinates? : (k : Kind) → k.Record → Option Coordinates
  | .function, r => some r.coordinates
  | .classDeclaration, r => some r.coordinates
  | .interface, r => some r.coordinates
  | .typeAlias, r => some r.coordinates
  | .enum, r => some r.coordinates
  | .variable, r => some r.coordinates
  | _, _ => none

end Kind

/-- A record with its kind. -/
structure Concept where
  kind : Kind
  record : kind.Record

namespace Concept

/-- The record, if the concept is of the given kind. -/
def as? (c : Concept) (k : Kind) : Option k.Record :=
  if h : c.kind = k then some (h ▸ c.record) else none

end Concept

end CodeConcepts
