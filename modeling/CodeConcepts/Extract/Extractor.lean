import CodeConcepts.Scope.Lookup

/-!
# Extractors

Each kind of node that matters plays one role, and each role belongs to one extractor. A table of
extractors decides which roles are handled at all: a node whose role no extractor of the table
claims is passed through.
-/

namespace CodeConcepts.Extract

/-- The role a node plays for the extraction. -/
inductive Role where
  | import
  | export
  | function
  | classDeclaration
  | member
  | interface
  | typeAlias
  | enum
  | variableStatement
  | namespace
  | identifier
  | typeIdentifier
  | memberAccess
  | nestedType
  | closingTag
deriving DecidableEq, Repr

/-- The role of nodes of a kind. -/
def Role.ofKind? (kind : String) : Option Role :=
  match kind with
  | "import_statement" => some .import
  | "export_statement" => some .export
  | "function_declaration" => some .function
  | "generator_function_declaration" => some .function
  | "function_signature" => some .function
  | "class_declaration" => some .classDeclaration
  | "abstract_class_declaration" => some .classDeclaration
  | "method_definition" => some .member
  | "method_signature" => some .member
  | "abstract_method_signature" => some .member
  | "public_field_definition" => some .member
  | "property_signature" => some .member
  | "interface_declaration" => some .interface
  | "type_alias_declaration" => some .typeAlias
  | "enum_declaration" => some .enum
  | "lexical_declaration" => some .variableStatement
  | "variable_declaration" => some .variableStatement
  | "internal_module" => some .namespace
  | "module" => some .namespace
  | "identifier" => some .identifier
  | "shorthand_property_identifier" => some .identifier
  | "type_identifier" => some .typeIdentifier
  | "member_expression" => some .memberAccess
  | "nested_type_identifier" => some .nestedType
  | "jsx_closing_element" => some .closingTag
  | _ => none

theorem Role.kind_of_export {kind : String} (h : ofKind? kind = some .export) :
    kind = "export_statement" := by
  unfold ofKind? at h
  split at h <;> first | rfl | cases h

/-- A group of roles that is switched on as a whole. -/
inductive Extractor where
  | imports
  | exports
  | functions
  | classes
  | members
  | interfaces
  | typeAliases
  | enums
  | variableDecls
  | namespaces
  | references
deriving DecidableEq, Repr

namespace Extractor

/-- All extractors, which is also the table used by default. -/
def all : List Extractor :=
  [.imports, .exports, .functions, .classes, .members, .interfaces, .typeAliases, .enums,
    .variableDecls, .namespaces, .references]

/-- The name of an extractor. -/
def name : Extractor → String
  | .imports => "imports"
  | .exports => "exports"
  | .functions => "functions"
  | .classes => "classes"
  | .members => "members"
  | .interfaces => "interfaces"
  | .typeAliases => "type-aliases"
  | .enums => "enums"
  | .variableDecls => "variables"
  | .namespaces => "namespaces"
  | .references => "references"

/-- The extractor of a name. -/
def ofName? (s : String) : Option Extractor := all.find? fun e => e.name == s

/-- The roles an extractor claims. -/
def roles : Extractor → List Role
  | .imports => [.import]
  | .exports => [.export]
  | .functions => [.function]
  | .classes => [.classDeclaration]
  | .members => [.member]
  | .interfaces => [.interface]
  | .typeAliases => [.typeAlias]
  | .enums => [.enum]
  | .variableDecls => [.variableStatement]
  | .namespaces => [.namespace]
  | .references => [.identifier, .typeIdentifier, .memberAccess, .nestedType, .closingTag]

end Extractor

/-- The role in which a table of extractors handles nodes of a kind. -/
def handledRole? (table : List Extractor) (kind : String) : Option Role :=
  (Role.ofKind? kind).filter fun r => table.any fun e => e.roles.contains r

end CodeConcepts.Extract
