import CodeConcepts.Concept.Kind
import CodeConcepts.Extract.Origin
import CodeConcepts.Extract.References
import CodeConcepts.Scope.Analysis

/-!
# Exports

An export statement exports the names of a declaration, a value as the default, listed names of the
module or of another one, or all names of another one.
-/

namespace CodeConcepts.Extract

open ScopedNode (declares? overloads? resolve)

/-- The declaration inside an `export` or `declare` statement. -/
def unwrap? (n : ScopedNode) : Option ScopedNode :=
  match n.kind with
  | "export_statement" => n.field? "declaration"
  | "ambient_declaration" => n.namedChild? 0
  | _ => some n

/-- A name a declaration introduces. -/
structure DeclaredName where
  name : String
  fqn : QName
  kind : ExportKind
deriving DecidableEq, Repr

/-- The name of a node that has been given one. -/
def declaredName? (kind : ExportKind) (n : ScopedNode) : Option DeclaredName :=
  match n.fieldText? "name", declares? n with
  | some name, some fqn => some ⟨name, fqn, kind⟩
  | _, _ => none

/-- The names a declaration introduces; an overload introduces none. -/
def declaredNames (declaration : ScopedNode) : List DeclaredName :=
  match unwrap? declaration with
  | none => []
  | some d =>
    match d.kind with
    | "lexical_declaration" | "variable_declaration" =>
      d.namedChildren.filterMap (declaredName? .value)
    | "internal_module" | "module" => (declaredName? .value d).toList
    | kind =>
      if (overloads? d).isSome then []
      else
        let exported : ExportKind :=
          if kind = "interface_declaration" ∨ kind = "type_alias_declaration" then .type else .value
        (declaredName? exported d).toList

/-- What a name in an export list stands for: a declared value, else a declared type, else a member
of the module. -/
def localTarget (module : QName) (n : ScopedNode) (name : String) (typeOnly : Bool) :
    QName × ExportKind :=
  let asType : QName × ExportKind := match resolve .type n with
    | .declaration fqn => (fqn, .type)
    | _ => (module.child name, if typeOnly then .type else .value)
  if typeOnly then asType
  else
    match resolve .value n with
    | .declaration fqn => (fqn, .value)
    | _ => asType

/-- The edges and the record of one entry of an export list; `source` is the module the names are
taken from, if it is another one. -/
def specifierConcepts (o : Origin) (owner : QName) (source : Option QName) (typeOnly : Bool)
    (specifier : ScopedNode) : List Concept :=
  match specifier.field? "name" with
  | none => []
  | some nameNode =>
    let name := Text.plainName nameNode.text
    let aliasName := (specifier.fieldText? "alias").map Text.plainName
    let typeOnly := typeOnly || specifier.hasToken "type"
    let exported : QName × ExportKind := match source with
      | some module => (module.child name, if typeOnly then .type else .value)
      | none => localTarget o.module nameNode name typeOnly
    let edges := match source with
      | some _ => depend owner exported.1 .export
      | none => []
    let isDefault := aliasName = some "default"
    edges.map (Concept.mk .edge) ++
      [⟨.export, { identifier := name, aliasName := if isDefault then none else aliasName,
                   declaration := exported.1, isDefault := isDefault, kind := exported.2,
                   exporter := o.module }⟩]

/-- The record of an exported declaration. -/
def declarationConcept (o : Origin) (isDefault : Bool) (d : DeclaredName) : Concept :=
  ⟨.export, { identifier := d.name, aliasName := none, declaration := d.fqn, isDefault := isDefault,
              kind := d.kind, exporter := o.module }⟩

/-- The record of an exported value: a name, or an expression that is only known as the default. -/
def valueConcept (o : Origin) (value : ScopedNode) : Concept :=
  let named := if value.kind = "identifier" then (resolve .value value).target? else none
  let (name, fqn) := match named with
    | some fqn => (value.text, fqn)
    | none => ("default", o.module.child "default")
  ⟨.export, { identifier := name, aliasName := none, declaration := fqn, isDefault := true,
              kind := .value, exporter := o.module }⟩

/-- The edge and the record of `export * from`. -/
def starConcepts (o : Origin) (owner target : QName) (aliasName : Option String) : List Concept :=
  (depend owner target .export).map (Concept.mk .edge) ++
    [⟨.export, { identifier := "*", aliasName := aliasName, declaration := target, isDefault := false,
                 kind := .value, exporter := o.module }⟩]

/-- The records and edges of an export statement. -/
def exportConcepts (o : Origin) (owner : QName) (n : ScopedNode) : List Concept :=
  match n.field? "declaration" with
  | some d => (declaredNames d).map (declarationConcept o (n.hasToken "default"))
  | none =>
    match exportedValue? n with
    | some value => [valueConcept o value]
    | none =>
      let source := (n.fieldText? "source").map fun s => o.resolve (Text.quotedContent s)
      match n.namedChildren.find? (·.kind == "export_clause") with
      | some clause =>
        clause.namedChildren.flatMap (specifierConcepts o owner source (n.hasToken "type"))
      | none =>
        match source with
        | some target =>
          let named := n.namedChildren.find? (·.kind == "namespace_export")
          let aliasName := (named.bind (·.namedChild? 0)).map fun a => Text.plainName a.text
          starConcepts o owner target aliasName
        | none => []

end CodeConcepts.Extract
