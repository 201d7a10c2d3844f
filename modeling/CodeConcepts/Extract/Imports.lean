import CodeConcepts.Concept.Kind
import CodeConcepts.Extract.Origin
import CodeConcepts.Extract.References
import CodeConcepts.Text.Quoted

/-!
# Imports

An import statement gives one record for each name it binds, and an edge to what the name stands
for. A statement that binds no name gives only the edge to the module.
-/

namespace CodeConcepts.Extract

/-- A name that an import statement binds. -/
structure ImportBinding where
  importedName : String
  aliasName : Option String
  target : QName
  typeOnly : Bool
deriving DecidableEq, Repr

/-- The name that one entry of a braced list binds. -/
def namedBinding? (module : QName) (typeOnly : Bool) (specifier : ScopedNode) :
    Option ImportBinding :=
  (specifier.fieldText? "name").map fun name =>
    let imported := Text.plainName name
    ⟨imported, specifier.fieldText? "alias", module.child imported,
      typeOnly || specifier.hasToken "type"⟩

/-- The names that one part of an import clause binds. -/
def partBindings (module : QName) (typeOnly : Bool) (part : ScopedNode) : List ImportBinding :=
  match part.kind with
  | "identifier" => [⟨"default", some part.text, module.child "default", typeOnly⟩]
  | "namespace_import" => [⟨"*", (part.namedChild? 0).map (·.text), module, typeOnly⟩]
  | "named_imports" => part.namedChildren.filterMap (namedBinding? module typeOnly)
  | _ => []

/-- The names that an import statement binds to parts of a module. -/
def clauseBindings (module : QName) (typeOnly : Bool) (n : ScopedNode) : List ImportBinding :=
  (n.namedChildren.filter (·.kind == "import_clause")).flatMap fun clause =>
    clause.namedChildren.flatMap (partBindings module typeOnly)

/-- The edge and the record of a bound name. -/
def bindingConcepts (o : Origin) (owner : QName) (specifier : String) (b : ImportBinding) :
    List Concept :=
  (depend owner b.target .import).map (Concept.mk .edge) ++
    [⟨.import, { importer := o.module, source := specifier, importedName := b.importedName,
                 aliasName := b.aliasName, target := b.target, typeOnly := b.typeOnly }⟩]

/-- The records and edges of an import statement. -/
def importConcepts (o : Origin) (owner : QName) (n : ScopedNode) : Except Fault (List Concept) :=
  let typeOnly := n.hasToken "type"
  match n.namedChildren.find? (·.kind == "import_require_clause") with
  | some clause => do
    let source ← need clause "source"
    let specifier := Text.quotedContent source.text
    let b : ImportBinding :=
      ⟨"*", (clause.namedChild? 0).map (·.text), o.resolve specifier, typeOnly⟩
    return bindingConcepts o owner specifier b
  | none => do
    let source ← need n "source"
    let specifier := Text.quotedContent source.text
    let module := o.resolve specifier
    let bindings := clauseBindings module typeOnly n
    if bindings.isEmpty then return (depend owner module .import).map (Concept.mk .edge)
    else return bindings.flatMap (bindingConcepts o owner specifier)

end CodeConcepts.Extract
