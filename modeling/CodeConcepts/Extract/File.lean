import CodeConcepts.Extract.Declarations
import CodeConcepts.Extract.Exports
import CodeConcepts.Extract.Imports
import CodeConcepts.Model.Basic
import CodeConcepts.Syntax.Cursor

/-!
# The model of a file

The records of a file are those of the nodes its walk visits, in the order of the visits, behind
the record of its module.
-/

namespace CodeConcepts.Extract

open ScopedNode (overloads?)

/-- The deepest tree that is accepted. -/
def depthLimit : Nat := 400

/-- The records and edges of a node that is handled in a role. -/
def Role.concepts (r : Role) (o : Origin) (owner : QName) (n : ScopedNode) :
    Except Fault (List Concept) :=
  match r with
  | .import => importConcepts o owner n
  | .export => .ok (exportConcepts o owner n)
  | .function =>
    if (overloads? n).isSome then .ok []
    else (functionDecl o n).map fun d => [⟨.function, d⟩]
  | .classDeclaration => (classDecl o n).map fun d => [⟨.classDeclaration, d⟩]
  | .member => .ok []
  | .interface => (interfaceDecl o n).map fun d => [⟨.interface, d⟩]
  | .typeAlias => (typeAliasDecl o n).map fun d => [⟨.typeAlias, d⟩]
  | .enum => (enumDecl o n).map fun d => [⟨.enum, d⟩]
  | .variableStatement => .ok []
  | .namespace => .ok []
  | .identifier => .ok ((identifierEdges owner n).map (Concept.mk .edge))
  | .typeIdentifier => .ok ((typeIdentifierEdges owner n).map (Concept.mk .edge))
  | .memberAccess => .ok ((memberAccessEdges owner n).map (Concept.mk .edge))
  | .nestedType => .ok ((nestedTypeEdges owner n).map (Concept.mk .edge))
  | .closingTag => .ok []

/-- The records and edges of a visited node. -/
def Visit.concepts (table : List Extractor) (o : Origin) (v : Visit) : Except Fault (List Concept) :=
  match v.declaredVariable? with
  | some (kind, fqn) => (variableDecl o kind fqn v.node).map fun d => [⟨.variable, d⟩]
  | none =>
    match handledRole? table v.node.kind with
    | some r => r.concepts o v.owner v.node
    | none => .ok []

/-- The records and edges of a list of visits; the first fault ends it. -/
def conceptsOf (table : List Extractor) (o : Origin) : List Visit → Except Fault (List Concept)
  | [] => .ok []
  | v :: vs =>
    match v.concepts table o with
    | .error e => .error e
    | .ok cs =>
      match conceptsOf table o vs with
      | .error e => .error e
      | .ok rest => .ok (cs ++ rest)

/-- The model of a file with the given table of extractors. -/
def fileModel (table : List Extractor) (o : Origin) (t : Syntax.Tree Note) : Except Fault Model :=
  if t.exceedsDepth depthLimit then .error (.tooDeep depthLimit)
  else
    match conceptsOf table o (walk table o.module t) with
    | .error e => .error e
    | .ok cs => .ok (.ofConcepts (⟨.module, ⟨o.module, o.path⟩⟩ :: cs))

end CodeConcepts.Extract
