import CodeConcepts.Concept.Declaration
import CodeConcepts.Extract.Extractor

/-!
# The walk

The walk lists the nodes that extraction looks at, each before those below it, together with the
declaration that references found there belong to. Where it goes from a node is decided at the node
alone (`Visit.descent`), so every node occurs at most once.
-/

namespace CodeConcepts.Extract

open ScopedNode (declares? overloads? resolveMember?)

/-- What the walk does with a child of a node. -/
inductive Turn where
  | skip
  | visit
  /-- Visit it as a declarator of variables declared with a keyword. -/
  | declarator (kind : VariableKind)
deriving DecidableEq, Repr

/-- A node the walk has come to. -/
structure Visit where
  /-- The innermost declaration around the node, or the module. -/
  owner : QName
  /-- The keyword of the variable declaration the node stands in directly. -/
  declarator : Option VariableKind
  node : ScopedNode

/-- How the walk goes on below a node. -/
structure Descent where
  /-- The owner of the children. -/
  owner : QName
  /-- One turn for each child. -/
  turns : List Turn

namespace Descent

/-- Visit all named children. -/
def children (owner : QName) (n : ScopedNode) : Descent :=
  ⟨owner, n.tree.children.map fun c => if c.label.named then .visit else .skip⟩

/-- Visit no child. -/
def stop (owner : QName) (n : ScopedNode) : Descent := ⟨owner, n.tree.children.map fun _ => .skip⟩

/-- Visit only the body. -/
def body (owner : QName) (n : ScopedNode) : Descent :=
  match n.tree.children.findIdx? fun c => c.label.roles.contains "body" with
  | none => stop owner n
  | some b => ⟨owner, n.tree.children.zipIdx.map fun (_, i) => if i = b then .visit else .skip⟩

/-- Visit all named children as declarators. -/
def declarators (kind : VariableKind) (owner : QName) (n : ScopedNode) : Descent :=
  ⟨owner, n.tree.children.map fun c => if c.label.named then .declarator kind else .skip⟩

end Descent

/-- The keyword a statement declares its variables with. -/
def variableKind (n : ScopedNode) : VariableKind :=
  match n.fieldText? "kind" with
  | some keyword => .ofKeyword keyword
  | none => .var

/-- The value an export statement exports, in one of the forms `export default x` and
`export = x`. -/
def exportedValue? (n : ScopedNode) : Option ScopedNode :=
  (n.field? "value").or (if n.hasToken "=" then n.namedChild? 0 else none)

/-- The member of a namespace that a member access stands for. -/
def accessedMember? (n : ScopedNode) : Option QName :=
  match n.field? "object", n.fieldText? "property" with
  | some object, some property => resolveMember? object property
  | _, _ => none

/-- The declaration that what stands inside a declaration node belongs to: the declaration itself,
or the one it is an overload of. -/
def ownerWithin (owner : QName) (n : ScopedNode) : QName :=
  ((overloads? n).or (declares? n)).getD owner

/-- How the walk goes on below a node that is handled in a role. -/
def Role.descent (r : Role) (owner : QName) (n : ScopedNode) : Descent :=
  match r with
  | .import => .stop owner n
  | .export =>
    if (n.field? "declaration").isSome || (exportedValue? n).isSome then .children owner n
    else .stop owner n
  | .function => .children (ownerWithin owner n) n
  | .classDeclaration => .children ((declares? n).getD owner) n
  | .member => .children ((declares? n).getD owner) n
  | .interface => .children ((declares? n).getD owner) n
  | .typeAlias => .children ((declares? n).getD owner) n
  | .enum => .children ((declares? n).getD owner) n
  | .variableStatement => .declarators (variableKind n) owner n
  | .namespace => .body owner n
  | .identifier => .stop owner n
  | .typeIdentifier => .stop owner n
  | .memberAccess => if (accessedMember? n).isSome then .stop owner n else .children owner n
  | .nestedType => .stop owner n
  | .closingTag => .stop owner n

namespace Visit

/-- The variable that a visited declarator declares. -/
def declaredVariable? (v : Visit) : Option (VariableKind × QName) :=
  match v.declarator, declares? v.node with
  | some kind, some fqn => some (kind, fqn)
  | _, _ => none

/-- How the walk goes on below a visited node. -/
def descent (table : List Extractor) (v : Visit) : Descent :=
  match v.declaredVariable? with
  | some (_, fqn) => .children fqn v.node
  | none =>
    match handledRole? table v.node.kind with
    | some r => r.descent v.owner v.node
    | none => .children v.owner v.node

end Visit

mutual

/-- The visits of a tree, given what the walk does with its root. -/
def visits (table : List Extractor) (owner : QName) (declarator : Option VariableKind)
    (above : List (Syntax.Tree Note)) : Syntax.Tree Note → List Visit
  | .node l a cs =>
    let v : Visit := ⟨owner, declarator, ⟨.node l a cs, above⟩⟩
    let d := v.descent table
    v :: visitsAll table d.owner d.turns (.node l a cs :: above) cs

/-- The visits of a list of trees, given a turn for each. -/
def visitsAll (table : List Extractor) (owner : QName) (turns : List Turn)
    (above : List (Syntax.Tree Note)) : List (Syntax.Tree Note) → List Visit
  | [] => []
  | t :: ts =>
    let first := match turns.head?.getD .skip with
      | .skip => []
      | .visit => visits table owner none above t
      | .declarator kind => visits table owner (some kind) above t
    first ++ visitsAll table owner turns.tail above ts

end

/-- The visits of a whole file: the named children of the root are walked. -/
def walk (table : List Extractor) (module : QName) (t : Syntax.Tree Note) : List Visit :=
  let d := Descent.children module (.root t)
  visitsAll table d.owner d.turns [t] t.children

end CodeConcepts.Extract
