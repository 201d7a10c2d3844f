import CodeConcepts.Scope.Binding
import CodeConcepts.Syntax.Node

/-!
# Lookup

An identifier means what the innermost scope around it says that has an entry for it.
-/

namespace CodeConcepts

/-- A node of an analysed tree. -/
abbrev ScopedNode : Type := Syntax.Node Note

/-- What an identifier refers to. -/
inductive Resolution where
  | declaration (fqn : QName)
  | localVariable
  | typeParameter (name : String)
  /-- No scope has the name; it stands for itself. -/
  | unresolved (fqn : QName)
deriving DecidableEq, Repr

/-- The name referred to, unless the reference stays inside its function. -/
def Resolution.target? : Resolution → Option QName
  | .declaration n => some n
  | .unresolved n => some n
  | .localVariable => none
  | .typeParameter _ => none

namespace ScopedNode

/-- What a name means at a node: the scopes of the node itself and of those above it are asked in
turn. -/
def lookup? (n : ScopedNode) (space : Space) (name : String) : Option Meaning :=
  (n.tree :: n.above).findSome? fun t => t.note.scope.find? space name

/-- What the identifier at a node refers to. -/
def resolve (space : Space) (n : ScopedNode) : Resolution :=
  match lookup? n space n.text with
  | some (.declaration fqn) => .declaration fqn
  | some (.space fqn) => .declaration fqn
  | some .localVariable => .localVariable
  | some .typeParameter => .typeParameter n.text
  | none => .unresolved (.bare n.text)

/-- The namespace an identifier stands for, as a value or else as a type. -/
def namespace? (n : ScopedNode) : Option QName :=
  if n.kind = "identifier" then
    [Space.value, .type].findSome? fun space =>
      match lookup? n space n.text with
      | some (.space fqn) => some fqn
      | _ => none
  else none

/-- The name of a member of the namespace that an identifier stands for. -/
def resolveMember? (n : ScopedNode) (member : String) : Option QName :=
  (namespace? n).map (·.child member)

/-- The name a node declares. -/
def declares? (n : ScopedNode) : Option QName := n.note.declares

/-- The name of the function a node is an overload of. -/
def overloads? (n : ScopedNode) : Option QName := n.note.overloads

end ScopedNode

end CodeConcepts
