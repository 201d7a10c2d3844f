import CodeConcepts.QName

/-!
# Scopes

A scope lists what its names mean, separately for values and for types. The first entry of a name
counts.
-/

namespace CodeConcepts

/-- Values and types have names of their own. -/
inductive Space where
  | value
  | type
deriving DecidableEq, Repr

/-- What a name stands for. -/
inductive Meaning where
  /-- A declaration, of this file or imported. -/
  | declaration (fqn : QName)
  /-- A namespace or a module imported as a whole: its members have names below it. -/
  | space (fqn : QName)
  /-- A parameter or a variable inside a function. -/
  | localVariable
  | typeParameter
deriving DecidableEq, Repr

/-- An entry of a scope. -/
structure Entry where
  space : Space
  name : String
  meaning : Meaning
deriving DecidableEq, Repr

/-- The entries of a scope in the order in which they are made. -/
abbrev Scope : Type := List Entry

namespace Scope

/-- What a name means in a scope. -/
def find? (scope : Scope) (space : Space) (name : String) : Option Meaning :=
  (List.find? (fun e => e.space = space ∧ e.name = name) scope).map (·.meaning)

/-- An entry for a value. -/
def value (name : String) (m : Meaning) : Scope := [⟨.value, name, m⟩]

/-- An entry for a type. -/
def type (name : String) (m : Meaning) : Scope := [⟨.type, name, m⟩]

/-- Entries for a value and for a type. -/
def both (name : String) (m : Meaning) : Scope := [⟨.value, name, m⟩, ⟨.type, name, m⟩]

end Scope

/-- What the scope analysis notes on a node. -/
structure Note where
  /-- The name the node declares. -/
  declares : Option QName
  /-- The name of the function the node is an overload of. -/
  overloads : Option QName
  /-- The scope the node opens; a node that opens none has no entries. -/
  scope : Scope
deriving DecidableEq, Repr

/-- The note on a node that declares and opens nothing. -/
def Note.none : Note := ⟨.none, .none, []⟩

end CodeConcepts
