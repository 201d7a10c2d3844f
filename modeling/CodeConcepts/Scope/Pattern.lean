import CodeConcepts.Scope.Binding
import CodeConcepts.Syntax.Node

/-!
# Binding patterns

The names that parameters, destructuring and loops introduce. Property keys and default values
introduce none.
-/

namespace CodeConcepts

variable {α : Type}

/-- The names a binding pattern introduces, from left to right. -/
def patternNames (t : Syntax.Tree α) : List String :=
  if t.kind = "identifier" ∨ t.kind = "shorthand_property_identifier_pattern" then [t.text]
  else if t.kind = "pair_pattern" then
    match _h : t.field? "value" with
    | some v => patternNames v
    | none => []
  else if t.kind = "assignment_pattern" ∨ t.kind = "object_assignment_pattern" then
    match _h : t.field? "left" with
    | some l => patternNames l
    | none => []
  else if t.kind = "object_pattern" ∨ t.kind = "array_pattern" ∨ t.kind = "rest_pattern" then
    t.namedChildren.attach.flatMap fun c => patternNames c.1
  else []
termination_by t.size
decreasing_by
  · exact Syntax.Tree.size_lt_of_field? _h
  · exact Syntax.Tree.size_lt_of_field? _h
  · exact Syntax.Tree.size_lt_of_mem_namedChildren c.2

namespace Scope

/-- The entries of a binding pattern: local variables. -/
def ofPattern (t : Syntax.Tree α) : Scope :=
  (patternNames t).map fun n => ⟨.value, n, .localVariable⟩

/-- The entries of the type parameters of a declaration. -/
def ofTypeParameters (t : Syntax.Tree α) : Scope :=
  match t.field? "type_parameters" with
  | none => []
  | some list => (list.namedChildren.filterMap (·.fieldText? "name")).flatMap (type · .typeParameter)

/-- The entries of a function: its type parameters and the names its parameters introduce. -/
def ofSignature (t : Syntax.Tree α) : Scope :=
  let listed := match t.field? "parameters" with
    | none => []
    | some list => (list.namedChildren.filterMap (·.field? "pattern")).flatMap ofPattern
  let single := match t.field? "parameter" with
    | none => []
    | some p => ofPattern p
  ofTypeParameters t ++ listed ++ single

end Scope

end CodeConcepts
