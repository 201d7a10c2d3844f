import CodeConcepts.Model.Basic
import CodeConcepts.Model.Violation

/-!
# Counted dependencies

References are counted by pair of source and target in a `Tally`, which lists the pairs in
increasing order. Edges are counted into dependencies, and dependencies between declarations into
dependencies between modules.
-/

namespace CodeConcepts

/-- Counts by pair of names, in increasing order of the pairs. -/
abbrev Tally : Type := List ((QName × QName) × Nat)

namespace Tally

/-- The order of pairs: by the first name, then by the second. -/
def precedes (a b : QName × QName) : Bool := a.1 < b.1 || (a.1 == b.1 && a.2 < b.2)

/-- Counts have 64 bits. -/
def wordSize : Nat := Nat.pow 2 64

/-- Adds to the count of a pair. -/
def add (pair : QName × QName) (n : Nat) : Tally → Tally
  | [] => [(pair, n % wordSize)]
  | (q, k) :: rest =>
    if precedes pair q then (pair, n % wordSize) :: (q, k) :: rest
    else if pair = q then (q, (k + n) % wordSize) :: rest
    else (q, k) :: add pair n rest

/-- The counts of a list of pairs. -/
def ofList (pairs : List ((QName × QName) × Nat)) : Tally :=
  pairs.foldl (fun t p => t.add p.1 p.2) []

end Tally

namespace Model

/-- Work on a model in place that may fail. What was done before a failure stays done. -/
abbrev Edit : Type → Type := ExceptT Violation (StateM Model)

/-! ## Labels -/

/-- The names the parts of a record declare, with the word for what they are. -/
def partLabels : (k : Kind) → k.Record → List (QName × String)
  | .classDeclaration, d =>
    d.constructors.map (fun c => (c.fqn, "constructor-declaration")) ++
      d.properties.map (fun p => (p.fqn, "property-declaration")) ++
      d.methods.map (fun m => (m.fqn, "method-declaration")) ++
      d.accessors.map (fun a => (a.fqn, "accessor-property"))
  | .interface, d =>
    d.properties.map (fun p => (p.fqn, "property-declaration")) ++
      d.methods.map (fun m => (m.fqn, "method-declaration"))
  | .enum, d => d.members.map fun m => (m.fqn, "enum-member")
  | _, _ => []

/-- The names a record declares: its own, then those of its parts. -/
def recordLabels (k : Kind) (r : k.Record) : List (QName × String) :=
  (k.fqn? r).toList.map (fun n => (n, k.id)) ++ partLabels k r

/-- All declared names with the word for what declares them, in the order of the records. -/
def labels (m : Model) : List (QName × String) :=
  (Kind.all.filter (·.isIdentified)).flatMap fun k => (m.get k).flatMap (recordLabels k)

/-- The word for what declares a name: the last declaration counts. -/
def labelIn? (labels : List (QName × String)) (n : QName) : Option String :=
  (labels.reverse.find? fun l => l.1 == n).map (·.2)

/-! ## Dependencies -/

/-- The references counted by source and target; a declaration does not depend on itself. -/
def tallyEdges (edges : List Edge) : Tally :=
  Tally.ofList ((edges.filter fun e => e.source ≠ e.target).map fun e => ((e.source, e.target), 1))

/-- The dependency a count stands for. -/
def dependencyOf (labels : List (QName × String)) (entry : (QName × QName) × Nat) : Dependency where
  source := entry.1.1
  sourceType := labelIn? labels entry.1.1
  target := entry.1.2
  targetType := (labelIn? labels entry.1.2).getD externalTarget
  cardinality := entry.2

/-- Turns all edges into counted dependencies. There has to be exactly one project. -/
def aggregateEdges : Edit Unit := do
  let m ← getThe Model
  if m.projects.length ≠ 1 then
    throw (.projectCount m.projects.length)
  let counted := (tallyEdges m.edges).map (dependencyOf m.labels)
  modify fun m => m.set .edge []
  modify fun m => m.set .dependency (m.dependencies ++ counted)

/-! ## Module dependencies -/

/-- The pair of modules a dependency crosses, if both are in the list and differ. -/
def crossing? (modules : List QName) (d : Dependency) : Option (QName × QName) :=
  match d.source.moduleName?, d.target.moduleName? with
  | some s, some t => if s ≠ t ∧ s ∈ modules ∧ t ∈ modules then some (s, t) else none
  | _, _ => none

/-- The dependencies counted by pair of modules. -/
def tallyModules (modules : List QName) (ds : List Dependency) : Tally :=
  Tally.ofList (ds.filterMap fun d => (crossing? modules d).map (·, d.cardinality))

/-- Adds the dependencies between modules. -/
def deriveModuleDependencies (m : Model) : Model :=
  let counted := (tallyModules (m.modules.map (·.fqn)) m.dependencies).map fun e =>
    (⟨e.1.1, e.1.2, e.2⟩ : ModuleDependency)
  m.set .moduleDependency (m.moduleDependencies ++ counted)

end Model

end CodeConcepts
