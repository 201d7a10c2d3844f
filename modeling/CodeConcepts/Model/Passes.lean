import CodeConcepts.Model.Dependencies
import CodeConcepts.Model.Exports

/-!
# Passes

What is done to a model once all files are in it: exports are followed, edges are counted, and
module dependencies are derived from the counts, in this order.
-/

namespace CodeConcepts

/-- A pass over the whole model. -/
inductive Pass where
  | exportResolution
  | dependencyAggregation
  | moduleDependencies
deriving DecidableEq, Repr

namespace Pass

/-- The passes in the order in which they run. -/
def all : List Pass := [.exportResolution, .dependencyAggregation, .moduleDependencies]

/-- The name of a pass. -/
def name : Pass → String
  | .exportResolution => "export-resolution"
  | .dependencyAggregation => "dependency-aggregation"
  | .moduleDependencies => "module-dependencies"

/-- What a pass does to a model. -/
def edit : Pass → Model.Edit Unit
  | .exportResolution => modify Model.resolveExports
  | .dependencyAggregation => Model.aggregateEdges
  | .moduleDependencies => modify Model.deriveModuleDependencies

/-- Runs one pass. -/
def run (p : Pass) (m : Model) : Except Violation Model :=
  match p.edit.run.run m with
  | (.ok _, n) => .ok n
  | (.error v, _) => .error v

end Pass

/-- Runs all passes. -/
def Model.complete (m : Model) : Except Violation Model := Pass.all.foldlM (fun m p => p.run m) m

end CodeConcepts
