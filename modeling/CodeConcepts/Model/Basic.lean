import CodeConcepts.Concept.Kind

/-!
# Models

A model holds for every kind the list of its records, in the order in which they were added. It is
determined by what `get` says for each kind (`Model.ext_get`), and every operation is given by what
it does there.
-/

namespace CodeConcepts

/-- The records of a project or of a single file. -/
structure Model where
  projects : List Project
  modules : List Module
  functions : List FunctionDecl
  classes : List ClassDecl
  interfaces : List InterfaceDecl
  typeAliases : List TypeAliasDecl
  enums : List EnumDecl
  variableDecls : List VariableDecl
  imports : List ImportDecl
  exports : List ExportDecl
  edges : List Edge
  dependencies : List Dependency
  moduleDependencies : List ModuleDependency
deriving DecidableEq

namespace Model

/-- The records of a kind. -/
def get (m : Model) : (k : Kind) → List k.Record
  | .project => m.projects
  | .module => m.modules
  | .function => m.functions
  | .classDeclaration => m.classes
  | .interface => m.interfaces
  | .typeAlias => m.typeAliases
  | .enum => m.enums
  | .variable => m.variableDecls
  | .import => m.imports
  | .export => m.exports
  | .edge => m.edges
  | .dependency => m.dependencies
  | .moduleDependency => m.moduleDependencies

/-- The model with the given records of each kind. -/
def ofFn (f : (k : Kind) → List k.Record) : Model where
  projects := f .project
  modules := f .module
  functions := f .function
  classes := f .classDeclaration
  interfaces := f .interface
  typeAliases := f .typeAlias
  enums := f .enum
  variableDecls := f .variable
  imports := f .import
  exports := f .export
  edges := f .edge
  dependencies := f .dependency
  moduleDependencies := f .moduleDependency

@[simp] theorem get_ofFn (f : (k : Kind) → List k.Record) (k : Kind) : (ofFn f).get k = f k := by
  cases k <;> rfl

/-- A model is determined by its records of each kind. -/
theorem ext_get {m n : Model} (h : ∀ k, m.get k = n.get k) : m = n := by
  have h1 := h .project
  have h2 := h .module
  have h3 := h .function
  have h4 := h .classDeclaration
  have h5 := h .interface
  have h6 := h .typeAlias
  have h7 := h .enum
  have h8 := h .variable
  have h9 := h .import
  have h10 := h .export
  have h11 := h .edge
  have h12 := h .dependency
  have h13 := h .moduleDependency
  cases m; cases n
  simp_all [get]

/-- The model without records. -/
def empty : Model := ofFn fun _ => []

@[simp] theorem get_empty (k : Kind) : empty.get k = [] := by simp [empty]

/-- The model with other records of one kind. -/
def set (m : Model) (k : Kind) (records : List k.Record) : Model :=
  ofFn fun l => if h : k = l then h ▸ records else m.get l

@[simp] theorem get_set_self (m : Model) (k : Kind) (rs : List k.Record) :
    (m.set k rs).get k = rs := by
  simp [set]

theorem get_set_of_ne (m : Model) {k l : Kind} (rs : List k.Record) (h : k ≠ l) :
    (m.set k rs).get l = m.get l := by
  simp [set, h]

/-- The model with one more record. -/
def push (m : Model) (c : Concept) : Model := m.set c.kind (m.get c.kind ++ [c.record])

/-- The model of a list of concepts. -/
def ofConcepts (cs : List Concept) : Model := ofFn fun k => cs.filterMap (·.as? k)

/-- The records of both models, kind by kind, those of the first one in front. -/
def merge (m n : Model) : Model := ofFn fun k => m.get k ++ n.get k

@[simp] theorem get_merge (m n : Model) (k : Kind) : (m.merge n).get k = m.get k ++ n.get k := by
  simp [merge]

/-- Whether there are records of a kind. -/
def contains (m : Model) (k : Kind) : Bool := !(m.get k).isEmpty

/-- The kinds of which there are records, in their order. -/
def kinds (m : Model) : List Kind := Kind.all.filter m.contains

/-- Number of records of a kind. -/
def count (m : Model) (k : Kind) : Nat := (m.get k).length

/-- Whether there are no records. -/
def isEmpty (m : Model) : Bool := m.kinds.isEmpty

/-- All records with their kinds, in the order of kinds. -/
def concepts (m : Model) : List Concept :=
  Kind.all.flatMap fun k => (m.get k).map fun r => ⟨k, r⟩

/-- Number of records. -/
def size (m : Model) : Nat := m.concepts.length

instance : HasNames Model where
  names m := Kind.all.flatMap fun k => names (m.get k)
  mapNames f m := ofFn fun k => mapNames f (m.get k)
  visitNames f m := do
    return {
      projects := ← visitNames f m.projects
      modules := ← visitNames f m.modules
      functions := ← visitNames f m.functions
      classes := ← visitNames f m.classes
      interfaces := ← visitNames f m.interfaces
      typeAliases := ← visitNames f m.typeAliases
      enums := ← visitNames f m.enums
      variableDecls := ← visitNames f m.variableDecls
      imports := ← visitNames f m.imports
      exports := ← visitNames f m.exports
      edges := ← visitNames f m.edges
      dependencies := ← visitNames f m.dependencies
      moduleDependencies := ← visitNames f m.moduleDependencies }

/-- The qualified names that identify the records of a kind. -/
def identities (m : Model) (k : Kind) : List QName := (m.get k).filterMap k.fqn?

/-- The members of a list that occurred before in it. -/
def repeated {α : Type} [DecidableEq α] (seen : List α) : List α → List α
  | [] => []
  | x :: xs => if x ∈ seen then x :: repeated seen xs else repeated (x :: seen) xs

/-- Every name that a record of an identified kind shares with an earlier one of its kind. -/
def duplicates (m : Model) : List (Kind × QName) :=
  (Kind.all.filter (·.isIdentified)).flatMap fun k => (repeated [] (m.identities k)).map (k, ·)

end Model

end CodeConcepts
