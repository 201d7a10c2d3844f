import CodeConcepts.Model.Decode
import CodeConcepts.Model.Passes
import CodeConcepts.Model.Unify

/-!
# Catalogues

A catalogue is a model as it is kept while it is worked on: concepts of all kinds are entered under
kinds, and a kind need not be entered at all. Its form alone excludes neither a kind that is entered
without concepts nor a concept under a kind that is not its own, so it is for the operations to keep
both out.
-/

namespace CodeConcepts

/-- The concept with every name replaced. -/
def Concept.rename (f : QName → QName) (x : Concept) : Concept := ⟨x.kind, mapNames f x.record⟩

/-- The concepts entered under each kind that is entered. -/
structure Catalogue where
  find? : Kind → Option (List Concept)

namespace Catalogue

/-- No kind is entered. -/
def new : Catalogue := ⟨fun _ => none⟩

/-- The concepts under a kind; a kind that is not entered reads as empty. -/
def get (c : Catalogue) (k : Kind) : List Concept := (c.find? k).getD []

/-- Whether a kind is entered. -/
def contains (c : Catalogue) (k : Kind) : Bool := (c.find? k).isSome

/-- The kinds that are entered, in their order, with their concepts. -/
def entries (c : Catalogue) : List (Kind × List Concept) :=
  Kind.all.filterMap fun k => (c.find? k).map (k, ·)

/-- Whether no kind is entered. -/
def isEmpty (c : Catalogue) : Bool := c.entries.isEmpty

/-- Number of concepts. -/
def size (c : Catalogue) : Nat := c.entries.foldl (fun n e => n + e.2.length) 0

/-- Enters concepts under a kind, in place of those that are there. -/
def insert (c : Catalogue) (k : Kind) (cs : List Concept) : Catalogue :=
  ⟨fun l => if l = k then some cs else c.find? l⟩

/-- Strikes a kind out. -/
def erase (c : Catalogue) (k : Kind) : Catalogue := ⟨fun l => if l = k then none else c.find? l⟩

/-- Adds concepts under a kind, which is entered if it was not. -/
def extend (c : Catalogue) (k : Kind) (cs : List Concept) : Catalogue :=
  c.insert k (c.get k ++ cs)

/-- Adds a concept under its kind. -/
def push (c : Catalogue) (x : Concept) : Catalogue := c.extend x.kind [x]

/-- The concepts under a kind, and the catalogue with the kind struck out. -/
def take (c : Catalogue) (k : Kind) : List Concept × Catalogue := (c.get k, c.erase k)

/-- Puts concepts under a kind, in place of those that are there; without any the kind is struck
out. -/
def set (c : Catalogue) (k : Kind) (cs : List Concept) : Catalogue :=
  if cs.isEmpty then c.erase k else c.insert k cs

/-- The first catalogue with the entries of the second one added. -/
def merge (c d : Catalogue) : Catalogue := d.entries.foldl (fun c e => c.extend e.1 e.2) c

/-- The records that are found under their kinds. -/
def model (c : Catalogue) : Model := .ofFn fun k => (c.get k).filterMap (·.as? k)

/-- The catalogue with every name replaced. -/
def rename (f : QName → QName) (c : Catalogue) : Catalogue :=
  ⟨fun k => (c.find? k).map (List.map (Concept.rename f))⟩

/-! ## Reading -/

/-- Reads the records of one kind, one after the other. -/
def readRecords (k : Kind) (c : Catalogue) (items : List Json) : Except Model.ReadError Catalogue :=
  items.foldlM (fun c j => match k.decode? j with
    | some r => .ok (c.push ⟨k, r⟩)
    | none => .error .malformed) c

/-- Reads the entry of a kind. -/
def readKind (c : Catalogue) (id : String) (records : Json) : Except Model.ReadError Catalogue :=
  match Kind.ofId? id with
  | none => .error (.violation (.unknownKind id))
  | some k =>
    match records with
    | .array items => c.readRecords k items
    | _ => .error (.violation (.notAList id))

/-- A catalogue from JSON. -/
def decode : Json → Except Model.ReadError Catalogue
  | .object members => members.foldlM (fun c p => c.readKind p.1 p.2) new
  | _ => .error .malformed

/-- The catalogue a text stands for. -/
def ofText (text : String) : Except Model.ReadError Catalogue :=
  match Json.parse? Json.nestingLimit text with
  | some j => decode j
  | none => .error .malformed

/-! ## Unification and passes -/

/-- The catalogue, if no name is used twice. -/
def requireDistinct (c : Catalogue) : Except Violation Catalogue :=
  match c.model.duplicates with
  | [] => .ok c
  | (k, n) :: _ => .error (.duplicateName k n)

/-- The catalogue with all names relative to `root`; for the empty root with its projects folded into
one. -/
def unify (root : String) (c : Catalogue) : Except Violation Catalogue :=
  let root := Model.unifyRoot root
  if root.isEmpty then
    let (projects, rest) := c.take .project
    match Model.foldProjects (projects.filterMap (·.as? .project)) with
    | .ok ps => (rest.set .project (ps.map (Concept.mk .project))).requireDistinct
    | .error v => .error v
  else (c.rename (QName.rebase root)).requireDistinct

/-- Takes the concepts of a kind out and puts them back with more records behind them. -/
def addRecords (c : Catalogue) (k : Kind) (rs : List k.Record) : Catalogue :=
  let (kept, rest) := c.take k
  rest.set k (kept ++ rs.map (Concept.mk k))

/-- Turns all edges into counted dependencies. There has to be exactly one project. -/
def aggregateEdges (c : Catalogue) : Except Violation Catalogue :=
  let found := (c.get .project).length
  if found ≠ 1 then .error (.projectCount found)
  else
    let m := c.model
    let counted := (Model.tallyEdges m.edges).map (Model.dependencyOf m.labels)
    .ok ((c.take .edge).2.addRecords .dependency counted)

/-- Adds the dependencies between modules. -/
def deriveModuleDependencies (c : Catalogue) : Catalogue :=
  let m := c.model
  let counted := (Model.tallyModules (m.modules.map (·.fqn)) m.dependencies).map fun e =>
    (⟨e.1.1, e.1.2, e.2⟩ : ModuleDependency)
  c.addRecords .moduleDependency counted

/-- Replaces every name by that of the declaration it denotes. -/
def resolveExports (c : Catalogue) : Catalogue :=
  let t := ExportTable.ofModel c.model
  c.rename fun n => ((t.resolve n).run []).1

/-- Runs one pass. -/
def run (p : Pass) (c : Catalogue) : Except Violation Catalogue :=
  match p with
  | .exportResolution => .ok c.resolveExports
  | .dependencyAggregation => c.aggregateEdges
  | .moduleDependencies => .ok c.deriveModuleDependencies

end Catalogue

end CodeConcepts
