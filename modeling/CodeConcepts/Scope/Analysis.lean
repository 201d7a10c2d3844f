import CodeConcepts.Scope.Allocation
import CodeConcepts.Scope.Pattern
import CodeConcepts.Text.Quoted

/-!
# Scope analysis

The analysis walks over a syntax tree and notes on each node the name it declares and the scope it
opens. Names follow the nesting of declarations: what is declared inside a declaration is named
below it.

```text
function outer() { function inner() {} }   "m".outer.inner
class C { m() { function helper() {} } }   "m".C.m.helper
```

What happens at one node is a `Plan`, made from the node alone: what it declares, what it enters
into the scope around it, the scope it opens and what is to be done with its children. The walk
itself only carries plans out: entries that the children make go into the scope the node opens, or
further outwards if it opens none.
-/

namespace CodeConcepts

variable {α : Type}

/-- The part a kind of node plays in the analysis. -/
inductive ScopeRole where
  | functionDeclaration
  | anonymousFunction
  | memberFunction
  | classDeclaration
  | classExpression
  | interfaceDeclaration
  | typeAliasDeclaration
  | enumDeclaration
  | namespaceDeclaration
  | variableStatement
  | importStatement
  | property
  | block
  | catchClause
  | forLoop
  | other
deriving DecidableEq, Repr

/-- The part a node of a kind plays. -/
def ScopeRole.ofKind (kind : String) : ScopeRole :=
  match kind with
  | "function_declaration" => .functionDeclaration
  | "generator_function_declaration" => .functionDeclaration
  | "function_signature" => .functionDeclaration
  | "function_expression" => .anonymousFunction
  | "function" => .anonymousFunction
  | "arrow_function" => .anonymousFunction
  | "generator_function" => .anonymousFunction
  | "function_type" => .anonymousFunction
  | "constructor_type" => .anonymousFunction
  | "call_signature" => .anonymousFunction
  | "construct_signature" => .anonymousFunction
  | "method_definition" => .memberFunction
  | "method_signature" => .memberFunction
  | "abstract_method_signature" => .memberFunction
  | "class_declaration" => .classDeclaration
  | "abstract_class_declaration" => .classDeclaration
  | "class" => .classExpression
  | "interface_declaration" => .interfaceDeclaration
  | "type_alias_declaration" => .typeAliasDeclaration
  | "enum_declaration" => .enumDeclaration
  | "internal_module" => .namespaceDeclaration
  | "module" => .namespaceDeclaration
  | "lexical_declaration" => .variableStatement
  | "variable_declaration" => .variableStatement
  | "import_statement" => .importStatement
  | "public_field_definition" => .property
  | "property_signature" => .property
  | "statement_block" => .block
  | "catch_clause" => .catchClause
  | "for_statement" => .forLoop
  | "for_in_statement" => .forLoop
  | _ => .other

/-- What is known of the place a node stands in. -/
structure Frame where
  /-- The declaration that nested declarations are named below. -/
  owner : QName
  /-- Whether variables declared here have names of their own. -/
  moduleLevel : Bool
  /-- Whether members declared here have names of their own. -/
  namedMembers : Bool
deriving DecidableEq, Repr

/-- The place inside a declaration or block. -/
def Frame.inside (owner : QName) : Frame := ⟨owner, false, false⟩

/-- What a container decides about one of its function declarations beforehand. -/
inductive Assignment where
  | declares (fqn : QName)
  | overloads (fqn : QName)
deriving DecidableEq, Repr

/-- What the walk does with a node. -/
inductive Task where
  /-- Nothing: the node and those below it keep empty notes. -/
  | skip
  | visit (assigned : Option Assignment)
  /-- Visit it as a declarator of variables. -/
  | declarator
  /-- Visit it as the statements of a module or namespace. -/
  | body
deriving DecidableEq, Repr

/-- What the analysis does at one node. -/
structure Plan where
  declares : Option QName
  overloads : Option QName
  /-- Entries for the scope around the node. -/
  outward : Scope
  /-- The scope the node opens, as far as the node itself fills it. -/
  opened : Option Scope
  /-- The place of the children. -/
  frame : Frame
  /-- One task for each child. -/
  tasks : List Task
  taken : Taken

namespace Scope

/-! ## Statement containers -/

/-- The declaration inside an `export` or `declare` statement; any other statement is its own. -/
def unwrap? (t : Syntax.Tree α) : Option (Syntax.Tree α) :=
  match t.kind with
  | "export_statement" => t.field? "declaration"
  | "ambient_declaration" => t.namedChildren.head?
  | _ => some t

/-- A function declared by a statement of a container. -/
structure DeclaredFunction where
  /-- Position of the statement among the children of the container. -/
  position : Nat
  name : String
  hasBody : Bool
deriving DecidableEq, Repr

/-- The function a statement declares, if it declares one. -/
def declaredFunction? (statement : Syntax.Tree α) (position : Nat) : Option DeclaredFunction := do
  let d ← unwrap? statement
  if statement.label.named ∧ ScopeRole.ofKind d.kind = .functionDeclaration then
    return ⟨position, ← d.fieldText? "name", d.kind ≠ "function_signature"⟩
  else none

/-- The functions the statements of a container declare. -/
def declaredFunctions (container : Syntax.Tree α) : List DeclaredFunction :=
  container.children.zipIdx.filterMap fun (c, i) => declaredFunction? c i

/-- The names of a list of functions, each once, in order of first occurrence. -/
def functionNames (fs : List DeclaredFunction) : List String :=
  fs.foldl (fun ns f => if ns.contains f.name then ns else ns ++ [f.name]) []

/-- The one of the functions of a name that stands for all of them: the last one with a body, else
the first one. -/
def primary? (fs : List DeclaredFunction) (name : String) : Option DeclaredFunction :=
  let same := fs.filter fun f => f.name == name
  (same.filter (·.hasBody)).getLast?.or same.head?

/-- Allocates names for the functions of a container. -/
def allocateFunctions (owner : QName) : List String → Taken → List (String × QName) × Taken
  | [], taken => ([], taken)
  | n :: ns, taken =>
    let (fqn, taken) := taken.allocate .function (owner.child n)
    let (rest, taken) := allocateFunctions owner ns taken
    ((n, fqn) :: rest, taken)

/-- What a container decides about the function at a position. -/
def assignment? (fs : List DeclaredFunction) (fqns : List (String × QName)) (position : Nat) :
    Option Assignment := do
  let f ← fs.find? fun f => f.position == position
  let fqn ← (fqns.find? fun p => p.1 == f.name).map (·.2)
  return if primary? fs f.name = some f then .declares fqn else .overloads fqn

/-! ## Tasks -/

/-- Visit all named children. -/
def visitNamed (t : Syntax.Tree α) : List Task :=
  t.children.map fun c => if c.label.named then .visit none else .skip

/-- Visit no child. -/
def skipAll (t : Syntax.Tree α) : List Task := t.children.map fun _ => .skip

/-- Visit all named children, and hand an assignment on to the declaration inside a wrapper. -/
def visitWrapped (t : Syntax.Tree α) (assigned : Option Assignment) : List Task :=
  let target := match t.kind with
    | "export_statement" => t.children.findIdx? fun c => c.label.roles.contains "declaration"
    | "ambient_declaration" => t.children.findIdx? fun c => c.label.named
    | _ => none
  t.children.zipIdx.map fun (c, i) =>
    if c.label.named then .visit (if target = some i then assigned else none) else .skip

/-- Visit the named statements of a container with what it decides about them. -/
def visitStatements (t : Syntax.Tree α) (fs : List DeclaredFunction) (fqns : List (String × QName)) :
    List Task :=
  t.children.zipIdx.map fun (c, i) =>
    if c.label.named then .visit (assignment? fs fqns i) else .skip

/-- Visit only the body of a namespace. -/
def visitBody (t : Syntax.Tree α) : List Task :=
  match t.children.findIdx? fun c => c.label.roles.contains "body" with
  | none => skipAll t
  | some b => t.children.zipIdx.map fun (_, i) => if i = b then .body else .skip

/-- Visit all named children as declarators. -/
def visitDeclarators (t : Syntax.Tree α) : List Task :=
  t.children.map fun c => if c.label.named then .declarator else .skip

/-! ## Imports -/

/-- The entries that one part of an import clause makes. -/
def ofImportPart (target : QName) (part : Syntax.Tree α) : Scope :=
  match part.kind with
  | "identifier" => both part.text (.declaration (target.child "default"))
  | "namespace_import" =>
    match part.namedChildren.head? with
    | some n => both n.text (.space target)
    | none => []
  | "named_imports" =>
    part.namedChildren.flatMap fun specifier =>
      match specifier.fieldText? "name" with
      | none => []
      | some name =>
        both ((specifier.fieldText? "alias").getD name)
          (.declaration (target.child (Text.plainName name)))
  | _ => []

/-- The entry of `import x = require("y")`. -/
def ofRequire (resolve : String → QName) (clause : Syntax.Tree α) : Scope :=
  match clause.namedChildren.head?, clause.fieldText? "source" with
  | some n, some source => both n.text (.space (resolve (Text.quotedContent source)))
  | _, _ => []

/-- The entries of an import statement; `resolve` gives the module a specifier denotes. -/
def ofImport (resolve : String → QName) (t : Syntax.Tree α) : Scope :=
  match t.fieldText? "source" with
  | some source =>
    let target := resolve (Text.quotedContent source)
    (t.namedChildren.filter (·.kind == "import_clause")).flatMap fun clause =>
      clause.namedChildren.flatMap (ofImportPart target)
  | none =>
    (t.namedChildren.filter (·.kind == "import_require_clause")).flatMap (ofRequire resolve)

end Scope

/-! ## Plans -/

namespace Plan

open Scope

/-- Nothing is declared or opened; the children are visited in the same place. -/
def passThrough (frame : Frame) (t : Syntax.Tree α) (assigned : Option Assignment) (taken : Taken) : Plan where
  declares := none
  overloads := none
  outward := []
  opened := none
  frame := frame
  tasks := visitWrapped t assigned
  taken := taken

/-- Statements: functions are allocated first, so that overloads share one name and calls may come
before the declaration. -/
def container (frame : Frame) (t : Syntax.Tree α) (taken : Taken) : Plan :=
  let fs := declaredFunctions t
  let (fqns, taken) := allocateFunctions frame.owner (functionNames fs) taken
  { declares := none
    overloads := none
    outward := []
    opened := some (fqns.flatMap fun p => value p.1 (.declaration p.2))
    frame := frame
    tasks := visitStatements t fs fqns
    taken := taken }

/-- A node that opens a scope with the given entries. -/
def opening (owner : QName) (entries : Scope) (t : Syntax.Tree α) (taken : Taken) : Plan where
  declares := none
  overloads := none
  outward := []
  opened := some entries
  frame := .inside owner
  tasks := visitNamed t
  taken := taken

/-- A function declaration. One that no container has decided about is allocated here. -/
def functionDeclaration (frame : Frame) (t : Syntax.Tree α) (assigned : Option Assignment) (taken : Taken) :
    Plan :=
  match assigned with
  | some (.declares n) => { opening n (ofSignature t) t taken with declares := some n }
  | some (.overloads n) => { opening n (ofSignature t) t taken with overloads := some n }
  | none =>
    match t.fieldText? "name" with
    | none => opening frame.owner (ofSignature t) t taken
    | some name =>
      let (n, taken) := taken.allocate .function (frame.owner.child name)
      { opening n (ofSignature t) t taken with
        declares := some n
        outward := value name (.declaration n) }

/-- A function expression or a function type; its own name is local to it. -/
def anonymousFunction (frame : Frame) (t : Syntax.Tree α) (taken : Taken) : Plan :=
  let own := match t.fieldText? "name" with
    | some name => value name .localVariable
    | none => []
  opening frame.owner (own ++ ofSignature t) t taken

/-- The name a member declares, where members have names. -/
def memberName? (frame : Frame) (t : Syntax.Tree α) : Option QName :=
  if frame.namedMembers then (t.fieldText? "name").map frame.owner.child else none

/-- A method or its signature. -/
def memberFunction (frame : Frame) (t : Syntax.Tree α) (taken : Taken) : Plan :=
  let declared := memberName? frame t
  { opening (declared.getD frame.owner) (ofSignature t) t taken with declares := declared }

/-- A field or a property. -/
def property (frame : Frame) (t : Syntax.Tree α) (taken : Taken) : Plan :=
  let declared := memberName? frame t
  { declares := declared
    overloads := none
    outward := []
    opened := none
    frame := .inside (declared.getD frame.owner)
    tasks := visitNamed t
    taken := taken }

/-- A class, interface or type alias: `enter` makes the entries for its name. -/
def typed (kind : Kind) (enter : String → Meaning → Scope) (namedMembers : Bool) (frame : Frame)
    (t : Syntax.Tree α) (taken : Taken) : Plan :=
  match t.fieldText? "name" with
  | none => passThrough frame t none taken
  | some name =>
    let (n, taken) := taken.allocate kind (frame.owner.child name)
    { declares := some n
      overloads := none
      outward := enter name (.declaration n)
      opened := some (ofTypeParameters t)
      frame := ⟨n, false, namedMembers⟩
      tasks := visitNamed t
      taken := taken }

/-- A class expression: its name is local to it. -/
def classExpression (frame : Frame) (t : Syntax.Tree α) (taken : Taken) : Plan :=
  let own := match t.fieldText? "name" with
    | some name => both name .localVariable
    | none => []
  opening frame.owner (own ++ ofTypeParameters t) t taken

/-- An enumeration. -/
def enumDeclaration (frame : Frame) (t : Syntax.Tree α) (taken : Taken) : Plan :=
  match t.fieldText? "name" with
  | none => passThrough frame t none taken
  | some name =>
    let (n, taken) := taken.allocate .enum (frame.owner.child name)
    { declares := some n
      overloads := none
      outward := both name (.declaration n)
      opened := none
      frame := .inside n
      tasks := visitNamed t
      taken := taken }

/-- A namespace, whose dotted name stands for nested ones, or the description of a package by its
quoted name. Only its body is visited. -/
def namespaceDeclaration (frame : Frame) (t : Syntax.Tree α) (taken : Taken) : Plan :=
  match t.field? "name" with
  | none => passThrough frame t none taken
  | some nameNode =>
    let name := nameNode.text
    let (n, outward) :=
      if nameNode.kind = "string" then (QName.ofModule (Text.quotedContent name), [])
      else
        let head := Text.trim (Text.headSegment '.' name)
        (frame.owner.child (Text.withoutBlanks name), both head (.space (frame.owner.child head)))
    { declares := some n
      overloads := none
      outward := outward
      opened := none
      frame := ⟨n, true, false⟩
      tasks := visitBody t
      taken := taken }

/-- A declarator of variables. A single name at the level of modules is a declaration; all other
names are local. -/
def variableDeclarator (frame : Frame) (t : Syntax.Tree α) (taken : Taken) : Plan :=
  match t.field? "name" with
  | none => { passThrough frame t none taken with tasks := skipAll t }
  | some nameNode =>
    if frame.moduleLevel ∧ nameNode.kind = "identifier" then
      let (n, taken) := taken.allocate .variable (frame.owner.child nameNode.text)
      { declares := some n
        overloads := none
        outward := value nameNode.text (.declaration n)
        opened := none
        frame := { frame with owner := n }
        tasks := visitNamed t
        taken := taken }
    else { passThrough frame t none taken with outward := ofPattern nameNode }

/-- A loop; the names its head declares are local to it. -/
def forLoop (frame : Frame) (t : Syntax.Tree α) (taken : Taken) : Plan :=
  let names := match t.field? "kind", t.field? "left" with
    | some _, some left => ofPattern left
    | _, _ => []
  opening frame.owner names t taken

/-- A catch clause with its parameter. -/
def catchClause (frame : Frame) (t : Syntax.Tree α) (taken : Taken) : Plan :=
  let names := match t.field? "parameter" with
    | some p => ofPattern p
    | none => []
  opening frame.owner names t taken

/-- The plan for a node that is visited. -/
def ofNode (resolve : String → QName) (frame : Frame) (assigned : Option Assignment) (t : Syntax.Tree α)
    (taken : Taken) : Plan :=
  match ScopeRole.ofKind t.kind with
  | .functionDeclaration => functionDeclaration frame t assigned taken
  | .anonymousFunction => anonymousFunction frame t taken
  | .memberFunction => memberFunction frame t taken
  | .classDeclaration => typed .classDeclaration both true frame t taken
  | .classExpression => classExpression frame t taken
  | .interfaceDeclaration => typed .interface type true frame t taken
  | .typeAliasDeclaration => typed .typeAlias type false frame t taken
  | .enumDeclaration => enumDeclaration frame t taken
  | .namespaceDeclaration => namespaceDeclaration frame t taken
  | .variableStatement => { passThrough frame t none taken with tasks := visitDeclarators t }
  | .importStatement =>
    { passThrough frame t none taken with outward := ofImport resolve t, tasks := skipAll t }
  | .property => property frame t taken
  | .block => container (.inside frame.owner) t taken
  | .catchClause => catchClause frame t taken
  | .forLoop => forLoop frame t taken
  | .other => passThrough frame t assigned taken

/-- The plan for a node with a task. -/
def ofTask (resolve : String → QName) (task : Task) (frame : Frame) (t : Syntax.Tree α) (taken : Taken) : Plan :=
  match task with
  | .skip => { passThrough frame t none taken with tasks := skipAll t }
  | .visit assigned => ofNode resolve frame assigned t taken
  | .declarator =>
    if t.kind = "variable_declarator" then variableDeclarator frame t taken
    else ofNode resolve frame none t taken
  | .body => container frame t taken

/-- The note a plan leaves on its node, given the entries its children made. -/
def note (p : Plan) (inner : Scope) : Note :=
  ⟨p.declares, p.overloads, match p.opened with | some own => own ++ inner | none => []⟩

/-- The entries that go into the scope around the node. -/
def outwardWith (p : Plan) (inner : Scope) : Scope :=
  match p.opened with
  | some _ => p.outward
  | none => p.outward ++ inner

end Plan

/-! ## The walk -/

/-- What the analysis of trees returns. -/
structure Annotated (τ : Type) where
  result : τ
  /-- Entries for the scope around them. -/
  outward : Scope
  taken : Taken

mutual

/-- Carries out the plan for a tree. -/
def annotate (resolve : String → QName) (task : Task) (frame : Frame) (taken : Taken) :
    Syntax.Tree α → Annotated (Syntax.Tree Note)
  | .node label a children =>
    let plan := Plan.ofTask resolve task frame (.node label a children) taken
    let inner := annotateAll resolve plan.tasks plan.frame plan.taken children
    ⟨.node label (plan.note inner.outward) inner.result, plan.outwardWith inner.outward, inner.taken⟩

/-- Carries out the tasks for a list of trees, from left to right. -/
def annotateAll (resolve : String → QName) (tasks : List Task) (frame : Frame) (taken : Taken) :
    List (Syntax.Tree α) → Annotated (List (Syntax.Tree Note))
  | [] => ⟨[], [], taken⟩
  | t :: ts =>
    let first := annotate resolve (tasks.head?.getD .skip) frame taken t
    let rest := annotateAll resolve tasks.tail frame first.taken ts
    ⟨first.result :: rest.result, first.outward ++ rest.outward, rest.taken⟩

end

/-- The tree of a module with the notes of the scope analysis. -/
def analyse (resolve : String → QName) (module : QName) (t : Syntax.Tree α) : Syntax.Tree Note :=
  (annotate resolve .body ⟨module, true, false⟩ [] t).result

end CodeConcepts
