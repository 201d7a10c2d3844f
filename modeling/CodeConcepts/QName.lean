import CodeConcepts.Text.Blank
import CodeConcepts.Text.Segments

/-!
# Qualified names

A declaration is known by the quoted path of its module followed by the path of its nesting inside
the module, `"./src/main.ts".Outer.inner`. Three shapes occur:

* declarations of the project: the module path is absolute while a file is read and starts with
  `./` once it is expressed relative to the project root;
* members of packages: the module path is the package's name, `"lodash".debounce`;
* unresolved names: there is no module part at all, `Promise`.

The accessors are total on every text: a text that has none of these shapes has no module part.
-/

namespace CodeConcepts

/-- A qualified name, held as its text. -/
structure QName where
  text : String
deriving DecidableEq, Repr, Hashable, Inhabited

namespace QName

/-- The order of qualified names is that of their texts. -/
instance : LT QName := ⟨fun a b => a.text < b.text⟩

instance (a b : QName) : Decidable (a < b) := inferInstanceAs (Decidable (a.text < b.text))

instance : Ord QName := ⟨fun a b => compare a.text b.text⟩

/-- The name of a module: its path in quotes, with slashes only. -/
def ofModule (path : String) : QName :=
  ⟨String.ofList ('"' :: (path.toList.map (fun c => if c = '\\' then '/' else c) ++ ['"']))⟩

/-- A name without module part, for what no scope declares. -/
def bare (name : String) : QName := ⟨name⟩

/-- The name of something nested directly in what `n` names. -/
def child (n : QName) (name : String) : QName := ⟨n.text ++ "." ++ name⟩

/-- The module path without its quotes and what follows it, if the text starts with a quoted
module path. -/
def split? (n : QName) : Option (List Char × List Char) :=
  match n.text.toList with
  | '"' :: cs =>
    match cs.dropWhile (· ≠ '"') with
    | _ :: rest => some (cs.takeWhile (· ≠ '"'), rest)
    | [] => none
  | _ => none

/-- The path of the module part. -/
def modulePath? (n : QName) : Option String := n.split?.map fun (path, _) => String.ofList path

/-- The nesting path after the module part, `Outer.inner`. -/
def memberPath? (n : QName) : Option String :=
  match n.split? with
  | some (_, '.' :: members) => some (String.ofList members)
  | _ => none

/-- The name of the declaring module. -/
def moduleName? (n : QName) : Option QName := n.modulePath?.map ofModule

/-- Whether the name is that of a module. -/
def isModule (n : QName) : Bool :=
  match n.split? with
  | some (_, []) => true
  | _ => false

/-- Whether the module part is a path relative to the project root. -/
def isProjectLocal (n : QName) : Bool :=
  match n.split? with
  | some ('.' :: '/' :: _, _) => true
  | _ => false

/-- The outermost segment of the nesting path. -/
def headMember? (n : QName) : Option String := n.memberPath?.map (Text.headSegment '.')

/-- Puts `target` in the place of the module part and the outermost segment. -/
def withHead (n target : QName) : QName :=
  match n.memberPath?.bind (Text.afterFirst? '.') with
  | some rest => target.child rest
  | none => target

/-! ## Re-expressing names relative to a root -/

/-- A root without the slashes at its end. -/
def trimRoot (root : String) : List Char := Text.dropEndWhile (· == '/') root.toList

/-- What remains of `cs` after `start`, if it starts so. -/
def stripStart? : List Char → List Char → Option (List Char)
  | [], cs => some cs
  | _ :: _, [] => none
  | s :: start, c :: cs => if s = c then stripStart? start cs else none

/-- The components of a path. -/
def components (path : List Char) : List (List Char) :=
  (Text.pieces '/' path).filter fun p => !p.isEmpty

/-- The lists without their longest common beginning. -/
def dropCommon : List (List Char) → List (List Char) → List (List Char) × List (List Char)
  | a :: as, b :: bs => if a = b then dropCommon as bs else (a :: as, b :: bs)
  | as, bs => (as, bs)

/-- The way from the directory `root` to a path outside it, both absolute. -/
def outside (path root : List Char) : List Char :=
  let (down, up) := dropCommon (components path) (components root)
  Text.glue '/' (up.map (fun _ => ['.', '.']) ++ down)

/-- A module path relative to `root`: a path below the root starts with `./`, an absolute path
elsewhere with `..`, and any other path, such as that of a package, is not affected. -/
def relativePath? (path root : List Char) : Option (List Char) :=
  match (stripStart? root path).bind (stripStart? ['/']) with
  | some below => some ('.' :: '/' :: below)
  | none =>
    match path, root with
    | '/' :: _, '/' :: _ => some (outside path root)
    | _, _ => none

/-- The name with its module part relative to `root`. Names without an absolute module path, and
every name for the empty root, stay as they are. -/
def rebase (root : String) (n : QName) : QName :=
  match trimRoot root, n.split? with
  | [], _ => n
  | _, none => n
  | root, some (path, _) =>
    match relativePath? path root with
    | none => n
    | some relative =>
      let m := ofModule (String.ofList relative)
      match n.memberPath? with
      | some members => m.child members
      | none => m

end QName

end CodeConcepts
