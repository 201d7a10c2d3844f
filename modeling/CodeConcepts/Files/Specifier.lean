import CodeConcepts.Files.FileTree
import CodeConcepts.QName

/-!
# Module specifiers

A specifier that is a path denotes the first of several files that exists; if none does, it denotes
the path with a TypeScript extension, so that the reference is not lost. Any other specifier names a
package and denotes itself.
-/

namespace CodeConcepts.Specifier

/-- Whether a specifier is a path. -/
def isPath (s : String) : Bool :=
  Text.startsWith "./" s || Text.startsWith "../" s || s == "." || s == ".." ||
    Text.startsWith "/" s

/-- Extensions of compiled files with those of their sources. -/
def compiledExtensions : List (String × String) :=
  [(".js", ".ts"), (".jsx", ".tsx"), (".mjs", ".mts"), (".cjs", ".cts")]

/-- Whether a text ends in an extension of sources. -/
def hasSourceExtension (s : String) : Bool :=
  [".ts", ".tsx", ".mts", ".cts"].any fun e => Text.endsWith e s

/-- The sources that a text ending in an extension of compiled files may stand for. -/
def sourcesOfCompiled (s : String) : List String :=
  compiledExtensions.filterMap fun e => Text.replaceEnd? e.1 e.2 s

/-- The files a path may stand for, the first choice first. -/
def candidates (base : Path) : List String :=
  let text := base.display
  sourcesOfCompiled text ++
    (if hasSourceExtension text then [base.text] else []) ++
    [".ts", ".tsx", ".d.ts"].map (text ++ ·) ++
    ["index.ts", "index.tsx"].map fun name => (base.join (.ofText name)).text

/-- What a path stands for if none of its candidates exists. -/
def fallback (base : Path) : String :=
  let text := base.display
  if hasSourceExtension text then base.text else (sourcesOfCompiled text).headD (text ++ ".ts")

/-- The module that a specifier denotes in a file of a directory. -/
def resolve (t : FileTree) (directory : Path) (s : String) : QName :=
  if isPath s then
    let base := (directory.join (.ofText s)).normalise
    .ofModule (((candidates base).find? fun c => t.isFile (.ofText c)).getD (fallback base))
  else .ofModule s

end CodeConcepts.Specifier
