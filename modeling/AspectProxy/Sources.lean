import AspectProxy.Sources.Builtin
import AspectProxy.Sources.Error
import AspectProxy.Sources.FileTree

/-!
Where the sources of classes are. A place is a memory of named sources, some directory trees, or what
is built in; of several places the first that has a source for a class counts.
-/

namespace AspectProxy

/-- Where a source was found. -/
inductive Origin where
  | file (path : String)
  | memory
  | builtin
  deriving DecidableEq, Repr

def Origin.text : Origin → String
  | file path => path
  | memory => "<memory>"
  | builtin => "<builtin>"

/-- The source of a class. -/
structure Source where
  className : ClassName
  text : String
  origin : Origin

/-- A directory under which packages are directories. -/
structure SourceRoot where
  path : String
  entries : List FileEntry

inductive SourcePlace where
  | memory (sources : List (ClassName × String))
  | files (roots : List SourceRoot) (extension : String)
  | builtin

/-- The name of the built-in aspect. -/
def builtinAspect : ClassName :=
  ⟨aspectClass, by decide +kernel⟩

/-- The extension of source files unless another is chosen. -/
def sourceExtension : String := "wv"

/-- An extension without the dots in front. -/
def trimDots (extension : String) : String :=
  String.ofList (extension.toList.dropWhile (· = '.'))

/-- The path of a class below a root, with slashes. -/
def ClassName.relativePath (c : ClassName) (extension : String) : String :=
  let file := c.short ++ "." ++ extension
  match c.package? with
  | none => file
  | some p => p.map (fun ch => if ch = '.' then '/' else ch) ++ "/" ++ file

namespace SourceRoot

/-- A path below a root. -/
def below (r : SourceRoot) (relative : String) : String :=
  if r.path = "" ∨ r.path.toList.getLast? = some '/' then r.path ++ relative else r.path ++ "/" ++ relative

/-- The file of a path under a root: its whole path and its content. The path counts as it is written, and else
whatever its case; a root without a path cannot be listed, so only what is written counts there. -/
def locate? (r : SourceRoot) (relative : String) : Option (String × FileContent) :=
  match FileEntry.asWritten? r.entries relative with
  | some content => some (r.below relative, content)
  | none =>
    if r.path = "" then none
    else
      (FileEntry.anyCase? r.entries (FileEntry.pathSteps relative)).map fun (names, content) =>
        (r.below ("/".intercalate names), content)

end SourceRoot

namespace SourcePlace

def name : SourcePlace → String
  | memory _ => "memory"
  | files _ _ => "file"
  | builtin => "builtin"

/-- The file of a class, for places that hold files. -/
def locate? (p : SourcePlace) (c : ClassName) : Option (String × FileContent) :=
  match p with
  | files roots extension => roots.findSome? fun r => r.locate? (c.relativePath extension)
  | _ => none

/-- The source of a class, or why the place has none. -/
def resolve (p : SourcePlace) (c : ClassName) : Except String (String × Origin) :=
  match p with
  | memory sources =>
    match sources.find? fun (n, _) => n == c with
    | some (_, text) => .ok (text, .memory)
    | none => .error "not registered in memory"
  | files roots extension =>
    match p.locate? c with
    | some (path, .ok text) => .ok (text, .file path)
    | some (path, .error fault) => .error (fault.reason path)
    | none => .error ("no " ++ c.relativePath extension ++ " found under " ++
        toString roots.length ++ " source root(s)")
  | builtin =>
    if asciiLower aspectClass = c.key then .ok (aspectSource, .builtin)
    else .error "not a builtin class"

/-- No fewer than the classes that a place has sources for; of files, all entries of the trees are counted. -/
def size : SourcePlace → Nat
  | memory sources => sources.length
  | files roots _ => roots.foldl (fun n r => n + FileEntry.countAll r.entries) 0
  | builtin => 1

end SourcePlace

/-- Sources by name, where a name set before takes the new text. -/
def setSource (c : ClassName) (text : String) : List (ClassName × String) → List (ClassName × String)
  | [] => [(c, text)]
  | (n, t) :: rest => if n == c then (n, text) :: rest else (n, t) :: setSource c text rest

/-- Sources with the names they are given under. -/
def sourcesOf (named : List (String × String)) : Except InvalidClassName (List (ClassName × String)) :=
  named.foldlM (fun sources (name, text) => do
    let c ← ClassName.parse name
    return setSource c text sources) []

/-- Places in the order they are asked. -/
abbrev SourceChain := List SourcePlace

namespace SourceChain

/-- The source of a class in the first place that has it; else what every place answers. -/
def resolveFrom (c : ClassName) : List SourcePlace → List String → Except String (String × Origin)
  | [], [] => .error "no resolvers configured"
  | [], misses => .error ("; ".intercalate misses)
  | p :: rest, misses =>
    match p.resolve c with
    | .ok found => .ok found
    | .error reason => resolveFrom c rest (misses ++ [p.name ++ ": " ++ reason])

def resolve (chain : SourceChain) (c : ClassName) : Except UnitError Source :=
  match resolveFrom c chain [] with
  | .ok (text, origin) => .ok ⟨c, text, origin⟩
  | .error reason => .error (.notFound c.text reason)

/-- The file of a class, if the first place that has the class holds files; such a place also has the classes of files
that cannot be read. -/
def locate? (c : ClassName) : SourceChain → Option (String × FileContent)
  | [] => none
  | p :: rest =>
    match p.locate? c with
    | some found => some found
    | none =>
      match p.resolve c with
      | .ok _ => none
      | .error _ => locate? c rest

/-- No fewer than the classes that the places have sources for. -/
def size (chain : SourceChain) : Nat :=
  chain.foldl (fun n p => n + p.size) 0

end SourceChain

end AspectProxy
