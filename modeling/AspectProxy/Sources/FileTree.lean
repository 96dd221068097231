import AspectProxy.ClassName
import AspectProxy.Text.CaseMap

/-!
Directory trees and files in them, some of which cannot be read. A path leads to a file as it is written, or when case
does not count: then each step takes the first entry, in the order a directory lists them, whose name is the same but for
case.
-/

namespace AspectProxy

/-- Why a file cannot be read. -/
inductive ReadFault where
  | absent | notDirectory | isDirectory
  /-- What is in the file is no text. -/
  | notText
  /-- Anything else, in the words of the system. -/
  | failed (message : String)
  deriving DecidableEq, Repr

namespace ReadFault

def message : ReadFault → String
  | absent => "No such file or directory (os error 2)"
  | notDirectory => "Not a directory (os error 20)"
  | isDirectory => "Is a directory (os error 21)"
  | notText => "stream did not contain valid UTF-8"
  | failed message => message

/-- Why the file of a path gives no source. -/
def reason (path : String) (fault : ReadFault) : String :=
  path ++ ": " ++ fault.message

end ReadFault

/-- What there is to read in a file. -/
abbrev FileContent := Except ReadFault String

inductive FileEntry where
  | file (name : String) (content : FileContent)
  | directory (name : String) (entries : List FileEntry)

namespace FileEntry

def name : FileEntry → String
  | file n _ => n
  | directory n _ => n

/-- Names that differ only in case. -/
def sameName (a b : String) : Bool :=
  lowerText a = lowerText b

/-- The names on the way to a file that some steps lead to when case does not count, and its content. -/
def anyCase? : List FileEntry → List String → Option (List String × FileContent)
  | _, [] => none
  | entries, wanted :: rest =>
    match entries.find? fun e => sameName wanted e.name with
    | none => none
    | some (file n content) => if rest.isEmpty then some ([n], content) else none
    | some (directory n inner) => (anyCase? inner rest).map fun (names, content) => (n :: names, content)

/-- Entries with a file added under a path, in place of one that stands there. -/
def insertFile : List String → String → List FileEntry → List FileEntry
  | [], _, entries => entries
  | [n], text, entries => entries.filter (fun e => e.name ≠ n) ++ [file n (.ok text)]
  | n :: rest, text, entries =>
    match entries.find? fun e => e.name = n with
    | some (directory _ inner) =>
      entries.map fun e => if e.name = n then directory n (insertFile rest text inner) else e
    | _ => entries ++ [directory n (insertFile rest text [])]

/-- What stands between the slashes of a path. -/
def splitPath (path : String) : List String :=
  (path.toList.splitOn '/').map String.ofList

/-- The steps of a path with slashes; a step of one dot leads nowhere. -/
def pathSteps (path : String) : List String :=
  (splitPath path).filter fun s => s ≠ "" && s ≠ "."

/-- The entries that files with paths make. -/
def ofFiles (files : List (String × String)) : List FileEntry :=
  files.foldl (fun entries (path, text) => insertFile (pathSteps path) text entries) []

/-- What stands under the steps of a path from a directory. A step of two dots goes back to the directory
above, of which those in `above` can be seen, the nearest first. -/
def walk (above : List (List FileEntry)) (here : List FileEntry) : List String → Except ReadFault FileEntry
  | [] => .ok (directory "" here)
  | step :: rest =>
    if step = "" ∨ step = "." then walk above here rest
    else if step = ".." then
      match above with
      | [] => .error .absent
      | back :: above => walk above back rest
    else
      match here.find? fun e => e.name = step with
      | none => .error .absent
      | some (file n content) => if rest.isEmpty then .ok (file n content) else .error .notDirectory
      | some (directory _ inner) => walk (here :: above) inner rest

/-- What stands under a path in the directory that paths start from; nothing else can be seen. -/
def open? (entries : List FileEntry) (path : String) : Except ReadFault FileEntry :=
  if path = "" ∨ path.toList.head? = some '/' then .error .absent else walk [] entries (splitPath path)

/-- The content of the file that a path leads to as it is written. -/
def asWritten? (entries : List FileEntry) (path : String) : Option FileContent :=
  match walk [] entries (splitPath path) with
  | .ok (file _ content) => some content
  | _ => none

/-- The entries of the directory under a path; none if there is no directory. -/
def subdirectory (entries : List FileEntry) (path : String) : List FileEntry :=
  match if path = "" then .ok (directory "" entries) else open? entries path with
  | .ok (directory _ inner) => inner
  | _ => []

/-- The content of the file under a path. -/
def read (entries : List FileEntry) (path : String) : FileContent :=
  match open? entries path with
  | .ok (file _ content) => content
  | .ok (directory _ _) => .error .isDirectory
  | .error e => .error e

mutual

/-- The number of files and directories, those within counted too. -/
def count : FileEntry → Nat
  | file _ _ => 1
  | directory _ entries => countAll entries + 1

def countAll : List FileEntry → Nat
  | [] => 0
  | e :: es => count e + countAll es

end

end FileEntry

end AspectProxy
