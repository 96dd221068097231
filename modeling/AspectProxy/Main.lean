import AspectProxy.CommandLine

/-!
The program: runs the command of its arguments on the file system.
-/

namespace AspectProxy.Program

/-- Why the system could not read a file. -/
def faultOf : IO.Error → ReadFault
  | .noFileOrDirectory .. => .absent
  | .inappropriateType _ code _ => if code = 21 then .isDirectory else .notDirectory
  | .permissionDenied .. => .failed "Permission denied (os error 13)"
  | e => .failed e.toString

def readText (path : String) : IO FileContent :=
  try
    match String.fromUTF8? (← IO.FS.readBinFile path) with
    | some text => return .ok text
    | none => return .error .notText
  catch e => return .error (faultOf e)

/-- The entries of a directory, with those files whose names are wanted, `depth` levels down. What is neither a file nor a
directory leads nowhere, as an empty directory does. -/
def readEntries (wanted : String → Bool) : (depth : Nat) → IO.FS.DirEntry → IO (List FileEntry)
  | 0, _ => return []
  | depth + 1, e =>
    try
      match (← e.path.metadata).type with
      | .dir =>
        let inner ← (← e.path.readDir).toList.mapM (readEntries wanted depth)
        return [.directory e.fileName inner.flatten]
      | .file => if wanted e.fileName then return [.file e.fileName (← readText e.path.toString)] else return []
      | _ => return [.directory e.fileName []]
    catch _ => return []

/-- How deep directories are read. -/
def directoryDepth : Nat := 64

def readDirectory (wanted : String → Bool) (path : String) : IO (List FileEntry) :=
  try
    let root ← IO.FS.realPath (if path = "" then "." else path)
    let entries ← (← root.readDir).toList.mapM (readEntries wanted directoryDepth)
    return entries.flatten
  catch _ => return []

def fileSystem : CommandLine.Files IO where
  read := readText
  entries := readDirectory

end AspectProxy.Program

def main (args : List String) : IO UInt32 := do
  let outcome ← AspectProxy.CommandLine.run AspectProxy.Program.fileSystem args
  IO.print outcome.output
  IO.eprint outcome.error
  return outcome.exit
