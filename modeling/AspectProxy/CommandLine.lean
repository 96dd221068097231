import AspectProxy.CommandLine.Arguments
import AspectProxy.Json.Reader
import AspectProxy.Json.Writer
import AspectProxy.Session

/-!
The command line: makes the proxy of a class, and on request prints it and calls a method of it. Files are read
through `Files`, so that the same command runs on a file system and on a tree of files.
-/

namespace AspectProxy.CommandLine

/-- How files are read. -/
structure Files (M : Type → Type) where
  read : String → M FileContent
  /-- What is in the directory of a path; only files whose names are wanted need be there. -/
  entries : (wanted : String → Bool) → String → M (List FileEntry)

/-- What a command leaves behind: what it wrote, and how it ended. -/
structure Outcome where
  exit : UInt32 := 0
  output : String := ""
  error : String := ""

/-- What ends a command early. -/
inductive Failure where
  | unreadable (fault : ReadFault)
  | notSettings (flaw : Json.TextFlaw)
  | notJson (flag : String)
  | notArray (flag : String)
  | className (e : InvalidClassName)
  | noUnit (e : UnitError)
  | session (e : SessionError)

def Failure.message : Failure → String
  | unreadable fault => "I/O error: " ++ fault.message
  | notSettings flaw => "Invalid configuration JSON: " ++ flaw.message
  | notJson flag => "--" ++ flag ++ " is not valid JSON"
  | notArray flag => "--" ++ flag ++ " must be a JSON array"
  | className e => e.message
  | noUnit e => e.message
  | session e => e.message

/-- The settings in the text of a settings file. -/
def settingsOf : Option FileContent → Except Failure Settings
  | none => .ok {}
  | some (.error fault) => .error (.unreadable fault)
  | some (.ok text) => (Settings.ofString? text).mapError .notSettings

/-- Settings with those that arguments give. -/
def adjust (a : Arguments) (s : Settings) : Settings :=
  { s with
    sourceRoots := if a.roots.isEmpty then s.sourceRoots else a.roots
    mode := if a.asyncRead then .async else s.mode
    debug := s.debug || a.debug }

/-- The values of a JSON array. -/
def valuesOf (flag : String) : Option String → Except Failure (List Value)
  | none => .ok []
  | some text =>
    match Json.ofString? text with
    | .error _ => .error (.notJson flag)
    | .ok (.arr items) => .ok (items.map Value.ofJson)
    | .ok _ => .error (.notArray flag)

/-- The lines of a call: what it printed, and its result. -/
def callLines (method : String) (c : ClassName) (initArgs callArgs : List Value) (s : Session) :
    Except Stop (List String) := do
  let (object, s) := s.instantiate c initArgs
  let (result, s) := s.callMethod (← object) method callArgs
  let v ← result
  return s.machine.takeOutput.1 ++ [(v.toJson s.machine.heap).pretty]

def withLineEnd (line : String) : String :=
  line ++ "\n"

/-- What a command prints once its proxy is made, and how it ends. -/
def report (a : Arguments) (initArgs callArgs : List Value) (p : Proxy) (s : Session) :
    String × Except Failure Unit :=
  let printed := withLineEnd p.identity.proxy.text ++ (if a.print then p.source else "")
  match a.call with
  | none => (printed, .ok ())
  | some method =>
    match callLines method p.identity.proxy initArgs callArgs s with
    | .ok lines => (printed ++ String.join (lines.map withLineEnd), .ok ())
    | .error e => (printed, .error (.session (.run e)))

/-- Makes the proxy in an open session. -/
def makeProxy (className : String) (s : Session) : Except Failure (Proxy × Session) := do
  let c ← (ClassName.parse className).mapError .className
  let (unit, s) := s.fetch UnitStore.request c
  let _ ← unit.mapError .noUnit
  let (proxy, s) := s.generate UnitStore.get c
  let p ← proxy.mapError (.session ∘ .proxy)
  return (p, s)

/-- What a command prints, and how it ends, on some directories. -/
def runOn (a : Arguments) (settings : Settings) (roots : List SourceRoot) (aspectText : FileContent) :
    String × Except Failure Unit :=
  let made : Except Failure (List Value × List Value × Proxy × Session) := do
    let initArgs ← valuesOf "init-args" a.initArgs
    let callArgs ← valuesOf "args" a.callArgs
    let s ← (Session.open? settings roots aspectText).mapError (.session ∘ .settings)
    let (p, s) ← makeProxy a.className s
    return (initArgs, callArgs, p, s)
  match made with
  | .error e => ("", .error e)
  | .ok (initArgs, callArgs, p, s) => report a initArgs callArgs p s

def outcomeOf : String × Except Failure Unit → Outcome
  | (output, .ok ()) => { output }
  | (output, .error e) => { exit := 1, output, error := withLineEnd ("Error: " ++ e.message) }

section Run

variable {M : Type → Type} [Monad M] (files : Files M)

/-- The text of a file that may be asked for. -/
def readOptional : Option String → M (Option FileContent)
  | none => return none
  | some path => return some (← files.read path)

/-- Whether a name ends as files with an extension do. An extension with slashes goes on in directories. -/
def hasExtension (extension name : String) : Bool :=
  let ending := ((trimDots extension).splitOn "/").getLast?.getD ""
  let folded := fun (s : String) => (lowerText s).toList.map foldCase
  (folded ending).isSuffixOf (folded name)

/-- Runs a command. -/
def runArguments (a : Arguments) : M Outcome := do
  match settingsOf (← readOptional files a.settingsFile) with
  | .error e => return outcomeOf ("", .error e)
  | .ok settings =>
    let settings := adjust a settings
    let roots ← settings.sourceRoots.mapM fun path => do
      return (⟨path, ← files.entries (hasExtension settings.fileExtension) path⟩ : SourceRoot)
    let aspectText := (← readOptional files settings.aspectSource).getD (.error .absent)
    return outcomeOf (runOn a settings roots aspectText)

/-- Runs the command that some words give. -/
def run (words : List String) : M Outcome :=
  match Arguments.ofWords words with
  | .ok a => runArguments files a
  | .error .help => return { output := helpText }
  | .error .version => return { output := withLineEnd versionText }
  | .error (.usage message) =>
    return { exit := 2, error := withLineEnd ("error: " ++ message) ++ withLineEnd usageText }

end Run

/-- The files of a tree. -/
def Files.ofTree (tree : List FileEntry) : Files Id where
  read path := FileEntry.read tree path
  entries _ path := FileEntry.subdirectory tree path

end AspectProxy.CommandLine
