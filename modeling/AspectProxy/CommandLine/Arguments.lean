/-!
The arguments of the command. Options are words with two dashes, and an option that takes a value takes the
next word or what stands behind an equals sign. No option but `--root` may be given twice. The first word that
asks for help or for the version ends the reading, as does the first that is wrong.
-/

namespace AspectProxy.CommandLine

structure Arguments where
  className : String
  roots : List String := []
  settingsFile : Option String := none
  asyncRead : Bool := false
  debug : Bool := false
  print : Bool := false
  /-- The method to call. -/
  call : Option String := none
  callArgs : Option String := none
  initArgs : Option String := none
  deriving DecidableEq, Repr

/-- Why words do not give a command to run. -/
inductive NoCommand where
  | help
  | version
  | usage (message : String)
  deriving DecidableEq, Repr

def versionText : String := "weaver 0.1.0"

def usageText : String := "\nUsage: weaver [OPTIONS] <CLASS>\n\nFor more information, try '--help'."

def helpText : String :=
  "Generate AOP proxies for Weave classes\n\n" ++
  "Usage: weaver [OPTIONS] <CLASS>\n\n" ++
  "Arguments:\n" ++
  "  <CLASS>  Fully-qualified class to proxy\n\n" ++
  "Options:\n" ++
  "      --root <DIR>        Source root; may be repeated\n" ++
  "      --config <FILE>     JSON configuration file\n" ++
  "      --async-io          Read sources through tokio\n" ++
  "      --debug             Enable debug mode\n" ++
  "      --print             Print the generated proxy source\n" ++
  "      --call <METHOD>     Instantiate the proxy and invoke METHOD\n" ++
  "      --args <JSON>       JSON array of arguments for --call\n" ++
  "      --init-args <JSON>  JSON array of constructor arguments\n" ++
  "  -h, --help              Print help\n" ++
  "  -V, --version           Print version\n"

/-- The options that take no value. -/
inductive Flag where
  | asyncRead | debug | print
  deriving DecidableEq, Repr

/-- The options that take a value. -/
inductive Setting where
  | root | settingsFile | call | callArgs | initArgs
  deriving DecidableEq, Repr

/-- What the words so far have given. -/
structure Given where
  className : Option String := none
  flags : List Flag := []
  /-- In the order they were given. -/
  settings : List (Setting × String) := []

inductive Switch where
  | flag (f : Flag)
  | setting (s : Setting)
  | help
  | version
  deriving DecidableEq, Repr

def optionNamed : String → Option Switch
  | "root" => some (.setting .root)
  | "config" => some (.setting .settingsFile)
  | "call" => some (.setting .call)
  | "args" => some (.setting .callArgs)
  | "init-args" => some (.setting .initArgs)
  | "async-io" => some (.flag .asyncRead)
  | "debug" => some (.flag .debug)
  | "print" => some (.flag .print)
  | "help" => some .help
  | "version" => some .version
  | _ => none

/-- A word as the reading sees it. -/
inductive Word where
  /-- Two dashes alone: no option follows. -/
  | dashes
  | long (name : String) (value : Option String)
  /-- Letters behind one dash. -/
  | short (letters : List Char)
  | plain (text : String)

def Word.ofString (s : String) : Word :=
  match s.toList with
  | ['-', '-'] => .dashes
  | '-' :: '-' :: cs =>
    let name := String.ofList (cs.takeWhile (· ≠ '='))
    match cs.dropWhile (· ≠ '=') with
    | _ :: value => .long name (some (String.ofList value))
    | [] => .long name none
  | '-' :: c :: cs => .short (c :: cs)
  | _ => .plain s

namespace Given

def setting (g : Given) (s : Setting) (value : String) : Except NoCommand Given :=
  if s ≠ .root ∧ g.settings.any (·.1 = s) then .error (.usage "the argument cannot be used multiple times")
  else .ok { g with settings := g.settings ++ [(s, value)] }

def flag (g : Given) (f : Flag) : Except NoCommand Given :=
  if f ∈ g.flags then .error (.usage "the argument cannot be used multiple times")
  else .ok { g with flags := f :: g.flags }

def plain (g : Given) (text : String) : Except NoCommand Given :=
  match g.className with
  | some _ => .error (.usage ("unexpected argument '" ++ text ++ "' found"))
  | none => .ok { g with className := some text }

def value? (g : Given) (s : Setting) : Option String :=
  (g.settings.find? (·.1 = s)).map (·.2)

end Given

/-- What letters behind one dash ask for. -/
def askedByLetter : Char → NoCommand
  | 'h' => .help
  | 'V' => .version
  | c => .usage ("unexpected argument '-" ++ String.singleton c ++ "' found")

/-- Reads words; `literal` says that no options follow. -/
def readWords (literal : Bool) (g : Given) : List String → Except NoCommand Given
  | [] => .ok g
  | word :: rest =>
    if literal then do
      readWords true (← g.plain word) rest
    else
      match Word.ofString word with
      | .dashes => readWords true g rest
      | .plain text => do readWords false (← g.plain text) rest
      | .short letters => .error (askedByLetter (letters.head?.getD '-'))
      | .long name value =>
        match optionNamed name, value with
        | none, _ => .error (.usage ("unexpected argument '--" ++ name ++ "' found"))
        | some .help, none => .error .help
        | some .version, none => .error .version
        | some (.flag f), none => do readWords false (← g.flag f) rest
        | some (.setting s), some value => do readWords false (← g.setting s value) rest
        | some (.setting s), none =>
          match rest with
          | value :: rest =>
            match Word.ofString value with
            | .plain _ => do readWords false (← g.setting s value) rest
            | _ => .error (.usage "a value is required")
          | [] => .error (.usage "a value is required")
        | some _, some value => .error (.usage ("unexpected value '" ++ value ++ "' found"))

/-- The arguments that words give. Arguments for a call may stand only beside a method to call. -/
def Arguments.ofWords (words : List String) : Except NoCommand Arguments := do
  let g ← readWords false {} words
  match g.className with
  | none => .error (.usage "the following required arguments were not provided: <CLASS>")
  | some className =>
    let call := g.value? .call
    if call.isNone ∧ ((g.value? .callArgs).isSome ∨ (g.value? .initArgs).isSome) then
      .error (.usage "the following required arguments were not provided: --call <METHOD>")
    else
      return {
        className
        roots := (g.settings.filter (·.1 = .root)).map (·.2)
        settingsFile := g.value? .settingsFile
        asyncRead := .asyncRead ∈ g.flags
        debug := .debug ∈ g.flags
        print := .print ∈ g.flags
        call
        callArgs := g.value? .callArgs
        initArgs := g.value? .initArgs }

end AspectProxy.CommandLine
