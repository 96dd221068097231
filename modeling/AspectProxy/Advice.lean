import AspectProxy.Machine.Error
import AspectProxy.Text.Regex
import AspectProxy.Value

/-!
Advice: what a host runs before and after the calls of a program. Advice of higher priority runs
first, and of one priority what was registered first. A callback is a function of the call, and for
advice after it of the result so far; it answers with notes, with advice to remove, and with an
outcome.
-/

namespace AspectProxy

/-- One call: the class and method, by name, and the arguments. -/
structure JoinPoint where
  className : String
  method : String
  args : List Value

namespace JoinPoint

/-- The arguments in a context; none are there if the context has none. -/
def argsOf (context : List (String × Value)) : Except EvalError (List Value) :=
  match getEntry "args" context with
  | some (.list args) => .ok args
  | none => .ok []
  | some v => .error (.operand "advise" "args list" v.typeName)

/-- A text in a context. -/
def textOf (context : List (String × Value)) (key : String) : Except EvalError String :=
  match getEntry key context with
  | some (.str s) => .ok s
  | _ => .error (.misuse (.missingContextField key))

/-- The call that a context map describes. -/
def ofContext : Value → Except EvalError JoinPoint
  | .map context => do
    let args ← argsOf context
    let className ← textOf context "class"
    let method ← textOf context "method"
    return ⟨className, method, args⟩
  | v => .error (.operand "advise" "context map" v.typeName)

end JoinPoint

/-- Which calls advice is for: the patterns for class and method, and what they compile to. -/
structure Pointcut where
  classPattern : String
  methodPattern : String
  classRegex : Regex
  methodRegex : Regex

/-- The expression for a character of a glob: a star stands for any run of characters and a question mark for one
character, neither of them a line feed. -/
def globPiece (lib : RegexLibrary) (c : Char) : String :=
  if c = '*' then ".*" else if c = '?' then "." else lib.escape (String.singleton c)

/-- The expression for a glob, which a whole text has to match. -/
def globRegex (lib : RegexLibrary) (glob : String) (anyCase : Bool) : Except String Regex :=
  let opened := if anyCase then "(?i)^" else "^"
  lib.compile (glob.toList.foldl (fun pattern c => pattern ++ globPiece lib c) opened ++ "$")

namespace Pointcut

/-- The pointcut for two globs. That of the class leaves case out of account. -/
def new (lib : RegexLibrary) (c m : String) : Except String Pointcut := do
  return ⟨c, m, ← globRegex lib c true, ← globRegex lib m false⟩

/-- The pointcut for every call. -/
def any (lib : RegexLibrary) : Except String Pointcut := do
  return ⟨"*", "*", ← lib.compile ".*", ← lib.compile ".*"⟩

def covers (q : Pointcut) (p : JoinPoint) : Bool :=
  q.classRegex.isMatch p.className && q.methodRegex.isMatch p.method

def text (q : Pointcut) : String :=
  "Pointcut(" ++ q.classPattern ++ "::" ++ q.methodPattern ++ ")"

end Pointcut

/-- What advice leaves for its host to read: a label, the call, and after it the result so far. -/
structure Note where
  label : String
  point : JoinPoint
  result : Option Value

/-- What a callback answers. -/
structure Reply (α : Type) where
  notes : List Note := []
  /-- The ids of advice to remove. -/
  removed : List Nat := []
  outcome : Except String α

inductive Callback where
  | before (run : JoinPoint → Reply Unit)
  /-- The outcome may hold another result. -/
  | after (run : JoinPoint → Value → Reply (Option Value))

inductive AdviceKind where
  | before | after
  deriving DecidableEq, Repr

def AdviceKind.ofString? (s : String) : Option AdviceKind :=
  if s = "before" then some before else if s = "after" then some after else none

structure Advice where
  id : Nat
  pointcut : Pointcut
  priority : Int
  callback : Callback

/-- The advice in the order it runs, and the notes it has left, oldest first. Ids count up from one. -/
structure AdviceTable where
  advice : List Advice := []
  lastId : Nat := 0
  notes : List Note := []

namespace AdviceTable

/-- Sorts advice by priority, the highest first; advice of one priority stays in order. -/
def byPriority (advice : List Advice) : List Advice :=
  advice.mergeSort fun a b => b.priority ≤ a.priority

/-- Registers advice and gives its id. -/
def register (r : AdviceTable) (pointcut : Pointcut) (priority : Int) (callback : Callback) :
    Nat × AdviceTable :=
  let id := r.lastId + 1
  (id, { r with advice := byPriority (r.advice ++ [⟨id, pointcut, priority, callback⟩]), lastId := id })

/-- Removes the advice of an id; says whether there was any. -/
def remove (r : AdviceTable) (id : Nat) : Bool × AdviceTable :=
  let left := r.advice.filter fun a => a.id ≠ id
  (left.length ≠ r.advice.length, { r with advice := left })

def clear (r : AdviceTable) : AdviceTable :=
  { r with advice := [] }

def size (r : AdviceTable) : Nat :=
  r.advice.length

/-- The notes left since they were last taken. -/
def takeNotes (r : AdviceTable) : List Note × AdviceTable :=
  (r.notes, { r with notes := [] })

/-- The advice for a call, in the order it runs. -/
def matching (r : AdviceTable) (p : JoinPoint) : List Advice :=
  r.advice.filter fun a => a.pointcut.covers p

/-- Takes over the notes and removals of a reply. -/
def absorb (r : AdviceTable) (reply : Reply α) : AdviceTable :=
  let removed := reply.removed.foldl (fun r id => (r.remove id).2) r
  { removed with notes := removed.notes ++ reply.notes }

/-- Runs the advice of a list that comes before a call, up to the first that fails. -/
def runBeforeList (p : JoinPoint) : List Advice → AdviceTable → Except String Unit × AdviceTable
  | [], r => (.ok (), r)
  | a :: rest, r =>
    match a.callback with
    | .after _ => runBeforeList p rest r
    | .before run =>
      let reply := run p
      match reply.outcome with
      | .error e => (.error e, r.absorb reply)
      | .ok () => runBeforeList p rest (r.absorb reply)

/-- Runs the advice of a list that comes after a call, each on the result of the one before it. -/
def runAfterList (p : JoinPoint) : List Advice → Value → AdviceTable → Except String Value × AdviceTable
  | [], v, r => (.ok v, r)
  | a :: rest, v, r =>
    match a.callback with
    | .before _ => runAfterList p rest v r
    | .after run =>
      let reply := run p v
      match reply.outcome with
      | .error e => (.error e, r.absorb reply)
      | .ok replacement => runAfterList p rest (replacement.getD v) (r.absorb reply)

/-- Runs the advice that comes before a call; what it removes still runs this time. -/
def runBefore (r : AdviceTable) (p : JoinPoint) : Except String Unit × AdviceTable :=
  runBeforeList p (r.matching p) r

/-- Runs the advice that comes after a call, on its result; what it removes still runs this time. -/
def runAfter (r : AdviceTable) (p : JoinPoint) (result : Value) : Except String Value × AdviceTable :=
  runAfterList p (r.matching p) result r

end AdviceTable

end AspectProxy
