import AspectProxy.Text.CaseMap

/-!
Regular expressions. They are compiled by a library, which programs are given; the standard one has the part of the
syntax that patterns of advice are written in. There `^` and `$` stand for the start and the end of the text, `.` stands
for any character but a line feed and `.*` for a run of such characters, a backslash takes a character for itself, and
`(?i)` in front leaves case out of account.
-/

namespace AspectProxy

/-- A compiled expression: whether it finds a match anywhere in a text. -/
structure Regex where
  isMatch : String → Bool

/-- What compiles regular expressions. -/
structure RegexLibrary where
  /-- The expression that stands for a text itself. -/
  escape : String → String
  compile : String → Except String Regex

/-- The characters that mean something in an expression. -/
def isMetaCharacter (c : Char) : Bool :=
  c ∈ ['\\', '.', '+', '*', '?', '(', ')', '|', '[', ']', '{', '}', '^', '$', '#', '&', '-', '~']

/-- The expression for one character. -/
def escaped (c : Char) : List Char :=
  if isMetaCharacter c then ['\\', c] else [c]

/-- The parts of an expression. -/
inductive RegexPart where
  | start
  | stop
  | dot
  | dots
  | literal (c : Char)
  deriving DecidableEq, Repr

namespace RegexPart

/-- The parts of an expression, if it has no others. -/
def parse : List Char → Option (List RegexPart)
  | [] => some []
  | '.' :: '*' :: cs => (parse cs).map (.dots :: ·)
  | '\\' :: c :: cs => if isMetaCharacter c then (parse cs).map (.literal c :: ·) else none
  | c :: cs =>
    if c = '^' then (parse cs).map (.start :: ·)
    else if c = '$' then (parse cs).map (.stop :: ·)
    else if c = '.' then (parse cs).map (.dot :: ·)
    else if isMetaCharacter c then none
    else (parse cs).map (.literal c :: ·)

/-- For each end of a text, whether a match begins there, given for the rest of the parts whether one begins at each
place; `first` says that nothing stands before the text, and `alike` compares characters. -/
def column (alike : Char → Char → Bool) (p : RegexPart) (first : Bool) : List Char → List Bool → List Bool
  | [], rest =>
    match p with
    | start => [first && rest.head?.getD false]
    | stop | dots => [rest.head?.getD false]
    | dot | literal _ => [false]
  | c :: cs, rest =>
    let below := column alike p false cs rest.tail
    match p with
    | start => (first && rest.head?.getD false) :: below
    | stop => false :: below
    | dots => (rest.head?.getD false || (c ≠ '\n' && below.head?.getD false)) :: below
    | dot => (c ≠ '\n' && rest.tail.head?.getD false) :: below
    | literal d => (alike d c && rest.tail.head?.getD false) :: below

/-- For each end of a text, whether a match of the parts begins there. -/
def columns (alike : Char → Char → Bool) : List RegexPart → List Char → List Bool
  | [], cs => List.replicate (cs.length + 1) true
  | p :: ps, cs => column alike p true cs (columns alike ps cs)

end RegexPart

/-- Whether two characters are the same but for case. -/
def alikeInCase (a b : Char) : Bool :=
  foldCase a = foldCase b

namespace RegexLibrary

/-- Whether an expression leaves case out of account, and the expression itself. -/
def flagged (pattern : String) : Bool × List Char :=
  match pattern.toList with
  | '(' :: '?' :: 'i' :: ')' :: cs => (true, cs)
  | cs => (false, cs)

def standard : RegexLibrary where
  escape text := String.ofList (text.toList.flatMap escaped)
  compile pattern :=
    let (anyCase, cs) := flagged pattern
    match RegexPart.parse cs with
    | some parts =>
      let alike := if anyCase then alikeInCase else (· == ·)
      .ok ⟨fun text => (RegexPart.columns alike parts text.toList).any id⟩
    | none => .error ("unsupported regular expression " ++ pattern)

end RegexLibrary

end AspectProxy
