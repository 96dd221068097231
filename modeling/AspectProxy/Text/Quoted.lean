import AspectProxy.Text.Visible

/-!
Text in double quotes in which every character can be seen: quotes, backslashes and line ends are
escaped by a letter, and characters without a visible form by their number.
-/

namespace AspectProxy

/-- A character as it stands in quoted text. -/
def visibleChar (c : Char) : List Char :=
  match c with
  | '"' => ['\\', '"']
  | '\\' => ['\\', '\\']
  | '\n' => ['\\', 'n']
  | '\r' => ['\\', 'r']
  | '\t' => ['\\', 't']
  | '\x00' => ['\\', '0']
  | c => if isVisible c then [c] else '\\' :: 'u' :: '{' :: Nat.toDigits 16 c.toNat ++ ['}']

/-- The quoted form of a text. -/
def visiblyQuoted (s : String) : String :=
  String.ofList ('"' :: s.toList.flatMap visibleChar ++ ['"'])

end AspectProxy
