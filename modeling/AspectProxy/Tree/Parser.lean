import AspectProxy.Tree
import AspectProxy.Token.Lexer

/-!
Reading tokens as a source unit. A reader of one bracket depth is built from a reader of what may stand
between brackets, so the only recursion is over the depth; a loop reads a token each time round. Both
are bounded by the number of tokens left, which is never used up: a reader that cannot go on has met
the end of the text before.
-/

namespace AspectProxy

/-- Reading from the front of a token sequence. -/
abbrev Parse := StateT TokenStream (Except SourceFault)

/-- Words that are no identifiers. -/
def reservedWords : List String :=
  ["package", "import", "as", "class", "trait", "extends", "public", "protected", "private",
   "static", "final", "let", "fn", "return", "if", "else", "while", "for", "in", "break",
   "continue", "true", "false", "null", "self", "super", "new"]

namespace Parse

/-- A fault at the next token. -/
def fail (f : Fault) : Parse α :=
  fun ts => .error ⟨ts.position, f⟩

/-- The fault of not finding something at the next token. -/
def unexpected (what : Expectation) : Parse α :=
  fun ts => .error ⟨ts.position, .expected what ts.head?⟩

def peek : Parse (Option Token) :=
  fun ts => .ok (ts.head?, ts)

def advance : Parse Unit :=
  fun ts => .ok ((), ts.tail)

/-- Reads a given token if it stands next; says whether it did. -/
def eat (t : Token) : Parse Bool :=
  fun ts => if ts.head? = some t then .ok (true, ts.tail) else .ok (false, ts)

def eatSymbol (s : Symbol) : Parse Bool := eat (.symbol s)

def eatWord (w : String) : Parse Bool := eat (.name w)

def next (t : Token) : Parse Bool :=
  fun ts => .ok (ts.head? = some t, ts)

def expectSymbol (s : Symbol) : Parse Unit := do
  unless ← eatSymbol s do unexpected (.symbol s)

def expectWord (w : String) : Parse Unit := do
  unless ← eatWord w do unexpected (.word w)

/-- Runs a reader that needs a bound on the tokens left. -/
def bounded (p : Nat → Parse α) : Parse α :=
  fun ts => p (ts.items.length + 1) ts

/-- Runs a reader if a symbol stands next. -/
def after? (s : Symbol) (p : Parse α) : Parse (Option α) := do
  if ← eatSymbol s then return some (← p) else return none

/-- A name that is not reserved, where `what` is looked for. -/
def identifierFor (what : Expectation) : Parse String := do
  match ← peek with
  | some (.name n) =>
    if n ∈ reservedWords then unexpected what
    else do
      advance
      return n
  | _ => unexpected what

def identifier : Parse String :=
  identifierFor .identifier

/-- The dots and identifiers that follow a name. -/
def dottedRest : Nat → Parse String
  | 0 => return ""
  | fuel + 1 => do
    if ← eatSymbol .dot then
      let n ← identifier
      return "." ++ n ++ (← dottedRest fuel)
    else return ""

/-- Identifiers joined by dots. -/
def dottedName : Parse String := do
  let n ← identifier
  return n ++ (← bounded dottedRest)

def typeRef : Parse TypeRef := do
  let name ← dottedName
  return ⟨name, ← eatSymbol .question⟩

/-- Items up to a closing symbol with commas between them; a comma may stand behind the last. -/
def commaItems (item : Parse α) (close : Symbol) : Nat → Parse (List α)
  | 0 => unexpected (.symbol close)
  | fuel + 1 => do
    if ← eatSymbol close then return []
    let x ← item
    if ← eatSymbol .comma then return x :: (← commaItems item close fuel)
    expectSymbol close
    return [x]

/-- Items up to a closing brace. -/
def bracedItems (item : Parse α) : Nat → Parse (List α)
  | 0 => unexpected (.symbol .closeBrace)
  | fuel + 1 => do
    if ← eatSymbol .closeBrace then return []
    if (← peek).isNone then unexpected (.symbol .closeBrace)
    let x ← item
    return x :: (← bracedItems item fuel)

def braced (item : Parse α) : Parse (List α) := do
  expectSymbol .openBrace
  bounded (bracedItems item)

/-- Whether the tokens begin with names joined by dots and two colons. -/
def startsStaticCall : List Located → Bool
  | ⟨.name _, _⟩ :: ⟨.symbol .doubleColon, _⟩ :: _ => true
  | ⟨.name _, _⟩ :: ⟨.symbol .dot, _⟩ :: rest => startsStaticCall rest
  | _ => false

def atStaticCall : Parse Bool :=
  fun ts => .ok (startsStaticCall ts.items, ts)

section Layers

variable (expr : Parse Expr)

def arguments : Parse (List Expr) := do
  expectSymbol .openParen
  bounded (commaItems expr .closeParen)

def mapEntry : Parse (String × Expr) := do
  match ← peek with
  | some (.str key) =>
    advance
    expectSymbol .colon
    return (key, ← expr)
  | _ => unexpected .mapKey

/-- A name alone, or with arguments a call of a function. -/
def nameOrCall : Parse Expr := do
  let name ← identifierFor .expression
  if ← next (.symbol .openParen) then return .functionCall name (← arguments expr)
  else return .var name

/-- An expression that begins with no other expression, its first token not yet read. -/
def primaryWord : Parse Expr := do
  if ← eatWord "true" then return .bool true
  if ← eatWord "false" then return .bool false
  if ← eatWord "null" then return .null
  if ← eatWord "self" then return .self
  if ← eatWord "super" then
    expectSymbol .dot
    let method ← identifier
    return .superCall method (← arguments expr)
  if ← eatWord "new" then
    let className ← dottedName
    return .create className (← arguments expr)
  if ← eatSymbol .openBracket then return .list (← bounded (commaItems expr .closeBracket))
  if ← eatSymbol .openBrace then return .map (← bounded (commaItems (mapEntry expr) .closeBrace))
  if ← eatSymbol .openParen then
    let e ← expr
    expectSymbol .closeParen
    return e
  if ← atStaticCall then
    let className ← dottedName
    expectSymbol .doubleColon
    let method ← identifier
    return .staticCall className method (← arguments expr)
  nameOrCall expr

def primary : Parse Expr := do
  match ← peek with
  | some (.int n) => advance; return .int n
  | some (.float x) => advance; return .float x
  | some (.str s) => advance; return .str s
  | _ => primaryWord expr

/-- The properties, method calls and indexes that follow an expression. -/
def suffixes : Nat → Expr → Parse Expr
  | 0, e => return e
  | fuel + 1, e => do
    if ← eatSymbol .dot then
      let name ← identifier
      if ← next (.symbol .openParen) then suffixes fuel (.call e name (← arguments expr))
      else suffixes fuel (.property e name)
    else if ← eatSymbol .openBracket then
      let key ← expr
      expectSymbol .closeBracket
      suffixes fuel (.index e key)
    else return e

def postfixed : Parse Expr := do
  let e ← primary expr
  bounded fun fuel => suffixes expr fuel e

end Layers

/-- The negative of an expression; a minus in front of a number belongs to the number. -/
def negated : Expr → Expr
  | .int n => .int (-n)
  | .float x => .float (-x)
  | e => .unary .negate e

/-- Unary operators in front of an operand. -/
def unary (operand : Parse Expr) : Nat → Parse Expr
  | 0 => unexpected .expression
  | fuel + 1 => do
    if ← eatSymbol .bang then return .unary .not (← unary operand fuel)
    else if ← eatSymbol .minus then return negated (← unary operand fuel)
    else operand

/-- The binary operator that stands next, if one does. -/
def binaryOperator : Parse (Option BinaryOp) := do
  match ← peek with
  | some (.symbol s) => return BinaryOp.ofSymbol? s
  | _ => return none

/-- The operators from a level on and their right operands, the leftmost binding first. A right operand is read from the
level above its operator's, so what binds more tightly than the operator belongs to it. -/
def climb (right : (least : Nat) → Parse Expr) (least : Nat) : Nat → Expr → Parse Expr
  | 0, left => return left
  | fuel + 1, left => do
    match ← binaryOperator with
    | some op =>
      if op.level < least then return left
      else do
        advance
        climb right least fuel (.binary op left (← right (op.level + 1)))
    | none => return left

/-- Operands joined by operators from the level `least` on. Each operand to the right begins at a higher level, so there are
no more of them within each other than levels. -/
def binary (operand : Parse Expr) : (levels least : Nat) → Parse Expr
  | 0, _ => unexpected .expression
  | n + 1, least => do
    let left ← operand
    bounded fun fuel => climb (binary operand n) least fuel left

/-- One bracket depth of expressions over what stands between brackets. -/
def expressionOver (expr : Parse Expr) : Parse Expr :=
  binary (bounded (unary (postfixed expr))) 7 1

/-- An expression with fewer than `depth` nested brackets. -/
def expressionWithin : (depth : Nat) → Parse Expr
  | 0 => unexpected .expression
  | depth + 1 => expressionOver (expressionWithin depth)

def expression : Parse Expr :=
  bounded expressionWithin

def typeClause : Parse (Option TypeRef) :=
  after? .colon typeRef

def declareRest : Parse Statement := do
  let name ← identifier
  let type ← typeClause
  expectSymbol .equal
  let value ← expression
  expectSymbol .semicolon
  return .declare name type value

def returnRest : Parse Statement := do
  let value ← if ← next (.symbol .semicolon) then pure none else some <$> expression
  expectSymbol .semicolon
  return .return value

/-- An expression, or an assignment if an equals sign follows it. -/
def expressionStatement : Parse Statement := do
  let start := (← get).position
  let e ← expression
  if ← eatSymbol .equal then
    match Target.ofExpr? e with
    | none => throw ⟨start, .invalidTarget⟩
    | some target =>
      let value ← expression
      expectSymbol .semicolon
      return .assign target value
  expectSymbol .semicolon
  return .expr e

section Layers

variable (statement : Parse Statement)

/-- A condition, a block and what follows `else`: a block, or another condition as its only
statement. -/
def condRest : Parse Statement := do
  expectSymbol .openParen
  let condition ← expression
  expectSymbol .closeParen
  let thenBranch ← braced statement
  if ← eatWord "else" then
    if ← next (.name "if") then return .cond condition thenBranch (some [← statement])
    else return .cond condition thenBranch (some (← braced statement))
  else return .cond condition thenBranch none

def whileRest : Parse Statement := do
  expectSymbol .openParen
  let condition ← expression
  expectSymbol .closeParen
  return .while condition (← braced statement)

def forRest : Parse Statement := do
  expectSymbol .openParen
  let name ← identifier
  expectWord "in"
  let iterable ← expression
  expectSymbol .closeParen
  return .for name iterable (← braced statement)

/-- One block depth of statements over what stands in blocks. -/
def statementOver : Parse Statement := do
  if ← eatWord "let" then declareRest
  else if ← eatWord "return" then returnRest
  else if ← eatWord "if" then condRest statement
  else if ← eatWord "while" then whileRest statement
  else if ← eatWord "for" then forRest statement
  else if ← eatWord "break" then do
    expectSymbol .semicolon
    return .break
  else if ← eatWord "continue" then do
    expectSymbol .semicolon
    return .continue
  else expressionStatement

end Layers

/-- A statement with fewer than `depth` nested blocks. -/
def statementWithin : (depth : Nat) → Parse Statement
  | 0 => unexpected .expression
  | depth + 1 => statementOver (statementWithin depth)

def statement : Parse Statement :=
  bounded statementWithin

def block : Parse Block :=
  braced statement

/-- Modifiers in any order; the last word on visibility counts. -/
def modifiersFrom : Nat → Modifiers → Parse Modifiers
  | 0, m => return m
  | fuel + 1, m => do
    if ← eatWord "public" then modifiersFrom fuel { m with visibility := .everyone }
    else if ← eatWord "protected" then modifiersFrom fuel { m with visibility := .lineage }
    else if ← eatWord "private" then modifiersFrom fuel { m with visibility := .owner }
    else if ← eatWord "static" then modifiersFrom fuel { m with isStatic := true }
    else if ← eatWord "final" then modifiersFrom fuel { m with isFinal := true }
    else return m

def modifiers : Parse Modifiers :=
  bounded fun fuel => modifiersFrom fuel {}

def defaultValue : Parse (Option Expr) :=
  after? .equal expression

/-- Parameters up to the closing parenthesis, of which at least one follows; none may have a name
already taken. -/
def parametersFrom : Nat → List String → Parse (List Parameter)
  | 0, _ => unexpected .identifier
  | fuel + 1, taken => do
    let name ← identifier
    if name ∈ taken then fail (.duplicateParameter name)
    let type ← typeClause
    let default ← defaultValue
    if ← eatSymbol .closeParen then return [⟨name, type, default⟩]
    expectSymbol .comma
    return ⟨name, type, default⟩ :: (← parametersFrom fuel (name :: taken))

def parameters : Parse (List Parameter) := do
  expectSymbol .openParen
  if ← eatSymbol .closeParen then return []
  bounded fun fuel => parametersFrom fuel []

def methodRest (modifiers : Modifiers) : Parse Method := do
  let name ← identifier
  let parameters ← parameters
  let returnType ← after? .arrow typeRef
  return ⟨modifiers, name, parameters, returnType, ← block⟩

def propertyRest (modifiers : Modifiers) : Parse Property := do
  let name ← identifier
  let type ← typeClause
  let default ← defaultValue
  expectSymbol .semicolon
  return ⟨modifiers, name, type, default⟩

def member : Parse Member := do
  let m ← modifiers
  if ← eatWord "let" then return .property (← propertyRest m)
  else if ← eatWord "fn" then return .method (← methodRest m)
  else unexpected .member

def members : Parse (List Member) :=
  braced member

def classRest (isFinal : Bool) : Parse Declaration := do
  let name ← identifier
  let parent ← if ← eatWord "extends" then some <$> dottedName else pure none
  return .class ⟨name, isFinal, parent, ← members⟩

def traitRest : Parse Declaration := do
  let name ← identifier
  return .trait ⟨name, ← members⟩

def declaration : Parse Declaration := do
  let isFinal ← eatWord "final"
  if ← eatWord "class" then classRest isFinal
  else if isFinal then unexpected (.word "class")
  else if ← eatWord "trait" then traitRest
  else unexpected .declaration

def importRest : Parse Import := do
  let path ← dottedName
  let localName ← if ← eatWord "as" then some <$> identifier else pure none
  expectSymbol .semicolon
  return ⟨path, localName⟩

def imports : Nat → Parse (List Import)
  | 0 => return []
  | fuel + 1 => do
    if ← eatWord "import" then
      let i ← importRest
      return i :: (← imports fuel)
    else return []

/-- Declarations up to the end of the text. -/
def declarations : Nat → Parse (List Declaration)
  | 0 => return []
  | fuel + 1 => do
    if (← peek).isNone then return []
    let d ← declaration
    return d :: (← declarations fuel)

def packageClause : Parse (Option String) := do
  if ← eatWord "package" then
    let name ← dottedName
    expectSymbol .semicolon
    return some name
  else return none

def sourceUnit : Parse SourceUnit := do
  let package ← packageClause
  let imports ← bounded imports
  return ⟨package, imports, ← bounded declarations⟩

end Parse

namespace SourceUnit

def ofTokens? (ts : TokenStream) : Except SourceFault SourceUnit :=
  (Parse.sourceUnit.run ts).map (·.1)

/-- The unit that a source text holds. -/
def ofString? (source : String) : Except SourceFault SourceUnit :=
  (TokenStream.ofString? source).bind ofTokens?

/-- The reader of a source language by its name, with its own name. -/
def reader? (language : String) : Option (String × (String → Except SourceFault SourceUnit)) :=
  if language ∈ ["weave", "wv"] then some ("weave", ofString?) else none

end SourceUnit

end AspectProxy
