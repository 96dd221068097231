import AspectProxy.Proofs.Reading.Leads

/-!
How the readers of the grammar go through the tokens. A reader leaves an end of the tokens that it is given, with the same
end of the text behind them, or it refuses them at the place of one of them or of the end. So none goes back and none goes
behind the end. What holds of two readers holds of one behind the other, and so of each function of the grammar in turn.
-/

namespace AspectProxy

/-- The places of the tokens, and of the end of the text. -/
def TokenStream.places (ts : TokenStream) : List Position :=
  ts.items.map (·.position) ++ [ts.stop]

theorem TokenStream.position_mem_places (ts : TokenStream) : ts.position ∈ ts.places := by
  obtain ⟨items, stop⟩ := ts
  cases items <;> simp [position, places]

/-- An end of some tokens has no other places than they have. -/
theorem TokenStream.places_subset {ts rest : TokenStream} (h : rest.items <:+ ts.items ∧ rest.stop = ts.stop) :
    rest.places ⊆ ts.places := by
  rw [places, places, h.2]
  exact List.append_subset.mpr
    ⟨fun p hp => List.mem_append_left _ ((h.1.map _).subset hp), List.subset_append_right _ _⟩

theorem TokenStream.suffix_tail (ts : TokenStream) : ts.tail.items <:+ ts.items ∧ ts.tail.stop = ts.stop :=
  ⟨List.tail_suffix _, rfl⟩

namespace Parse

-- One round of each loop over a reader in the place of the next round; a bounded loop is so many rounds. The rounds of
-- expressions and of statements are `expressionOver` and `statementOver`.

def dottedRound (next : Parse String) : Parse String := do
  if ← eatSymbol .dot then
    let n ← identifier
    return "." ++ n ++ (← next)
  else return ""

def commaRound (item : Parse α) (close : Symbol) (next : Parse (List α)) : Parse (List α) := do
  if ← eatSymbol close then return []
  let x ← item
  if ← eatSymbol .comma then return x :: (← next)
  expectSymbol close
  return [x]

def bracedRound (item : Parse α) (next : Parse (List α)) : Parse (List α) := do
  if ← eatSymbol .closeBrace then return []
  if (← peek).isNone then unexpected (.symbol .closeBrace)
  let x ← item
  return x :: (← next)

def suffixRound (expr : Parse Expr) (next : Expr → Parse Expr) (e : Expr) : Parse Expr := do
  if ← eatSymbol .dot then
    let name ← identifier
    if ← Parse.next (.symbol .openParen) then next (.call e name (← arguments expr))
    else next (.property e name)
  else if ← eatSymbol .openBracket then
    let key ← expr
    expectSymbol .closeBracket
    next (.index e key)
  else return e

def unaryRound (operand next : Parse Expr) : Parse Expr := do
  if ← eatSymbol .bang then return .unary .not (← next)
  else if ← eatSymbol .minus then return negated (← next)
  else operand

def climbRound (right : Nat → Parse Expr) (least : Nat) (next : Expr → Parse Expr) (left : Expr) : Parse Expr := do
  match ← binaryOperator with
  | some op =>
    if op.level < least then return left
    else do
      advance
      next (.binary op left (← right (op.level + 1)))
  | none => return left

def binaryRound (operand : Parse Expr) (next : Nat → Parse Expr) (least : Nat) : Parse Expr := do
  let left ← operand
  bounded fun fuel => climb next least fuel left

def modifierRound (next : Modifiers → Parse Modifiers) (m : Modifiers) : Parse Modifiers := do
  if ← eatWord "public" then next { m with visibility := .everyone }
  else if ← eatWord "protected" then next { m with visibility := .lineage }
  else if ← eatWord "private" then next { m with visibility := .owner }
  else if ← eatWord "static" then next { m with isStatic := true }
  else if ← eatWord "final" then next { m with isFinal := true }
  else return m

def parameterRound (next : List String → Parse (List Parameter)) (taken : List String) : Parse (List Parameter) := do
  let name ← identifier
  if name ∈ taken then fail (.duplicateParameter name)
  let type ← typeClause
  let default ← defaultValue
  if ← eatSymbol .closeParen then return [⟨name, type, default⟩]
  expectSymbol .comma
  return ⟨name, type, default⟩ :: (← next (name :: taken))

def importRound (next : Parse (List Import)) : Parse (List Import) := do
  if ← eatWord "import" then
    let i ← importRest
    return i :: (← next)
  else return []

def declarationRound (next : Parse (List Declaration)) : Parse (List Declaration) := do
  if (← peek).isNone then return []
  let d ← declaration
  return d :: (← next)

/-- A reader that goes forward: what it leaves is an end of what it was given, and what it refuses it refuses at the place
of a token of that, or of the end, or at one of the places that are known. -/
structure Forward (known : List Position) (p : Parse α) : Prop where
  left : ∀ {ts rest : TokenStream} {a : α}, p ts = .ok (a, rest) → rest.items <:+ ts.items ∧ rest.stop = ts.stop
  blamed : ∀ {ts : TokenStream} {e : SourceFault}, p ts = .error e → e.position ∈ known ++ ts.places

variable {known : List Position} {p q : Parse α} {f : α → Parse β} {ts rest : TokenStream} {a : α}

namespace Forward

theorem length_le (h : Forward known p) (run : p ts = .ok (a, rest)) : rest.items.length ≤ ts.items.length :=
  (h.left run).1.length_le

theorem mono {known' : List Position} (h : Forward known p) (more : known ⊆ known') : Forward known' p where
  left := h.left
  blamed run := List.append_subset.mpr ⟨fun _ here => List.mem_append_left _ (more here), List.subset_append_right _ _⟩
    (h.blamed run)

theorem done (a : α) : Forward known (pure a) where
  left run := by
    cases run
    exact ⟨List.suffix_refl _, rfl⟩
  blamed run := by cases run

theorem blame {p : Position} (f : Fault) (here : p ∈ known) : Forward known (fun _ => .error ⟨p, f⟩ : Parse α) where
  left run := by cases run
  blamed run := by
    cases run
    exact List.mem_append_left _ here

/-- A reader that looks at what is left first; the place of the next token is known then. -/
theorem look {p : TokenStream → Parse α} (h : ∀ ts, Forward (ts.position :: known) (p ts)) :
    Forward known fun ts => p ts ts where
  left {ts _ _} run := (h ts).left run
  blamed {ts e} run := by
    rcases List.mem_append.mp ((h ts).blamed run) with here | here
    · rcases List.mem_cons.mp here with here | here
      · rw [here]
        exact List.mem_append_right _ ts.position_mem_places
      · exact List.mem_append_left _ here
    · exact List.mem_append_right _ here

/-- A reader that takes the next token off first, which at the end of the text leaves nothing as it was. -/
theorem take (h : Forward known p) : Forward known fun ts => p ts.tail where
  left {ts _ _} run := by
    obtain ⟨shorter, stop⟩ := h.left run
    exact ⟨shorter.trans ts.suffix_tail.1, stop.trans ts.suffix_tail.2⟩
  blamed {ts _} run :=
    List.append_subset.mpr ⟨List.subset_append_left _ _,
      fun _ here => List.mem_append_right _ (TokenStream.places_subset ts.suffix_tail here)⟩ (h.blamed run)

theorem bind (h : Forward known p) (next : ∀ a, Forward known (f a)) : Forward known (p >>= f) where
  left run := by
    obtain ⟨a, ts₁, here, run⟩ := of_bind run
    obtain ⟨shorter, stop⟩ := h.left here
    obtain ⟨shorter', stop'⟩ := (next a).left run
    exact ⟨shorter'.trans shorter, stop'.trans stop⟩
  blamed {ts e} run := by
    cases first : p ts with
    | error e' =>
      rw [run_bind_error first] at run
      cases run
      exact h.blamed first
    | ok x =>
      obtain ⟨a, ts₁⟩ := x
      rw [run_bind first] at run
      rcases List.mem_append.mp ((next a).blamed run) with here | here
      · exact List.mem_append_left _ here
      · exact List.mem_append_right _ (TokenStream.places_subset (h.left first) here)

theorem map (h : Forward known p) (g : α → β) : Forward known (g <$> p) := by
  rw [map_eq_pure_bind]
  exact h.bind fun a => .done (g a)

theorem fail (f : Fault) : Forward known (Parse.fail f : Parse α) :=
  .look (p := fun ts _ => .error ⟨ts.position, f⟩) fun _ => .blame f List.mem_cons_self

theorem unexpected (what : Expectation) : Forward known (Parse.unexpected what : Parse α) :=
  .look (p := fun ts _ => .error ⟨ts.position, .expected what ts.head?⟩) fun _ => .blame _ List.mem_cons_self

/-- A look at the tokens left. -/
theorem seen (g : TokenStream → α) : Forward known fun ts => .ok (g ts, ts) :=
  .look fun ts => .done (g ts)

/-- A place that is looked at is known behind. -/
theorem get {f : TokenStream → Parse β} (next : ∀ ts, Forward (ts.position :: known) (f ts)) :
    Forward known (MonadState.get >>= f) :=
  .look (p := f) next

theorem advance : Forward known Parse.advance :=
  .take (.done ())

theorem eat (t : Token) : Forward known (Parse.eat t) := by
  refine .look (p := fun ts ts' => if ts.head? = some t then .ok (true, ts'.tail) else .ok (false, ts')) fun ts => ?_
  by_cases here : ts.head? = some t
  · simp only [if_pos here]
    exact .take (.done true)
  · simp only [if_neg here]
    exact .done false

theorem ifEat {t : Token} (yes : Forward known p) (no : Forward known q) :
    Forward known (do if ← Parse.eat t then p else q) :=
  (eat t).bind fun found => by cases found <;> assumption

theorem ifNext {t : Token} (yes : Forward known p) (no : Forward known q) :
    Forward known (do if ← next t then p else q) :=
  (seen _).bind fun found => by cases found <;> assumption

theorem bounded {p : Nat → Parse α} (h : ∀ fuel, Forward known (p fuel)) : Forward known (Parse.bounded p) :=
  .look (p := fun ts => p (ts.items.length + 1)) fun _ => (h _).mono (List.subset_cons_self _ _)

theorem expectSymbol (s : Symbol) : Forward known (Parse.expectSymbol s) :=
  (eat _).bind fun found => by
    cases found
    · exact unexpected _
    · exact .done ()

theorem expectWord (w : String) : Forward known (Parse.expectWord w) :=
  (eat _).bind fun found => by
    cases found
    · exact unexpected _
    · exact .done ()

theorem after? {s : Symbol} (h : Forward known p) : Forward known (Parse.after? s p) :=
  ifEat (h.bind fun a => .done (some a)) (.done none)

theorem identifierFor (what : Expectation) : Forward known (Parse.identifierFor what) := by
  refine (seen _).bind fun next => ?_
  split
  case h_1 n =>
    split
    case isTrue => exact unexpected _
    case isFalse => exact advance.bind fun _ => .done n
  case h_2 => exact unexpected _

theorem dottedRound {next : Parse String} (h : Forward known next) : Forward known (Parse.dottedRound next) :=
  ifEat ((identifierFor _).bind fun _ => h.bind fun _ => .done _) (.done _)

theorem dottedRest (fuel : Nat) : Forward known (Parse.dottedRest fuel) := by
  induction fuel with
  | zero => exact .done _
  | succ fuel ih => exact dottedRound ih

theorem dottedName : Forward known Parse.dottedName :=
  (identifierFor _).bind fun _ => (bounded dottedRest).bind fun _ => .done _

theorem typeRef : Forward known Parse.typeRef :=
  dottedName.bind fun _ => (eat _).bind fun _ => .done _

theorem commaRound (item : Forward known p) (close : Symbol) {next : Parse (List α)} (h : Forward known next) :
    Forward known (Parse.commaRound p close next) := by
  refine ifEat (.done _) (item.bind fun _ => ifEat (h.bind fun _ => .done _) ?_)
  exact (expectSymbol _).bind fun _ => .done _

theorem commaItems (item : Forward known p) (close : Symbol) (fuel : Nat) :
    Forward known (Parse.commaItems p close fuel) := by
  induction fuel with
  | zero => exact unexpected _
  | succ fuel ih => exact commaRound item close ih

theorem bracedRound (item : Forward known p) {next : Parse (List α)} (h : Forward known next) :
    Forward known (Parse.bracedRound p next) := by
  refine ifEat (.done _) ((seen _).bind fun next => ?_)
  split
  on_goal 1 => refine (unexpected _).bind fun _ => ?_
  all_goals exact item.bind fun _ => h.bind fun _ => .done _

theorem bracedItems (item : Forward known p) (fuel : Nat) : Forward known (Parse.bracedItems p fuel) := by
  induction fuel with
  | zero => exact unexpected _
  | succ fuel ih => exact bracedRound item ih

theorem braced (item : Forward known p) : Forward known (Parse.braced p) :=
  (expectSymbol _).bind fun _ => bounded (bracedItems item)

section Layers

variable {expr : Parse Expr} (inner : Forward known expr)
include inner

theorem arguments : Forward known (Parse.arguments expr) :=
  (expectSymbol _).bind fun _ => bounded (commaItems inner _)

theorem mapEntry : Forward known (Parse.mapEntry expr) := by
  refine (seen _).bind fun next => ?_
  split
  case h_1 => exact advance.bind fun _ => (expectSymbol _).bind fun _ => inner.bind fun _ => .done _
  case h_2 => exact unexpected _

theorem nameOrCall : Forward known (Parse.nameOrCall expr) :=
  (identifierFor _).bind fun _ => ifNext ((arguments inner).bind fun _ => .done _) (.done _)

theorem primaryWord : Forward known (Parse.primaryWord expr) := by
  refine ifEat (.done _) (ifEat (.done _) (ifEat (.done _) (ifEat (.done _) (ifEat ?super ?_))))
  case super =>
    exact (expectSymbol _).bind fun _ => (identifierFor _).bind fun _ => (arguments inner).bind fun _ => .done _
  refine ifEat ?new (ifEat ?list (ifEat ?map (ifEat ?group ((seen _).bind fun static => ?_))))
  case new => exact dottedName.bind fun _ => (arguments inner).bind fun _ => .done _
  case list => exact (bounded (commaItems inner _)).bind fun _ => .done _
  case map => exact (bounded (commaItems (mapEntry inner) _)).bind fun _ => .done _
  case group => exact inner.bind fun _ => (expectSymbol _).bind fun _ => .done _
  cases static
  · exact nameOrCall inner
  · exact dottedName.bind fun _ => (expectSymbol _).bind fun _ => (identifierFor _).bind fun _ =>
      (arguments inner).bind fun _ => .done _

theorem primary : Forward known (Parse.primary expr) := by
  refine (seen _).bind fun next => ?_
  split
  case h_4 => exact primaryWord inner
  all_goals exact advance.bind fun _ => .done _

theorem suffixRound {next : Expr → Parse Expr} (h : ∀ e, Forward known (next e)) (e : Expr) :
    Forward known (Parse.suffixRound expr next e) := by
  refine ifEat ((identifierFor _).bind fun _ => ?_) (ifEat ?_ (.done e))
  · exact ifNext ((arguments inner).bind fun _ => h _) (h _)
  · exact inner.bind fun _ => (expectSymbol _).bind fun _ => h _

theorem suffixes (fuel : Nat) (e : Expr) : Forward known (Parse.suffixes expr fuel e) := by
  induction fuel generalizing e with
  | zero => exact .done e
  | succ fuel ih => exact suffixRound inner ih e

theorem postfixed : Forward known (Parse.postfixed expr) :=
  (primary inner).bind fun e => bounded fun fuel => suffixes inner fuel e

end Layers

section Operands

variable {operand : Parse Expr} (inner : Forward known operand)
include inner

theorem unaryRound {next : Parse Expr} (h : Forward known next) : Forward known (Parse.unaryRound operand next) :=
  ifEat (h.bind fun _ => .done _) (ifEat (h.bind fun _ => .done _) inner)

theorem unary (fuel : Nat) : Forward known (Parse.unary operand fuel) := by
  induction fuel with
  | zero => exact unexpected _
  | succ fuel ih => exact unaryRound inner ih

end Operands

theorem binaryOperator : Forward known Parse.binaryOperator := by
  refine (seen _).bind fun next => ?_
  split <;> exact .done _

section Climbing

variable {right : Nat → Parse Expr} (operands : ∀ k, Forward known (right k))
include operands

theorem climbRound (least : Nat) {next : Expr → Parse Expr} (h : ∀ e, Forward known (next e)) (left : Expr) :
    Forward known (Parse.climbRound right least next left) := by
  refine binaryOperator.bind fun found => ?_
  split
  case h_1 op =>
    split
    case isTrue => exact .done left
    case isFalse => exact advance.bind fun _ => (operands _).bind fun _ => h _
  case h_2 => exact .done left

theorem climb (least fuel : Nat) (left : Expr) : Forward known (Parse.climb right least fuel left) := by
  induction fuel generalizing left with
  | zero => exact .done left
  | succ fuel ih => exact climbRound operands least ih left

end Climbing

theorem binaryRound {operand : Parse Expr} (inner : Forward known operand) {next : Nat → Parse Expr}
    (h : ∀ k, Forward known (next k)) (least : Nat) : Forward known (Parse.binaryRound operand next least) :=
  inner.bind fun left => bounded fun fuel => climb h least fuel left

theorem binary {operand : Parse Expr} (inner : Forward known operand) (n least : Nat) :
    Forward known (Parse.binary operand n least) := by
  induction n generalizing least with
  | zero => exact unexpected _
  | succ n ih => exact binaryRound inner (fun k => ih k) least

theorem expressionOver {expr : Parse Expr} (inner : Forward known expr) : Forward known (Parse.expressionOver expr) :=
  binary (bounded (unary (postfixed inner))) 7 1

theorem expressionWithin (depth : Nat) : Forward known (Parse.expressionWithin depth) := by
  induction depth with
  | zero => exact unexpected _
  | succ depth ih => exact expressionOver ih

theorem expression : Forward known Parse.expression :=
  bounded expressionWithin

theorem typeClause : Forward known Parse.typeClause :=
  after? typeRef

theorem declareRest : Forward known Parse.declareRest :=
  (identifierFor _).bind fun _ => typeClause.bind fun _ => (expectSymbol _).bind fun _ => expression.bind fun _ =>
    (expectSymbol _).bind fun _ => .done _

theorem returnRest : Forward known Parse.returnRest := by
  have behind : ∀ value : Option Expr, Forward known (do
      Parse.expectSymbol .semicolon
      return Statement.return value) := fun _ => (expectSymbol _).bind fun _ => .done _
  exact ifNext ((done none).bind behind) ((expression.map some).bind behind)

/-- An assignment to what is no target is a fault at the place where the statement begins. -/
theorem expressionStatement : Forward known Parse.expressionStatement := by
  refine get fun ts => expression.bind fun e => ifEat ?_ ((expectSymbol _).bind fun _ => .done _)
  split
  case h_1 => exact (Forward.blame _ List.mem_cons_self).bind fun _ => (expectSymbol _).bind fun _ => .done _
  case h_2 => exact expression.bind fun _ => (expectSymbol _).bind fun _ => .done _

section Layers

variable {statement : Parse Statement} (inner : Forward known statement)
include inner

theorem condRest : Forward known (Parse.condRest statement) := by
  refine (expectSymbol _).bind fun _ => expression.bind fun _ => (expectSymbol _).bind fun _ => ?_
  refine (braced inner).bind fun _ => ifEat (ifNext ?_ ?_) (.done _)
  · exact inner.bind fun _ => .done _
  · exact (braced inner).bind fun _ => .done _

theorem whileRest : Forward known (Parse.whileRest statement) :=
  (expectSymbol _).bind fun _ => expression.bind fun _ => (expectSymbol _).bind fun _ =>
    (braced inner).bind fun _ => .done _

theorem forRest : Forward known (Parse.forRest statement) :=
  (expectSymbol _).bind fun _ => (identifierFor _).bind fun _ => (expectWord _).bind fun _ => expression.bind fun _ =>
    (expectSymbol _).bind fun _ => (braced inner).bind fun _ => .done _

theorem statementOver : Forward known (Parse.statementOver statement) :=
  ifEat declareRest <| ifEat returnRest <| ifEat (condRest inner) <| ifEat (whileRest inner) <| ifEat (forRest inner) <|
    ifEat ((expectSymbol _).bind fun _ => .done _) <| ifEat ((expectSymbol _).bind fun _ => .done _) expressionStatement

end Layers

theorem statementWithin (depth : Nat) : Forward known (Parse.statementWithin depth) := by
  induction depth with
  | zero => exact unexpected _
  | succ depth ih => exact statementOver ih

theorem statement : Forward known Parse.statement :=
  bounded statementWithin

theorem block : Forward known Parse.block :=
  braced statement

theorem modifierRound {next : Modifiers → Parse Modifiers} (h : ∀ m, Forward known (next m)) (m : Modifiers) :
    Forward known (Parse.modifierRound next m) :=
  ifEat (h _) (ifEat (h _) (ifEat (h _) (ifEat (h _) (ifEat (h _) (.done m)))))

theorem modifiersFrom (fuel : Nat) (m : Modifiers) : Forward known (Parse.modifiersFrom fuel m) := by
  induction fuel generalizing m with
  | zero => exact .done m
  | succ fuel ih => exact modifierRound ih m

theorem modifiers : Forward known Parse.modifiers :=
  bounded fun fuel => modifiersFrom fuel {}

theorem defaultValue : Forward known Parse.defaultValue :=
  after? expression

theorem parameterRound {next : List String → Parse (List Parameter)} (h : ∀ taken, Forward known (next taken))
    (taken : List String) : Forward known (Parse.parameterRound next taken) := by
  refine (identifierFor _).bind fun name => ?_
  split
  on_goal 1 => refine (fail _).bind fun _ => ?_
  all_goals
    exact typeClause.bind fun _ => defaultValue.bind fun _ => ifEat (.done _)
      ((expectSymbol _).bind fun _ => (h _).bind fun _ => .done _)

theorem parametersFrom (fuel : Nat) (taken : List String) : Forward known (Parse.parametersFrom fuel taken) := by
  induction fuel generalizing taken with
  | zero => exact unexpected _
  | succ fuel ih => exact parameterRound ih taken

theorem parameters : Forward known Parse.parameters :=
  (expectSymbol _).bind fun _ => ifEat (.done _) (bounded fun fuel => parametersFrom fuel [])

theorem methodRest (m : Modifiers) : Forward known (Parse.methodRest m) :=
  (identifierFor _).bind fun _ => parameters.bind fun _ => (after? typeRef).bind fun _ => block.bind fun _ => .done _

theorem propertyRest (m : Modifiers) : Forward known (Parse.propertyRest m) :=
  (identifierFor _).bind fun _ => typeClause.bind fun _ => defaultValue.bind fun _ =>
    (expectSymbol _).bind fun _ => .done _

theorem member : Forward known Parse.member :=
  modifiers.bind fun m => ifEat ((propertyRest m).bind fun _ => .done _)
    (ifEat ((methodRest m).bind fun _ => .done _) (unexpected _))

theorem members : Forward known Parse.members :=
  braced member

theorem classRest (isFinal : Bool) : Forward known (Parse.classRest isFinal) := by
  refine (identifierFor _).bind fun name => ?_
  have behind : ∀ parent, Forward known (do return Declaration.class ⟨name, isFinal, parent, ← Parse.members⟩) :=
    fun _ => members.bind fun _ => .done _
  exact ifEat ((dottedName.map some).bind behind) ((done none).bind behind)

theorem traitRest : Forward known Parse.traitRest :=
  (identifierFor _).bind fun _ => members.bind fun _ => .done _

theorem declaration : Forward known Parse.declaration :=
  (eat _).bind fun isFinal => ifEat (classRest isFinal) (by
    split
    · exact unexpected _
    · exact ifEat traitRest (unexpected _))

theorem importRest : Forward known Parse.importRest := by
  refine dottedName.bind fun path => ?_
  have behind : ∀ localName, Forward known (do
      Parse.expectSymbol .semicolon
      return Import.mk path localName) := fun _ => (expectSymbol _).bind fun _ => .done _
  exact ifEat (((identifierFor _).map some).bind behind) ((done none).bind behind)

theorem importRound {next : Parse (List Import)} (h : Forward known next) : Forward known (Parse.importRound next) :=
  ifEat (importRest.bind fun _ => h.bind fun _ => .done _) (.done _)

theorem imports (fuel : Nat) : Forward known (Parse.imports fuel) := by
  induction fuel with
  | zero => exact .done _
  | succ fuel ih => exact importRound ih

theorem declarationRound {next : Parse (List Declaration)} (h : Forward known next) :
    Forward known (Parse.declarationRound next) := by
  refine (seen _).bind fun next => ?_
  split
  · exact .done _
  · exact declaration.bind fun _ => h.bind fun _ => .done _

theorem declarations (fuel : Nat) : Forward known (Parse.declarations fuel) := by
  induction fuel with
  | zero => exact .done _
  | succ fuel ih => exact declarationRound ih

theorem packageClause : Forward known Parse.packageClause :=
  ifEat (dottedName.bind fun _ => (expectSymbol _).bind fun _ => .done _) (.done _)

theorem sourceUnit : Forward known Parse.sourceUnit :=
  packageClause.bind fun _ => (bounded imports).bind fun _ => (bounded declarations).bind fun _ => .done _

end Forward

/-- The functions of the grammar, each over readers that go forward. -/
structure GrammarForward : Prop where
  fail : ∀ {α : Type} (f : Fault), Forward [] (fail f : Parse α)
  unexpected : ∀ {α : Type} (what : Expectation), Forward [] (unexpected what : Parse α)
  peek : Forward [] peek
  advance : Forward [] advance
  eat : ∀ t, Forward [] (eat t)
  next : ∀ t, Forward [] (next t)
  expectSymbol : ∀ s, Forward [] (expectSymbol s)
  expectWord : ∀ w, Forward [] (expectWord w)
  bounded : ∀ {α : Type} {p : Nat → Parse α}, (∀ fuel, Forward [] (p fuel)) → Forward [] (bounded p)
  after? : ∀ {α : Type} {p : Parse α} (s : Symbol), Forward [] p → Forward [] (after? s p)
  identifierFor : ∀ what, Forward [] (identifierFor what)
  dottedRest : ∀ fuel, Forward [] (dottedRest fuel)
  dottedName : Forward [] dottedName
  typeRef : Forward [] typeRef
  commaItems : ∀ {α : Type} {item : Parse α}, Forward [] item → ∀ close fuel, Forward [] (commaItems item close fuel)
  bracedItems : ∀ {α : Type} {item : Parse α}, Forward [] item → ∀ fuel, Forward [] (bracedItems item fuel)
  braced : ∀ {α : Type} {item : Parse α}, Forward [] item → Forward [] (braced item)
  atStaticCall : Forward [] atStaticCall
  arguments : ∀ {expr}, Forward [] expr → Forward [] (arguments expr)
  mapEntry : ∀ {expr}, Forward [] expr → Forward [] (mapEntry expr)
  nameOrCall : ∀ {expr}, Forward [] expr → Forward [] (nameOrCall expr)
  primaryWord : ∀ {expr}, Forward [] expr → Forward [] (primaryWord expr)
  primary : ∀ {expr}, Forward [] expr → Forward [] (primary expr)
  suffixes : ∀ {expr}, Forward [] expr → ∀ fuel e, Forward [] (suffixes expr fuel e)
  postfixed : ∀ {expr}, Forward [] expr → Forward [] (postfixed expr)
  unary : ∀ {operand}, Forward [] operand → ∀ fuel, Forward [] (unary operand fuel)
  binaryOperator : Forward [] binaryOperator
  climb : ∀ {right : Nat → Parse Expr}, (∀ k, Forward [] (right k)) → ∀ least fuel left,
    Forward [] (climb right least fuel left)
  binary : ∀ {operand}, Forward [] operand → ∀ n least, Forward [] (binary operand n least)
  expressionOver : ∀ {expr}, Forward [] expr → Forward [] (expressionOver expr)
  expressionWithin : ∀ depth, Forward [] (expressionWithin depth)
  expression : Forward [] expression
  typeClause : Forward [] typeClause
  declareRest : Forward [] declareRest
  returnRest : Forward [] returnRest
  expressionStatement : Forward [] expressionStatement
  condRest : ∀ {statement}, Forward [] statement → Forward [] (condRest statement)
  whileRest : ∀ {statement}, Forward [] statement → Forward [] (whileRest statement)
  forRest : ∀ {statement}, Forward [] statement → Forward [] (forRest statement)
  statementOver : ∀ {statement}, Forward [] statement → Forward [] (statementOver statement)
  statementWithin : ∀ depth, Forward [] (statementWithin depth)
  statement : Forward [] statement
  block : Forward [] block
  modifiersFrom : ∀ fuel m, Forward [] (modifiersFrom fuel m)
  modifiers : Forward [] modifiers
  defaultValue : Forward [] defaultValue
  parametersFrom : ∀ fuel taken, Forward [] (parametersFrom fuel taken)
  parameters : Forward [] parameters
  methodRest : ∀ m, Forward [] (methodRest m)
  propertyRest : ∀ m, Forward [] (propertyRest m)
  member : Forward [] member
  members : Forward [] members
  classRest : ∀ isFinal, Forward [] (classRest isFinal)
  traitRest : Forward [] traitRest
  declaration : Forward [] declaration
  importRest : Forward [] importRest
  imports : ∀ fuel, Forward [] (imports fuel)
  declarations : ∀ fuel, Forward [] (declarations fuel)
  packageClause : Forward [] packageClause
  sourceUnit : Forward [] sourceUnit

theorem grammarForward : GrammarForward where
  fail := .fail
  unexpected := .unexpected
  peek := .seen _
  advance := .advance
  eat := .eat
  next _ := .seen _
  expectSymbol := .expectSymbol
  expectWord := .expectWord
  bounded := .bounded
  after? _ := .after?
  identifierFor := .identifierFor
  dottedRest := .dottedRest
  dottedName := .dottedName
  typeRef := .typeRef
  commaItems := .commaItems
  bracedItems := .bracedItems
  braced := .braced
  atStaticCall := .seen _
  arguments := .arguments
  mapEntry := .mapEntry
  nameOrCall := .nameOrCall
  primaryWord := .primaryWord
  primary := .primary
  suffixes := .suffixes
  postfixed := .postfixed
  unary := .unary
  binaryOperator := .binaryOperator
  climb := .climb
  binary := .binary
  expressionOver := .expressionOver
  expressionWithin := .expressionWithin
  expression := .expression
  typeClause := .typeClause
  declareRest := .declareRest
  returnRest := .returnRest
  expressionStatement := .expressionStatement
  condRest := .condRest
  whileRest := .whileRest
  forRest := .forRest
  statementOver := .statementOver
  statementWithin := .statementWithin
  statement := .statement
  block := .block
  modifiersFrom := .modifiersFrom
  modifiers := .modifiers
  defaultValue := .defaultValue
  parametersFrom := .parametersFrom
  parameters := .parameters
  methodRest := .methodRest
  propertyRest := .propertyRest
  member := .member
  members := .members
  classRest := .classRest
  traitRest := .traitRest
  declaration := .declaration
  importRest := .importRest
  imports := .imports
  declarations := .declarations
  packageClause := .packageClause
  sourceUnit := .sourceUnit

end Parse

end AspectProxy
