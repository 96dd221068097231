import AspectProxy.Proofs.Reading.Recognition
import AspectProxy.Proofs.Reading.Forward

/-!
Readers that agree on short streams. Before a loop or a recursion of the grammar goes into its next round it has taken a
token off, so rounds over readers that agree on shorter streams agree on streams of one token more.
-/

namespace AspectProxy

theorem TokenStream.length_tail_of_head? {ts : TokenStream} {t : Token} (h : ts.head? = some t) :
    ts.tail.items.length < ts.items.length := by
  obtain ⟨items, stop⟩ := ts
  cases items with
  | nil => cases h
  | cons x items => exact Nat.lt_succ_self _

namespace Parse

variable {k : Nat} {p p' q q' : Parse α} {f f' : α → Parse β} {t : Token}

theorem run_eat_of_head? {ts : TokenStream} (h : ts.head? = some t) : eat t ts = .ok (true, ts.tail) :=
  if_pos h

theorem run_eat_of_other {ts : TokenStream} (h : ts.head? ≠ some t) : eat t ts = .ok (false, ts) :=
  if_neg h

/-- A reader that leaves less than it was given, if it succeeds. -/
def Advances (p : Parse α) : Prop :=
  ∀ ts a rest, p ts = .ok (a, rest) → rest.items.length < ts.items.length

namespace Advances

theorem unexpected (what : Expectation) : Advances (Parse.unexpected what : Parse α) :=
  fun _ _ _ run => by cases run

theorem first (h : Advances p) (behind : ∀ a, Forward [] (f a)) : Advances (p >>= f) := by
  intro ts b rest run
  obtain ⟨a, ts₁, here, run⟩ := of_bind run
  exact Nat.lt_of_le_of_lt ((behind a).length_le run) (h ts a ts₁ here)

theorem second (front : Forward [] p) (h : ∀ a, Advances (f a)) : Advances (p >>= f) := by
  intro ts b rest run
  obtain ⟨a, ts₁, here, run⟩ := of_bind run
  exact Nat.lt_of_lt_of_le (h a ts₁ b rest run) (front.length_le here)

theorem ifEat (yes : Forward [] p) (no : Advances q) : Advances (do if ← eat t then p else q) := by
  intro ts a rest run
  by_cases here : ts.head? = some t
  · rw [run_bind (run_eat_of_head? here)] at run
    exact Nat.lt_of_le_of_lt (yes.length_le run) (ts.length_tail_of_head? here)
  · rw [run_bind (run_eat_of_other here)] at run
    exact no ts a rest run

theorem expectSymbol (s : Symbol) : Advances (Parse.expectSymbol s) := by
  intro ts a rest run
  by_cases here : ts.head? = some (.symbol s)
  · have read : Parse.expectSymbol s ts = .ok ((), ts.tail) := run_bind (run_eat_of_head? here)
    cases read.symm.trans run
    exact ts.length_tail_of_head? here
  · have read : Parse.expectSymbol s ts = Parse.unexpected (.symbol s) ts := run_bind (run_eat_of_other here)
    cases read.symm.trans run

theorem identifierFor (what : Expectation) : Advances (Parse.identifierFor what) := by
  intro ts n rest run
  obtain ⟨us, rfl, name, -⟩ := identifierFor_takes what ts n rest run
  have one : us.length = 1 := by simpa using congrArg List.length name
  simp [one]

theorem bounded {p : Nat → Parse α} (h : ∀ fuel, Advances (p fuel)) : Advances (Parse.bounded p) :=
  fun ts => h _ ts

/-- An expression is followed by a semicolon in the end. -/
theorem expressionStatement : Advances Parse.expressionStatement := by
  refine .second (.seen id) fun ts => .second .expression fun e => .second (.eat _) fun assigned => ?_
  cases assigned
  · exact (expectSymbol _).first fun _ => .done _
  · have refused : Advances (throw ⟨ts.position, .invalidTarget⟩ : Parse Unit) := fun _ _ _ run => by cases run
    rw [if_pos rfl]
    split
    · exact refused.first fun _ => (Forward.expectSymbol _).bind fun _ => .done _
    · exact .second .expression fun _ => (expectSymbol _).first fun _ => .done _

theorem statementOver {statement : Parse Statement} (inner : Forward [] statement) :
    Advances (Parse.statementOver statement) :=
  .ifEat .declareRest <| .ifEat .returnRest <| .ifEat (.condRest inner) <| .ifEat (.whileRest inner) <|
    .ifEat (.forRest inner) <| .ifEat ((Forward.expectSymbol _).bind fun _ => .done _) <|
    .ifEat ((Forward.expectSymbol _).bind fun _ => .done _) expressionStatement

theorem statementWithin (depth : Nat) : Advances (Parse.statementWithin depth) := by
  cases depth with
  | zero => exact unexpected _
  | succ depth => exact statementOver (.statementWithin depth)

theorem statement : Advances Parse.statement :=
  bounded statementWithin

theorem member : Advances Parse.member :=
  .second .modifiers fun m => .ifEat ((Forward.propertyRest m).bind fun _ => .done _)
    (.ifEat ((Forward.methodRest m).bind fun _ => .done _) (.unexpected _))

theorem declaration : Advances Parse.declaration :=
  .second (Forward.eat _) fun isFinal => .ifEat (Forward.classRest isFinal) (by
    split
    · exact .unexpected _
    · exact .ifEat .traitRest (.unexpected _))

end Advances

/-- Two readers that do the same on streams of fewer than `k` tokens. -/
def Agree (k : Nat) (p q : Parse α) : Prop :=
  ∀ ts : TokenStream, ts.items.length < k → p ts = q ts

namespace Agree

theorem refl (p : Parse α) : Agree k p p :=
  fun _ _ => rfl

theorem mono {j : Nat} (h : Agree k p q) (fewer : j ≤ k) : Agree j p q :=
  fun ts short => h ts (Nat.lt_of_lt_of_le short fewer)

theorem bind (h : Agree k p p') (front : Forward [] p) (behind : ∀ a, Agree k (f a) (f' a)) :
    Agree k (p >>= f) (p' >>= f') := by
  intro ts short
  have same := h ts short
  cases run : p ts with
  | error e =>
    rw [run] at same
    rw [run_bind_error run, run_bind_error same.symm]
  | ok x =>
    rw [run] at same
    rw [run_bind run, run_bind same.symm]
    exact behind x.1 x.2 (Nat.lt_of_le_of_lt (front.length_le run) short)

/-- The same reader in front leaves no more tokens than it was given. -/
theorem behind (front : Forward [] p) (h : ∀ a, Agree k (f a) (f' a)) : Agree k (p >>= f) (p >>= f') :=
  (refl p).bind front h

/-- Behind a reader that takes a token off, agreement on shorter streams is enough. -/
theorem advance (front : Advances p) (h : ∀ a, Agree k (f a) (f' a)) : Agree (k + 1) (p >>= f) (p >>= f') := by
  intro ts short
  cases run : p ts with
  | error e => rw [run_bind_error run, run_bind_error run]
  | ok x =>
    rw [run_bind run, run_bind run]
    exact h x.1 x.2 (by have := front ts _ _ run; omega)

theorem ifEat (yes : Agree k p p') (no : Agree (k + 1) q q') :
    Agree (k + 1) (do if ← eat t then p else q) (do if ← eat t then p' else q') := by
  intro ts short
  by_cases here : ts.head? = some t
  · rw [run_bind (run_eat_of_head? here), run_bind (run_eat_of_head? here)]
    exact yes _ (by have := ts.length_tail_of_head? here; omega)
  · rw [run_bind (run_eat_of_other here), run_bind (run_eat_of_other here)]
    exact no ts short

theorem either (yes : Agree k p p') (no : Agree k q q') :
    Agree k (do if ← eat t then p else q) (do if ← eat t then p' else q') :=
  behind (.eat t) fun found => by cases found <;> assumption

theorem ifNext (yes : Agree k p p') (no : Agree k q q') :
    Agree k (do if ← next t then p else q) (do if ← next t then p' else q') :=
  behind (.seen _) fun found => by cases found <;> assumption

theorem bounded {p p' : Nat → Parse α} (h : ∀ fuel, Agree k (p fuel) (p' fuel)) :
    Agree k (Parse.bounded p) (Parse.bounded p') :=
  fun ts short => h _ ts short

/-- What a reader's result is made into makes no difference. -/
theorem made (h : Agree k p p') (front : Forward [] p) (f : α → Parse β) : Agree k (p >>= f) (p' >>= f) :=
  h.bind front fun a => refl (f a)

theorem dottedRound {next next' : Parse String} (h : Agree k next next') (steps : Forward [] next) :
    Agree (k + 1) (Parse.dottedRound next) (Parse.dottedRound next') :=
  .ifEat (.behind (.identifierFor _) fun _ => h.made steps _) (.refl _)

theorem commaRound (item : Forward [] p) (close : Symbol) {next next' : Parse (List α)} (h : Agree k next next')
    (steps : Forward [] next) : Agree (k + 1) (Parse.commaRound p close next) (Parse.commaRound p close next') :=
  .ifEat (.refl _) (.behind item fun _ => .ifEat (h.made steps _) (.refl _))

theorem bracedRound (advances : Advances p) {next next' : Parse (List α)} (h : Agree k next next')
    (steps : Forward [] next) : Agree (k + 1) (Parse.bracedRound p next) (Parse.bracedRound p next') := by
  refine .ifEat (.refl _) (.behind (.seen _) fun found => ?_)
  split
  on_goal 1 => refine .behind (.unexpected _) fun _ => ?_
  all_goals exact .advance advances fun _ => h.made steps _

theorem modifierRound {next next' : Modifiers → Parse Modifiers} (h : ∀ m, Agree k (next m) (next' m)) (m : Modifiers) :
    Agree (k + 1) (Parse.modifierRound next m) (Parse.modifierRound next' m) :=
  .ifEat (h _) (.ifEat (h _) (.ifEat (h _) (.ifEat (h _) (.ifEat (h _) (.refl _)))))

theorem importRound {next next' : Parse (List Import)} (h : Agree k next next') (steps : Forward [] next) :
    Agree (k + 1) (Parse.importRound next) (Parse.importRound next') :=
  .ifEat (.behind .importRest fun _ => h.made steps _) (.refl _)

theorem declarationRound {next next' : Parse (List Declaration)} (h : Agree k next next') (steps : Forward [] next) :
    Agree (k + 1) (Parse.declarationRound next) (Parse.declarationRound next') := by
  refine .behind (.seen _) fun found => ?_
  split
  · exact .refl _
  · exact .advance .declaration fun _ => h.made steps _

theorem parameterRound {next next' : List String → Parse (List Parameter)}
    (h : ∀ taken, Agree k (next taken) (next' taken)) (steps : ∀ taken, Forward [] (next taken)) (taken : List String) :
    Agree (k + 1) (Parse.parameterRound next taken) (Parse.parameterRound next' taken) := by
  refine .advance (.identifierFor _) fun name => ?_
  split
  on_goal 1 => refine .behind (.fail _) fun _ => ?_
  all_goals
    exact .behind .typeClause fun _ => .behind .defaultValue fun _ => .either (.refl _)
      (.behind (.expectSymbol _) fun _ => (h _).made (steps _) _)

theorem suffixRound {expr : Parse Expr} (inner : Forward [] expr) {next next' : Expr → Parse Expr}
    (h : ∀ e, Agree k (next e) (next' e)) (e : Expr) :
    Agree (k + 1) (Parse.suffixRound expr next e) (Parse.suffixRound expr next' e) := by
  refine .ifEat (.behind (.identifierFor _) fun name => ?_) (.ifEat ?_ (.refl _))
  · exact .ifNext (.behind (.arguments inner) fun _ => h _) (h _)
  · exact .behind inner fun _ => .behind (.expectSymbol _) fun _ => h _

theorem unaryRound (operand : Parse Expr) {next next' : Parse Expr} (h : Agree k next next') (steps : Forward [] next) :
    Agree (k + 1) (Parse.unaryRound operand next) (Parse.unaryRound operand next') :=
  .ifEat (h.made steps _) (.ifEat (h.made steps _) (.refl _))

/-- An operator that is gone on with is taken off. -/
theorem climbRound {right : Nat → Parse Expr} (operands : ∀ k, Forward [] (right k)) (least : Nat)
    {next next' : Expr → Parse Expr} (h : ∀ e, Agree k (next e) (next' e)) (left : Expr) :
    Agree (k + 1) (Parse.climbRound right least next left) (Parse.climbRound right least next' left) := by
  intro ts short
  unfold Parse.climbRound
  rw [run_bind (run_binaryOperator ts), run_bind (run_binaryOperator ts)]
  cases found : operatorAt ts.tokens with
  | none => rfl
  | some op =>
    have fewer : ts.tail.items.length < k := by
      have := ts.length_tail_of_head? (ts.head?_eq.trans (head?_of_operatorAt found))
      omega
    by_cases loose : op.level < least
    · simp only [if_pos loose]
    · simp only [if_neg loose]
      exact behind (operands _) (fun _ => h _) ts.tail fewer

theorem commaItems (item : Agree k p p') (steps : Forward [] p) (close : Symbol) (fuel : Nat) :
    Agree k (Parse.commaItems p close fuel) (Parse.commaItems p' close fuel) := by
  induction fuel with
  | zero => exact .refl _
  | succ fuel ih =>
    exact .either (.refl _) (item.bind steps fun _ => .either (ih.made (.commaItems steps close fuel) _) (.refl _))

theorem bracedItems (item : Agree k p p') (steps : Forward [] p) (fuel : Nat) :
    Agree k (Parse.bracedItems p fuel) (Parse.bracedItems p' fuel) := by
  induction fuel with
  | zero => exact .refl _
  | succ fuel ih =>
    refine .either (.refl _) (.behind (.seen _) fun found => ?_)
    split
    on_goal 1 => refine .behind (.unexpected _) fun _ => ?_
    all_goals exact item.bind steps fun _ => ih.made (.bracedItems steps fuel) _

theorem braced (item : Agree k p p') (steps : Forward [] p) : Agree k (Parse.braced p) (Parse.braced p') :=
  .behind (.expectSymbol _) fun _ => .bounded fun fuel => bracedItems item steps fuel

section Layers

variable {expr expr' : Parse Expr} (inner : Agree k expr expr') (steps : Forward [] expr)
include inner steps

theorem items (close : Symbol) :
    Agree k (Parse.bounded (Parse.commaItems expr close)) (Parse.bounded (Parse.commaItems expr' close)) :=
  .bounded fun fuel => commaItems inner steps close fuel

theorem arguments : Agree (k + 1) (Parse.arguments expr) (Parse.arguments expr') :=
  .advance (.expectSymbol _) fun _ => items inner steps _

theorem mapEntry : Agree k (Parse.mapEntry expr) (Parse.mapEntry expr') := by
  refine .behind (.seen _) fun next => ?_
  split
  · exact .behind .advance fun _ => .behind (.expectSymbol _) fun _ => inner.made steps _
  · exact .refl _

theorem nameOrCall : Agree (k + 1) (Parse.nameOrCall expr) (Parse.nameOrCall expr') :=
  .behind (.identifierFor _) fun _ => .ifNext ((arguments inner steps).made (.arguments steps) _) (.refl _)

/-- A primary expression takes a token off before it reads another expression. -/
theorem primaryWord : Agree (k + 1) (Parse.primaryWord expr) (Parse.primaryWord expr') := by
  have called (f : List Expr → Parse Expr) : Agree k (Parse.arguments expr >>= f) (Parse.arguments expr' >>= f) :=
    ((arguments inner steps).mono (Nat.le_succ k)).made (.arguments steps) f
  refine .ifEat (.refl _) (.ifEat (.refl _) (.ifEat (.refl _) (.ifEat (.refl _) (.ifEat ?super ?_))))
  case super => exact .behind (.expectSymbol _) fun _ => .behind (.identifierFor _) fun _ => called _
  refine .ifEat ?new (.ifEat ?list (.ifEat ?map (.ifEat ?group (.behind (.seen _) fun static => ?_))))
  case new => exact .behind .dottedName fun _ => called _
  case list => exact (items inner steps _).made (.bounded (.commaItems steps _)) _
  case map =>
    exact (bounded fun fuel => commaItems (mapEntry inner steps) (.mapEntry steps) _ fuel).made
      (.bounded (.commaItems (.mapEntry steps) _)) _
  case group => exact inner.made steps _
  cases static
  · exact nameOrCall inner steps
  · exact .behind .dottedName fun _ => .behind (.expectSymbol _) fun _ => .behind (.identifierFor _) fun _ =>
      (arguments inner steps).made (.arguments steps) _

theorem primary : Agree (k + 1) (Parse.primary expr) (Parse.primary expr') := by
  refine .behind (.seen _) fun next => ?_
  split
  case h_4 => exact primaryWord inner steps
  all_goals exact .refl _

theorem suffixes (fuel : Nat) (e : Expr) : Agree (k + 1) (Parse.suffixes expr fuel e) (Parse.suffixes expr' fuel e) := by
  induction fuel generalizing e with
  | zero => exact .refl _
  | succ fuel ih =>
    have next (e : Expr) : Agree k (Parse.suffixes expr fuel e) (Parse.suffixes expr' fuel e) :=
      (ih e).mono (Nat.le_succ k)
    refine .ifEat (.behind (.identifierFor _) fun name => ?_) (.ifEat ?_ (.refl _))
    · exact .ifNext (((arguments inner steps).mono (Nat.le_succ k)).bind (.arguments steps) fun _ => next _) (next _)
    · exact inner.bind steps fun _ => .behind (.expectSymbol _) fun _ => next _

theorem postfixed : Agree (k + 1) (Parse.postfixed expr) (Parse.postfixed expr') :=
  (primary inner steps).bind (.primary steps) fun e => .bounded fun fuel => suffixes inner steps fuel e

end Layers

theorem climb {right right' : Nat → Parse Expr} (inner : ∀ l, Agree k (right l) (right' l))
    (operands : ∀ l, Forward [] (right l)) (least fuel : Nat) (left : Expr) :
    Agree k (Parse.climb right least fuel left) (Parse.climb right' least fuel left) := by
  induction fuel generalizing left with
  | zero => exact .refl _
  | succ fuel ih =>
    refine .behind .binaryOperator fun found => ?_
    split
    case h_1 op =>
      split
      case isTrue => exact .refl _
      case isFalse => exact .behind .advance fun _ => (inner _).bind (operands _) fun _ => ih _
    case h_2 => exact .refl _

section Operands

variable {operand operand' : Parse Expr} (inner : Agree k operand operand') (steps : Forward [] operand)
include inner steps

theorem unary (fuel : Nat) : Agree k (Parse.unary operand fuel) (Parse.unary operand' fuel) := by
  induction fuel with
  | zero => exact .refl _
  | succ fuel ih =>
    exact .either (ih.made (.unary steps fuel) _) (.either (ih.made (.unary steps fuel) _) inner)

theorem binary (n least : Nat) : Agree k (Parse.binary operand n least) (Parse.binary operand' n least) := by
  induction n generalizing least with
  | zero => exact .refl _
  | succ n ih =>
    exact inner.bind steps fun left => .bounded fun fuel =>
      climb (fun l => ih l) (fun l => .binary steps n l) least fuel left

end Operands

theorem expressionOver {expr expr' : Parse Expr} (inner : Agree k expr expr') (steps : Forward [] expr) :
    Agree (k + 1) (Parse.expressionOver expr) (Parse.expressionOver expr') :=
  binary (.bounded (unary (postfixed inner steps) (.postfixed steps))) (.bounded (.unary (.postfixed steps))) 7 1

section Layers

variable {statement statement' : Parse Statement} (inner : Agree k statement statement')
  (steps : Forward [] statement)
include inner steps

theorem condRest : Agree k (Parse.condRest statement) (Parse.condRest statement') := by
  refine .behind (.expectSymbol _) fun _ => .behind .expression fun _ => .behind (.expectSymbol _) fun _ => ?_
  refine (braced inner steps).bind (.braced steps) fun _ => .either (.ifNext ?_ ?_) (.refl _)
  · exact inner.made steps _
  · exact (braced inner steps).made (.braced steps) _

theorem whileRest : Agree k (Parse.whileRest statement) (Parse.whileRest statement') :=
  .behind (.expectSymbol _) fun _ => .behind .expression fun _ => .behind (.expectSymbol _) fun _ =>
    (braced inner steps).made (.braced steps) _

theorem forRest : Agree k (Parse.forRest statement) (Parse.forRest statement') :=
  .behind (.expectSymbol _) fun _ => .behind (.identifierFor _) fun _ => .behind (.expectWord _) fun _ =>
    .behind .expression fun _ => .behind (.expectSymbol _) fun _ => (braced inner steps).made (.braced steps) _

theorem statementOver : Agree (k + 1) (Parse.statementOver statement) (Parse.statementOver statement') :=
  .ifEat (.refl _) <| .ifEat (.refl _) <| .ifEat (condRest inner steps) <| .ifEat (whileRest inner steps) <|
    .ifEat (forRest inner steps) (.refl _)

end Layers

end Agree

end Parse

end AspectProxy
