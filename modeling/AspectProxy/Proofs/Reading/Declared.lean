import AspectProxy.Proofs.Reading.Trees

/-!
The names of what is declared in a text, whatever its numbers are. A reader only takes tokens off, so the declarations
behind others are read from tokens of the text, and each has a name.
-/

namespace AspectProxy

namespace Parse

/-- A reader that leaves tokens that meet a condition where it finds such. -/
def Keeps (S : Token → Prop) (p : Parse α) : Prop :=
  Yields S p fun _ => True

open Yields

variable {S : Token → Prop}

theorem Yields.keeps {p : Parse α} {Q : α → Prop} (h : Yields S p Q) : Keeps S p :=
  h.imp fun _ _ => trivial

namespace Keeps

theorem pure (a : α) : Keeps S (Pure.pure a) :=
  Yields.pure trivial

theorem map {p : Parse α} (h : Keeps S p) (f : α → β) : Keeps S (f <$> p) :=
  Yields.map h f fun _ _ => trivial

end Keeps

theorem identifierFor_keeps (what : Expectation) : Keeps S (identifierFor what) := by
  refine peek_yields.skip fun next => ?_
  split
  · exact .ite (fun _ => .unexpected _) fun _ => advance_yields.skip fun _ => .pure trivial
  · exact .unexpected _

theorem identifier_keeps : Keeps S identifier :=
  identifierFor_keeps _

theorem dottedRest_keeps (fuel : Nat) : Keeps S (dottedRest fuel) := by
  induction fuel with
  | zero => exact .pure _
  | succ fuel ih => exact .ifEat (identifier_keeps.skip fun _ => ih.skip fun _ => .pure trivial) (.pure trivial)

theorem dottedName_keeps : Keeps S dottedName :=
  identifier_keeps.skip fun _ => (Yields.bounded dottedRest_keeps).skip fun _ => .pure trivial

theorem typeRef_keeps : Keeps S typeRef :=
  dottedName_keeps.skip fun _ => (eat_yields _).skip fun _ => .pure trivial

theorem items_keeps {p : Parse α} (h : Keeps S p) (close : Symbol) : Keeps S (bounded (commaItems p close)) :=
  (Yields.bounded (commaItems_yields h close)).keeps

section Layers

variable {expr : Parse Expr} (h : Keeps S expr)
include h

theorem arguments_keeps : Keeps S (arguments expr) :=
  (expectSymbol_yields _).skip fun _ => items_keeps h _

theorem mapEntry_keeps : Keeps S (mapEntry expr) := by
  refine peek_yields.skip fun next => ?_
  split
  · exact advance_yields.skip fun _ => (expectSymbol_yields _).skip fun _ => h.skip fun _ => .pure trivial
  · exact .unexpected _

theorem nameOrCall_keeps : Keeps S (nameOrCall expr) :=
  (identifierFor_keeps _).skip fun _ => .ifNext ((arguments_keeps h).skip fun _ => .pure trivial) (.pure trivial)

theorem primaryWord_keeps : Keeps S (primaryWord expr) := by
  refine .ifEat (.pure trivial) (.ifEat (.pure trivial) (.ifEat (.pure trivial) (.ifEat (.pure trivial) ?_)))
  refine .ifEat ?call (.ifEat ?create (.ifEat ?list (.ifEat ?map (.ifEat ?parentheses ?name))))
  case call =>
    refine (expectSymbol_yields _).skip fun _ => identifier_keeps.skip fun _ => ?_
    exact (arguments_keeps h).skip fun _ => .pure trivial
  case create => exact dottedName_keeps.skip fun _ => (arguments_keeps h).skip fun _ => .pure trivial
  case list => exact (items_keeps h _).skip fun _ => .pure trivial
  case map => exact (items_keeps (mapEntry_keeps h) _).skip fun _ => .pure trivial
  case parentheses => exact h.skip fun _ => (expectSymbol_yields _).skip fun _ => .pure trivial
  case name =>
    refine atStaticCall_yields.skip fun _ => .ite (fun _ => ?_) fun _ => nameOrCall_keeps h
    refine dottedName_keeps.skip fun _ => (expectSymbol_yields _).skip fun _ => identifier_keeps.skip fun _ => ?_
    exact (arguments_keeps h).skip fun _ => .pure trivial

theorem primary_keeps : Keeps S (primary expr) := by
  refine peek_yields.skip fun next => ?_
  split
  · exact advance_yields.skip fun _ => .pure trivial
  · exact advance_yields.skip fun _ => .pure trivial
  · exact advance_yields.skip fun _ => .pure trivial
  · exact primaryWord_keeps h

theorem suffixes_keeps (fuel : Nat) (e : Expr) : Keeps S (suffixes expr fuel e) := by
  induction fuel generalizing e with
  | zero => exact .pure _
  | succ fuel ih =>
    refine .ifEat (identifier_keeps.skip fun _ => .ifNext ?_ (ih _)) (.ifEat ?_ (.pure trivial))
    · exact (arguments_keeps h).skip fun _ => ih _
    · exact h.skip fun _ => (expectSymbol_yields _).skip fun _ => ih _

theorem postfixed_keeps : Keeps S (postfixed expr) :=
  (primary_keeps h).skip fun e => .bounded fun fuel => suffixes_keeps h fuel e

end Layers

section Operators

variable {operand : Parse Expr} (h : Keeps S operand)
include h

theorem unary_keeps (fuel : Nat) : Keeps S (unary operand fuel) := by
  induction fuel with
  | zero => exact .unexpected _
  | succ fuel ih =>
    exact .ifEat (ih.skip fun _ => .pure trivial) (.ifEat (ih.skip fun _ => .pure trivial) h)

end Operators

theorem climb_keeps {right : Nat → Parse Expr} (h : ∀ k, Keeps S (right k)) (least fuel : Nat) (left : Expr) :
    Keeps S (climb right least fuel left) := by
  induction fuel generalizing left with
  | zero => exact .pure _
  | succ fuel ih =>
    refine binaryOperator_yields.skip fun found => ?_
    split
    · exact .ite (fun _ => .pure trivial) fun _ => advance_yields.skip fun _ => (h _).skip fun _ => ih _
    · exact .pure trivial

theorem binary_keeps {operand : Parse Expr} (h : Keeps S operand) (n least : Nat) : Keeps S (binary operand n least) := by
  induction n generalizing least with
  | zero => exact .unexpected _
  | succ n ih => exact h.skip fun left => .bounded fun fuel => climb_keeps (fun k => ih k) least fuel left

theorem expression_keeps : Keeps S expression := by
  refine .bounded fun depth => ?_
  induction depth with
  | zero => exact .unexpected _
  | succ depth ih => exact binary_keeps (.bounded (unary_keeps (postfixed_keeps ih))) 7 1

theorem typeClause_keeps : Keeps S typeClause :=
  (after?_yields typeRef_keeps).keeps

theorem declareRest_keeps : Keeps S declareRest := by
  refine identifier_keeps.skip fun _ => typeClause_keeps.skip fun _ => (expectSymbol_yields _).skip fun _ => ?_
  exact expression_keeps.skip fun _ => (expectSymbol_yields _).skip fun _ => .pure trivial

theorem returnRest_keeps : Keeps S returnRest := by
  have ended : ∀ value : Option Expr, Keeps S (do expectSymbol .semicolon; return Statement.return value) :=
    fun _ => (expectSymbol_yields _).skip fun _ => .pure trivial
  exact (next_yields _).skip fun _ => .ite (fun _ => ended none) fun _ => (expression_keeps.map some).skip ended

theorem expressionStatement_keeps : Keeps S expressionStatement := by
  refine get_yields.skip fun start => expression_keeps.skip fun e => .ifEat ?_ ?_
  · split
    · exact .error fun _ => ⟨_, rfl⟩
    · exact expression_keeps.skip fun _ => (expectSymbol_yields _).skip fun _ => .pure trivial
  · exact (expectSymbol_yields _).skip fun _ => .pure trivial

section Layers

variable {statement : Parse Statement} (h : Keeps S statement)
include h

theorem condRest_keeps : Keeps S (condRest statement) := by
  refine (expectSymbol_yields _).skip fun _ => expression_keeps.skip fun _ => (expectSymbol_yields _).skip fun _ => ?_
  refine (braced_yields h).skip fun _ => .ifEat (.ifNext ?_ ?_) (.pure trivial)
  · exact h.skip fun _ => .pure trivial
  · exact (braced_yields h).skip fun _ => .pure trivial

theorem whileRest_keeps : Keeps S (whileRest statement) := by
  refine (expectSymbol_yields _).skip fun _ => expression_keeps.skip fun _ => (expectSymbol_yields _).skip fun _ => ?_
  exact (braced_yields h).skip fun _ => .pure trivial

theorem forRest_keeps : Keeps S (forRest statement) := by
  refine (expectSymbol_yields _).skip fun _ => identifier_keeps.skip fun _ => (expectWord_yields _).skip fun _ => ?_
  refine expression_keeps.skip fun _ => (expectSymbol_yields _).skip fun _ => ?_
  exact (braced_yields h).skip fun _ => .pure trivial

theorem statementOver_keeps : Keeps S (statementOver statement) := by
  have bare : ∀ s : Statement, Keeps S (do expectSymbol .semicolon; return s) :=
    fun _ => (expectSymbol_yields _).skip fun _ => .pure trivial
  refine .ifEat declareRest_keeps (.ifEat returnRest_keeps (.ifEat (condRest_keeps h) (.ifEat (whileRest_keeps h) ?_)))
  exact .ifEat (forRest_keeps h) (.ifEat (bare .break) (.ifEat (bare .continue) expressionStatement_keeps))

end Layers

theorem block_keeps : Keeps S block := by
  have within : ∀ depth, Keeps S (statementWithin depth) := by
    intro depth
    induction depth with
    | zero => exact .unexpected _
    | succ depth ih => exact statementOver_keeps ih
  exact (braced_yields (Yields.bounded within)).keeps

theorem modifiers_keeps : Keeps S modifiers := by
  refine .bounded fun fuel => ?_
  generalize ({} : Modifiers) = m
  induction fuel generalizing m with
  | zero => exact .pure trivial
  | succ fuel ih =>
    exact .ifEat (ih _) (.ifEat (ih _) (.ifEat (ih _) (.ifEat (ih _) (.ifEat (ih _) (.pure trivial)))))

theorem defaultValue_keeps : Keeps S defaultValue :=
  (after?_yields expression_keeps).keeps

theorem parametersFrom_keeps (fuel : Nat) (taken : List String) : Keeps S (parametersFrom fuel taken) := by
  induction fuel generalizing taken with
  | zero => exact .unexpected _
  | succ fuel ih =>
    refine identifier_keeps.skip fun _ => .ite (fun _ => .error fun _ => ⟨_, rfl⟩) fun _ => ?_
    refine typeClause_keeps.skip fun _ => defaultValue_keeps.skip fun _ => .ifEat (.pure trivial) ?_
    exact (expectSymbol_yields _).skip fun _ => (ih _).skip fun _ => .pure trivial

theorem methodRest_keeps (m : Modifiers) : Keeps S (methodRest m) := by
  refine identifier_keeps.skip fun _ => .skip (P := fun _ => True) ?_ fun _ => ?_
  · exact (expectSymbol_yields _).skip fun _ => .ifEat (.pure trivial) (.bounded fun fuel => parametersFrom_keeps fuel [])
  · exact (after?_yields typeRef_keeps).skip fun _ => block_keeps.skip fun _ => .pure trivial

theorem propertyRest_keeps (m : Modifiers) : Keeps S (propertyRest m) := by
  refine identifier_keeps.skip fun _ => typeClause_keeps.skip fun _ => defaultValue_keeps.skip fun _ => ?_
  exact (expectSymbol_yields _).skip fun _ => .pure trivial

theorem members_keeps : Keeps S members := by
  refine (braced_yields (Q := fun _ => True) (modifiers_keeps.skip fun m => .ifEat ?_ (.ifEat ?_ (.unexpected _)))).keeps
  · exact (propertyRest_keeps m).skip fun _ => .pure trivial
  · exact (methodRest_keeps m).skip fun _ => .pure trivial

section Declarations

variable (named : Identifying S)
include named

theorem classRest_named (isFinal : Bool) : Yields S (classRest isFinal) fun d => IsName d.name := by
  have whole : ∀ {name : String} (_ : IsName name) (parent : Option String),
      Yields S (do return Declaration.class ⟨name, isFinal, parent, ← members⟩) fun d => IsName d.name :=
    fun isName _ => members_keeps.skip fun _ => .pure isName
  refine (identifier_yields named).bind fun name isName => (eat_yields _).skip fun _ => ?_
  exact .ite (fun _ => (dottedName_keeps.map some).skip (whole isName)) fun _ => whole isName none

theorem declaration_named : Yields S declaration fun d => IsName d.name := by
  refine (eat_yields _).skip fun isFinal => .ifEat (classRest_named named isFinal)
    (.ite (fun _ => .unexpected _) fun _ => ?_)
  refine .ifEat ((identifier_yields named).bind fun name isName => ?_) (.unexpected _)
  exact members_keeps.skip fun _ => .pure isName

theorem declarations_named (fuel : Nat) : Yields S (declarations fuel) fun ds => ∀ d ∈ ds, IsName d.name := by
  induction fuel with
  | zero => exact .pure nofun
  | succ fuel ih =>
    refine peek_yields.skip fun _ => .ite (fun _ => .pure nofun) fun _ => ?_
    exact (declaration_named named).bind fun d here => ih.bind fun ds rest =>
      .pure (List.forall_mem_cons.mpr ⟨here, rest⟩)

theorem sourceUnit_named : Yields S sourceUnit fun u => ∀ d ∈ u.declarations, IsName d.name :=
  (packageClause_yields named).skip fun _ => (Yields.bounded (imports_yields named)).skip fun _ =>
    (Yields.bounded (declarations_named named)).bind fun _ here => .pure here

end Declarations

end Parse

/-- What is declared in a text has a name. -/
theorem SourceUnit.isName_of_ofString? {source : String} {u : SourceUnit} (h : ofString? source = .ok u) :
    ∀ d ∈ u.declarations, IsName d.name := by
  obtain ⟨ts, ts', scanned, parsed⟩ := of_ofString? h
  exact (Parse.sourceUnit_named Parse.identifying_lexical ts u ts' (TokenStream.ofString?_lexical scanned) parsed).1

end AspectProxy
