import AspectProxy.Proofs.Reading.Yields

/-!
The trees that are read: their names are names, the parameters of a method have different names, and no number in them is
negated.
-/

namespace AspectProxy

theorem Expr.everyItem_iff {p : Expr → Prop} {es : List Expr} : EveryItem p es ↔ ∀ e ∈ es, e.Every p := by
  induction es with
  | nil => simp [EveryItem]
  | cons e es ih => simp [EveryItem, ih]

theorem Expr.everyEntry_iff {p : Expr → Prop} {es : List (String × Expr)} :
    EveryEntry p es ↔ ∀ x ∈ es, x.2.Every p := by
  induction es with
  | nil => simp [EveryEntry]
  | cons e es ih => simp [EveryEntry, ih]

theorem Statement.everyIn_iff {q : Statement → Prop} {p : Expr → Prop} {block : Block} :
    EveryIn q p block ↔ ∀ s ∈ block, s.Every q p := by
  induction block with
  | nil => simp [EveryIn]
  | cons s rest ih => simp [EveryIn, ih]

/-- A condition on floats that holds of the negative of a float with the float. -/
class NegativeToo (N : Float → Prop) : Prop where
  neg : ∀ x, N x → N (-x)

instance : NegativeToo fun x => x.isFinite = true :=
  ⟨fun _ => isFinite_neg⟩

instance : NegativeToo fun _ => True :=
  ⟨fun _ _ => trivial⟩

/-- The condition on the expressions of a tree that was read. -/
def Expr.PlainWith (N : Float → Prop) (e : Expr) : Prop :=
  e.SoundWith N ∧ e.NotNegatedNumber

namespace Parse

open Yields

variable {N : Float → Prop}

section Layers

variable {expr : Parse Expr} (h : Yields (Token.SoundWith N) expr (Expr.Every (Expr.PlainWith N)))
include h

theorem arguments_yields : Yields (Token.SoundWith N) (arguments expr) (Expr.EveryItem (Expr.PlainWith N)) :=
  (expectSymbol_yields _).skip fun _ =>
    (Yields.bounded (commaItems_yields h _)).imp fun _ items => Expr.everyItem_iff.mpr items

theorem mapEntry_yields : Yields (Token.SoundWith N) (mapEntry expr) fun x => x.2.Every (Expr.PlainWith N) := by
  refine peek_yields.skip fun next => ?_
  split
  · exact advance_yields.skip fun _ => (expectSymbol_yields _).skip fun _ => h.bind fun e here => .pure here
  · exact .unexpected _

theorem nameOrCall_yields : Yields (Token.SoundWith N) (nameOrCall expr) (Expr.Every (Expr.PlainWith N)) := by
  refine (identifierFor_yields identifying_sound _).bind fun name isName => .ifNext ?_ ?_
  · exact (arguments_yields h).bind fun args items => .pure ⟨⟨isName, trivial⟩, items⟩
  · exact .pure ⟨isName, trivial⟩

theorem primaryWord_yields : Yields (Token.SoundWith N) (primaryWord expr) (Expr.Every (Expr.PlainWith N)) := by
  refine .ifEat (.pure ⟨trivial, trivial⟩) (.ifEat (.pure ⟨trivial, trivial⟩) ?_)
  refine .ifEat (.pure ⟨trivial, trivial⟩) (.ifEat (.pure ⟨trivial, trivial⟩) ?_)
  refine .ifEat ?call (.ifEat ?create (.ifEat ?list (.ifEat ?map (.ifEat ?parentheses ?name))))
  case call =>
    refine (expectSymbol_yields _).skip fun _ => (identifier_yields identifying_sound).bind fun method isName => ?_
    exact (arguments_yields h).bind fun args items => .pure ⟨⟨isName, trivial⟩, items⟩
  case create =>
    refine (dottedName_yields identifying_sound).bind fun className isDotted => ?_
    exact (arguments_yields h).bind fun args items => .pure ⟨⟨isDotted, trivial⟩, items⟩
  case list =>
    refine (Yields.bounded (commaItems_yields h _)).bind fun items each => ?_
    exact .pure ⟨⟨trivial, trivial⟩, Expr.everyItem_iff.mpr each⟩
  case map =>
    refine (Yields.bounded (commaItems_yields (mapEntry_yields h) _)).bind fun entries each => ?_
    exact .pure ⟨⟨trivial, trivial⟩, Expr.everyEntry_iff.mpr each⟩
  case parentheses => exact h.bind fun e here => (expectSymbol_yields _).skip fun _ => .pure here
  case name =>
    refine atStaticCall_yields.skip fun _ => .ite (fun _ => ?_) fun _ => nameOrCall_yields h
    refine (dottedName_yields identifying_sound).bind fun className isDotted => (expectSymbol_yields _).skip fun _ => ?_
    refine (identifier_yields identifying_sound).bind fun method isName => ?_
    exact (arguments_yields h).bind fun args items => .pure ⟨⟨⟨isDotted, isName⟩, trivial⟩, items⟩

theorem primary_yields : Yields (Token.SoundWith N) (primary expr) (Expr.Every (Expr.PlainWith N)) := by
  refine peek_yields.bind fun next sound => ?_
  split
  · exact advance_yields.skip fun _ => .pure ⟨(sound _ rfl).1, trivial⟩
  · exact advance_yields.skip fun _ => .pure ⟨(sound _ rfl).2, trivial⟩
  · exact advance_yields.skip fun _ => .pure ⟨trivial, trivial⟩
  · exact primaryWord_yields h

theorem suffixes_yields (fuel : Nat) {e : Expr} (here : e.Every (Expr.PlainWith N)) :
    Yields (Token.SoundWith N) (suffixes expr fuel e) (Expr.Every (Expr.PlainWith N)) := by
  induction fuel generalizing e with
  | zero => exact .pure here
  | succ fuel ih =>
    refine .ifEat ?member (.ifEat ?index (.pure here))
    case member =>
      refine (identifier_yields identifying_sound).bind fun name isName => .ifNext ?_ (ih ⟨⟨isName, trivial⟩, here⟩)
      exact (arguments_yields h).bind fun args items => ih ⟨⟨isName, trivial⟩, here, items⟩
    case index =>
      refine h.bind fun key each => (expectSymbol_yields _).skip fun _ => ?_
      exact ih ⟨⟨trivial, trivial⟩, here, each⟩

theorem postfixed_yields : Yields (Token.SoundWith N) (postfixed expr) (Expr.Every (Expr.PlainWith N)) :=
  (primary_yields h).bind fun _ here => .bounded fun fuel => suffixes_yields h fuel here

end Layers

variable [NegativeToo N]

/-- The negative of a number is no negated number. -/
theorem negated_plain {e : Expr} (h : e.Every (Expr.PlainWith N)) : (negated e).Every (Expr.PlainWith N) := by
  cases e with
  | int n => exact ⟨neg_ne_minValue h.1, trivial⟩
  | float x => exact ⟨NegativeToo.neg x h.1, trivial⟩
  | _ => exact ⟨⟨trivial, trivial⟩, h⟩

section Operators

variable {operand : Parse Expr} (h : Yields (Token.SoundWith N) operand (Expr.Every (Expr.PlainWith N)))
include h

theorem unary_yields (fuel : Nat) : Yields (Token.SoundWith N) (unary operand fuel) (Expr.Every (Expr.PlainWith N)) := by
  induction fuel with
  | zero => exact .unexpected _
  | succ fuel ih =>
    refine .ifEat ?not (.ifEat ?negative h)
    case not => exact ih.bind fun e here => .pure ⟨⟨trivial, trivial⟩, here⟩
    case negative => exact ih.bind fun e here => .pure (negated_plain here)

end Operators

omit [NegativeToo N] in
theorem climb_yields {right : Nat → Parse Expr}
    (h : ∀ k, Yields (Token.SoundWith N) (right k) (Expr.Every (Expr.PlainWith N))) (least fuel : Nat) {left : Expr}
    (here : left.Every (Expr.PlainWith N)) :
    Yields (Token.SoundWith N) (climb right least fuel left) (Expr.Every (Expr.PlainWith N)) := by
  induction fuel generalizing left with
  | zero => exact .pure here
  | succ fuel ih =>
    refine binaryOperator_yields.skip fun found => ?_
    split
    · refine .ite (fun _ => .pure here) fun _ => advance_yields.skip fun _ => ?_
      exact (h _).bind fun right there => ih ⟨⟨trivial, trivial⟩, here, there⟩
    · exact .pure here

omit [NegativeToo N] in
theorem binary_yields {operand : Parse Expr} (h : Yields (Token.SoundWith N) operand (Expr.Every (Expr.PlainWith N)))
    (n least : Nat) : Yields (Token.SoundWith N) (binary operand n least) (Expr.Every (Expr.PlainWith N)) := by
  induction n generalizing least with
  | zero => exact .unexpected _
  | succ n ih => exact h.bind fun left here => .bounded fun fuel => climb_yields (fun k => ih k) least fuel here

theorem expressionWithin_yields (depth : Nat) :
    Yields (Token.SoundWith N) (expressionWithin depth) (Expr.Every (Expr.PlainWith N)) := by
  induction depth with
  | zero => exact .unexpected _
  | succ depth ih => exact binary_yields (.bounded (unary_yields (postfixed_yields ih))) 7 1

theorem expression_yields : Yields (Token.SoundWith N) expression (Expr.Every (Expr.PlainWith N)) :=
  .bounded expressionWithin_yields

omit [NegativeToo N] in
theorem typeClause_yields : Yields (Token.SoundWith N) typeClause fun type => ∀ t ∈ type, t.WellFormed :=
  after?_yields (typeRef_yields identifying_sound)

theorem declareRest_yields :
    Yields (Token.SoundWith N) declareRest (Statement.Every Statement.Sound (Expr.PlainWith N)) := by
  refine (identifier_yields identifying_sound).bind fun name isName => typeClause_yields.bind fun type typed => ?_
  refine (expectSymbol_yields _).skip fun _ => expression_yields.bind fun value valued => ?_
  exact (expectSymbol_yields _).skip fun _ => .pure ⟨⟨isName, typed⟩, valued⟩

theorem returnRest_yields :
    Yields (Token.SoundWith N) returnRest (Statement.Every Statement.Sound (Expr.PlainWith N)) := by
  have ended : ∀ value : Option Expr, (∀ e ∈ value, e.Every (Expr.PlainWith N)) →
      Yields (Token.SoundWith N) (do expectSymbol .semicolon; return .return value)
        (Statement.Every Statement.Sound (Expr.PlainWith N)) := by
    intro value valued
    refine (expectSymbol_yields _).skip fun _ => .pure ?_
    cases value with
    | none => exact trivial
    | some e => exact valued e rfl
  have valued : Yields (Token.SoundWith N) (some <$> expression) fun value => ∀ e ∈ value, e.Every (Expr.PlainWith N) :=
    expression_yields.map some fun e here => by simpa using here
  exact (next_yields _).skip fun _ => .ite (fun _ => ended none nofun) fun _ => valued.bind ended

theorem toExpr_of_ofExpr? {e : Expr} {target : Target} (h : Target.ofExpr? e = some target) : target.toExpr = e := by
  cases e <;> cases h <;> rfl

theorem expressionStatement_yields :
    Yields (Token.SoundWith N) expressionStatement (Statement.Every Statement.Sound (Expr.PlainWith N)) := by
  refine get_yields.skip fun start => expression_yields.bind fun e here => .ifEat ?_ ?_
  · split
    case h_1 => exact .error fun _ => ⟨_, rfl⟩
    case h_2 target same =>
      refine expression_yields.bind fun value valued => (expectSymbol_yields _).skip fun _ => .pure ⟨?_, valued⟩
      rwa [toExpr_of_ofExpr? same]
  · exact (expectSymbol_yields _).skip fun _ => .pure here

section Layers

variable {statement : Parse Statement}
  (h : Yields (Token.SoundWith N) statement (Statement.Every Statement.Sound (Expr.PlainWith N)))
include h

omit [NegativeToo N] in
theorem bracedStatements_yields :
    Yields (Token.SoundWith N) (braced statement) (Statement.EveryIn Statement.Sound (Expr.PlainWith N)) :=
  (braced_yields h).imp fun _ each => Statement.everyIn_iff.mpr each

theorem condRest_yields :
    Yields (Token.SoundWith N) (condRest statement) (Statement.Every Statement.Sound (Expr.PlainWith N)) := by
  refine (expectSymbol_yields _).skip fun _ => expression_yields.bind fun condition valued => ?_
  refine (expectSymbol_yields _).skip fun _ => (bracedStatements_yields h).bind fun thenBranch each => ?_
  refine .ifEat (.ifNext ?_ ?_) (.pure ⟨valued, each⟩)
  · exact h.bind fun s here => .pure ⟨valued, each, here, trivial⟩
  · exact (bracedStatements_yields h).bind fun elseBranch others => .pure ⟨valued, each, others⟩

theorem whileRest_yields :
    Yields (Token.SoundWith N) (whileRest statement) (Statement.Every Statement.Sound (Expr.PlainWith N)) := by
  refine (expectSymbol_yields _).skip fun _ => expression_yields.bind fun condition valued => ?_
  exact (expectSymbol_yields _).skip fun _ => (bracedStatements_yields h).bind fun body each => .pure ⟨valued, each⟩

theorem forRest_yields :
    Yields (Token.SoundWith N) (forRest statement) (Statement.Every Statement.Sound (Expr.PlainWith N)) := by
  refine (expectSymbol_yields _).skip fun _ => (identifier_yields identifying_sound).bind fun name isName => ?_
  refine (expectWord_yields _).skip fun _ => expression_yields.bind fun iterable valued => ?_
  refine (expectSymbol_yields _).skip fun _ => (bracedStatements_yields h).bind fun body each => ?_
  exact .pure ⟨isName, valued, each⟩

theorem statementOver_yields :
    Yields (Token.SoundWith N) (statementOver statement) (Statement.Every Statement.Sound (Expr.PlainWith N)) := by
  have bare : ∀ s : Statement, s.Every Statement.Sound (Expr.PlainWith N) →
      Yields (Token.SoundWith N) (do expectSymbol .semicolon; return s)
        (Statement.Every Statement.Sound (Expr.PlainWith N)) :=
    fun s here => (expectSymbol_yields _).skip fun _ => .pure here
  refine .ifEat declareRest_yields (.ifEat returnRest_yields (.ifEat (condRest_yields h) ?_))
  refine .ifEat (whileRest_yields h) (.ifEat (forRest_yields h) ?_)
  exact .ifEat (bare .break trivial) (.ifEat (bare .continue trivial) expressionStatement_yields)

end Layers

theorem statementWithin_yields (depth : Nat) :
    Yields (Token.SoundWith N) (statementWithin depth) (Statement.Every Statement.Sound (Expr.PlainWith N)) := by
  induction depth with
  | zero => exact .unexpected _
  | succ depth ih => exact statementOver_yields ih

theorem block_yields : Yields (Token.SoundWith N) block (Statement.EveryIn Statement.Sound (Expr.PlainWith N)) :=
  bracedStatements_yields (.bounded statementWithin_yields)

omit [NegativeToo N] in
theorem modifiersFrom_yields (fuel : Nat) (m : Modifiers) :
    Yields (Token.SoundWith N) (modifiersFrom fuel m) fun _ => True := by
  induction fuel generalizing m with
  | zero => exact .pure trivial
  | succ fuel ih =>
    exact .ifEat (ih _) (.ifEat (ih _) (.ifEat (ih _) (.ifEat (ih _) (.ifEat (ih _) (.pure trivial)))))

theorem defaultValue_yields :
    Yields (Token.SoundWith N) defaultValue fun default => ∀ e ∈ default, e.Every (Expr.PlainWith N) :=
  after?_yields expression_yields

/-- Parameters with different names, none of them taken. -/
structure FreshParameters (N : Float → Prop) (taken : List String) (ps : List Parameter) : Prop where
  sound : ∀ p ∈ ps, p.Sound
  valued : ∀ p ∈ ps, p.Every (Expr.PlainWith N)
  distinct : (ps.map (·.name)).Nodup
  fresh : ∀ p ∈ ps, p.name ∉ taken

omit [NegativeToo N] in
theorem FreshParameters.cons {taken : List String} {p : Parameter} {ps : List Parameter} (sound : p.Sound)
    (valued : p.Every (Expr.PlainWith N)) (unused : p.name ∉ taken) (rest : FreshParameters N (p.name :: taken) ps) :
    FreshParameters N taken (p :: ps) where
  sound := List.forall_mem_cons.mpr ⟨sound, rest.sound⟩
  valued := List.forall_mem_cons.mpr ⟨valued, rest.valued⟩
  distinct := by
    rw [List.map_cons, List.nodup_cons]
    refine ⟨fun again => ?_, rest.distinct⟩
    obtain ⟨q, hq, same⟩ := List.mem_map.mp again
    exact rest.fresh q hq (same ▸ List.mem_cons_self)
  fresh := List.forall_mem_cons.mpr ⟨unused, fun q hq again => rest.fresh q hq (List.mem_cons_of_mem _ again)⟩

theorem parametersFrom_yields (fuel : Nat) (taken : List String) :
    Yields (Token.SoundWith N) (parametersFrom fuel taken) (FreshParameters N taken) := by
  induction fuel generalizing taken with
  | zero => exact .unexpected _
  | succ fuel ih =>
    refine (identifier_yields identifying_sound).bind fun name isName => ?_
    refine .ite (fun _ => .error fun _ => ⟨_, rfl⟩) fun unused => ?_
    refine typeClause_yields.bind fun type typed => defaultValue_yields.bind fun default valued => ?_
    have sound : Parameter.Sound ⟨name, type, default⟩ := ⟨isName, typed⟩
    refine .ifEat (.pure ?last) ((expectSymbol_yields _).skip fun _ => (ih _).bind fun ps rest => .pure ?more)
    case last => exact .cons sound valued unused ⟨nofun, nofun, .nil, nofun⟩
    case more => exact .cons sound valued unused rest

theorem parameters_yields : Yields (Token.SoundWith N) parameters (FreshParameters N []) := by
  refine (expectSymbol_yields _).skip fun _ => .ifEat (.pure ⟨nofun, nofun, .nil, nofun⟩) ?_
  exact .bounded fun fuel => parametersFrom_yields fuel []

theorem methodRest_yields (modifiers : Modifiers) : Yields (Token.SoundWith N) (methodRest modifiers) fun m =>
    (Member.method m).Sound ∧ (Member.method m).Every Statement.Sound (Expr.PlainWith N) := by
  refine (identifier_yields identifying_sound).bind fun name isName => parameters_yields.bind fun ps fresh => ?_
  refine (after?_yields (typeRef_yields identifying_sound)).bind fun result typed =>
    block_yields.bind fun body each => .pure ?_
  exact ⟨⟨isName, fresh.sound, fresh.distinct, typed⟩, fresh.valued, each⟩

theorem propertyRest_yields (modifiers : Modifiers) : Yields (Token.SoundWith N) (propertyRest modifiers) fun p =>
    (Member.property p).Sound ∧ (Member.property p).Every Statement.Sound (Expr.PlainWith N) := by
  refine (identifier_yields identifying_sound).bind fun name isName => typeClause_yields.bind fun type typed => ?_
  refine defaultValue_yields.bind fun default valued => (expectSymbol_yields _).skip fun _ => .pure ?_
  exact ⟨⟨isName, typed⟩, valued⟩

theorem member_yields :
    Yields (Token.SoundWith N) member fun m => m.Sound ∧ m.Every Statement.Sound (Expr.PlainWith N) := by
  refine (Yields.bounded fun fuel => modifiersFrom_yields fuel {}).skip fun m => .ifEat ?_ (.ifEat ?_ (.unexpected _))
  · exact (propertyRest_yields m).bind fun p here => .pure here
  · exact (methodRest_yields m).bind fun p here => .pure here

theorem classRest_yields (isFinal : Bool) : Yields (Token.SoundWith N) (classRest isFinal) fun d =>
    d.Sound ∧ d.Every Statement.Sound (Expr.PlainWith N) := by
  have whole : ∀ {name : String} (_ : IsName name) (parent : Option String) (_ : ∀ p ∈ parent, IsDotted p),
      Yields (Token.SoundWith N) (do return Declaration.class ⟨name, isFinal, parent, ← members⟩) fun d =>
        d.Sound ∧ d.Every Statement.Sound (Expr.PlainWith N) := by
    intro name isName parent isDotted
    refine (braced_yields member_yields).bind fun ms each => .pure ⟨⟨isName, ?_, fun m hm => (each m hm).1⟩, ?_⟩
    · rintro _ ⟨⟩
      exact isDotted
    · exact fun m hm => (each m hm).2
  have named : Yields (Token.SoundWith N) (some <$> dottedName) fun parent => ∀ p ∈ parent, IsDotted p :=
    (dottedName_yields identifying_sound).map some fun p here => by simpa using here
  refine (identifier_yields identifying_sound).bind fun name isName => (eat_yields _).skip fun _ => ?_
  exact .ite (fun _ => named.bind (whole isName)) fun _ => whole isName none nofun

theorem traitRest_yields :
    Yields (Token.SoundWith N) traitRest fun d => d.Sound ∧ d.Every Statement.Sound (Expr.PlainWith N) := by
  refine (identifier_yields identifying_sound).bind fun name isName =>
    (braced_yields member_yields).bind fun ms each => .pure ?_
  exact ⟨⟨isName, nofun, fun m hm => (each m hm).1⟩, fun m hm => (each m hm).2⟩

theorem declaration_yields :
    Yields (Token.SoundWith N) declaration fun d => d.Sound ∧ d.Every Statement.Sound (Expr.PlainWith N) := by
  refine (eat_yields _).skip fun isFinal => .ifEat (classRest_yields isFinal) ?_
  exact .ite (fun _ => .unexpected _) fun _ => .ifEat traitRest_yields (.unexpected _)

theorem declarations_yields (fuel : Nat) : Yields (Token.SoundWith N) (declarations fuel) fun ds =>
    ∀ d ∈ ds, d.Sound ∧ d.Every Statement.Sound (Expr.PlainWith N) := by
  induction fuel with
  | zero => exact .pure nofun
  | succ fuel ih =>
    refine peek_yields.skip fun _ => .ite (fun _ => .pure nofun) fun _ => ?_
    exact declaration_yields.bind fun d here => ih.bind fun ds rest => .pure (List.forall_mem_cons.mpr ⟨here, rest⟩)

/-- What a reader makes of tokens that meet a condition, whatever tokens are left. -/
def Gives (S : Token → Prop) (p : Parse α) (Q : α → Prop) : Prop :=
  ∀ (ts : TokenStream) (a : α) (ts' : TokenStream), (∀ t ∈ ts.tokens, S t) → p ts = .ok (a, ts') → Q a

namespace Gives

variable {S : Token → Prop} {p : Parse α} {f : α → Parse β} {P Q : α → Prop} {R : β → Prop}

theorem pure {a : α} (h : Q a) : Gives S (Pure.pure a) Q := by
  rintro ts _ _ - ⟨⟩
  exact h

theorem after (first : Yields S p P) (next : ∀ a, P a → Gives S (f a) R) : Gives S (p >>= f) R := by
  intro ts b ts' kept run
  obtain ⟨a, ts₁, read, rest⟩ := of_bind run
  obtain ⟨here, kept⟩ := first ts a ts₁ kept read
  exact next a here ts₁ b ts' kept rest

/-- What comes behind a step may be anything if the step decides the result. -/
theorem bind (first : Gives S p P) (next : ∀ a, P a → Gives (fun _ => True) (f a) R) : Gives S (p >>= f) R := by
  intro ts b ts' kept run
  obtain ⟨a, ts₁, read, rest⟩ := of_bind run
  exact next a (first ts a ts₁ kept read) ts₁ b ts' (fun _ _ => trivial) rest

theorem any (h : ∀ a, Q a) : Gives S p Q :=
  fun _ a _ _ _ => h a

theorem unexpected (what : Expectation) : Gives S (Parse.unexpected what) Q := by
  intro ts a ts' _ run
  cases run

theorem ite {c : Prop} [Decidable c] {p q : Parse α} (yes : c → Gives S p Q) (no : ¬c → Gives S q Q) :
    Gives S (if c then p else q) Q := by
  split
  case isTrue holds => exact yes holds
  case isFalse fails => exact no fails

end Gives

section Heading

variable {S : Token → Prop} (named : Identifying S)
include named

theorem importRest_yields : Yields S importRest Import.Sound := by
  have whole : ∀ {path : String} (_ : IsDotted path) (localName : Option String) (_ : ∀ a ∈ localName, IsName a),
      Yields S (do expectSymbol .semicolon; return Import.mk path localName) Import.Sound :=
    fun isDotted _ isName => (expectSymbol_yields _).skip fun _ => .pure ⟨isDotted, isName⟩
  have aliased : Yields S (some <$> identifier) fun localName => ∀ a ∈ localName, IsName a :=
    (identifier_yields named).map some fun a here => by simpa using here
  refine (dottedName_yields named).bind fun path isDotted => (eat_yields _).skip fun _ => ?_
  exact .ite (fun _ => aliased.bind (whole isDotted)) fun _ => whole isDotted none nofun

theorem imports_yields (fuel : Nat) : Yields S (imports fuel) fun is => ∀ i ∈ is, i.Sound := by
  induction fuel with
  | zero => exact .pure nofun
  | succ fuel ih =>
    refine .ifEat ((importRest_yields named).bind fun i here => ih.bind fun is rest => .pure ?_) (.pure nofun)
    exact List.forall_mem_cons.mpr ⟨here, rest⟩

theorem packageClause_yields : Yields S packageClause fun package => ∀ p ∈ package, IsDotted p := by
  refine .ifEat ((dottedName_yields named).bind fun p here => (expectSymbol_yields _).skip fun _ => .pure ?_) (.pure nofun)
  simpa using here

/-- The package and the imports of a unit have names, whatever its numbers are. -/
theorem sourceUnit_heading {ts ts' : TokenStream} {u : SourceUnit} (kept : ∀ t ∈ ts.tokens, S t)
    (h : sourceUnit ts = .ok (u, ts')) : (∀ p ∈ u.package, IsDotted p) ∧ ∀ i ∈ u.imports, i.Sound := by
  obtain ⟨package, ts₁, first, h⟩ := of_bind h
  obtain ⟨is, ts₂, second, h⟩ := of_bind h
  obtain ⟨ds, ts₃, -, h⟩ := of_bind h
  cases h
  obtain ⟨isDotted, kept⟩ := packageClause_yields named ts package ts₁ kept first
  exact ⟨isDotted, (Yields.bounded (imports_yields named) ts₁ is ts₂ kept second).1⟩

/-- The parent reference of a declaration is a name. -/
def NamesParent (d : Declaration) : Prop :=
  ∀ c ∈ d.class?, ∀ p ∈ c.parent, IsDotted p

theorem classRest_gives (isFinal : Bool) : Gives S (classRest isFinal) NamesParent := by
  have whole : ∀ (name : String) (parent : Option String) (_ : ∀ p ∈ parent, IsDotted p),
      Gives S (do return Declaration.class ⟨name, isFinal, parent, ← members⟩) NamesParent := by
    intro name parent isDotted
    refine .bind (P := fun _ => True) (.any fun _ => trivial) fun ms _ => .pure ?_
    rintro _ ⟨⟩
    exact isDotted
  have parent : Yields S (some <$> dottedName) fun parent => ∀ p ∈ parent, IsDotted p :=
    (dottedName_yields named).map some fun p here => by simpa using here
  refine .after (identifier_yields named) fun name _ => .after (eat_yields _) fun _ _ => ?_
  exact .ite (fun _ => .after parent (whole name)) fun _ => whole name none nofun

theorem declaration_gives : Gives S declaration NamesParent := by
  refine .after (eat_yields _) fun isFinal _ => .after (eat_yields _) fun _ _ => ?_
  refine .ite (fun _ => classRest_gives named isFinal) fun _ => .ite (fun _ => .unexpected _) fun _ => ?_
  refine .after (eat_yields _) fun _ _ => .ite (fun _ => ?_) fun _ => .unexpected _
  exact .bind (P := fun _ => True) (.any fun _ => trivial) fun name _ =>
    .bind (P := fun _ => True) (.any fun _ => trivial) fun ms _ => .pure nofun

theorem declarations_gives (fuel : Nat) : Gives S (declarations fuel) fun ds => ∀ d ∈ ds.head?, NamesParent d := by
  cases fuel with
  | zero => exact .pure nofun
  | succ fuel =>
    refine .after peek_yields fun _ _ => .ite (fun _ => .pure nofun) fun _ => ?_
    refine .bind (declaration_gives named) fun d here =>
      .bind (P := fun _ => True) (.any fun _ => trivial) fun ds _ => .pure ?_
    rintro _ ⟨⟩
    exact here

/-- The parent reference of the first declaration of a unit is a name, whatever its numbers are. -/
theorem sourceUnit_gives : Gives S sourceUnit fun u => ∀ d ∈ u.declarations.head?, NamesParent d :=
  .after (packageClause_yields named) fun _ _ => .after (Yields.bounded (imports_yields named)) fun _ _ =>
    .bind (fun ts a ts' kept run => declarations_gives named _ ts a ts' kept run) fun _ here => .pure here

end Heading

/-- A unit that is read has names where it must, and its expressions are plain. -/
theorem sourceUnit_yields : Yields (Token.SoundWith N) sourceUnit (SourceUnit.Meets (Expr.PlainWith N)) := by
  refine (packageClause_yields identifying_sound).bind fun package isDotted => ?_
  refine (Yields.bounded (imports_yields identifying_sound)).bind fun is sound => ?_
  refine (Yields.bounded declarations_yields).bind fun ds each => .pure ?_
  exact ⟨isDotted, sound, fun d hd => (each d hd).1, fun d hd => (each d hd).2⟩

end Parse

namespace SourceUnit

variable {source : String} {u : SourceUnit}

theorem of_ofString? (h : ofString? source = .ok u) :
    ∃ ts ts', TokenStream.ofString? source = .ok ts ∧ Parse.sourceUnit ts = .ok (u, ts') := by
  rw [ofString?] at h
  cases scanned : TokenStream.ofString? source with
  | error e =>
    rw [scanned] at h
    cases h
  | ok ts =>
    rw [scanned] at h
    have read : (Parse.sourceUnit ts).map (·.1) = .ok u := h
    cases parsed : Parse.sourceUnit ts with
    | error e =>
      rw [parsed] at read
      cases read
    | ok x =>
      rw [parsed] at read
      cases read
      exact ⟨ts, x.2, rfl, parsed⟩

/-- What is read from a text has names where it must and no negated numbers, whatever its floats are. -/
theorem plain_of_ofString? (h : ofString? source = .ok u) : u.Meets (Expr.PlainWith fun _ => True) := by
  obtain ⟨ts, ts', scanned, parsed⟩ := of_ofString? h
  have sound : ∀ t ∈ ts.tokens, t.SoundWith fun _ => True :=
    fun t ht => ⟨TokenStream.ofString?_lexical scanned t ht, by cases t <;> trivial⟩
  exact (Parse.sourceUnit_yields ts u ts' sound parsed).1

/-- What is read from a text is read again from its own text, in some form. -/
theorem readable_of_ofString? (h : ofString? source = .ok u) : u.Readable :=
  (plain_of_ofString? h).imp fun _ plain => plain.1

/-- What is read from a text whose floats are finite is well-formed and has no negated numbers. -/
theorem wellFormed_of_ofString? (h : ofString? source = .ok u) (finite : FiniteFloats source) :
    u.WellFormed ∧ u.Every (fun _ => True) Expr.NotNegatedNumber := by
  obtain ⟨ts, ts', scanned, parsed⟩ := of_ofString? h
  have plain : u.Meets (Expr.PlainWith (·.isFinite = true)) :=
    (Parse.sourceUnit_yields ts u ts' (TokenStream.ofString?_sound scanned finite) parsed).1
  exact ⟨⟨plain.package, plain.imports, plain.declarations,
      .imp (fun _ here _ => here) (fun _ here _ => Expr.soundWith_isFinite.mp here.1) plain.parts plain.parts⟩,
    .imp (fun _ _ _ => trivial) (fun _ here _ => here.2) plain.parts plain.parts⟩

/-- What is read from a text has a package name and import paths that are names. -/
theorem heading_of_ofString? (h : ofString? source = .ok u) :
    (∀ p ∈ u.package, IsDotted p) ∧ ∀ i ∈ u.imports, i.Sound := by
  obtain ⟨ts, ts', scanned, parsed⟩ := of_ofString? h
  exact Parse.sourceUnit_heading Parse.identifying_lexical (TokenStream.ofString?_lexical scanned) parsed

/-- What is read from a text has a name as the parent reference of its first declaration. -/
theorem namesParent_of_ofString? (h : ofString? source = .ok u) :
    ∀ d ∈ u.declarations.head?, Parse.NamesParent d := by
  obtain ⟨ts, ts', scanned, parsed⟩ := of_ofString? h
  exact Parse.sourceUnit_gives Parse.identifying_lexical ts u ts' (TokenStream.ofString?_lexical scanned) parsed

end SourceUnit

end AspectProxy
