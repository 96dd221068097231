import AspectProxy.Tree.Parser
import AspectProxy.Tree.Printer

/-!
Trees that can be written as text, and the tree that their text holds. A minus in front of a number is read as part of
the number, so a negated number is read as one negative number.
-/

namespace AspectProxy

/-- An identifier that is not reserved. -/
def IsName (s : String) : Prop :=
  isIdentifier s.toList = true ∧ s ∉ reservedWords

instance : DecidablePred IsName :=
  fun s => inferInstanceAs (Decidable (isIdentifier s.toList = true ∧ s ∉ reservedWords))

/-- Names with a dot in front of each. -/
def dotted : List String → String
  | [] => ""
  | n :: ns => "." ++ n ++ dotted ns

/-- Names joined by dots. -/
def IsDotted (s : String) : Prop :=
  ∃ n ns, (∀ x ∈ n :: ns, IsName x) ∧ s = n ++ dotted ns

theorem IsName.isDotted {s : String} (h : IsName s) : IsDotted s :=
  ⟨s, [], by simpa using h, by simp [dotted]⟩

theorem dotted_append (xs ys : List String) : dotted (xs ++ ys) = dotted xs ++ dotted ys := by
  induction xs with
  | nil => simp [dotted]
  | cons x xs ih => simp [dotted, ih, String.append_assoc]

/-- A name in a package. -/
theorem IsDotted.append {p s : String} (hp : IsDotted p) (hs : IsDotted s) : IsDotted (p ++ "." ++ s) := by
  obtain ⟨m, ms, mNames, rfl⟩ := hp
  obtain ⟨n, ns, nNames, rfl⟩ := hs
  refine ⟨m, ms ++ n :: ns, fun x hx => ?_, ?_⟩
  · rw [← List.cons_append] at hx
    exact (List.mem_append.mp hx).elim (mNames x) (nNames x)
  · simp [dotted_append, dotted, String.append_assoc]

def TypeRef.WellFormed (t : TypeRef) : Prop :=
  IsDotted t.name

mutual

/-- Whether an expression and all expressions in it meet a condition. -/
def Expr.Every (p : Expr → Prop) : Expr → Prop
  | .list items => p (.list items) ∧ Expr.EveryItem p items
  | .map entries => p (.map entries) ∧ Expr.EveryEntry p entries
  | .binary op left right => p (.binary op left right) ∧ left.Every p ∧ right.Every p
  | .unary op operand => p (.unary op operand) ∧ operand.Every p
  | .property object name => p (.property object name) ∧ object.Every p
  | .index object key => p (.index object key) ∧ object.Every p ∧ key.Every p
  | .call object method args => p (.call object method args) ∧ object.Every p ∧ Expr.EveryItem p args
  | .superCall method args => p (.superCall method args) ∧ Expr.EveryItem p args
  | .staticCall className method args => p (.staticCall className method args) ∧ Expr.EveryItem p args
  | .functionCall name args => p (.functionCall name args) ∧ Expr.EveryItem p args
  | .create className args => p (.create className args) ∧ Expr.EveryItem p args
  | e => p e

def Expr.EveryItem (p : Expr → Prop) : List Expr → Prop
  | [] => True
  | e :: es => e.Every p ∧ Expr.EveryItem p es

def Expr.EveryEntry (p : Expr → Prop) : List (String × Expr) → Prop
  | [] => True
  | (_, e) :: es => e.Every p ∧ Expr.EveryEntry p es

end

section Conditions

variable (q : Statement → Prop) (p : Expr → Prop)

mutual

/-- Whether a statement and all statements in it meet a condition, and their expressions another. -/
def Statement.Every : Statement → Prop
  | .declare name type value => q (.declare name type value) ∧ value.Every p
  | .assign target value => target.toExpr.Every p ∧ value.Every p
  | .expr e => e.Every p
  | .return none => True
  | .return (some e) => e.Every p
  | .cond condition thenBranch none => condition.Every p ∧ Statement.EveryIn thenBranch
  | .cond condition thenBranch (some elseBranch) =>
    condition.Every p ∧ Statement.EveryIn thenBranch ∧ Statement.EveryIn elseBranch
  | .while condition body => condition.Every p ∧ Statement.EveryIn body
  | .for name iterable body => q (.for name iterable body) ∧ iterable.Every p ∧ Statement.EveryIn body
  | .break => True
  | .continue => True

def Statement.EveryIn : Block → Prop
  | [] => True
  | s :: rest => s.Every ∧ Statement.EveryIn rest

end

def Parameter.Every (x : Parameter) : Prop :=
  ∀ e ∈ x.default, e.Every p

def Member.Every : Member → Prop
  | .property x => ∀ e ∈ x.default, e.Every p
  | .method m => (∀ x ∈ m.parameters, x.Every p) ∧ Statement.EveryIn q p m.body

def Declaration.Every (d : Declaration) : Prop :=
  ∀ x ∈ d.members, x.Every q p

/-- Whether all statements of a unit meet a condition, and all expressions another. -/
def SourceUnit.Every (u : SourceUnit) : Prop :=
  ∀ d ∈ u.declarations, d.Every q p

end Conditions

section Decidable

variable {q : Statement → Prop} {p : Expr → Prop} [DecidablePred q] [DecidablePred p]

mutual

def Expr.decideEvery : ∀ e : Expr, Decidable (e.Every p)
  | .int _ | .float _ | .str _ | .bool _ | .null | .var _ | .self => inferInstanceAs (Decidable (p _))
  | .list items => @instDecidableAnd _ _ _ (decideEveryItem items)
  | .map entries => @instDecidableAnd _ _ _ (decideEveryEntry entries)
  | .binary _ left right => @instDecidableAnd _ _ _ (@instDecidableAnd _ _ (decideEvery left) (decideEvery right))
  | .unary _ operand => @instDecidableAnd _ _ _ (decideEvery operand)
  | .property object _ => @instDecidableAnd _ _ _ (decideEvery object)
  | .index object key => @instDecidableAnd _ _ _ (@instDecidableAnd _ _ (decideEvery object) (decideEvery key))
  | .call object _ args =>
    @instDecidableAnd _ _ _ (@instDecidableAnd _ _ (decideEvery object) (decideEveryItem args))
  | .superCall _ args | .staticCall _ _ args | .functionCall _ args | .create _ args =>
    @instDecidableAnd _ _ _ (decideEveryItem args)

def Expr.decideEveryItem : ∀ es : List Expr, Decidable (EveryItem p es)
  | [] => .isTrue trivial
  | e :: es => @instDecidableAnd _ _ (decideEvery e) (decideEveryItem es)

def Expr.decideEveryEntry : ∀ es : List (String × Expr), Decidable (EveryEntry p es)
  | [] => .isTrue trivial
  | (_, e) :: es => @instDecidableAnd _ _ (decideEvery e) (decideEveryEntry es)

end

instance : DecidablePred (Expr.Every p) := Expr.decideEvery

mutual

def Statement.decideEvery : ∀ s : Statement, Decidable (s.Every q p)
  | .declare .. | .assign .. => inferInstanceAs (Decidable (_ ∧ _))
  | .expr e | .return (some e) => inferInstanceAs (Decidable (e.Every p))
  | .cond _ thenBranch none => @instDecidableAnd _ _ _ (decideEveryIn thenBranch)
  | .cond _ thenBranch (some elseBranch) =>
    @instDecidableAnd _ _ _ (@instDecidableAnd _ _ (decideEveryIn thenBranch) (decideEveryIn elseBranch))
  | .while _ body => @instDecidableAnd _ _ _ (decideEveryIn body)
  | .for _ _ body => @instDecidableAnd _ _ _ (@instDecidableAnd _ _ _ (decideEveryIn body))
  | .return none | .break | .continue => .isTrue trivial

def Statement.decideEveryIn : ∀ block : Block, Decidable (EveryIn q p block)
  | [] => .isTrue trivial
  | s :: rest => @instDecidableAnd _ _ (decideEvery s) (decideEveryIn rest)

end

instance : DecidablePred (Statement.EveryIn q p) := Statement.decideEveryIn

instance : DecidablePred (Parameter.Every p) :=
  fun x => inferInstanceAs (Decidable (∀ e ∈ x.default, e.Every p))

instance : DecidablePred (Member.Every q p)
  | .property x => inferInstanceAs (Decidable (∀ e ∈ x.default, e.Every p))
  | .method m => inferInstanceAs (Decidable ((∀ x ∈ m.parameters, x.Every p) ∧ Statement.EveryIn q p m.body))

instance : DecidablePred (Declaration.Every q p) :=
  fun d => inferInstanceAs (Decidable (∀ x ∈ d.members, x.Every q p))

instance : DecidablePred (SourceUnit.Every q p) :=
  fun u => inferInstanceAs (Decidable (∀ d ∈ u.declarations, d.Every q p))

end Decidable

mutual

/-- A condition that all expressions meet is met by all in one. -/
theorem Expr.every_of_forall {p : Expr → Prop} (h : ∀ e, p e) : ∀ e : Expr, e.Every p
  | .int _ | .float _ | .str _ | .bool _ | .null | .var _ | .self => h _
  | .list items => ⟨h _, Expr.everyItem_of_forall h items⟩
  | .map entries => ⟨h _, Expr.everyEntry_of_forall h entries⟩
  | .binary _ left right => ⟨h _, left.every_of_forall h, right.every_of_forall h⟩
  | .unary _ operand => ⟨h _, operand.every_of_forall h⟩
  | .property object _ => ⟨h _, object.every_of_forall h⟩
  | .index object key => ⟨h _, object.every_of_forall h, key.every_of_forall h⟩
  | .call object _ args => ⟨h _, object.every_of_forall h, Expr.everyItem_of_forall h args⟩
  | .superCall _ args | .staticCall _ _ args | .functionCall _ args | .create _ args =>
    ⟨h _, Expr.everyItem_of_forall h args⟩

theorem Expr.everyItem_of_forall {p : Expr → Prop} (h : ∀ e, p e) : ∀ es : List Expr, Expr.EveryItem p es
  | [] => trivial
  | e :: es => ⟨e.every_of_forall h, Expr.everyItem_of_forall h es⟩

theorem Expr.everyEntry_of_forall {p : Expr → Prop} (h : ∀ e, p e) :
    ∀ es : List (String × Expr), Expr.EveryEntry p es
  | [] => trivial
  | (_, e) :: es => ⟨e.every_of_forall h, Expr.everyEntry_of_forall h es⟩

end

mutual

/-- What follows from two conditions is met where both are. -/
theorem Expr.Every.imp {p p' r : Expr → Prop} (h : ∀ e, p e → p' e → r e) :
    ∀ {e : Expr}, e.Every p → e.Every p' → e.Every r
  | .int _, first, second => h _ first second
  | .float _, first, second => h _ first second
  | .str _, first, second => h _ first second
  | .bool _, first, second => h _ first second
  | .null, first, second => h _ first second
  | .var _, first, second => h _ first second
  | .self, first, second => h _ first second
  | .list _, first, second => ⟨h _ first.1 second.1, Expr.EveryItem.imp h first.2 second.2⟩
  | .map _, first, second => ⟨h _ first.1 second.1, Expr.EveryEntry.imp h first.2 second.2⟩
  | .binary .., first, second =>
    ⟨h _ first.1 second.1, Expr.Every.imp h first.2.1 second.2.1, Expr.Every.imp h first.2.2 second.2.2⟩
  | .unary .., first, second => ⟨h _ first.1 second.1, Expr.Every.imp h first.2 second.2⟩
  | .property .., first, second => ⟨h _ first.1 second.1, Expr.Every.imp h first.2 second.2⟩
  | .index .., first, second =>
    ⟨h _ first.1 second.1, Expr.Every.imp h first.2.1 second.2.1, Expr.Every.imp h first.2.2 second.2.2⟩
  | .call .., first, second =>
    ⟨h _ first.1 second.1, Expr.Every.imp h first.2.1 second.2.1, Expr.EveryItem.imp h first.2.2 second.2.2⟩
  | .superCall .., first, second => ⟨h _ first.1 second.1, Expr.EveryItem.imp h first.2 second.2⟩
  | .staticCall .., first, second => ⟨h _ first.1 second.1, Expr.EveryItem.imp h first.2 second.2⟩
  | .functionCall .., first, second => ⟨h _ first.1 second.1, Expr.EveryItem.imp h first.2 second.2⟩
  | .create .., first, second => ⟨h _ first.1 second.1, Expr.EveryItem.imp h first.2 second.2⟩

theorem Expr.EveryItem.imp {p p' r : Expr → Prop} (h : ∀ e, p e → p' e → r e) :
    ∀ {es : List Expr}, Expr.EveryItem p es → Expr.EveryItem p' es → Expr.EveryItem r es
  | [], _, _ => trivial
  | _ :: _, first, second => ⟨Expr.Every.imp h first.1 second.1, Expr.EveryItem.imp h first.2 second.2⟩

theorem Expr.EveryEntry.imp {p p' r : Expr → Prop} (h : ∀ e, p e → p' e → r e) :
    ∀ {es : List (String × Expr)}, Expr.EveryEntry p es → Expr.EveryEntry p' es → Expr.EveryEntry r es
  | [], _, _ => trivial
  | _ :: _, first, second => ⟨Expr.Every.imp h first.1 second.1, Expr.EveryEntry.imp h first.2 second.2⟩

end

section Imp

variable {q q' t : Statement → Prop} {p p' r : Expr → Prop}

mutual

theorem Statement.Every.imp (hq : ∀ s, q s → q' s → t s) (hp : ∀ e, p e → p' e → r e) :
    ∀ {s : Statement}, s.Every q p → s.Every q' p' → s.Every t r
  | .declare .., first, second => ⟨hq _ first.1 second.1, first.2.imp hp second.2⟩
  | .assign .., first, second => ⟨first.1.imp hp second.1, first.2.imp hp second.2⟩
  | .expr _, first, second => Expr.Every.imp hp first second
  | .return none, _, _ => trivial
  | .return (some _), first, second => Expr.Every.imp hp first second
  | .cond _ _ none, first, second => ⟨first.1.imp hp second.1, Statement.EveryIn.imp hq hp first.2 second.2⟩
  | .cond _ _ (some _), first, second =>
    ⟨first.1.imp hp second.1, Statement.EveryIn.imp hq hp first.2.1 second.2.1,
      Statement.EveryIn.imp hq hp first.2.2 second.2.2⟩
  | .while .., first, second => ⟨first.1.imp hp second.1, Statement.EveryIn.imp hq hp first.2 second.2⟩
  | .for .., first, second =>
    ⟨hq _ first.1 second.1, first.2.1.imp hp second.2.1, Statement.EveryIn.imp hq hp first.2.2 second.2.2⟩
  | .break, _, _ => trivial
  | .continue, _, _ => trivial

theorem Statement.EveryIn.imp (hq : ∀ s, q s → q' s → t s) (hp : ∀ e, p e → p' e → r e) :
    ∀ {block : Block}, Statement.EveryIn q p block → Statement.EveryIn q' p' block →
    Statement.EveryIn t r block
  | [], _, _ => trivial
  | _ :: _, first, second => ⟨Statement.Every.imp hq hp first.1 second.1, Statement.EveryIn.imp hq hp first.2 second.2⟩

end

variable (hq : ∀ s, q s → q' s → t s) (hp : ∀ e, p e → p' e → r e)
include hq hp

theorem Member.Every.imp {m : Member} (first : m.Every q p) (second : m.Every q' p') : m.Every t r := by
  cases m with
  | property x => exact fun e he => (first e he).imp hp (second e he)
  | method m =>
    exact ⟨fun x hx e he => (first.1 x hx e he).imp hp (second.1 x hx e he), first.2.imp hq hp second.2⟩

theorem SourceUnit.Every.imp {u : SourceUnit} (first : u.Every q p) (second : u.Every q' p') : u.Every t r :=
  fun d hd m hm => (first d hd m hm).imp hq hp (second d hd m hm)

end Imp

/-- The names of an expression are names and its number is written with a sign or without. -/
def Expr.Sound : Expr → Prop
  | .int n => n ≠ Int64.minValue
  | .float x => x.isFinite = true
  | .var name => IsName name
  | .property _ name => IsName name
  | .call _ method _ => IsName method
  | .superCall method _ => IsName method
  | .staticCall className method _ => IsDotted className ∧ IsName method
  | .functionCall name _ => IsName name
  | .create className _ => IsDotted className
  | _ => True

def Statement.Sound : Statement → Prop
  | .declare name type _ => IsName name ∧ ∀ t ∈ type, t.WellFormed
  | .for name _ _ => IsName name
  | _ => True

structure Parameter.Sound (x : Parameter) : Prop where
  name : IsName x.name
  type : ∀ t ∈ x.type, t.WellFormed

structure Property.Sound (x : Property) : Prop where
  name : IsName x.name
  type : ∀ t ∈ x.type, t.WellFormed

structure Method.Sound (m : Method) : Prop where
  name : IsName m.name
  parameters : ∀ x ∈ m.parameters, x.Sound
  distinct : (m.parameters.map (·.name)).Nodup
  returnType : ∀ t ∈ m.returnType, t.WellFormed

def Member.Sound : Member → Prop
  | .property x => x.Sound
  | .method m => m.Sound

structure Declaration.Sound (d : Declaration) : Prop where
  name : IsName d.name
  parent : ∀ c ∈ d.class?, ∀ parent ∈ c.parent, IsDotted parent
  members : ∀ x ∈ d.members, x.Sound

structure Import.Sound (i : Import) : Prop where
  path : IsDotted i.path
  localName : ∀ a ∈ i.localName, IsName a

namespace SourceUnit

/-- Every name in a unit is one, the parameters of a method have different names, and every number can be written. -/
structure WellFormed (u : SourceUnit) : Prop where
  package : ∀ p ∈ u.package, IsDotted p
  imports : ∀ i ∈ u.imports, i.Sound
  declarations : ∀ d ∈ u.declarations, d.Sound
  parts : u.Every Statement.Sound Expr.Sound

end SourceUnit

/-- The text of a float is read as the float, or as a minus and its magnitude. -/
def FloatStyle.ReadsBack (x : Float) : Prop :=
  ∃ cs y, (source.text x).toList = (if isNegative x then ['-'] else []) ++ cs ∧ (∃ c ∈ cs.head?, c.isDigit = true) ∧
    Scan.number cs = .token (.float y) cs.length ∧ x = if isNegative x then -y else y

def Expr.ReadsBack : Expr → Prop
  | .float x => FloatStyle.ReadsBack x
  | _ => True

mutual

/-- An expression with each negative of a number made a number, from the inside out. -/
def Expr.folded : Expr → Expr
  | .list items => .list (Expr.foldedItems items)
  | .map entries => .map (Expr.foldedEntries entries)
  | .binary op left right => .binary op left.folded right.folded
  | .unary .not operand => .unary .not operand.folded
  | .unary .negate operand => Parse.negated operand.folded
  | .property object name => .property object.folded name
  | .index object key => .index object.folded key.folded
  | .call object method args => .call object.folded method (Expr.foldedItems args)
  | .superCall method args => .superCall method (Expr.foldedItems args)
  | .staticCall className method args => .staticCall className method (Expr.foldedItems args)
  | .functionCall name args => .functionCall name (Expr.foldedItems args)
  | .create className args => .create className (Expr.foldedItems args)
  | e => e

def Expr.foldedItems : List Expr → List Expr
  | [] => []
  | e :: es => e.folded :: Expr.foldedItems es

def Expr.foldedEntries : List (String × Expr) → List (String × Expr)
  | [] => []
  | (k, e) :: es => (k, e.folded) :: Expr.foldedEntries es

end

def Target.folded : Target → Target
  | .var name => .var name
  | .property object name => .property object.folded name
  | .index object key => .index object.folded key.folded

mutual

def Statement.folded : Statement → Statement
  | .declare name type value => .declare name type value.folded
  | .assign target value => .assign target.folded value.folded
  | .expr e => .expr e.folded
  | .return none => .return none
  | .return (some e) => .return (some e.folded)
  | .cond condition thenBranch none => .cond condition.folded (Statement.foldedBlock thenBranch) none
  | .cond condition thenBranch (some elseBranch) =>
    .cond condition.folded (Statement.foldedBlock thenBranch) (some (Statement.foldedBlock elseBranch))
  | .while condition body => .while condition.folded (Statement.foldedBlock body)
  | .for name iterable body => .for name iterable.folded (Statement.foldedBlock body)
  | .break => .break
  | .continue => .continue

def Statement.foldedBlock : Block → Block
  | [] => []
  | s :: rest => s.folded :: Statement.foldedBlock rest

end

def Parameter.folded (x : Parameter) : Parameter :=
  { x with default := x.default.map Expr.folded }

def Property.folded (x : Property) : Property :=
  { x with default := x.default.map Expr.folded }

def Method.folded (m : Method) : Method :=
  { m with parameters := m.parameters.map Parameter.folded, body := Statement.foldedBlock m.body }

def Member.folded : Member → Member
  | .property x => .property x.folded
  | .method m => .method m.folded

def Declaration.folded : Declaration → Declaration
  | .class c => .class { c with members := c.members.map Member.folded }
  | .trait t => .trait { t with members := t.members.map Member.folded }

def SourceUnit.folded (u : SourceUnit) : SourceUnit :=
  { u with declarations := u.declarations.map Declaration.folded }

/-- Not the negative of a number. -/
def Expr.NotNegatedNumber : Expr → Prop
  | .unary .negate (.int _) => False
  | .unary .negate (.float _) => False
  | _ => True

end AspectProxy
