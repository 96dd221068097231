import AspectProxy.Proofs.Printing.FloatTexts
import AspectProxy.Proofs.Printing.WellFormed

/-!
What the text of a tree holds whatever its floats are. A float is read as the value that its digits are scanned as, an
infinite one and one that is no number as a variable; where every float reads back, this is the tree with its negated
numbers folded.
-/

namespace AspectProxy

/-- As `Sound`, with a condition of one's own on floats. -/
def Expr.SoundWith (N : Float → Prop) : Expr → Prop
  | .float x => N x
  | e => e.Sound

/-- Sound but for its floats, which may be any. -/
abbrev Expr.Spelt : Expr → Prop :=
  Expr.SoundWith fun _ => True

theorem Expr.soundWith_isFinite {e : Expr} : e.SoundWith (·.isFinite = true) ↔ e.Sound := by
  cases e <;> exact .rfl

theorem Expr.Sound.spelt {e : Expr} (h : e.Sound) : e.Spelt := by
  cases e <;> first | exact h | trivial

theorem Expr.SoundWith.spelt {N : Float → Prop} {e : Expr} (h : e.SoundWith N) : e.Spelt := by
  cases e <;> first | exact h | trivial

namespace SourceUnit

/-- Every name in a unit is one, the parameters of a method have different names, and the expressions meet a condition. -/
structure Meets (p : Expr → Prop) (u : SourceUnit) : Prop where
  package : ∀ q ∈ u.package, IsDotted q
  imports : ∀ i ∈ u.imports, i.Sound
  declarations : ∀ d ∈ u.declarations, d.Sound
  parts : u.Every Statement.Sound p

/-- Well-formed but for its floats, which may be any. -/
abbrev Readable (u : SourceUnit) : Prop :=
  u.Meets Expr.Spelt

variable {u : SourceUnit} {p q : Expr → Prop}

theorem Meets.imp (h : u.Meets p) (weaker : ∀ e, p e → q e) : u.Meets q :=
  { h with parts := .imp (fun _ here _ => here) (fun e here _ => weaker e here) h.parts h.parts }

theorem WellFormed.readable (h : u.WellFormed) : u.Readable where
  package := h.package
  imports := h.imports
  declarations := h.declarations
  parts := .imp (fun _ here _ => here) (fun _ here _ => here.spelt) h.parts h.parts

end SourceUnit

namespace FloatStyle

/-- The value that digits are scanned as. -/
def scanned (cs : List Char) : Float :=
  match Scan.number cs with
  | .token (.float y) _ => y
  | _ => 0.0

/-- What the text of the magnitude of a float is read as. -/
def rereadMagnitude (x : Float) : Expr :=
  if x.isNaN then .var "NaN"
  else if x.isInf then .var "inf"
  else .float (scanned (source.magnitudeText x))

/-- What the text of a float is read as. -/
def reread (x : Float) : Expr :=
  if !x.isNaN && isNegative x then Parse.negated (rereadMagnitude x) else rereadMagnitude x

/-- The text of a number is its sign and then the text of its magnitude. -/
theorem toList_text {x : Float} (number : x.isNaN = false) : (source.text x).toList =
    (if isNegative x then ['-'] else []) ++ if x.isInf then ['i', 'n', 'f'] else source.magnitudeText x := by
  rw [text, number, if_neg Bool.false_ne_true]
  cases isNegative x <;> cases x.isInf <;> simp

namespace ReadsBack

variable {x : Float}

theorem isNaN_eq_false (h : ReadsBack x) : x.isNaN = false := by
  obtain ⟨cs, -, text, ⟨c, first, digit⟩, -, -⟩ := h
  by_contra nan
  rw [FloatStyle.text, if_pos (by simpa using nan)] at text
  cases sign : isNegative x with
  | true =>
    rw [sign] at text
    exact absurd (List.cons.inj text).1 (by decide)
  | false =>
    obtain rfl : "NaN".toList = cs := by simpa [sign] using text
    obtain rfl := Option.some.inj first
    exact absurd digit (by decide)

theorem isInf_eq_false (h : ReadsBack x) : x.isInf = false := by
  have number := h.isNaN_eq_false
  obtain ⟨cs, -, text, ⟨c, first, digit⟩, -, -⟩ := h
  by_contra h
  have inf : x.isInf = true := by simpa using h
  simp only [toList_text number, inf, if_true] at text
  obtain rfl := List.append_cancel_left text
  obtain rfl := Option.some.inj first
  exact absurd digit (by decide)

/-- A float whose text reads back is read as itself. -/
theorem reread_eq (h : ReadsBack x) : reread x = .float x := by
  have number := h.isNaN_eq_false
  have finite := h.isInf_eq_false
  obtain ⟨cs, y, text, -, read, value⟩ := h
  rw [toList_text number, finite, if_neg Bool.false_ne_true] at text
  have digits : source.magnitudeText x = cs := List.append_cancel_left text
  have magnitude : rereadMagnitude x = .float y := by
    simp only [rereadMagnitude, number, finite, digits, scanned, read, Bool.false_eq_true, if_false]
  rw [reread, magnitude, number]
  cases sign : isNegative x with
  | false =>
    rw [sign] at value
    exact congrArg Expr.float value.symm
  | true =>
    rw [sign] at value
    exact congrArg Expr.float value.symm

end ReadsBack

end FloatStyle

mutual

/-- What the text of an expression is read as. -/
def Expr.reread : Expr → Expr
  | .float x => FloatStyle.reread x
  | .list items => .list (Expr.rereadItems items)
  | .map entries => .map (Expr.rereadEntries entries)
  | .binary op left right => .binary op left.reread right.reread
  | .unary .not operand => .unary .not operand.reread
  | .unary .negate operand => Parse.negated operand.reread
  | .property object name => .property object.reread name
  | .index object key => .index object.reread key.reread
  | .call object method args => .call object.reread method (Expr.rereadItems args)
  | .superCall method args => .superCall method (Expr.rereadItems args)
  | .staticCall className method args => .staticCall className method (Expr.rereadItems args)
  | .functionCall name args => .functionCall name (Expr.rereadItems args)
  | .create className args => .create className (Expr.rereadItems args)
  | e => e

def Expr.rereadItems : List Expr → List Expr
  | [] => []
  | e :: es => e.reread :: Expr.rereadItems es

def Expr.rereadEntries : List (String × Expr) → List (String × Expr)
  | [] => []
  | (k, e) :: es => (k, e.reread) :: Expr.rereadEntries es

end

def Target.reread : Target → Target
  | .var name => .var name
  | .property object name => .property object.reread name
  | .index object key => .index object.reread key.reread

mutual

def Statement.reread : Statement → Statement
  | .declare name type value => .declare name type value.reread
  | .assign target value => .assign target.reread value.reread
  | .expr e => .expr e.reread
  | .return none => .return none
  | .return (some e) => .return (some e.reread)
  | .cond condition thenBranch none => .cond condition.reread (Statement.rereadBlock thenBranch) none
  | .cond condition thenBranch (some elseBranch) =>
    .cond condition.reread (Statement.rereadBlock thenBranch) (some (Statement.rereadBlock elseBranch))
  | .while condition body => .while condition.reread (Statement.rereadBlock body)
  | .for name iterable body => .for name iterable.reread (Statement.rereadBlock body)
  | .break => .break
  | .continue => .continue

def Statement.rereadBlock : Block → Block
  | [] => []
  | s :: rest => s.reread :: Statement.rereadBlock rest

end

def Parameter.reread (x : Parameter) : Parameter :=
  { x with default := x.default.map Expr.reread }

def Property.reread (x : Property) : Property :=
  { x with default := x.default.map Expr.reread }

def Method.reread (m : Method) : Method :=
  { m with parameters := m.parameters.map Parameter.reread, body := Statement.rereadBlock m.body }

def Member.reread : Member → Member
  | .property x => .property x.reread
  | .method m => .method m.reread

def Declaration.reread : Declaration → Declaration
  | .class c => .class { c with members := c.members.map Member.reread }
  | .trait t => .trait { t with members := t.members.map Member.reread }

def SourceUnit.reread (u : SourceUnit) : SourceUnit :=
  { u with declarations := u.declarations.map Declaration.reread }

namespace Expr

mutual

theorem reread_eq_folded : ∀ {e : Expr}, e.Every ReadsBack → e.reread = e.folded
  | .int _, _ | .str _, _ | .bool _, _ | .null, _ | .var _, _ | .self, _ => rfl
  | .float _, h => FloatStyle.ReadsBack.reread_eq h
  | .list _, h => by rw [reread, folded, rereadItems_eq_folded h.2]
  | .map _, h => by rw [reread, folded, rereadEntries_eq_folded h.2]
  | .binary .., h => by rw [reread, folded, reread_eq_folded h.2.1, reread_eq_folded h.2.2]
  | .unary .not _, h => by rw [reread, folded, reread_eq_folded h.2]
  | .unary .negate _, h => by rw [reread, folded, reread_eq_folded h.2]
  | .property .., h => by rw [reread, folded, reread_eq_folded h.2]
  | .index .., h => by rw [reread, folded, reread_eq_folded h.2.1, reread_eq_folded h.2.2]
  | .call .., h => by rw [reread, folded, reread_eq_folded h.2.1, rereadItems_eq_folded h.2.2]
  | .superCall .., h => by rw [reread, folded, rereadItems_eq_folded h.2]
  | .staticCall .., h => by rw [reread, folded, rereadItems_eq_folded h.2]
  | .functionCall .., h => by rw [reread, folded, rereadItems_eq_folded h.2]
  | .create .., h => by rw [reread, folded, rereadItems_eq_folded h.2]

theorem rereadItems_eq_folded : ∀ {es : List Expr}, EveryItem ReadsBack es → rereadItems es = foldedItems es
  | [], _ => rfl
  | _ :: _, h => by rw [rereadItems, foldedItems, reread_eq_folded h.1, rereadItems_eq_folded h.2]

theorem rereadEntries_eq_folded : ∀ {es : List (String × Expr)}, EveryEntry ReadsBack es →
    rereadEntries es = foldedEntries es
  | [], _ => rfl
  | (_, _) :: _, h => by rw [rereadEntries, foldedEntries, reread_eq_folded h.1, rereadEntries_eq_folded h.2]

end

theorem map_reread_eq_folded {default : Option Expr} (h : ∀ e ∈ default, e.Every ReadsBack) :
    default.map reread = default.map folded := by
  cases default with
  | none => rfl
  | some e => rw [Option.map_some, Option.map_some, reread_eq_folded (h e rfl)]

end Expr

theorem Target.reread_eq_folded {target : Target} (h : target.toExpr.Every Expr.ReadsBack) :
    target.reread = target.folded := by
  cases target with
  | var name => rfl
  | property object name => rw [reread, folded, Expr.reread_eq_folded h.2]
  | index object key => rw [reread, folded, Expr.reread_eq_folded h.2.1, Expr.reread_eq_folded h.2.2]

namespace Statement

variable {q : Statement → Prop}

mutual

theorem reread_eq_folded : ∀ {s : Statement}, s.Every q Expr.ReadsBack → s.reread = s.folded
  | .declare .., h => by rw [reread, folded, Expr.reread_eq_folded h.2]
  | .assign .., h => by rw [reread, folded, Target.reread_eq_folded h.1, Expr.reread_eq_folded h.2]
  | .expr _, h => by rw [reread, folded, Expr.reread_eq_folded h]
  | .return none, _ => rfl
  | .return (some _), h => by rw [reread, folded, Expr.reread_eq_folded h]
  | .cond _ _ none, h => by rw [reread, folded, Expr.reread_eq_folded h.1, rereadBlock_eq_folded h.2]
  | .cond _ _ (some _), h => by
    rw [reread, folded, Expr.reread_eq_folded h.1, rereadBlock_eq_folded h.2.1, rereadBlock_eq_folded h.2.2]
  | .while .., h => by rw [reread, folded, Expr.reread_eq_folded h.1, rereadBlock_eq_folded h.2]
  | .for .., h => by rw [reread, folded, Expr.reread_eq_folded h.2.1, rereadBlock_eq_folded h.2.2]
  | .break, _ => rfl
  | .continue, _ => rfl

theorem rereadBlock_eq_folded : ∀ {block : Block}, EveryIn q Expr.ReadsBack block → rereadBlock block = foldedBlock block
  | [], _ => rfl
  | _ :: _, h => by rw [rereadBlock, foldedBlock, reread_eq_folded h.1, rereadBlock_eq_folded h.2]

end

end Statement

section Members

variable {q : Statement → Prop}

theorem Parameter.reread_eq_folded {x : Parameter} (h : x.Every Expr.ReadsBack) : x.reread = x.folded := by
  rw [reread, folded, Expr.map_reread_eq_folded h]

theorem Member.reread_eq_folded {m : Member} (h : m.Every q Expr.ReadsBack) : m.reread = m.folded := by
  cases m with
  | property x => rw [reread, folded, Property.reread, Property.folded, Expr.map_reread_eq_folded h]
  | method m =>
    rw [reread, folded, Method.reread, Method.folded,
      List.map_congr_left fun x hx => Parameter.reread_eq_folded (h.1 x hx), Statement.rereadBlock_eq_folded h.2]

theorem Declaration.reread_eq_folded {d : Declaration} (h : d.Every q Expr.ReadsBack) : d.reread = d.folded := by
  have members : d.members.map Member.reread = d.members.map Member.folded :=
    List.map_congr_left fun m hm => Member.reread_eq_folded (h m hm)
  cases d with
  | «class» c => rw [reread, folded, show c.members.map Member.reread = c.members.map Member.folded from members]
  | trait t => rw [reread, folded, show t.members.map Member.reread = t.members.map Member.folded from members]

/-- A unit whose floats read back is read as the unit with its negated numbers folded. -/
theorem SourceUnit.reread_eq_folded {u : SourceUnit} (h : u.Every q Expr.ReadsBack) : u.reread = u.folded := by
  rw [reread, folded, List.map_congr_left fun d hd => Declaration.reread_eq_folded (h d hd)]

end Members

end AspectProxy
