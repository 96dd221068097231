import AspectProxy.Proofs.Reading.Declarations
import AspectProxy.Proofs.Reading.Trees

/-!
Printing and reading undo each other. The text of a well-formed unit is read as the unit with its negated numbers
folded; a unit that was read is well-formed and has none, so its text is read as the unit itself.
-/

namespace AspectProxy

namespace Expr

mutual

theorem folded_eq_self : ∀ {e : Expr}, e.Every NotNegatedNumber → e.folded = e
  | .int _, _ => rfl
  | .float _, _ => rfl
  | .str _, _ => rfl
  | .bool _, _ => rfl
  | .null, _ => rfl
  | .var _, _ => rfl
  | .self, _ => rfl
  | .list _, h => by rw [folded, foldedItems_eq_self h.2]
  | .map _, h => by rw [folded, foldedEntries_eq_self h.2]
  | .binary .., h => by rw [folded, folded_eq_self h.2.1, folded_eq_self h.2.2]
  | .unary .not _, h => by rw [folded, folded_eq_self h.2]
  | .unary .negate operand, h => by
    rw [folded, folded_eq_self h.2]
    cases operand with
    | int n => exact h.1.elim
    | float x => exact h.1.elim
    | _ => rfl
  | .property .., h => by rw [folded, folded_eq_self h.2]
  | .index .., h => by rw [folded, folded_eq_self h.2.1, folded_eq_self h.2.2]
  | .call .., h => by rw [folded, folded_eq_self h.2.1, foldedItems_eq_self h.2.2]
  | .superCall .., h => by rw [folded, foldedItems_eq_self h.2]
  | .staticCall .., h => by rw [folded, foldedItems_eq_self h.2]
  | .functionCall .., h => by rw [folded, foldedItems_eq_self h.2]
  | .create .., h => by rw [folded, foldedItems_eq_self h.2]

theorem foldedItems_eq_self : ∀ {es : List Expr}, EveryItem NotNegatedNumber es → foldedItems es = es
  | [], _ => rfl
  | _ :: _, h => by rw [foldedItems, folded_eq_self h.1, foldedItems_eq_self h.2]

theorem foldedEntries_eq_self : ∀ {es : List (String × Expr)}, EveryEntry NotNegatedNumber es → foldedEntries es = es
  | [], _ => rfl
  | (_, _) :: _, h => by rw [foldedEntries, folded_eq_self h.1, foldedEntries_eq_self h.2]

end

theorem map_folded_eq_self {default : Option Expr} (h : ∀ e ∈ default, e.Every NotNegatedNumber) :
    default.map folded = default := by
  cases default with
  | none => rfl
  | some e => rw [Option.map_some, folded_eq_self (h e rfl)]

end Expr

theorem Target.folded_eq_self {target : Target} (h : target.toExpr.Every Expr.NotNegatedNumber) :
    target.folded = target := by
  cases target with
  | var name => rfl
  | property object name => rw [folded, Expr.folded_eq_self h.2]
  | index object key => rw [folded, Expr.folded_eq_self h.2.1, Expr.folded_eq_self h.2.2]

namespace Statement

variable {q : Statement → Prop}

mutual

theorem folded_eq_self : ∀ {s : Statement}, s.Every q Expr.NotNegatedNumber → s.folded = s
  | .declare .., h => by rw [folded, Expr.folded_eq_self h.2]
  | .assign .., h => by rw [folded, Target.folded_eq_self h.1, Expr.folded_eq_self h.2]
  | .expr _, h => by rw [folded, Expr.folded_eq_self h]
  | .return none, _ => rfl
  | .return (some _), h => by rw [folded, Expr.folded_eq_self h]
  | .cond _ _ none, h => by rw [folded, Expr.folded_eq_self h.1, foldedBlock_eq_self h.2]
  | .cond _ _ (some _), h => by
    rw [folded, Expr.folded_eq_self h.1, foldedBlock_eq_self h.2.1, foldedBlock_eq_self h.2.2]
  | .while .., h => by rw [folded, Expr.folded_eq_self h.1, foldedBlock_eq_self h.2]
  | .for .., h => by rw [folded, Expr.folded_eq_self h.2.1, foldedBlock_eq_self h.2.2]
  | .break, _ => rfl
  | .continue, _ => rfl

theorem foldedBlock_eq_self : ∀ {block : Block}, EveryIn q Expr.NotNegatedNumber block → foldedBlock block = block
  | [], _ => rfl
  | _ :: _, h => by rw [foldedBlock, folded_eq_self h.1, foldedBlock_eq_self h.2]

end

end Statement

theorem map_eq_self {f : α → α} {xs : List α} (h : ∀ x ∈ xs, f x = x) : xs.map f = xs := by
  rw [List.map_congr_left h, List.map_id']

section Members

variable {q : Statement → Prop}

theorem Parameter.folded_eq_self {x : Parameter} (h : x.Every Expr.NotNegatedNumber) : x.folded = x := by
  rw [folded, Expr.map_folded_eq_self h]

theorem Member.folded_eq_self {m : Member} (h : m.Every q Expr.NotNegatedNumber) : m.folded = m := by
  cases m with
  | property x => rw [folded, Property.folded, Expr.map_folded_eq_self h]
  | method m =>
    rw [folded, Method.folded, map_eq_self fun x hx => Parameter.folded_eq_self (h.1 x hx),
      Statement.foldedBlock_eq_self h.2]

theorem Declaration.folded_eq_self {d : Declaration} (h : d.Every q Expr.NotNegatedNumber) : d.folded = d := by
  have members : d.members.map Member.folded = d.members := map_eq_self fun m hm => Member.folded_eq_self (h m hm)
  cases d with
  | «class» c => rw [folded, show c.members.map Member.folded = c.members from members]
  | trait t => rw [folded, show t.members.map Member.folded = t.members from members]

theorem SourceUnit.folded_eq_self {u : SourceUnit} (h : u.Every q Expr.NotNegatedNumber) : u.folded = u := by
  rw [folded, map_eq_self fun d hd => Declaration.folded_eq_self (h d hd)]

end Members

namespace SourceUnit

/-- The text of a unit is read as the unit that it holds, whatever the floats of the unit are. -/
theorem Readable.ofString?_print {u : SourceUnit} (h : u.Readable) (width : Nat) :
    ofString? (u.print width) = .ok u.reread := by
  obtain ⟨items, stop, lexed, tokens⟩ :=
    lexes_spelt h.package h.imports (fun d hd => (h.declarations d hd).spelt) h.parts width .start
  obtain ⟨ts, -, parsed⟩ := h.reads width ⟨items, stop⟩ tokens
  have scanned : TokenStream.ofString? (u.print width) = .ok ⟨items, stop⟩ := lexed
  have read : ofTokens? ⟨items, stop⟩ = .ok u.reread := by
    rw [ofTokens?, StateT.run, parsed]
    rfl
  rw [ofString?, scanned]
  exact read

/-- The text of a unit whose floats read back is read as the unit with its negated numbers folded. -/
theorem ofString?_print {u : SourceUnit} (h : u.WellFormed) (floats : u.Every (fun _ => True) Expr.ReadsBack)
    (width : Nat) : ofString? (u.print width) = .ok u.folded := by
  rw [h.readable.ofString?_print, reread_eq_folded floats]

/-- Reading undoes printing up to negated numbers, and undoes it for every unit that was read. -/
theorem reading_undoes_printing :
    (∀ u : SourceUnit, u.WellFormed → u.Every (fun _ => True) Expr.ReadsBack →
      ∀ width, ofString? (u.print width) = .ok u.folded) ∧
    ∀ (source : String) (u : SourceUnit), ofString? source = .ok u → FiniteFloats source →
      u.WellFormed ∧ u.Every (fun _ => True) Expr.NotNegatedNumber ∧
        (u.Every (fun _ => True) Expr.ReadsBack → ∀ width, ofString? (u.print width) = .ok u) := by
  refine ⟨fun u h floats width => ofString?_print h floats width, fun source u read finite => ?_⟩
  obtain ⟨wellFormed, plain⟩ := wellFormed_of_ofString? read finite
  refine ⟨wellFormed, plain, fun floats width => ?_⟩
  have printed := ofString?_print wellFormed floats width
  rwa [folded_eq_self plain] at printed

/-- A class with a negative number, and a negated one. -/
def till : SourceUnit where
  package := some "shop.front"
  imports := [⟨"lib.Base", some "Root"⟩]
  declarations := [.class ⟨"Till", true, some "Root",
    [.property ⟨{}, "rate", some ⟨"float", true⟩, some (.float (-2.5))⟩,
     .method ⟨{}, "price", [⟨"x", none, none⟩], none,
       [.return (some (.binary .multiply (.unary .negate (.int (-1))) (.var "x")))]⟩]⟩]

theorem till_wellFormed : till.WellFormed where
  package := by
    rintro _ ⟨⟩
    exact ⟨"shop", ["front"], by decide, by decide⟩
  imports := by
    refine List.forall_mem_singleton.mpr ⟨⟨"lib", ["Base"], by decide, by decide⟩, ?_⟩
    rintro _ ⟨⟩
    decide
  declarations := by
    have root : IsDotted "Root" := IsName.isDotted (by decide)
    have float : IsDotted "float" := IsName.isDotted (by decide)
    refine List.forall_mem_singleton.mpr ⟨by decide, ?_, ?_⟩
    · rintro _ ⟨⟩ _ ⟨⟩
      exact root
    · refine List.forall_mem_cons.mpr ⟨⟨by decide, ?_⟩, List.forall_mem_singleton.mpr ⟨by decide, ?_, by decide, nofun⟩⟩
      · rintro _ ⟨⟩
        exact float
      · exact List.forall_mem_singleton.mpr ⟨by decide, nofun⟩
  parts := by
    refine List.forall_mem_singleton.mpr (List.forall_mem_cons.mpr ⟨?_, List.forall_mem_singleton.mpr ⟨?_, ?_⟩⟩)
    · rintro _ ⟨⟩
      show Float.isFinite (-2.5) = true
      decide
    · exact List.forall_mem_singleton.mpr nofun
    · have one : (-1 : Int64) ≠ Int64.minValue := by decide
      have x : IsName "x" := by decide
      exact ⟨⟨trivial, ⟨trivial, one⟩, x⟩, trivial⟩

theorem readsBack_rate : FloatStyle.ReadsBack (-2.5) := by
  have scanned : (Decimal.ofParts ['2'] ['5'] 0).toFloat = 2.5 := by decide
  refine ⟨['2', '.', '5'], 2.5, by decide, ⟨'2', rfl, rfl⟩, ?_, by decide⟩
  exact congrArg (fun x => Scan.token (.float x) 3) scanned

theorem till_readsBack : till.Every (fun _ => True) Expr.ReadsBack := by
  refine List.forall_mem_singleton.mpr (List.forall_mem_cons.mpr ⟨?_, List.forall_mem_singleton.mpr ⟨?_, ?_⟩⟩)
  · rintro _ ⟨⟩
    exact readsBack_rate
  · exact List.forall_mem_singleton.mpr nofun
  · exact ⟨⟨trivial, ⟨trivial, trivial⟩, trivial⟩, trivial⟩

theorem till_folded_readsBack : till.folded.Every (fun _ => True) Expr.ReadsBack := by
  refine List.forall_mem_singleton.mpr (List.forall_mem_cons.mpr ⟨?_, List.forall_mem_singleton.mpr ⟨?_, ?_⟩⟩)
  · rintro _ ⟨⟩
    exact readsBack_rate
  · exact List.forall_mem_singleton.mpr nofun
  · exact ⟨⟨trivial, trivial, trivial⟩, trivial⟩

theorem till_reading_undoes_printing : till.WellFormed ∧ till.Every (fun _ => True) Expr.ReadsBack ∧
    (∀ width, ofString? (till.print width) = .ok till.folded) ∧
    till.folded.WellFormed ∧ ∀ width, ofString? (till.folded.print width) = .ok till.folded := by
  have printed : ∀ width, ofString? (till.print width) = .ok till.folded :=
    reading_undoes_printing.1 till till_wellFormed till_readsBack
  have finite : FiniteFloats (till.print 2) := by decide +kernel
  obtain ⟨wellFormed, -, again⟩ := reading_undoes_printing.2 (till.print 2) till.folded (printed 2) finite
  exact ⟨till_wellFormed, till_readsBack, printed, wellFormed, again till_folded_readsBack⟩

end SourceUnit

end AspectProxy
