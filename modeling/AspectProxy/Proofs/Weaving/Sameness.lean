import AspectProxy.Proofs.Printing.WellFormed
import AspectProxy.Tree.Equality

/-!
A tree is the same as itself if its floats are finite: only a NaN is not the same as itself. Trees that are the same are
equal if they have no floats, so that what is made of a text without floats can be found by comparing.
-/

namespace AspectProxy

theorem Float.beq_self {x : Float} (h : x.isFinite = true) : (x == x) = true := by
  have finite : x.toModel.unpack.isFinite = true := h
  show x.toModel.unpack.beq x.toModel.unpack = true
  cases unpacked : x.toModel.unpack with
  | notANumber => rw [unpacked] at finite; cases finite
  | infinity sign => rw [unpacked] at finite; cases finite
  | zero sign => rfl
  | finite sign mantissa exponent positive =>
    have same : (compare exponent exponent).then (compare mantissa mantissa) = .eq := by simp
    cases sign with
    | positive =>
      show (some ((compare exponent exponent).then (compare mantissa mantissa)) == some .eq) = true
      rw [same]
      rfl
    | negative =>
      show (some ((compare exponent exponent).then (compare mantissa mantissa)).swap == some .eq) = true
      rw [same]
      rfl

namespace Expr

mutual

theorem same_self : ∀ {e : Expr}, e.Every Sound → e.same e = true
  | .int n, _ => beq_self_eq_true n
  | .float _, h => Float.beq_self h
  | .str s, _ => beq_self_eq_true s
  | .bool b, _ => beq_self_eq_true b
  | .null, _ => rfl
  | .var name, _ => beq_self_eq_true name
  | .self, _ => rfl
  | .list _, h => sameList_self h.2
  | .map _, h => sameEntries_self h.2
  | .binary .., h => by simp [same, same_self h.2.1, same_self h.2.2]
  | .unary .., h => by simp [same, same_self h.2]
  | .property .., h => by simp [same, same_self h.2]
  | .index .., h => by simp [same, same_self h.2.1, same_self h.2.2]
  | .call .., h => by simp [same, same_self h.2.1, sameList_self h.2.2]
  | .superCall .., h => by simp [same, sameList_self h.2]
  | .staticCall .., h => by simp [same, sameList_self h.2]
  | .functionCall .., h => by simp [same, sameList_self h.2]
  | .create .., h => by simp [same, sameList_self h.2]

theorem sameList_self : ∀ {es : List Expr}, EveryItem Sound es → sameList es es = true
  | [], _ => rfl
  | _ :: _, h => by rw [sameList, same_self h.1, sameList_self h.2, Bool.and_self]

theorem sameEntries_self : ∀ {es : List (String × Expr)}, EveryEntry Sound es → sameEntries es es = true
  | [], _ => rfl
  | (_, _) :: _, h => by simp [sameEntries, same_self h.1, sameEntries_self h.2]

end

theorem beq_self {e : Expr} (h : e.Every Sound) : (e == e) = true :=
  same_self h

end Expr

theorem Target.beq_self {target : Target} (h : target.toExpr.Every Expr.Sound) : (target == target) = true := by
  show target.same target = true
  cases target with
  | var name => exact beq_self_eq_true name
  | property object name => simp [same, Expr.beq_self h.2]
  | index object key => simp [same, Expr.beq_self h.2.1, Expr.beq_self h.2.2]

theorem option_beq_self [BEq α] {x : Option α} (h : ∀ a ∈ x, (a == a) = true) : (x == x) = true := by
  cases x with
  | none => rfl
  | some a => exact h a rfl

theorem list_beq_self [BEq α] {xs : List α} (h : ∀ a ∈ xs, (a == a) = true) : (xs == xs) = true := by
  induction xs with
  | nil => rfl
  | cons a rest ih =>
    obtain ⟨here, more⟩ := List.forall_mem_cons.mp h
    rw [List.cons_beq_cons, here, ih more, Bool.and_self]

namespace Statement

variable {q : Statement → Prop}

mutual

theorem same_self : ∀ {s : Statement}, s.Every q Expr.Sound → s.same s = true
  | .declare .., h => by simp [same, Expr.beq_self h.2]
  | .assign .., h => by simp [same, Target.beq_self h.1, Expr.beq_self h.2]
  | .expr _, h => Expr.beq_self h
  | .return none, _ => rfl
  | .return (some _), h => Expr.beq_self h
  | .cond _ _ none, h => by simp [same, Expr.beq_self h.1, sameBlock_self h.2]
  | .cond _ _ (some _), h => by simp [same, Expr.beq_self h.1, sameBlock_self h.2.1, sameBlock_self h.2.2]
  | .while .., h => by simp [same, Expr.beq_self h.1, sameBlock_self h.2]
  | .for .., h => by simp [same, Expr.beq_self h.2.1, sameBlock_self h.2.2]
  | .break, _ => rfl
  | .continue, _ => rfl

theorem sameBlock_self : ∀ {block : Block}, EveryIn q Expr.Sound block → sameBlock block block = true
  | [], _ => rfl
  | _ :: _, h => by rw [sameBlock, same_self h.1, sameBlock_self h.2, Bool.and_self]

theorem beq_block_self : ∀ {block : Block}, EveryIn q Expr.Sound block → (block == block) = true
  | [], _ => rfl
  | _ :: _, h => by
    rw [List.cons_beq_cons, beq_block_self h.2, Bool.and_true]
    exact same_self h.1

end

end Statement

theorem Parameter.beq_self {x : Parameter} (h : x.Every Expr.Sound) : (x == x) = true := by
  show (x.name == x.name && (x.type == x.type && x.default == x.default)) = true
  rw [option_beq_self fun e he => Expr.beq_self (h e he)]
  simp

theorem Method.beq_self {m : Method} {q : Statement → Prop} (h : (Member.method m).Every q Expr.Sound) :
    (m == m) = true := by
  show (m.modifiers == m.modifiers && (m.name == m.name && (m.parameters == m.parameters &&
    (m.returnType == m.returnType && m.body == m.body)))) = true
  rw [list_beq_self fun x hx => Parameter.beq_self (h.1 x hx), Statement.beq_block_self h.2]
  simp

def Expr.NoFloat : Expr → Prop
  | .float _ => False
  | _ => True

instance : DecidablePred Expr.NoFloat
  | .float _ => .isFalse id
  | .int _ | .str _ | .bool _ | .null | .var _ | .self | .list _ | .map _ | .binary .. | .unary .. | .property ..
  | .index .. | .call .. | .superCall .. | .staticCall .. | .functionCall .. | .create .. => .isTrue trivial

namespace Expr

theorem eq_of_same :
    (∀ e f : Expr, e.Every NoFloat → e.same f = true → e = f) ∧
      (∀ es fs : List (String × Expr), EveryEntry NoFloat es → sameEntries es fs = true → es = fs) ∧
      ∀ es fs : List Expr, EveryItem NoFloat es → sameList es fs = true → es = fs := by
  -- Along the recursion of the comparison: in each case the parts are equal, and no part is a float.
  apply same.mutual_induct (fun e f => e.Every NoFloat → e.same f = true → e = f)
    (fun es fs => EveryEntry NoFloat es → sameEntries es fs = true → es = fs)
    (fun es fs => EveryItem NoFloat es → sameList es fs = true → es = fs)
  all_goals grind [same, sameList, sameEntries, Every, EveryItem, EveryEntry, NoFloat]

theorem eq_of_beq {e f : Expr} (plain : e.Every NoFloat) (h : (e == f) = true) : e = f :=
  eq_of_same.1 e f plain h

end Expr

theorem Target.eq_of_beq {s t : Target} (plain : s.toExpr.Every Expr.NoFloat) (h : (s == t) = true) : s = t := by
  change s.same t = true at h
  cases s <;> cases t <;> grind [same, toExpr, Expr.Every, → Expr.eq_of_beq]

theorem option_eq_of_beq [BEq α] {x y : Option α} (sound : ∀ a ∈ x, ∀ b, (a == b) = true → a = b)
    (h : (x == y) = true) : x = y := by
  cases x with
  | none => cases y with
    | none => rfl
    | some b => cases h
  | some a => cases y with
    | none => cases h
    | some b => rw [sound a rfl b h]

theorem list_eq_of_beq [BEq α] : ∀ {xs ys : List α}, (∀ a ∈ xs, ∀ b, (a == b) = true → a = b) →
    (xs == ys) = true → xs = ys
  | [], [], _, _ => rfl
  | a :: as, b :: bs, sound, h => by
    rw [List.cons_beq_cons, Bool.and_eq_true] at h
    obtain ⟨here, more⟩ := List.forall_mem_cons.mp sound
    rw [here b h.1, list_eq_of_beq more h.2]

section Equal

variable {q : Statement → Prop}

theorem Statement.eq_of_same :
    (∀ s t : Statement, s.Every q Expr.NoFloat → s.same t = true → s = t) ∧
      ∀ b c : Block, EveryIn q Expr.NoFloat b → sameBlock b c = true → b = c := by
  apply same.mutual_induct (fun s t => s.Every q Expr.NoFloat → s.same t = true → s = t)
    (fun b c => EveryIn q Expr.NoFloat b → sameBlock b c = true → b = c)
  case case4 =>
    intro a b plain h
    rw [option_eq_of_beq (fun e he f => Expr.eq_of_beq (by cases he; exact plain)) h]
  all_goals grind [same, sameBlock, Every, EveryIn, → Expr.eq_of_beq, → Target.eq_of_beq]

theorem Statement.block_eq_of_beq : ∀ {b c : Block}, EveryIn q Expr.NoFloat b → (b == c) = true → b = c
  | [], [], _, _ => rfl
  | s :: _, t :: _, plain, h => by
    rw [List.cons_beq_cons, Bool.and_eq_true] at h
    rw [eq_of_same.1 s t plain.1 h.1, block_eq_of_beq plain.2 h.2]

theorem Parameter.eq_of_beq {x y : Parameter} (plain : x.Every Expr.NoFloat) (h : (x == y) = true) : x = y := by
  change (x.name == y.name && (x.type == y.type && x.default == y.default)) = true at h
  simp only [Bool.and_eq_true, beq_iff_eq] at h
  have default := option_eq_of_beq (fun e he _ => Expr.eq_of_beq (plain e he)) h.2.2
  cases x
  cases y
  simp_all

theorem Property.eq_of_beq {x y : Property} (plain : (Member.property x).Every q Expr.NoFloat) (h : (x == y) = true) :
    x = y := by
  change (x.modifiers == y.modifiers && (x.name == y.name && (x.type == y.type && x.default == y.default))) = true at h
  simp only [Bool.and_eq_true, beq_iff_eq] at h
  have default := option_eq_of_beq (fun e he _ => Expr.eq_of_beq (plain e he)) h.2.2.2
  cases x
  cases y
  simp_all

theorem Method.eq_of_beq {m n : Method} (plain : (Member.method m).Every q Expr.NoFloat) (h : (m == n) = true) :
    m = n := by
  change (m.modifiers == n.modifiers && (m.name == n.name && (m.parameters == n.parameters &&
    (m.returnType == n.returnType && m.body == n.body)))) = true at h
  simp only [Bool.and_eq_true, beq_iff_eq] at h
  have parameters := list_eq_of_beq (fun x hx _ => Parameter.eq_of_beq (plain.1 x hx)) h.2.2.1
  have body := Statement.block_eq_of_beq plain.2 h.2.2.2.2
  cases m
  cases n
  simp_all

theorem Member.eq_of_beq {x y : Member} (plain : x.Every q Expr.NoFloat) (h : (x == y) = true) : x = y := by
  cases x with
  | property x => cases y with
    | property y => rw [Property.eq_of_beq plain h]
    | method => cases h
  | method m => cases y with
    | property => cases h
    | method n => rw [Method.eq_of_beq plain h]

theorem ClassDecl.eq_of_beq {c d : ClassDecl} (plain : (Declaration.class c).Every q Expr.NoFloat)
    (h : (c == d) = true) : c = d := by
  change (c.name == d.name && (c.isFinal == d.isFinal && (c.parent == d.parent && c.members == d.members))) = true at h
  simp only [Bool.and_eq_true, beq_iff_eq] at h
  have members : c.members = d.members := list_eq_of_beq (fun x hx _ => Member.eq_of_beq (plain x hx)) h.2.2.2
  cases c
  cases d
  simp_all

theorem TraitDecl.eq_of_beq {t u : TraitDecl} (plain : (Declaration.trait t).Every q Expr.NoFloat)
    (h : (t == u) = true) : t = u := by
  change (t.name == u.name && t.members == u.members) = true at h
  simp only [Bool.and_eq_true, beq_iff_eq] at h
  have members : t.members = u.members := list_eq_of_beq (fun x hx _ => Member.eq_of_beq (plain x hx)) h.2
  cases t
  cases u
  simp_all

theorem Declaration.eq_of_beq {d e : Declaration} (plain : d.Every q Expr.NoFloat) (h : (d == e) = true) : d = e := by
  cases d with
  | «class» c => cases e with
    | «class» c' => rw [ClassDecl.eq_of_beq plain h]
    | trait => cases h
  | trait t => cases e with
    | «class» => cases h
    | trait t' => rw [TraitDecl.eq_of_beq plain h]

/-- Without floats, units are the same only if they are equal. -/
theorem SourceUnit.eq_of_beq {u v : SourceUnit} (plain : u.Every q Expr.NoFloat) (h : (u == v) = true) : u = v := by
  change (u.package == v.package && (u.imports == v.imports && u.declarations == v.declarations)) = true at h
  simp only [Bool.and_eq_true, beq_iff_eq] at h
  have declarations := list_eq_of_beq (fun d hd _ => Declaration.eq_of_beq (plain d hd)) h.2.2
  cases u
  cases v
  simp_all

end Equal

/-- The unit without floats that a computation gives, found by comparing. -/
theorem SourceUnit.eq_ok_of_beq {x : Except ε SourceUnit} {u : SourceUnit}
    (h : u.Every (fun _ => True) Expr.NoFloat ∧ (some u == x.toOption) = true) : x = .ok u := by
  cases x with
  | error => cases h.2
  | ok v => rw [eq_of_beq h.1 h.2]

end AspectProxy
