import AspectProxy.Proofs.Printing.WellFormed
import AspectProxy.Proxy.Retarget

/-!
Conditions on the parts of a method whose references are renamed. What each part meets after it is renamed by itself,
all parts of the renamed method meet.
-/

namespace AspectProxy

variable {rename : Reference → Option String} {q q' : Statement → Prop} {p p' : Expr → Prop}

theorem Parameter.mapList_eq_map (ps : List Parameter) :
    Parameter.mapList (M := Id) rename ps = ps.map fun x => x.mapReferences (M := Id) rename := by
  induction ps with
  | nil => rfl
  | cons x ps ih =>
    rw [List.map_cons, ← ih]
    rfl

theorem Method.parameters_renamed (m : Method) :
    (m.renameReferences rename).parameters = m.parameters.map fun x => x.mapReferences (M := Id) rename :=
  Parameter.mapList_eq_map m.parameters

mutual

theorem Expr.Every.renamed (hp : ∀ e : Expr, p e → p' (e.mapReferences (M := Id) rename)) :
    ∀ {e : Expr}, e.Every p → (e.mapReferences (M := Id) rename).Every p'
  | .int _, h | .float _, h | .str _, h | .bool _, h | .null, h | .var _, h | .self, h => hp _ h
  | .list _, h => ⟨hp _ h.1, Expr.EveryItem.renamed hp h.2⟩
  | .map _, h => ⟨hp _ h.1, Expr.EveryEntry.renamed hp h.2⟩
  | .binary .., h => ⟨hp _ h.1, Expr.Every.renamed hp h.2.1, Expr.Every.renamed hp h.2.2⟩
  | .unary .., h => ⟨hp _ h.1, Expr.Every.renamed hp h.2⟩
  | .property .., h => ⟨hp _ h.1, Expr.Every.renamed hp h.2⟩
  | .index .., h => ⟨hp _ h.1, Expr.Every.renamed hp h.2.1, Expr.Every.renamed hp h.2.2⟩
  | .call .., h => ⟨hp _ h.1, Expr.Every.renamed hp h.2.1, Expr.EveryItem.renamed hp h.2.2⟩
  | .superCall .., h => ⟨hp _ h.1, Expr.EveryItem.renamed hp h.2⟩
  | .staticCall .., h => ⟨hp _ h.1, Expr.EveryItem.renamed hp h.2⟩
  | .functionCall .., h => ⟨hp _ h.1, Expr.EveryItem.renamed hp h.2⟩
  | .create .., h => ⟨hp _ h.1, Expr.EveryItem.renamed hp h.2⟩

theorem Expr.EveryItem.renamed (hp : ∀ e : Expr, p e → p' (e.mapReferences (M := Id) rename)) :
    ∀ {es : List Expr}, Expr.EveryItem p es →
    Expr.EveryItem p' (Expr.mapList (M := Id) rename es)
  | [], _ => trivial
  | _ :: _, h => ⟨Expr.Every.renamed hp h.1, Expr.EveryItem.renamed hp h.2⟩

theorem Expr.EveryEntry.renamed (hp : ∀ e : Expr, p e → p' (e.mapReferences (M := Id) rename)) :
    ∀ {es : List (String × Expr)}, Expr.EveryEntry p es →
    Expr.EveryEntry p' (Expr.mapEntries (M := Id) rename es)
  | [], _ => trivial
  | (_, _) :: _, h => ⟨Expr.Every.renamed hp h.1, Expr.EveryEntry.renamed hp h.2⟩

end

section Expressions

variable (hp : ∀ e : Expr, p e → p' (e.mapReferences (M := Id) rename))
include hp

theorem Parameter.every_renamed {x : Parameter} (h : x.Every p) :
    Parameter.Every p' (x.mapReferences (M := Id) rename) := by
  obtain ⟨name, type, default⟩ := x
  cases default with
  | none => exact nofun
  | some e =>
    rintro _ ⟨⟩
    exact (h e rfl).renamed hp

theorem Target.every_renamed {target : Target} (h : target.toExpr.Every p) :
    (target.mapReferences (M := Id) rename).toExpr.Every p' := by
  cases target with
  | var name => exact Expr.Every.renamed hp (e := .var name) h
  | property object name => exact Expr.Every.renamed hp (e := .property object name) h
  | index object key => exact Expr.Every.renamed hp (e := .index object key) h

end Expressions

mutual

theorem Statement.Every.renamed (hp : ∀ e : Expr, p e → p' (e.mapReferences (M := Id) rename))
    (hq : ∀ s : Statement, q s → q' (s.mapReferences (M := Id) rename)) :
    ∀ {s : Statement}, s.Every q p → (s.mapReferences (M := Id) rename).Every q' p'
  | .declare .., h => ⟨hq _ h.1, h.2.renamed hp⟩
  | .assign .., h => ⟨Target.every_renamed hp h.1, h.2.renamed hp⟩
  | .expr _, h => Expr.Every.renamed hp h
  | .return none, _ => trivial
  | .return (some _), h => Expr.Every.renamed hp h
  | .cond _ _ none, h => ⟨h.1.renamed hp, Statement.EveryIn.renamed hp hq h.2⟩
  | .cond _ _ (some _), h => ⟨h.1.renamed hp, Statement.EveryIn.renamed hp hq h.2.1, Statement.EveryIn.renamed hp hq h.2.2⟩
  | .while .., h => ⟨h.1.renamed hp, Statement.EveryIn.renamed hp hq h.2⟩
  | .for .., h => ⟨hq _ h.1, h.2.1.renamed hp, Statement.EveryIn.renamed hp hq h.2.2⟩
  | .break, _ => trivial
  | .continue, _ => trivial

theorem Statement.EveryIn.renamed (hp : ∀ e : Expr, p e → p' (e.mapReferences (M := Id) rename))
    (hq : ∀ s : Statement, q s → q' (s.mapReferences (M := Id) rename)) :
    ∀ {block : Block}, Statement.EveryIn q p block →
    Statement.EveryIn q' p' (Statement.mapList (M := Id) rename block)
  | [], _ => trivial
  | _ :: _, h => ⟨Statement.Every.renamed hp hq h.1, Statement.EveryIn.renamed hp hq h.2⟩

end

theorem Method.every_renamed (hp : ∀ e : Expr, p e → p' (e.mapReferences (M := Id) rename))
    (hq : ∀ s : Statement, q s → q' (s.mapReferences (M := Id) rename)) {m : Method} (h : (Member.method m).Every q p) :
    (Member.method (m.renameReferences rename)).Every q' p' := by
  refine ⟨fun x hx => ?_, h.2.renamed hp hq⟩
  rw [Method.parameters_renamed] at hx
  obtain ⟨y, hy, rfl⟩ := List.mem_map.mp hx
  exact Parameter.every_renamed hp (h.1 y hy)

/-- A renaming under which names of classes stay names of classes. -/
def KeepsNames (rename : Reference → Option String) : Prop :=
  ∀ r : Reference, IsDotted r.name → IsDotted ((rename r).getD r.name)

section Sound

variable (kept : KeepsNames rename)
include kept

theorem TypeRef.wellFormed_renamed {type : Option TypeRef} (h : ∀ t ∈ type, t.WellFormed) :
    ∀ t ∈ (show Option TypeRef from TypeRef.mapReferences (M := Id) rename type), t.WellFormed := by
  cases type with
  | none => exact nofun
  | some t =>
    rintro _ ⟨⟩
    exact kept ⟨.typeUse, t.name⟩ (h t rfl)

theorem Expr.sound_renamed (e : Expr) (h : e.Sound) : Expr.Sound (e.mapReferences (M := Id) rename) := by
  cases e with
  | staticCall className method args => exact ⟨kept ⟨.staticCall, className⟩ h.1, h.2⟩
  | create className args => exact kept ⟨.create, className⟩ h
  | _ => exact h

theorem Statement.sound_renamed (s : Statement) (h : s.Sound) :
    Statement.Sound (s.mapReferences (M := Id) rename) := by
  cases s with
  | declare name type value => exact ⟨h.1, TypeRef.wellFormed_renamed kept h.2⟩
  | «return» e => trivial
  | cond condition thenBranch elseBranch => cases elseBranch <;> trivial
  | _ => exact h

theorem Method.sound_renamed {m : Method} (h : m.Sound) : (m.renameReferences rename).Sound where
  name := h.name
  parameters := by
    intro x hx
    rw [Method.parameters_renamed] at hx
    obtain ⟨y, hy, rfl⟩ := List.mem_map.mp hx
    exact ⟨(h.parameters y hy).name, TypeRef.wellFormed_renamed kept (h.parameters y hy).type⟩
  distinct := by
    rw [Method.parameters_renamed, List.map_map]
    exact h.distinct
  returnType := TypeRef.wellFormed_renamed kept h.returnType

end Sound

end AspectProxy
