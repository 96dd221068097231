import AspectProxy.Proofs.ClassTable.OneClass

/-!
Defining a class under another name. To what is defined for it the name of a class matters only by the class itself and by
the errors that are told of it: under two names the same classes are loaded, and the definition succeeds with classes that
differ by the name or fails with errors that do.
-/

namespace AspectProxy

/-- The problem, told of another class. -/
def UnitProblem.toldOf (c : String) : UnitProblem → UnitProblem
  | inheritanceCycle _ => inheritanceCycle c
  | extendsTrait _ parent => extendsTrait c parent
  | extendsItself _ => extendsItself c
  | methodTwice method _ => methodTwice method c
  | propertyTwice property _ => propertyTwice property c
  | problem => problem

/-- The error, told of another class. -/
def DefinitionError.toldOf (c : String) : DefinitionError → DefinitionError
  | duplicate _ => duplicate c
  | invalidSource problem => invalidSource (problem.toldOf c)
  | unresolvedParent _ parent => unresolvedParent c parent
  | finalParent _ parent => finalParent c parent
  | finalOverride _ method => finalOverride c method
  | notInstantiable _ => notInstantiable c

/-- Errors that are equal but for the class that they are told of: the same error, or one told of the first class and one
of the second. -/
def DefinitionError.Alike (first second : String) (x y : DefinitionError) : Prop :=
  x = y ∨ x.toldOf first = x ∧ y = x.toldOf second

/-- The class under another name. -/
def LoadedClass.named (c : LoadedClass) (name : ClassName) : LoadedClass :=
  { c with own := { c.own with name } }

namespace Machine

variable {u v : SourceUnit} {d e : ClassDecl} {reference : String}

section Told

variable (name other : ClassName)

theorem parentName_renamed (u : SourceUnit) (reference : String) :
    parentName u other reference = (parentName u name reference).mapError (·.toldOf other.text) := by
  unfold parentName
  dsimp only
  split
  · rfl
  · split <;> rfl

theorem checkParent_renamed (p : LoadedClass) :
    checkParent other p = (checkParent name p).mapError (·.toldOf other.text) := by
  unfold checkParent
  split
  · rfl
  · split <;> rfl

theorem collectMembers_renamed (parent : Option LoadedClass) (members : List Member) (methods : List Method)
    (properties : List Property) : collectMembers other parent members methods properties =
      (collectMembers name parent members methods properties).mapError (·.toldOf other.text) := by
  induction members generalizing methods properties with
  | nil => rfl
  | cons x rest ih =>
    cases x with
    | method m =>
      rw [collectMembers, collectMembers]
      split
      · rfl
      · split
        · rfl
        · exact ih _ _
    | property p =>
      rw [collectMembers, collectMembers]
      split
      · rfl
      · exact ih _ _

/-- Of the same members under the same parent the same class is built, but for its name. -/
theorem bodyOf_renamed (scope : v.scope = u.scope) (members : e.members = d.members) (isFinal : e.isFinal = d.isFinal)
    (parent : Option LoadedClass) : bodyOf v other (.class e) parent =
      ((bodyOf u name (.class d) parent).mapError (·.toldOf other.text)).map (·.named other) := by
  unfold bodyOf
  simp only [Declaration.members, members, collectMembers_renamed name other, scope, isFinal]
  cases collectMembers name parent d.members [] [] with
  | error x => rfl
  | ok found => cases parent <;> rfl

end Told

/-- Outcomes under two names: related results, or errors that differ by the name only. -/
inductive Outcomes (name other : ClassName) (R : α → β → Prop) : Except DefinitionError α → Except DefinitionError β → Prop
  | ok {a : α} {b : β} : R a b → Outcomes name other R (.ok a) (.ok b)
  | error {x y : DefinitionError} : x.Alike name.text other.text y → Outcomes name other R (.error x) (.error y)

/-- Steps under two names: their outcomes are alike, and they change a machine in the same way. -/
def Parallel (name other : ClassName) (R : α → β → Prop) (x : Change DefinitionError α) (y : Change DefinitionError β) :
    Prop :=
  ∀ m, Outcomes name other R (x m).1 (y m).1 ∧ (y m).2 = (x m).2

variable {name other : ClassName}

theorem Outcomes.told {r : Except DefinitionError α} (here : r = r.mapError (·.toldOf name.text)) :
    Outcomes name other (fun a b => b = a) r (r.mapError (·.toldOf other.text)) := by
  cases r with
  | ok a => exact .ok rfl
  | error x => exact .error (.inr ⟨(Except.error.inj here).symm, rfl⟩)

namespace Parallel

variable {R : α → β → Prop} {S : γ → δ → Prop}

theorem bind {x : Change DefinitionError α} {y : Change DefinitionError β} {f : α → Change DefinitionError γ}
    {g : β → Change DefinitionError δ} (first : Parallel name other R x y)
    (next : ∀ a b, R a b → Parallel name other S (f a) (g b)) : Parallel name other S (x >>= f) (y >>= g) := by
  intro m
  obtain ⟨outcomes, same⟩ := first m
  rcases left : x m with ⟨p, m₁⟩
  rcases right : y m with ⟨q, m₂⟩
  rw [left, right] at outcomes same
  obtain rfl : m₂ = m₁ := same
  cases outcomes with
  | ok related =>
    rw [run_bind left, run_bind right]
    exact next _ _ related m₂
  | error alike =>
    rw [run_bind_error left, run_bind_error right]
    exact ⟨.error alike, rfl⟩

theorem lift {r : Except DefinitionError α} {s : Except DefinitionError β} (h : Outcomes name other R r s) :
    Parallel name other R (defineWith.liftExcept r) (defineWith.liftExcept s) :=
  fun _ => ⟨h, rfl⟩

/-- A parent from another unit is loaded in the same way for every class. -/
theorem outsideParent (load : ClassName → Change LoadError LoadedClass) (resolved : ClassName) :
    Parallel name other (fun p q => q = p) (Machine.outsideParent load name resolved)
      (Machine.outsideParent load other resolved) := by
  intro m
  unfold Machine.outsideParent mapError
  rcases load resolved m with ⟨e | p, m'⟩
  · cases e with
    | missing reason => exact ⟨.error (.inr ⟨rfl, rfl⟩), rfl⟩
    | invalid x => exact ⟨.error (.inl rfl), rfl⟩
  · exact ⟨.ok rfl, rfl⟩

end Parallel

/-- A class is built under its parent in the same way whatever its name is. -/
theorem classUnder_parallel (load : ClassName → Change LoadError LoadedClass) (package : v.package = u.package)
    (imports : v.imports = u.imports) (members : e.members = d.members) (isFinal : e.isFinal = d.isFinal) :
    Parallel name other (fun c c' => c' = c.named other) (classUnder load u d name reference)
      (classUnder load v e other reference) := by
  have scope : v.scope = u.scope := by rw [SourceUnit.scope, SourceUnit.scope, package, imports]
  have means : parentName v other reference = (parentName u name reference).mapError (·.toldOf other.text) := by
    rw [← parentName_renamed name other u, parentName, parentName, SourceUnit.resolve, SourceUnit.resolve, package, imports]
  unfold classUnder
  rw [means]
  apply Parallel.bind (.lift (.told (parentName_renamed name name u reference)))
  rintro _ resolved rfl
  apply Parallel.bind (.outsideParent load resolved)
  rintro _ p rfl
  rw [checkParent_renamed name other]
  apply Parallel.bind (.lift (.told (checkParent_renamed name name p)))
  rintro _ _ -
  apply Parallel.lift
  rw [bodyOf_renamed name other scope members isFinal]
  have told : bodyOf u name (.class d) (some p) = _ := bodyOf_renamed name name rfl rfl rfl (some p)
  cases made : bodyOf u name (.class d) (some p) with
  | ok c => exact .ok rfl
  | error x =>
    rw [made] at told
    exact .error (.inr ⟨(Except.error.inj told).symm, rfl⟩)

end Machine

end AspectProxy
