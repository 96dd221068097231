import AspectProxy.Proofs.ClassTable.Loading
import AspectProxy.Proofs.Machine.Steps

/-!
The class table of every machine that a host can bring about. Whatever is defined, loaded or run, in whatever order
and with whatever outcome, the table stays in order, and so each class in it can be traced through the table to a
root without meeting a trait, a final class or a final method that the class declares again.
-/

namespace AspectProxy

namespace Machine

/-- A table in order stays in order and keeps its classes. -/
def KeepsOrder (before after : Machine) : Prop :=
  OrderedTable before.classes → Grown before.classes after.classes

/-- Running programs only adds classes, by loading them. -/
instance : StepRelation KeepsOrder where
  refl := fun _ ordered => ordered.grown
  trans := fun first second ordered => (first ordered).trans (second (first ordered).ordered)
  load := fun name m ordered => (loadWithin_loads _ name m ordered).result (fun _ _ h => h.1) fun _ h => h
  write := fun _ _ ordered => ordered.grown
  alloc := fun _ _ ordered => ordered.grown
  set := fun _ _ _ _ ordered => ordered.grown
  before := fun _ _ ordered => ordered.grown
  after := fun _ _ _ ordered => ordered.grown

theorem load_loads : Loads load :=
  fun name m ordered => loadWithin_loads _ name m ordered

theorem defineUnit_ends (u : SourceUnit) {m : Machine} (ordered : OrderedTable m.classes) :
    (defineUnit u).Ends m (fun _ m' => Grown m.classes m'.classes ∧ DefinedIn u m')
      fun m' => Grown m.classes m'.classes :=
  defineWith_ends load_loads u ordered

theorem defineUnit_grown (u : SourceUnit) {m : Machine} (ordered : OrderedTable m.classes) :
    Grown m.classes (defineUnit u m).2.classes :=
  (defineUnit_ends u ordered).result (fun _ _ h => h.1) fun _ h => h

theorem define_grown (source : String) {m : Machine} (ordered : OrderedTable m.classes) :
    Grown m.classes (define source m).2.classes := by
  have ends : (define source).Ends m (fun _ m' => Grown m.classes m'.classes) fun m' => Grown m.classes m'.classes := by
    unfold define
    cases SourceUnit.ofString? source with
    | error fault => exact ordered.grown
    | ok u =>
      refine .bind (defineUnit_ends u ordered) ?_
      rintro handles m' ⟨grown, -⟩
      split <;> exact grown
  exact ends.result (fun _ _ h => h) fun _ h => h

/-- The machines that come about from one without classes, by defining, loading and running; in between a host may
change where classes are loaded from, the advice and the bound on calls, and take what was written. -/
inductive Reachable : Machine → Prop
  | fresh : Reachable {}
  | arrange (units : Option UnitStore) (advice : AdviceTable) (output : Array String) (maxDepth : Nat) :
    Reachable m → Reachable { m with units, advice, output, maxDepth }
  | define (source : String) : Reachable m → Reachable (define source m).2
  | defineUnit (u : SourceUnit) : Reachable m → Reachable (defineUnit u m).2
  | loadClass (name : ClassName) : Reachable m → Reachable (loadClass name m).2
  | instantiate (steps : Nat) (name : ClassName) (args : List Value) :
    Reachable m → Reachable (instantiate steps name args m).2
  | callMethod (steps : Nat) (target : Value) (method : String) (args : List Value) :
    Reachable m → Reachable (callMethod steps target method args m).2
  | callStatic (steps : Nat) (name : ClassName) (method : String) (args : List Value) :
    Reachable m → Reachable (callStatic steps name method args m).2

theorem Reachable.ordered {m : Machine} (h : Reachable m) : OrderedTable m.classes := by
  induction h with
  | fresh => exact .empty
  | arrange units advice output maxDepth _ ih => exact ih
  | define source _ ih => exact (define_grown source ih).ordered
  | defineUnit u _ ih => exact (defineUnit_grown u ih).ordered
  | loadClass name _ ih => exact (loadClass_keeps (R := KeepsOrder) name _ ih).ordered
  | instantiate steps name args _ ih => exact (instantiate_keeps (R := KeepsOrder) steps name args _ ih).ordered
  | callMethod steps target method args _ ih => exact (callMethod_keeps (R := KeepsOrder) steps target method args _ ih).ordered
  | callStatic steps name method args _ ih => exact (callStatic_keeps (R := KeepsOrder) steps name method args _ ih).ordered

/-- The class that is reached from another after a number of steps from a class to the entry for its parent's
name. -/
def climb (m : Machine) : (steps : Nat) → LoadedClass → Option LoadedClass
  | 0, c => some c
  | steps + 1, c =>
    match c.parent? with
    | none => none
    | some p => (m.class? p.name).bind (m.climb steps)

/-- What is true of each class in a table. -/
structure Consistent (m : Machine) (c : LoadedClass) : Prop where
  /-- Exactly its name finds it. -/
  entry : ∀ name, m.class? name = some c ↔ (c.name == name) = true
  parent : ∀ p, c.parent? = some p → m.class? p.name = some p ∧ p.own.isTrait = false ∧ p.own.isFinal = false
  rooted : ∃ steps, m.climb steps c = none
  /-- However far above a final method is declared, it is not declared again. -/
  final_kept : ∀ steps a, m.climb (steps + 1) c = some a → ∀ f ∈ a.own.methods, f.modifiers.isFinal = true →
    ∀ own ∈ c.own.methods, own.name ≠ f.name

end Machine

namespace OrderedTable

variable {m : Machine} (ordered : OrderedTable m.classes)
include ordered

theorem class?_iff {c : LoadedClass} (hc : c ∈ m.classes) (name : ClassName) :
    m.class? name = some c ↔ (c.name == name) = true := by
  constructor
  · exact fun found => (Machine.mem_of_class? found).2
  · intro same
    have found : m.class? c.name = some c := find?_name_of_distinct ordered.distinct hc
    exact (Machine.class?_congr same).symm.trans found

theorem climb_succ {c p : LoadedClass} (hc : c ∈ m.classes) (up : c.parent? = some p) (steps : Nat) :
    m.climb (steps + 1) c = m.climb steps p := by
  have found : m.class? p.name = some p :=
    (ordered.class?_iff (ordered.parent_mem c hc p up) p.name).mpr (ClassName.beq_self _)
  simp only [Machine.climb, up, found, Option.bind_some]

/-- Each step up leads to a class with fewer ancestors. -/
theorem climb_eq_none {c : LoadedClass} (hc : c ∈ m.classes) : m.climb (c.ancestors.length + 1) c = none := by
  obtain ⟨own, ancestors⟩ := c
  induction ancestors generalizing own with
  | nil => rfl
  | cons b rest ih =>
    rw [ordered.climb_succ hc rfl]
    exact ih b (ordered.parent_mem _ hc _ rfl)

theorem climb_mem {c a : LoadedClass} (hc : c ∈ m.classes) {steps : Nat} (h : m.climb (steps + 1) c = some a) :
    a.own ∈ c.ancestors := by
  induction steps generalizing c with
  | zero =>
    cases up : c.parent? with
    | none => simp [Machine.climb, up] at h
    | some p =>
      rw [ordered.climb_succ hc up] at h
      obtain rfl := Option.some.inj h
      rw [LoadedClass.parent?_chain up]
      exact List.mem_cons_self
  | succ steps ih =>
    cases up : c.parent? with
    | none => simp [Machine.climb, up] at h
    | some p =>
      rw [ordered.climb_succ hc up] at h
      rw [LoadedClass.parent?_chain up]
      exact List.mem_cons_of_mem _ (ih (ordered.parent_mem c hc p up) h)

theorem consistent {c : LoadedClass} (hc : c ∈ m.classes) : m.Consistent c where
  entry := ordered.class?_iff hc
  parent := by
    intro p up
    obtain ⟨-, mayExtend, -, -⟩ := ordered.lawful c hc
    rw [LoadedClass.parent?_chain up] at mayExtend
    exact ⟨(ordered.class?_iff (ordered.parent_mem c hc p up) _).mpr (ClassName.beq_self _), mayExtend p.own rfl⟩
  rooted := ⟨_, ordered.climb_eq_none hc⟩
  final_kept := by
    intro steps a reached f hf final
    obtain ⟨-, -, above, -⟩ := ordered.lawful c hc
    exact above a.own (ordered.climb_mem hc reached) f hf final

end OrderedTable

namespace Machine

/-- Every class that a host can bring about, by any program with any outcome, is consistent with the table. -/
theorem Reachable.consistent_table {m : Machine} (h : Reachable m) : ∀ c ∈ m.classes, m.Consistent c :=
  fun _ hc => h.ordered.consistent hc

/-- A method without parameters and without code. -/
def bareMethod (name : String) (isFinal : Bool) : Member :=
  .method ⟨{ isFinal }, name, [], none, []⟩

/-- A machine where a unit was defined whose classes end below a class of another unit. -/
def lineageOfTwoUnits : Machine :=
  let root : SourceUnit := { declarations := [.class ⟨"Root", false, none, [bareMethod "seal" true]⟩] }
  let below : SourceUnit := { declarations := [
    .class ⟨"Leaf", false, some "Middle", [bareMethod "run" false]⟩,
    .class ⟨"Middle", false, some "Root", [bareMethod "run" false]⟩] }
  let units : UnitStore := { places := [], units := [(⟨"Root", by decide⟩, root)] }
  (defineUnit below { units := some units }).2

theorem lineageOfTwoUnits_consistent :
    ∃ c ∈ lineageOfTwoUnits.classes, c.name.text = "Leaf" ∧ c.ancestors.length = 2 ∧ lineageOfTwoUnits.Consistent c := by
  have reachable : Reachable lineageOfTwoUnits := .defineUnit _ (.arrange _ {} #[] 256 .fresh)
  have there : ∃ c ∈ lineageOfTwoUnits.classes, c.name.text = "Leaf" ∧ c.ancestors.length = 2 :=
    by decide
  obtain ⟨c, hc, named, above⟩ := there
  exact ⟨c, hc, named, above, reachable.consistent_table c hc⟩

end Machine

end AspectProxy
