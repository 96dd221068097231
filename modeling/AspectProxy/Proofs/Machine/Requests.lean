import AspectProxy.Proofs.Machine.Limits
import AspectProxy.Proofs.Weaving.AdviceRuns

/-!
What hosts ask of machines, under different bounds on calls. A request that ends within a bound, in a value or in an
error other than that calls nest too deeply, does the same under any greater bound: the same result, objects, lines,
advice and classes.
-/

namespace AspectProxy.Machine

open Eval

/-- What a host asks a machine to run. -/
inductive Request where
  | instantiate (name : ClassName) (args : List Value)
  | callMethod (target : Value) (method : String) (args : List Value)
  | callStatic (name : ClassName) (method : String) (args : List Value)

namespace Request

def run (steps : Nat) : Request → Machine → Except Stop Value × Machine
  | instantiate name args => Machine.instantiate steps name args
  | callMethod target method args => Machine.callMethod steps target method args
  | callStatic name method args => Machine.callStatic steps name method args

theorem run_keeps {R : Machine → Machine → Prop} [StepRelation R] (r : Request) (steps : Nat) (m : Machine) :
    R m (r.run steps m).2 := by
  cases r with
  | instantiate name args => exact instantiate_keeps steps name args m
  | callMethod target method args => exact callMethod_keeps steps target method args m
  | callStatic name method args => exact callStatic_keeps steps name method args m

variable {k steps steps' : Nat}

/-- With more steps and room for more calls a request does the same, unless a limit cuts it short. -/
theorem run_deepened (r : Request) (more : steps ≤ steps') (m : Machine) (ends : ¬CutShort (r.run steps m).1) :
    r.run steps' (m.deepened k) = ((r.run steps m).1, (r.run steps m).2.deepened k) := by
  have follow := Calls.within_follow (k := k) more
  cases r with
  | instantiate name args =>
    unfold run Machine.instantiate at ends ⊢
    exact Follows.runCode (.after (.loadClass name) fun c => follow.construct c args (Nat.zero_le _)) m ends
  | callMethod target method args =>
    unfold run Machine.callMethod at ends ⊢
    refine Follows.runCode (.after (.ofExcept _) fun o => .after (.ofExcept _) fun found => ?_) m ends
    have call := follow.invoke found.1 found.2 (some o) args (Nat.zero_le (0 + k))
    dsimp only
    split
    · exact .after (.fail _) fun _ => by split <;> first | exact .after (.fail _) fun _ => call | exact call
    · split
      · exact .after (.fail _) fun _ => call
      · exact call
  | callStatic name method args =>
    unfold run Machine.callStatic at ends ⊢
    refine Follows.runCode (.after (.loadClass name) fun c => .after (.ofExcept _) fun found => ?_) m ends
    have call := follow.invoke found.1 found.2 none args (Nat.zero_le (0 + k))
    dsimp only
    split
    · exact .after (.fail _) fun _ => call
    · exact call

/-- A request that ends within a bound on calls, and not for that bound, does the same under any greater bound. -/
theorem run_greater_bound (r : Request) (m : Machine) {bound bound' : Nat} (more : steps ≤ steps')
    (greater : bound ≤ bound') (ends : ¬CutShort (r.run steps { m with maxDepth := bound }).1) :
    r.run steps' { m with maxDepth := bound' } =
      ((r.run steps { m with maxDepth := bound }).1,
        { (r.run steps { m with maxDepth := bound }).2 with maxDepth := bound' }) := by
  obtain ⟨k, rfl⟩ := Nat.exists_eq_add_of_le greater
  have kept : (r.run steps { m with maxDepth := bound }).2.maxDepth = bound :=
    (r.run_keeps (R := KeepsAdvice) steps { m with maxDepth := bound }).maxDepth
  have deep : { m with maxDepth := bound + k } = Machine.deepened k { m with maxDepth := bound } := rfl
  rw [deep, r.run_deepened more _ ends, deepened, kept]

/-- `fn down(n)`, which calls itself with ever smaller numbers down to zero. -/
def stairsMethod : Method where
  name := "down"
  modifiers := { isStatic := true }
  parameters := [⟨"n", none, none⟩]
  returnType := none
  body := [
    .cond (.binary .greater (.var "n") (.int 0))
      [.return (some (.staticCall "Self" "down" [.binary .subtract (.var "n") (.int 1)]))] none,
    .return (some (.var "n"))]

def stairsClass : LoadedClass :=
  ⟨⟨⟨"Stairs", by decide⟩, false, false, ⟨none, [], []⟩, [stairsMethod], []⟩, []⟩

def stairs : Machine where
  classes := [stairsClass]

theorem run_greater_bound_stairs :
    ¬CutShort ((callStatic stairsClass.name "down" [.int 1]).run 3 { stairs with maxDepth := 2 }).1 ∧
      ((callStatic stairsClass.name "down" [.int 1]).run 3 { stairs with maxDepth := 256 }).1 = .ok (.int 0) := by
  have two : ((callStatic stairsClass.name "down" [.int 1]).run 3 { stairs with maxDepth := 2 }).1 = .ok (.int 0) := rfl
  have ends : ¬CutShort ((callStatic stairsClass.name "down" [.int 1]).run 3 { stairs with maxDepth := 2 }).1 := by
    rw [two]
    exact id
  refine ⟨ends, ?_⟩
  rw [run_greater_bound _ stairs (Nat.le_refl 3) (by decide) ends, two]

end Request

end AspectProxy.Machine
