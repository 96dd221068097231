import AspectProxy.Machine.Evaluation

/-!
What a host asks of a machine: to make objects, and to call public methods of objects and classes.
-/

namespace AspectProxy.Machine

/-- Runs code that is under no call. -/
def runCode (code : Eval α) (m : Machine) : Except Stop α × Machine :=
  match code { machine := m } with
  | (r, s) => (r, s.machine)

/-- Makes an object of a class. -/
def instantiate (steps : Nat) (name : ClassName) (args : List Value) : Machine → Except Stop Value × Machine :=
  runCode do
    let c ← Eval.loadClass name
    constructWithin steps c args 0

/-- Calls a public method of an object. -/
def callMethod (steps : Nat) (target : Value) (method : String) (args : List Value) :
    Machine → Except Stop Value × Machine :=
  runCode do
    let o ← Eval.ofExcept (receiver target)
    let (owner, m) ← Eval.ofExcept (findMethod o.type method)
    if m.modifiers.visibility ≠ .everyone then
      Eval.fail (.misuse (.methodNotPublic method owner.name.text))
    if m.modifiers.isStatic then Eval.fail (.misuse (.methodIsStatic method))
    invokeWithin steps owner m (some o) args 0

/-- Calls a public static method of a class. -/
def callStatic (steps : Nat) (name : ClassName) (method : String) (args : List Value) :
    Machine → Except Stop Value × Machine :=
  runCode do
    let c ← Eval.loadClass name
    let (owner, m) ← Eval.ofExcept (findMethod c method)
    if m.modifiers.visibility ≠ .everyone ∨ ¬ m.modifiers.isStatic then
      Eval.fail (.misuse (.notPublicStatic method owner.name.text))
    invokeWithin steps owner m none args 0

/-- Loads a class. -/
def loadClass (name : ClassName) : Machine → Except Stop LoadedClass × Machine :=
  runCode (Eval.loadClass name)

/-- More steps than any program takes that a host waits for. -/
def plentySteps : Nat := 1000000000000000

end AspectProxy.Machine
