import AspectProxy.Machine.Error
import AspectProxy.Text.Quoted

/-!
Why there is no proxy of a class, with the stage that was not reached.
-/

namespace AspectProxy

/-- Why an aspect gives no hooks. -/
inductive HookProblem where
  | noUnit (e : UnitError)
  | notDeclared (short : String)
  | noMethods
  | methodTwice (method : String)
  | missing (hook : String)
  deriving DecidableEq

def HookProblem.message : HookProblem → String
  | noUnit (.notFound _ reason) => reason
  | noUnit e => e.message
  | notDeclared short => "no declaration named '" ++ short ++ "'"
  | noMethods => "declares no methods"
  | methodTwice m => "method '" ++ m ++ "' is declared more than once"
  | missing hook => "required hook '" ++ hook ++ "' is missing"

/-- A method in the words of a message, with the ancestor it comes from. -/
def describeMethod (method : String) : Option String → String
  | none => "method '" ++ method ++ "'"
  | some owner => "method '" ++ method ++ "' inherited from " ++ owner

/-- Why a class cannot have a proxy. -/
inductive WeavingProblem where
  | finalClass
  /-- The unit is of another package than the class that was asked for. -/
  | otherPackage (declared : String)
  | invalidParent (e : InvalidClassName)
  | inheritanceCycle (className : String)
  | parentNotClass (className : String)
  /-- A hook would replace a final method. -/
  | finalMethod (method : String) (owner : Option String)
  /-- A hook would replace a method. -/
  | collision (method : String) (owner : Option String)
  deriving DecidableEq

def WeavingProblem.message : WeavingProblem → String
  | finalClass => "class is declared final"
  | otherPackage p => "source declares package '" ++ p ++ "'"
  | invalidParent e => e.message
  | inheritanceCycle c => "inheritance cycle through " ++ c
  | parentNotClass c => "superclass " ++ c ++ " is not a class"
  | finalMethod m owner => "final " ++ describeMethod m owner ++ " cannot be replaced by a hook"
  | collision m owner => describeMethod m owner ++ " collides with the enhancement hook of the same name"

/-- What makes a unit no proxy of a class. -/
inductive Defect where
  | notOneClass
  | otherName (name : String)
  | otherParent (parent : Option String)
  | noWrapper (method : String)
  | noHook (hook : String)
  deriving DecidableEq

/-- A text that may be there, as a message shows it. -/
def quotedOption : Option String → String
  | none => "None"
  | some s => "Some(" ++ visiblyQuoted s ++ ")"

def Defect.message : Defect → String
  | notOneClass => "expected exactly one class declaration"
  | otherName n => "proxy class is named '" ++ n ++ "'"
  | otherParent p => "superclass is " ++ quotedOption p
  | noWrapper m => "missing wrapper for '" ++ m ++ "'"
  | noHook h => "missing enhancement hook '" ++ h ++ "'"

/-- The stages of making a proxy that can be missed. -/
inductive Stage where
  | parsed | woven | activated
  deriving DecidableEq, Repr

def Stage.text : Stage → String
  | parsed => "parsed"
  | woven => "rewritten"
  | activated => "activated"

inductive ProxyError where
  | noUnit (e : UnitError)
  | noHooks (aspect : String) (problem : HookProblem)
  | notClass (className : String)
  | weaving (className : String) (problem : WeavingProblem)
  | defective (className : String) (defect : Defect)
  | activation (proxy : String) (e : DefinitionError)
  deriving DecidableEq

namespace ProxyError

def message : ProxyError → String
  | noUnit e => e.message
  | noHooks aspect problem => "Enhancement trait '" ++ aspect ++ "' is unusable: " ++ problem.message
  | notClass c => "'" ++ c ++ "' does not declare a class"
  | weaving c problem => "Cannot rewrite class '" ++ c ++ "': " ++ problem.message
  | defective c d => "Generated proxy for '" ++ c ++ "' failed verification: " ++ d.message
  | activation proxy e => "Failed to activate proxy '" ++ proxy ++ "': " ++ e.message

/-- The stage that was not reached. -/
def stage : ProxyError → Stage
  | noUnit _ => .parsed
  | noHooks _ _ | notClass _ | weaving _ _ | defective _ _ => .woven
  | activation _ _ => .activated

end ProxyError

end AspectProxy
