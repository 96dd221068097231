import AspectProxy.ClassName
import AspectProxy.Sources.Error

/-!
What can go wrong when classes are defined and programs run, and what is said about it.
-/

namespace AspectProxy

/-- What is wrong with a unit that is to be defined. -/
inductive UnitProblem where
  | declaresNothing
  | invalidName (e : InvalidClassName)
  | malformed (fault : SourceFault)
  | inheritanceCycle (className : String)
  | extendsTrait (className parent : String)
  | extendsItself (className : String)
  | methodTwice (method className : String)
  | propertyTwice (property className : String)
  | definesOther (className : String)
  deriving DecidableEq

def UnitProblem.message : UnitProblem → String
  | declaresNothing => "unit declares nothing"
  | invalidName e => e.message
  | malformed fault => fault.text
  | inheritanceCycle c => "inheritance cycle through '" ++ c ++ "'"
  | extendsTrait c p => "class '" ++ c ++ "' cannot extend trait '" ++ p ++ "'"
  | extendsItself c => "class '" ++ c ++ "' cannot extend itself"
  | methodTwice m c => "method '" ++ m ++ "' declared twice in '" ++ c ++ "'"
  | propertyTwice p c => "property '" ++ p ++ "' declared twice in '" ++ c ++ "'"
  | definesOther c => "source defined '" ++ c ++ "'"

/-- Why classes cannot be defined, or an object not be made. -/
inductive DefinitionError where
  | duplicate (className : String)
  | invalidSource (problem : UnitProblem)
  | unresolvedParent (className parent : String)
  | finalParent (className parent : String)
  | finalOverride (className method : String)
  | notInstantiable (className : String)
  deriving DecidableEq

def DefinitionError.message : DefinitionError → String
  | duplicate c => "Class '" ++ c ++ "' is already defined"
  | invalidSource problem => "Invalid source: " ++ problem.message
  | unresolvedParent c p => "Class '" ++ c ++ "' extends unknown class '" ++ p ++ "'"
  | finalParent c p => "Class '" ++ c ++ "' cannot extend final class '" ++ p ++ "'"
  | finalOverride c m => "Method '" ++ m ++ "' of class '" ++ c ++ "' overrides a final method"
  | notInstantiable c => "'" ++ c ++ "' cannot be instantiated"

/-- Why a class is not there. -/
inductive Absence where
  | notDefined (className : String)
  | noUnit (e : UnitError)
  | notDeclared (className : String)
  deriving DecidableEq

def Absence.message : Absence → String
  | notDefined c => "'" ++ c ++ "' is not defined"
  | noUnit e => e.message
  | notDeclared c => "unit for '" ++ c ++ "' does not declare it"

/-- Why a class cannot be loaded. -/
inductive LoadError where
  | missing (reason : Absence)
  | invalid (e : DefinitionError)
  deriving DecidableEq

/-- An operation that its operands or its place do not allow. -/
inductive Misuse where
  | selfOutsideMethod
  | noParent (className : String)
  | methodNotPublic (method className : String)
  | methodIsStatic (method : String)
  | notPublicStatic (method className : String)
  | notStatic (className method : String)
  | temporaryTarget
  | unknownAdviceKind (kind : String)
  | missingContextField (key : String)
  deriving DecidableEq

def Misuse.message : Misuse → String
  | selfOutsideMethod => "'self' used outside an instance method"
  | noParent c => "'" ++ c ++ "' has no parent class"
  | methodNotPublic m c => "method '" ++ m ++ "' of '" ++ c ++ "' is not public"
  | methodIsStatic m => "'" ++ m ++ "' is static; call it on the class"
  | notPublicStatic m c => "'" ++ m ++ "' of '" ++ c ++ "' is not a public static method"
  | notStatic c m => "'" ++ c ++ "::" ++ m ++ "' is not static"
  | temporaryTarget => "cannot assign into a temporary value"
  | unknownAdviceKind k => "unknown advice kind '" ++ k ++ "'"
  | missingContextField k => "advice context is missing string field '" ++ k ++ "'"

/-- Why a program fails. -/
inductive EvalError where
  | operand (operation expected actual : String)
  | operands (operation left right : String)
  /-- A class that could not be loaded, with the reason if loading was tried. -/
  | classNotFound (className : String) (reason : Option Absence)
  | propertyNotFound (property className : String)
  | methodNotFound (method className : String)
  | variableNotFound (name : String)
  | functionNotFound (name : String)
  | arity (callable : String) (least most actual : Nat)
  | indexOutOfBounds (index : Int64) (length : Nat)
  | divisionByZero
  | overflow (operation : String)
  | callDepth (limit : Nat)
  | misuse (m : Misuse)
  | advice (message : String)
  | definition (e : DefinitionError)
  | strayBreak
  | strayContinue
  deriving DecidableEq

/-- How many arguments are expected. -/
def arityText (least most : Nat) : String :=
  if least = most then toString most else toString least ++ " to " ++ toString most

def EvalError.message : EvalError → String
  | operand operation expected actual =>
    "Type error: " ++ operation ++ " requires " ++ expected ++ ", got " ++ actual
  | operands operation left right =>
    "Type error: cannot " ++ operation ++ " " ++ left ++ " and " ++ right
  | classNotFound c none => "Class '" ++ c ++ "' not found"
  | classNotFound c (some reason) => reason.message ++ ": Class '" ++ c ++ "' not found"
  | propertyNotFound p c => "Property '" ++ p ++ "' not found on " ++ c
  | methodNotFound m c => "Method '" ++ m ++ "' not found on " ++ c
  | variableNotFound n => "Variable '" ++ n ++ "' not found"
  | functionNotFound n => "Function '" ++ n ++ "' not found"
  | arity callable least most actual =>
    callable ++ " expects " ++ arityText least most ++ " argument(s), got " ++ toString actual
  | indexOutOfBounds i n =>
    "Index " ++ toString i.toInt ++ " out of bounds for length " ++ toString n
  | divisionByZero => "Division by zero"
  | overflow operation => "Integer overflow in " ++ operation
  | callDepth limit => "Maximum call depth " ++ toString limit ++ " exceeded"
  | misuse m => "Invalid operation: " ++ m.message
  | advice message => "Advice failed: " ++ message
  | definition e => e.message
  | strayBreak => "Unexpected break outside of loop"
  | strayContinue => "Unexpected continue outside of loop"

/-- Loading fails a program by the absence of the class it asked for, or by the reason why it cannot
be defined. -/
def LoadError.toEvalError (c : ClassName) : LoadError → EvalError
  | missing reason => .classNotFound c.text (some reason)
  | invalid e => .definition e

end AspectProxy
