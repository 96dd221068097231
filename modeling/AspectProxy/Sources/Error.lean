import AspectProxy.Token

/-!
Why there is no parsed unit for a class.
-/

namespace AspectProxy

inductive UnitError where
  /-- No place has a source for the class, or its file cannot be read. -/
  | notFound (className reason : String)
  /-- The source is not Weave. -/
  | malformed (className : String) (fault : SourceFault)
  /-- The source declares nothing. -/
  | empty (className : String)
  deriving DecidableEq

def UnitError.message : UnitError → String
  | notFound c reason => "Cannot resolve source for class '" ++ c ++ "': " ++ reason
  | malformed c fault => "Syntax error in class '" ++ c ++ "' at " ++ fault.text
  | empty c => "Source of class '" ++ c ++ "' produced no declarations"

end AspectProxy
