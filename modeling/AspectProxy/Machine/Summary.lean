import AspectProxy.Machine
import AspectProxy.Proxy.Error

/-!
Summaries of machines and classes on one line, for their hosts to show.
-/

namespace AspectProxy

def boolText (b : Bool) : String :=
  if b then "true" else "false"

/-- Named parts between braces. -/
def recordText (name : String) (parts : List (String × String)) : String :=
  name ++ " \x7b " ++ ", ".intercalate (parts.map fun (n, text) => n ++ ": " ++ text) ++ " \x7d"

def ClassName.summary (c : ClassName) : String :=
  recordText "ClassName" [("display", visiblyQuoted c.text), ("key", visiblyQuoted c.key)]

def LoadedClass.summary (c : LoadedClass) : String :=
  recordText "RuntimeClass"
    [("name", c.name.summary),
     ("parent", quotedOption (c.parent?.map (·.name.text))),
     ("is_final", boolText c.own.isFinal),
     ("is_trait", boolText c.own.isTrait),
     ("methods", "[" ++ ", ".intercalate (c.methodNames.map visiblyQuoted) ++ "]")]

def Machine.summary (m : Machine) : String :=
  recordText "Runtime"
    [("classes", toString m.classes.length),
     ("advice", toString m.advice.size),
     ("autoload", boolText m.units.isSome),
     ("max_depth", toString m.maxDepth)]

end AspectProxy
