import AspectProxy.Tree.Names
import AspectProxy.Tree.References

/-!
Moving a method to another unit. Class references that depend on the unit they are written in are
replaced by full names, so that they mean the same classes wherever the method stands.
-/

namespace AspectProxy

/-- The full name of a reference, unless it is full already, or means no class of a unit: `Self`, or
a primitive type in an annotation. -/
def Reference.retargetIn (u : SourceUnit) (r : Reference) : Option String :=
  if r.name = selfClass then none
  else if r.kind = .typeUse ∧ r.name ∈ primitiveTypes then none
  else
    let resolved := u.resolve r.name
    if resolved = r.name then none else some resolved

/-- The method of a unit in a form that can stand in any unit. -/
def Method.retarget (u : SourceUnit) (m : Method) : Method :=
  m.renameReferences (Reference.retargetIn u)

end AspectProxy
