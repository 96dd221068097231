import AspectProxy.ClassName
import AspectProxy.Tree

/-!
What the names written in a unit stand for: which class a reference means, and what a declaration is
called outside its unit.
-/

namespace AspectProxy

/-- The word that stands for the class it is written in. -/
def selfClass : String := "Self"

/-- The name an import is used by: its alias, or the last part of its path. -/
def Import.visibleName (i : Import) : String :=
  i.localName.getD (afterLastDot i.path)

namespace SourceUnit

/-- The first declaration of a short name, whatever the case of its ASCII letters. -/
def declaration? (u : SourceUnit) (short : String) : Option Declaration :=
  u.declarations.find? fun d => asciiLower d.name = asciiLower short

/-- The name of a declaration outside its unit. -/
def qualified (u : SourceUnit) (short : String) : Except InvalidClassName ClassName :=
  ClassName.qualify u.package short

/-- The full name of the class that a reference in the unit means. A name with a dot is full already;
else an import of that name counts before the unit's own package. -/
def resolve (u : SourceUnit) (reference : String) : String :=
  if reference.toList.contains '.' then reference
  else
    match u.imports.find? fun i => i.visibleName = reference with
    | some i => i.path
    | none =>
      match u.package with
      | some p => p ++ "." ++ reference
      | none => reference

/-- A unit with the same package and imports and no declarations. -/
def scope (u : SourceUnit) : SourceUnit :=
  { u with declarations := [] }

end SourceUnit

end AspectProxy
