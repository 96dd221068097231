/-!
The aspect that stands ready when no other is given: its hooks pass each call on to the advice
registered with the running program.
-/

namespace AspectProxy

/-- The full name of the built-in aspect. -/
def aspectClass : String := "weaver.aop.Aspect"

/-- The source of the built-in aspect. -/
def aspectSource : String :=
  "// Hooks spliced into every generated proxy.\n" ++
  "// Advice registered with the runtime is dispatched through the `advise` builtin.\n" ++
  "package weaver.aop;\n\n" ++
  "trait Aspect \x7b\n" ++
  "    protected fn __before(ctx: map) \x7b\n" ++
  "        advise(\"before\", ctx, null);\n" ++
  "    \x7d\n\n" ++
  "    protected fn __after(ctx: map, result) \x7b\n" ++
  "        return advise(\"after\", ctx, result);\n" ++
  "    \x7d\n\n" ++
  "    static fn __instance() \x7b\n" ++
  "        return new Self();\n" ++
  "    \x7d\n" ++
  "\x7d\n"

end AspectProxy
