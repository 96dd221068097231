import AspectProxy.Json.Typed
import AspectProxy.Proxy.Weaving

/-!
Settings, and how they stand in JSON text. A setting that is not given has its default.
-/

namespace AspectProxy

/-- How deeply method calls may nest unless another limit is set. -/
def defaultMaxDepth : Nat := 256

structure Settings where
  /-- The directories that classes are looked for in. -/
  sourceRoots : List String := ["."]
  fileExtension : String := sourceExtension
  mode : ReadMode := .blocking
  /-- The full name of the aspect. -/
  aspect : String := aspectClass
  /-- A file with another source of the aspect. -/
  aspectSource : Option String := none
  policy : Policy := {}
  maxDepth : Nat := defaultMaxDepth
  debug : Bool := false
  deriving DecidableEq

namespace Policy

/-- How a policy stands in JSON text. -/
def fields : List (Json.Read.Field Policy) :=
  [.of "wrap_private" Json.Read.flag fun b p => { p with wrapPrivate := b },
   .of "on_hook_collision" (Json.Read.choice [("reject", .reject), ("hook_wins", .hookWins)])
     fun c p => { p with onCollision := c }]

def read : Json.Read Policy :=
  Json.Read.record "struct ProxyPolicy" fields {}

/-- The policy that JSON text gives. -/
def ofString? : String → Except Json.TextFlaw Policy :=
  Json.Read.all read

end Policy

namespace Settings

/-- How settings stand in JSON text. -/
def fields : List (Json.Read.Field Settings) :=
  [.of "source_roots" (Json.Read.list Json.Read.path) fun roots s => { s with sourceRoots := roots },
   .of "file_extension" Json.Read.text fun extension s => { s with fileExtension := extension },
   .of "io_mode" (Json.Read.choice [("blocking", .blocking), ("async", .async)]) fun m s => { s with mode := m },
   .of "aspect_class" Json.Read.text fun name s => { s with aspect := name },
   .of "aspect_source" (Json.Read.optional Json.Read.path) fun path s => { s with aspectSource := path },
   .of "policy" Policy.read fun p s => { s with policy := p },
   .of "max_call_depth" Json.Read.count fun n s => { s with maxDepth := n },
   .of "debug" Json.Read.flag fun b s => { s with debug := b }]

/-- The settings that JSON text gives. -/
def ofString? : String → Except Json.TextFlaw Settings :=
  Json.Read.all (Json.Read.record "struct WeaverConfig" fields {})

end Settings

end AspectProxy
