import AspectProxy.Value

/-!
The objects of a running program: for each, in the order they were made, its fields in the order they
were first set.
-/

namespace AspectProxy

/-- The fields of one object. -/
abbrev Fields := List (String × Value)

structure Heap where
  objects : Array Fields := #[]

namespace Heap

/-- A new object without fields. -/
def alloc (h : Heap) (c : LoadedClass) : ObjectRef × Heap :=
  (⟨h.objects.size, c⟩, ⟨h.objects.push []⟩)

def fields (h : Heap) (o : ObjectRef) : Fields :=
  h.objects[o.id]?.getD []

def get? (h : Heap) (o : ObjectRef) (field : String) : Option Value :=
  getEntry field (h.fields o)

def set (h : Heap) (o : ObjectRef) (field : String) (v : Value) : Heap :=
  ⟨h.objects.modify o.id (setEntry field v)⟩

end Heap

end AspectProxy
