import AspectProxy.Proxy.Error
import AspectProxy.Proxy.Retarget

/-!
The hooks of an aspect: methods that every proxy gets, in the order the aspect declares them. Their names
differ, and those that a wrapper calls are among them.
-/

namespace AspectProxy

/-- The hook that runs before a method. -/
def beforeHook : String := "__before"

/-- The hook that runs after a method; what it returns is the result of the call. -/
def afterHook : String := "__after"

/-- The hooks that an aspect must have. -/
def requiredHooks : List String := [beforeHook, afterHook]

/-- The first text that stands in a list again, or stood in one before it. -/
def repeated? (before : List String) : List String → Option String
  | [] => none
  | s :: rest => if s ∈ before then some s else repeated? (s :: before) rest

theorem repeated?_eq_none {before texts : List String} (h : repeated? before texts = none) :
    (∀ s ∈ texts, s ∉ before) ∧ texts.Nodup := by
  induction texts generalizing before with
  | nil => simp
  | cons s rest ih =>
    simp only [repeated?] at h
    split at h
    · cases h
    · rename_i fresh
      obtain ⟨apart, nodup⟩ := ih h
      refine ⟨?_, List.nodup_cons.mpr ⟨fun m => apart s m List.mem_cons_self, nodup⟩⟩
      intro t ht
      rcases List.mem_cons.mp ht with rfl | ht
      · exact fresh
      · exact fun m => apart t ht (List.mem_cons_of_mem _ m)

structure HookSet where
  methods : List Method
  distinct : (methods.map (·.name)).Nodup
  complete : ∀ hook ∈ requiredHooks, hook ∈ methods.map (·.name)

namespace HookSet

def names (hooks : HookSet) : List String :=
  hooks.methods.map (·.name)

def get? (hooks : HookSet) (name : String) : Option Method :=
  hooks.methods.find? (·.name = name)

def contains (hooks : HookSet) (name : String) : Bool :=
  hooks.names.contains name

/-- The set of some methods, unless a name repeats or a required hook is missing. -/
def ofMethods (methods : List Method) : Except HookProblem HookSet :=
  if methods.isEmpty then .error .noMethods
  else
    match distinct : repeated? [] (methods.map (·.name)) with
    | some name => .error (.methodTwice name)
    | none =>
      match complete : requiredHooks.find? fun hook => hook ∉ methods.map (·.name) with
      | some hook => .error (.missing hook)
      | none =>
        .ok ⟨methods, (repeated?_eq_none distinct).2, fun hook h => by
          simpa using List.find?_eq_none.mp complete hook h⟩

/-- The hooks that the unit of an aspect declares, fit to stand in any unit. -/
def ofUnit (aspect : ClassName) (u : SourceUnit) : Except HookProblem HookSet :=
  match u.declaration? aspect.short with
  | none => .error (.notDeclared aspect.short)
  | some d => ofMethods (d.methods.map (Method.retarget u))

end HookSet

end AspectProxy
