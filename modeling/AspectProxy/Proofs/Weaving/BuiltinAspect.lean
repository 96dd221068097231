import AspectProxy.Proofs.Weaving.Sameness
import AspectProxy.Proxy.Hooks
import AspectProxy.Sources.Builtin
import AspectProxy.Tree.Parser

/-!
The hooks of the built-in aspect, as the source of the aspect is read: one passes a call on to the advice before it,
one passes the result on to the advice after it.
-/

namespace AspectProxy

def contextParameter : Parameter :=
  ⟨"ctx", some ⟨"map", false⟩, none⟩

/-- The hook that runs the advice before a call. -/
def adviceBefore : Method :=
  ⟨{ visibility := .lineage }, beforeHook, [contextParameter], none,
    [.expr (.functionCall "advise" [.str "before", .var "ctx", .null])]⟩

/-- The hook that runs the advice after a call. -/
def adviceAfter : Method :=
  ⟨{ visibility := .lineage }, afterHook, [contextParameter, ⟨"result", none, none⟩], none,
    [.return (some (.functionCall "advise" [.str "after", .var "ctx", .var "result"]))]⟩

def aspectInstance : Method :=
  ⟨{ isStatic := true }, "__instance", [], none, [.return (some (.create selfClass []))]⟩

def aspectUnit : SourceUnit where
  package := some "weaver.aop"
  declarations := [.trait ⟨"Aspect", [.method adviceBefore, .method adviceAfter, .method aspectInstance]⟩]

/-- What the source of the built-in aspect is read as. -/
theorem aspectSource_read : SourceUnit.ofString? aspectSource = .ok aspectUnit := by
  unfold SourceUnit.ofString? TokenStream.ofString? aspectSource
  simp only [String.toList_append]
  exact SourceUnit.eq_ok_of_beq (by decide +kernel)

def aspectHooks : HookSet where
  methods := [adviceBefore, adviceAfter, aspectInstance]
  distinct := by decide
  complete := by decide

/-- The hooks of the built-in aspect stand in any unit as they are. -/
theorem ofUnit_aspectUnit {aspect : ClassName} (named : aspect.text = aspectClass) :
    HookSet.ofUnit aspect aspectUnit = .ok aspectHooks := by
  have short : aspect.short = "Aspect" := by
    unfold ClassName.short
    rw [named]
    decide
  have plain : ∀ m ∈ aspectHooks.methods, (Member.method m).Every (fun _ => True) Expr.NoFloat := by decide
  have asIs : aspectHooks.methods = aspectHooks.methods.map (Method.retarget aspectUnit) :=
    list_eq_of_beq (fun m hm _ => Method.eq_of_beq (plain m hm)) (by decide)
  unfold HookSet.ofUnit
  rw [short]
  show HookSet.ofMethods (aspectHooks.methods.map (Method.retarget aspectUnit)) = .ok aspectHooks
  rw [← asIs]
  rfl

end AspectProxy
