import AspectProxy.Proofs.Weaving.Generated

/-!
Calls of the wrapped methods of a proxy that is woven with the built-in aspect. Such a call is a call of the method of
the base class with advice around it, whatever the arguments, the objects, the advice and the outcome are.
-/

namespace AspectProxy

/-- In the class of a proxy each method with a wrapper is called as in the base class, one call deeper, with the advice
for the call around it in the order of the advice. -/
theorem weave_advises {aspect : ClassName} (named : aspect.text = aspectClass) {aspectTree : SourceUnit}
    (read : SourceUnit.ofString? aspectSource = .ok aspectTree) {hooks : HookSet}
    (found : HookSet.ofUnit aspect aspectTree = .ok hooks) {policy : Policy} {i : Identity} {u proxy : SourceUnit}
    {inherited : List InheritedMethod} (woven : weave policy hooks i u inherited = .ok proxy) {d : ClassDecl}
    (original : u.classNamed i.base = .ok d) {wrapped : List Method}
    (chosen : policy.wrapped hooks d.methods = .ok wrapped) {m : Method} (hm : m ∈ wrapped)
    (distinct : (m.parameters.map (·.name)).Nodup) {O P : LoadedClass} {parent : Option LoadedClass}
    (definedO : Machine.bodyOf u O.name (.class d) parent = .ok O) {declaration : Declaration}
    (declared : declaration ∈ proxy.declarations)
    (definedP : Machine.bodyOf proxy P.name declaration (some O) = .ok P) {o : ObjectRef} (type : o.type = P)
    {args : List Value} (length : args.length = m.parameters.length) {machine : Machine}
    (arranged : machine.advice.Arranged) (steady : machine.advice.Steady) {depth : Nat}
    (shallow : depth + 2 ≤ machine.maxDepth) :
    P.findMethod m.name = some (P, m.wrapper i.base) ∧ O.findMethod m.name = some (O, m) ∧
      (machine.advice.matching ⟨i.base.text, m.name, args⟩).Pairwise Advice.Precedes ∧
      ∀ steps, Machine.runCode (invokeWithin (steps + 2) P (m.wrapper i.base) (some o) args depth) machine =
        machine.advised ⟨i.base.text, m.name, args⟩
          (Machine.runCode (invokeWithin (steps + 1) O m (some o) args (depth + 1))) := by
  obtain rfl : aspectTree = aspectUnit := Except.ok.inj (read.symm.trans aspectSource_read)
  obtain rfl : hooks = aspectHooks := Except.ok.inj (found.symm.trans (ofUnit_aspectUnit named))
  rw [Policy.wrapped_ok chosen] at hm
  obtain ⟨member, wraps⟩ := List.mem_filter.mp hm
  obtain ⟨free, wraps⟩ := Bool.and_eq_true_iff.mp wraps
  have wraps : Wraps i.base P O m := wraps_of_weave rfl woven original definedO declared definedP member
    (Option.isNone_iff_eq_none.mp free) wraps distinct
  exact ⟨wraps.wrapper, wraps.wrapped, arranged.matching_sorted _,
    fun steps => wraps.call type steps depth length steady shallow⟩

def counterMethod : Method :=
  ⟨{}, "next", [⟨"n", none, none⟩], none, [.return (some (.binary .add (.var "n") (.int 1)))]⟩

def counterDeclaration : ClassDecl :=
  ⟨"Counter", false, none, [.method counterMethod]⟩

def counterUnit : SourceUnit where
  declarations := [.class counterDeclaration]

def counterIdentity : Identity :=
  .numbered ⟨"Counter", by decide⟩ 1

def counterClass : LoadedClass :=
  .extending ⟨counterIdentity.base, false, false, {}, [counterMethod], []⟩ none

def counterProxyDeclaration : ClassDecl :=
  proxyDeclaration aspectHooks counterIdentity [counterMethod]

def counterProxy : SourceUnit where
  declarations := [.class counterProxyDeclaration]

def counterProxyClass : LoadedClass :=
  .extending ⟨counterIdentity.proxy, false, false, {}, counterProxyDeclaration.methods, []⟩ (some counterClass)

theorem weave_counter : weave {} aspectHooks counterIdentity counterUnit [] = .ok counterProxy :=
  SourceUnit.eq_ok_of_beq (by decide)

theorem bodyOf_counter :
    Machine.bodyOf counterUnit counterClass.name (.class counterDeclaration) none = .ok counterClass :=
  rfl

theorem bodyOf_counterProxy :
    Machine.bodyOf counterProxy counterProxyClass.name (.class counterProxyDeclaration) (some counterClass) =
      .ok counterProxyClass :=
  rfl

def counterObject : ObjectRef := ⟨1, counterProxyClass⟩

/-- The pointcut for every call, with the expressions that match any text. -/
def everyCall : Pointcut :=
  ⟨"*", "*", ⟨fun _ => true⟩, ⟨fun _ => true⟩⟩

/-- Makes the result of a call zero. -/
def toZero : Callback :=
  .after fun _ _ => ⟨[], [], .ok (some (.int 0))⟩

/-- A machine with advice that makes the result of every call zero. -/
def zeroing : Machine where
  advice := (({} : AdviceTable).register everyCall 0 toZero).2

theorem zeroing_eq : zeroing = { advice := { advice := [⟨1, everyCall, 0, toZero⟩], lastId := 1 } } := by
  simp [zeroing, AdviceTable.register, AdviceTable.byPriority]

theorem zeroing_steady : zeroing.advice.Steady := by
  rw [zeroing_eq]
  intro a ha
  obtain rfl := List.mem_singleton.mp ha
  exact fun _ _ => rfl

theorem weave_advises_counter :
    Machine.runCode (invokeWithin 2 counterProxyClass (counterMethod.wrapper counterIdentity.base) (some counterObject)
        [.int 41] 0) zeroing =
      zeroing.advised ⟨"Counter", "next", [.int 41]⟩
        (Machine.runCode (invokeWithin 1 counterClass counterMethod (some counterObject) [.int 41] 1)) := by
  have named : ClassName.text ⟨aspectClass, by decide⟩ = aspectClass := rfl
  have chosen : Policy.wrapped {} aspectHooks counterDeclaration.methods = .ok [counterMethod] := rfl
  have type : counterObject.type = counterProxyClass := rfl
  have length : [Value.int 41].length = counterMethod.parameters.length := rfl
  have shallow : 0 + 2 ≤ zeroing.maxDepth := by decide
  have called := weave_advises named aspectSource_read (ofUnit_aspectUnit named) weave_counter rfl chosen
    List.mem_cons_self (by decide) bodyOf_counter List.mem_cons_self bodyOf_counterProxy type length
    (.register everyCall 0 _ .empty) zeroing_steady shallow
  exact called.2.2.2 0

/-- Advice after a call can replace its result: the call of the method returns 42, the call of its wrapper zero. -/
theorem zeroing_replaces_result :
    HookSet.ofUnit ⟨aspectClass, by decide⟩ aspectUnit = .ok aspectHooks ∧
      weave {} aspectHooks counterIdentity counterUnit [] = .ok counterProxy ∧
      Machine.bodyOf counterUnit counterClass.name (.class counterDeclaration) none = .ok counterClass ∧
      Machine.bodyOf counterProxy counterProxyClass.name (.class counterProxyDeclaration) (some counterClass) =
        .ok counterProxyClass ∧
      zeroing.advice.Steady ∧
      (Machine.runCode (invokeWithin 1 counterClass counterMethod (some counterObject) [.int 41] 1) zeroing).1 =
        .ok (.int 42) ∧
      (Machine.runCode (invokeWithin 2 counterProxyClass (counterMethod.wrapper counterIdentity.base)
        (some counterObject) [.int 41] 0) zeroing).1 = .ok (.int 0) := by
  refine ⟨ofUnit_aspectUnit rfl, weave_counter, bodyOf_counter, bodyOf_counterProxy, zeroing_steady, rfl, ?_⟩
  rw [zeroing_eq]
  rfl

end AspectProxy
