import AspectProxy.Proofs.Machine.Arguments
import AspectProxy.Proofs.Machine.Limits
import AspectProxy.Proofs.Weaving.Generated

/-!
Calls of wrapped methods that leave arguments out. A wrapper has the defaults of the method it wraps, but evaluates
them in the code of the proxy: `super` starts one class lower there, and `Self` is the proxy. A default that depends on
neither, or finds the same there, has the same value.
-/

namespace AspectProxy

open Eval

section Bound

variable {m : Method} {this : Option ObjectRef} {c d : LoadedClass} {args : List Value}

/-- The values of parameters in the code of two classes. -/
theorem boundArguments_follows (scope : d.own.scope.resolve = c.own.scope.resolve)
    (same : ∀ p ∈ m.parameters.drop args.length, p.Every (Expr.SameTarget c d)) {steps steps' : Nat}
    (more : steps ≤ steps') {depth depth' : Nat} (shallower : depth' ≤ depth) :
    (m.boundArguments (.within steps) ⟨this, c, depth⟩ args).Follows 0
      (m.boundArguments (.within steps') ⟨this, d, depth'⟩ args) := by
  have follow := Calls.within_follow (k := 0) more
  have alike : Frame.Alike 0 ⟨this, c, depth⟩ ⟨this, d, depth'⟩ := ⟨rfl, scope, shallower⟩
  have named : ∀ ps : List Parameter, Expr.EveryItem (Expr.SameTarget c d) (ps.map fun p => .var p.name) := by
    intro ps
    induction ps with
    | nil => trivial
    | cons p ps ih => exact ⟨trivial, ih⟩
  exact .withLocals (.bind (bindParameters_follows follow alike args same) fun _ =>
    Expr.evalList_follows follow alike (named m.parameters))

/-- Whatever the limits are, the values of parameters agree in the code of two classes that give the defaults the same
targets, unless a limit cuts short finding them. -/
theorem boundArguments_agree (scope : d.own.scope.resolve = c.own.scope.resolve)
    (same : ∀ p ∈ m.parameters.drop args.length, p.Every (Expr.SameTarget c d)) (steps steps' depth depth' : Nat)
    (machine : Machine) :
    let own := Machine.runCode (m.boundArguments (.within steps) ⟨this, c, depth⟩ args) machine
    let passed := Machine.runCode (m.boundArguments (.within steps') ⟨this, d, depth'⟩ args) machine
    CutShort own.1 ∨ CutShort passed.1 ∨ own = passed := by
  have first : (m.boundArguments (.within steps) ⟨this, c, depth⟩ args).Follows 0
      (m.boundArguments (.within (max steps steps')) ⟨this, d, min depth depth'⟩ args) :=
    boundArguments_follows scope same (Nat.le_max_left steps steps') (Nat.min_le_left depth depth')
  have trivially : ∀ p ∈ m.parameters.drop args.length, p.Every (Expr.SameTarget d d) :=
    fun _ _ e _ => e.every_of_forall (.refl d)
  have second : (m.boundArguments (.within steps') ⟨this, d, depth'⟩ args).Follows 0
      (m.boundArguments (.within (max steps steps')) ⟨this, d, min depth depth'⟩ args) :=
    boundArguments_follows rfl trivially (Nat.le_max_right steps steps') (Nat.min_le_right depth depth')
  exact Follows.agree first second machine

end Bound

section Calls

variable {base : ClassName} {P O : LoadedClass} {m : Method} {args : List Value}

/-- A call of a wrapper with fewer arguments than parameters is the call of the wrapped method with the values of all
parameters, with the hooks around it. -/
theorem WrapsMethod.call_bound (wraps : WrapsMethod base P O m) (required : m.required ≤ args.length)
    (enough : args.length ≤ m.parameters.length) (o : ObjectRef) (steps : Nat) {depth : Nat} {machine : Machine}
    (shallow : depth + 1 ≤ machine.maxDepth) :
    Machine.runCode (invokeWithin (steps + 1) P (m.wrapper base) (some o) args depth) machine =
      Machine.runCode (do
        let values ← m.boundArguments (.within steps) ⟨some o, P, depth + 1⟩ args
        hookedCall (.within steps) o O m ⟨base.text, m.name, values⟩ (depth + 1)) machine := by
  -- A wrapper has the parameters of the method.
  have bound := AspectProxy.call_bound (m := m.wrapper base) wraps.distinct enough steps P (some o) required shallow
  have same : (m.wrapper base).boundArguments = m.boundArguments := rfl
  rw [bound, same, (boundArguments_detached _ _ _ _).runCode_bind, (boundArguments_detached _ _ _ _).runCode_bind]
  have kept := boundArguments_keepsAdvice m steps ⟨some o, P, depth + 1⟩ args machine
  rcases ran : Machine.runCode (m.boundArguments (.within steps) ⟨some o, P, depth + 1⟩ args) machine with ⟨e | values, m'⟩
  · rfl
  · have length := (boundArguments_passed wraps.distinct enough ran).2
    rw [ran] at kept
    exact wraps.call o steps depth length (kept.maxDepth ▸ shallow)

end Calls

/-- In the class of a proxy a call of a wrapped method that leaves arguments out passes on the values of all parameters,
as the call of the method in the base class uses the values of all parameters; and these are the same, unless a default
finds another class or method in the code of the proxy. -/
theorem weave_keeps_defaults {policy : Policy} {hooks : HookSet} {i : Identity} {u proxy : SourceUnit}
    {inherited : List InheritedMethod} (woven : weave policy hooks i u inherited = .ok proxy) {d : ClassDecl}
    (original : u.classNamed i.base = .ok d) {wrapped : List Method}
    (chosen : policy.wrapped hooks d.methods = .ok wrapped) {m : Method} (hm : m ∈ wrapped)
    (distinct : (m.parameters.map (·.name)).Nodup) {O P : LoadedClass} {parent : Option LoadedClass}
    (definedO : Machine.bodyOf u O.name (.class d) parent = .ok O) {declaration : Declaration}
    (declared : declaration ∈ proxy.declarations)
    (definedP : Machine.bodyOf proxy P.name declaration (some O) = .ok P) {args : List Value}
    (required : m.required ≤ args.length) (enough : args.length ≤ m.parameters.length)
    (same : ∀ p ∈ m.parameters.drop args.length, p.Every (Expr.SameTarget O P)) (o : ObjectRef) :
    (∀ (steps depth : Nat) (machine : Machine), depth + 1 ≤ machine.maxDepth →
      Machine.runCode (invokeWithin (steps + 1) P (m.wrapper i.base) (some o) args depth) machine =
          Machine.runCode (do
            let values ← m.boundArguments (.within steps) ⟨some o, P, depth + 1⟩ args
            hookedCall (.within steps) o O m ⟨i.base.text, m.name, values⟩ (depth + 1)) machine ∧
        Machine.runCode (invokeWithin (steps + 1) O m (some o) args depth) machine =
          Machine.runCode (do
            let values ← m.boundArguments (.within steps) ⟨some o, O, depth + 1⟩ args
            invokeWithin (steps + 1) O m (some o) values depth) machine) ∧
      ∀ (steps steps' depth depth' : Nat) (machine : Machine),
        let own := Machine.runCode (m.boundArguments (.within steps) ⟨some o, O, depth⟩ args) machine
        let passed := Machine.runCode (m.boundArguments (.within steps') ⟨some o, P, depth'⟩ args) machine
        CutShort own.1 ∨ CutShort passed.1 ∨ own = passed := by
  rw [Policy.wrapped_ok chosen] at hm
  obtain ⟨member, wraps⟩ := List.mem_filter.mp hm
  obtain ⟨free, wraps⟩ := Bool.and_eq_true_iff.mp wraps
  obtain ⟨wraps, -⟩ := wrapsMethod_of_weave woven original definedO declared definedP member
    (Option.isNone_iff_eq_none.mp free) wraps distinct
  have scope : P.own.scope = O.own.scope := by
    obtain ⟨d', wrapped', -, -, rfl⟩ := weave_ok woven
    rw [(Machine.bodyOf_ok definedO).scope, (Machine.bodyOf_ok definedP).scope]
    rfl
  refine ⟨fun steps depth machine shallow => ⟨?_, ?_⟩, fun steps steps' depth depth' machine => ?_⟩
  · exact wraps.call_bound required enough o steps shallow
  · exact call_bound distinct enough steps O (some o) required shallow
  · exact boundArguments_agree (congrArg _ scope) same steps steps' depth depth' machine

def fullMethod (answer : Bool) : Method :=
  ⟨{}, "full", [], none, [.return (some (.bool answer))]⟩

def fillMethod (default : Expr) : Method :=
  ⟨{}, "fill", [⟨"n", none, some default⟩], none, [.return (some (.var "n"))]⟩

def boxDeclaration (default : Expr) : ClassDecl :=
  ⟨"Box", false, some "Base", [.method (fullMethod true), .method (fillMethod default)]⟩

def boxUnit (default : Expr) : SourceUnit where
  declarations := [.class (boxDeclaration default)]

def boxIdentity : Identity :=
  .numbered ⟨"Box", by decide⟩ 1

def boxProxyDeclaration (default : Expr) : ClassDecl :=
  proxyDeclaration aspectHooks boxIdentity [fullMethod true, fillMethod default]

def boxProxy (default : Expr) : SourceUnit where
  declarations := [.class (boxProxyDeclaration default)]

def baseClass : LoadedClass :=
  .extending ⟨⟨"Base", by decide⟩, false, false, {}, [fullMethod false], []⟩ none

def boxClass (default : Expr) : LoadedClass :=
  .extending ⟨boxIdentity.base, false, false, {}, [fullMethod true, fillMethod default], []⟩ (some baseClass)

def boxProxyClass (default : Expr) : LoadedClass :=
  .extending ⟨boxIdentity.proxy, false, false, {}, (boxProxyDeclaration default).methods, []⟩ (some (boxClass default))

def boxObject (default : Expr) : ObjectRef :=
  ⟨1, boxProxyClass default⟩

theorem bodyOf_box (default : Expr) :
    Machine.bodyOf (boxUnit default) (boxClass default).name (.class (boxDeclaration default)) (some baseClass) =
      .ok (boxClass default) :=
  rfl

theorem bodyOf_boxProxy (default : Expr) :
    Machine.bodyOf (boxProxy default) (boxProxyClass default).name (.class (boxProxyDeclaration default))
      (some (boxClass default)) = .ok (boxProxyClass default) :=
  rfl

/-- What the object itself answers. -/
def ownFull : Expr :=
  .call .self "full" []

theorem weave_box : weave {} aspectHooks boxIdentity (boxUnit ownFull) [] = .ok (boxProxy ownFull) :=
  SourceUnit.eq_ok_of_beq (by decide)

theorem weave_keeps_defaults_box :
    Machine.runCode ((fillMethod ownFull).boundArguments (.within 4)
        ⟨some (boxObject ownFull), boxProxyClass ownFull, 1⟩ []) {} = (.ok [.bool true], {}) := by
  have chosen : Policy.wrapped {} aspectHooks (boxDeclaration ownFull).methods =
      .ok [fullMethod true, fillMethod ownFull] := rfl
  have same : ∀ p ∈ (fillMethod ownFull).parameters.drop 0,
      p.Every (Expr.SameTarget (boxClass ownFull) (boxProxyClass ownFull)) := by
    intro p hp e he
    obtain rfl := List.mem_singleton.mp hp
    obtain rfl := Option.some.inj he
    exact ⟨trivial, trivial, trivial⟩
  have required : (fillMethod ownFull).required ≤ ([] : List Value).length := by decide
  obtain ⟨-, agree⟩ := weave_keeps_defaults weave_box rfl chosen (List.mem_cons_of_mem _ List.mem_cons_self) (by decide)
    (bodyOf_box ownFull) List.mem_cons_self (bodyOf_boxProxy ownFull) required (by decide) same (boxObject ownFull)
  have own : Machine.runCode ((fillMethod ownFull).boundArguments (.within 4)
      ⟨some (boxObject ownFull), boxClass ownFull, 1⟩ []) {} = (.ok [.bool true], {}) := rfl
  obtain cut | cut | equal := agree 4 4 1 1 {}
  · exact (show False from cut).elim
  · exact (show False from cut).elim
  · exact equal.symm.trans own

/-- What the parent of the class makes the object answer. -/
def parentFull : Expr :=
  .superCall "full" []

theorem box_read : SourceUnit.ofString?
    "class Box extends Base { fn full() { return true; } fn fill(n = super.full()) { return n; } }" =
      .ok (boxUnit parentFull) :=
  SourceUnit.eq_ok_of_beq (by decide +kernel)

/-- The default of a wrapped method that asks the parent of its class has another value in the code of the proxy, whose
parent is that class, and so the call has another result. -/
theorem super_default_starts_lower :
    SourceUnit.ofString? "class Box extends Base { fn full() { return true; } fn fill(n = super.full()) { return n; } }" =
        .ok (boxUnit parentFull) ∧
      weave {} aspectHooks boxIdentity (boxUnit parentFull) [] = .ok (boxProxy parentFull) ∧
      Machine.bodyOf (boxUnit parentFull) (boxClass parentFull).name (.class (boxDeclaration parentFull))
        (some baseClass) = .ok (boxClass parentFull) ∧
      Machine.bodyOf (boxProxy parentFull) (boxProxyClass parentFull).name (.class (boxProxyDeclaration parentFull))
        (some (boxClass parentFull)) = .ok (boxProxyClass parentFull) ∧
      (boxProxyClass parentFull).findMethod "fill" =
        some (boxProxyClass parentFull, (fillMethod parentFull).wrapper boxIdentity.base) ∧
      (Machine.runCode ((fillMethod parentFull).boundArguments (.within 4)
        ⟨some (boxObject parentFull), boxClass parentFull, 1⟩ []) {}).1 = .ok [.bool false] ∧
      (Machine.runCode ((fillMethod parentFull).boundArguments (.within 4)
        ⟨some (boxObject parentFull), boxProxyClass parentFull, 1⟩ []) {}).1 = .ok [.bool true] ∧
      (Machine.runCode (invokeWithin 5 (boxClass parentFull) (fillMethod parentFull)
        (some (boxObject parentFull)) [] 0) {}).1 = .ok (.bool false) ∧
      (Machine.runCode (invokeWithin 5 (boxProxyClass parentFull) ((fillMethod parentFull).wrapper boxIdentity.base)
        (some (boxObject parentFull)) [] 0) {}).1 = .ok (.bool true) :=
  ⟨box_read, SourceUnit.eq_ok_of_beq (by decide), rfl, rfl, rfl, rfl, rfl, rfl, rfl⟩

end AspectProxy
