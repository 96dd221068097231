import AspectProxy.Machine.Host
import AspectProxy.Proofs.Weaving.Shape

/-!
How the class of a proxy stands below the class it extends. It declares hooks and wrappers and no properties, so every
other name finds what it finds in the class above, and an object of it is initialised as an object of the class above is.
-/

namespace AspectProxy

open Eval

namespace LoadedClass

variable {c p : LoadedClass} {name : String}

/-- A method that a class does not declare is that of its parent. -/
theorem findMethod_inherited (extends_ : c.parent? = some p) (free : name ∉ c.own.methods.map (·.name)) :
    c.findMethod name = p.findMethod name := by
  have undeclared : c.own.method? name = none := by
    simpa [ClassBody.method?] using free
  rw [findMethod, chain, findIn, undeclared, findMethod, parent?_chain extends_]

theorem lineage_of_parent (extends_ : c.parent? = some p) : c.lineage = p.lineage ++ [c] := by
  show rootFirst c.ancestors ++ [c] = rootFirst p.chain ++ [c]
  rw [parent?_chain extends_]

end LoadedClass

theorem Member.properties_map_method (methods : List Method) : properties (methods.map .method) = [] := by
  simp [properties, property?]

/-- Makes an object of class `c` and initialises it as one of class `as`: its properties are set for `as` and the
ancestors of `as`, the root first, and the constructor that `as` finds is called. -/
def makeObjectAs (calls : Calls) (c as : LoadedClass) (args : List Value) (depth : Nat) : Eval Value := do
  let o ← alloc c
  fillFields calls o depth as.lineage
  match as.findMethod constructorName with
  | some (owner, m) =>
    let _ ← calls.invoke owner m (some o) args depth
    return .object o
  | none =>
    if args.isEmpty then return .object o
    else fail (.arity (c.name.text ++ "::" ++ constructorName) 0 0 args.length)

section Initialising

variable {calls : Calls} {c p : LoadedClass} {depth : Nat}

theorem fillFields_append (o : ObjectRef) (first rest : List LoadedClass) :
    fillFields calls o depth (first ++ rest) = fillFields calls o depth first >>= fun _ => fillFields calls o depth rest := by
  induction first with
  | nil => rfl
  | cons owner first ih => rw [List.cons_append, fillFields, ih, fillFields, bind_assoc]

/-- A class without properties of its own sets none. -/
theorem fillFields_of_no_properties (o : ObjectRef) (none : c.own.properties = []) :
    fillFields calls o depth [c] = pure () := by
  rw [fillFields, none]
  rfl

theorem constructOver_as_itself (instantiable : c.own.isTrait = false) (args : List Value) :
    constructOver calls c args depth = makeObjectAs calls c c args depth := by
  rw [constructOver_eq, if_neg (by rw [instantiable]; decide)]
  rfl

/-- A class that declares neither properties nor a constructor initialises its objects as its parent does. -/
theorem constructOver_as_parent (extends_ : c.parent? = some p) (instantiable : c.own.isTrait = false)
    (noProperties : c.own.properties = []) (constructor_ : c.findMethod constructorName = p.findMethod constructorName)
    (args : List Value) : constructOver calls c args depth = makeObjectAs calls c p args depth := by
  have filled : ∀ o, fillFields calls o depth c.lineage = fillFields calls o depth p.lineage := by
    intro o
    rw [LoadedClass.lineage_of_parent extends_, fillFields_append, fillFields_of_no_properties o noProperties]
    exact bind_pure _
  rw [constructOver_as_itself instantiable]
  unfold makeObjectAs
  simp only [filled, constructor_]

end Initialising

namespace Machine

theorem properties_of_bodyOf {u : SourceUnit} {name : ClassName} {d : Declaration} {parent : Option LoadedClass}
    {c : LoadedClass} (made : bodyOf u name d parent = .ok c) : c.own.properties = Member.properties d.members := by
  obtain ⟨⟨methods, properties⟩, collected, rest⟩ := bind_ok_iff.mp made
  cases rest
  rw [LoadedClass.own_extending]
  exact (collectMembers_ok collected List.nodup_nil).2.1

/-- An object of a class that is defined is made by the class itself. -/
theorem instantiate_of_class? {m : Machine} {c : LoadedClass} {name : ClassName} (defined : m.class? name = some c)
    (steps : Nat) (args : List Value) : instantiate steps name args m = runCode (constructWithin steps c args 0) m := by
  have loaded : Machine.load name m = (.ok c, m) := by
    unfold load
    obtain ⟨fuel, bound⟩ : ∃ fuel, m.loadBound = fuel + 1 := by
      unfold loadBound
      split <;> exact ⟨_, rfl⟩
    simp only [bound, loadWithin, defined]
  unfold instantiate runCode
  rw [bind_run, Eval.loadClass, onMachine, loaded]
  rfl

end Machine

section Proxy

variable {policy : Policy} {hooks : HookSet} {i : Identity} {u proxy : SourceUnit} {inherited : List InheritedMethod}
  {d : ClassDecl} {parent : Option LoadedClass} {O P : LoadedClass}

/-- The class of a proxy that is defined under the class it extends: a hook is found under its name, a wrapper under the
name of each method that is chosen, and under any other name what the class above finds there. Its lineage is that of the
class above and itself, and it declares no properties. If no hook has the name of a constructor, an object of it is
initialised as an object of the class above: the properties of the same classes are set to their defaults in the same
order, then the same constructor of the same class is called with the same arguments, and where there is none arguments
are refused. -/
theorem weave_inherits (woven : weave policy hooks i u inherited = .ok proxy) (original : u.classNamed i.base = .ok d)
    (definedO : Machine.bodyOf u O.name (.class d) parent = .ok O) {declaration : Declaration}
    (declared : declaration ∈ proxy.declarations)
    (definedP : Machine.bodyOf proxy P.name declaration (some O) = .ok P) :
    (∀ hook ∈ hooks.methods, P.findMethod hook.name = some (P, hook)) ∧
    (∀ m ∈ d.methods, policy.Chooses hooks m → P.findMethod m.name = some (P, m.wrapper i.base)) ∧
    (∀ name ∉ hooks.names, (∀ m ∈ d.methods, policy.Chooses hooks m → m.name ≠ name) →
      P.findMethod name = O.findMethod name) ∧
    P.lineage = O.lineage ++ [P] ∧ P.own.properties = [] ∧
    (constructorName ∉ hooks.names → ∀ (machine : Machine) (steps : Nat) (args : List Value),
      machine.class? P.name = some P → machine.class? O.name = some O →
        Machine.instantiate (steps + 1) P.name args machine =
          Machine.runCode (makeObjectAs (.within steps) P O args 0) machine ∧
        Machine.instantiate (steps + 1) O.name args machine =
          Machine.runCode (makeObjectAs (.within steps) O O args 0) machine) := by
  obtain ⟨d', wrapped, proxyable, chosen, rfl⟩ := weave_ok woven
  obtain rfl : d' = d := Except.ok.inj ((proxyable_ok proxyable).1.symm.trans original)
  obtain rfl := List.mem_singleton.mp declared
  have bodyO := Machine.bodyOf_ok definedO
  have bodyP := Machine.bodyOf_ok definedP
  have methods : P.own.methods = (d'.methods.filter (policy.Chooses hooks)).map (Method.wrapper i.base) ++ hooks.methods := by
    rw [bodyP.methods, ← Policy.wrapped_eq_filter chosen]
    exact methods_proxyDeclaration hooks i wrapped
  have names : P.own.methods.map (·.name) = (d'.methods.filter (policy.Chooses hooks)).map (·.name) ++ hooks.names := by
    rw [methods, List.map_append, List.map_map]
    rfl
  have others : ∀ name ∉ hooks.names, (∀ m ∈ d'.methods, policy.Chooses hooks m → m.name ≠ name) →
      P.findMethod name = O.findMethod name := by
    intro name noHook noWrapper
    refine LoadedClass.findMethod_inherited bodyP.parent_eq ?_
    rw [names, List.mem_append, not_or]
    refine ⟨fun wrapper => ?_, noHook⟩
    obtain ⟨m, hm, same⟩ := List.mem_map.mp wrapper
    obtain ⟨member, chooses⟩ := List.mem_filter.mp hm
    exact noWrapper m member (by simpa using chooses) same
  have noProperties : P.own.properties = [] :=
    (Machine.properties_of_bodyOf definedP).trans (Member.properties_map_method _)
  refine ⟨fun hook hhook => ?_, fun m hm chooses => ?_, others, LoadedClass.lineage_of_parent bodyP.parent_eq,
    noProperties, ?_⟩
  · exact LoadedClass.findMethod_own bodyP.distinct (by rw [methods]; exact List.mem_append_right _ hhook)
  · have own : m.wrapper i.base ∈ P.own.methods := by
      rw [methods]
      exact List.mem_append_left _ (List.mem_map_of_mem (List.mem_filter.mpr ⟨hm, by simpa using chooses⟩))
    exact LoadedClass.findMethod_own bodyP.distinct own
  · intro noHook machine steps args foundP foundO
    have constructor_ : P.findMethod constructorName = O.findMethod constructorName :=
      others _ noHook fun m _ chooses => chooses.2.2.1
    rw [Machine.instantiate_of_class? foundP, Machine.instantiate_of_class? foundO]
    exact ⟨congrArg (Machine.runCode · machine)
        (constructOver_as_parent bodyP.parent_eq bodyP.isTrait noProperties constructor_ args),
      congrArg (Machine.runCode · machine) (constructOver_as_itself bodyO.isTrait args)⟩

end Proxy

def lampClass : LoadedClass :=
  .extending ⟨(lampIdentity 1).base, false, false, lampUnit.scope, lampDeclaration.methods,
    Member.properties lampDeclaration.members⟩ none

def lampProxyDeclaration : ClassDecl :=
  proxyDeclaration aspectHooks (lampIdentity 1) [lampSwitch]

def lampProxyClass : LoadedClass :=
  .extending ⟨(lampIdentity 1).proxy, false, false, lampProxy.scope, lampProxyDeclaration.methods, []⟩ (some lampClass)

def lampMachine : Machine where
  classes := [lampClass, lampProxyClass]

theorem weave_inherits_lamp :
    lampProxyClass.findMethod lampSwitch.name = some (lampProxyClass, lampSwitch.wrapper (lampIdentity 1).base) ∧
    lampProxyClass.findMethod "off" = lampClass.findMethod "off" ∧ lampProxyClass.lineage = lampClass.lineage ++ [lampProxyClass] ∧
    Machine.instantiate 2 lampProxyClass.name [.int 3] lampMachine =
      Machine.runCode (makeObjectAs (.within 1) lampProxyClass lampClass [.int 3] 0) lampMachine := by
  have definedO : Machine.bodyOf lampUnit lampClass.name (.class lampDeclaration) none = .ok lampClass := rfl
  have definedP : Machine.bodyOf lampProxy lampProxyClass.name (.class lampProxyDeclaration) (some lampClass) =
      .ok lampProxyClass := rfl
  obtain ⟨-, wrapper, inherited, lineage, -, initialised⟩ :=
    weave_inherits weave_lamp rfl definedO List.mem_cons_self definedP
  have switch : lampSwitch ∈ lampDeclaration.methods := by simp [lampDeclaration, ClassDecl.methods]
  have foundP : lampMachine.class? lampProxyClass.name = some lampProxyClass := rfl
  have foundO : lampMachine.class? lampClass.name = some lampClass := rfl
  have noHook : constructorName ∉ aspectHooks.names := by decide
  exact ⟨wrapper _ switch (by decide), inherited "off" (by decide) (by decide), lineage,
    (initialised noHook lampMachine 1 _ foundP foundO).1⟩

end AspectProxy
