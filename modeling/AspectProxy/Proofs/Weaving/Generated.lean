import AspectProxy.Proofs.ClassTable.Lawful
import AspectProxy.Proofs.Weaving.Wrapper

/-!
The class of a generated proxy. It declares a wrapper for each method to be wrapped and each hook, under distinct
names, so each of them is what its name finds in the class.
-/

namespace AspectProxy

/-- A class that declares each method name once finds each of its methods. -/
theorem LoadedClass.findMethod_own {c : LoadedClass} (distinct : (c.own.methods.map (·.name)).Nodup) {m : Method}
    (hm : m ∈ c.own.methods) : c.findMethod m.name = some (c, m) := by
  have found : c.own.method? m.name = some m := by
    cases found : c.own.method? m.name with
    | none => exact absurd (List.find?_eq_none.mp found m hm) (by simp)
    | some x =>
      have hx : x ∈ c.own.methods := List.mem_of_find?_eq_some found
      have named : x.name = m.name := by simpa using List.find?_some found
      rw [List.inj_on_of_nodup_map distinct hx hm named]
  rw [findMethod, chain, findIn, found]

/-- What the wrapped methods of a class are: those the policy wraps that no hook replaces. -/
theorem Policy.wrapped_ok {p : Policy} {hooks : HookSet} {methods wrapped : List Method}
    (h : p.wrapped hooks methods = .ok wrapped) :
    wrapped = methods.filter fun m => (hooks.get? m.name).isNone && p.wraps m := by
  induction methods generalizing wrapped with
  | nil =>
    cases h
    rfl
  | cons m rest ih =>
    rw [Policy.wrapped] at h
    cases hook : hooks.get? m.name with
    | some hook' =>
      simp only [hook] at h
      cases settled : p.settle m none hook' with
      | error e => simp [settled, bind, Except.bind] at h
      | ok =>
        simp only [settled, bind, Except.bind] at h
        rw [ih h]
        simp [hook]
    | none =>
      simp only [hook] at h
      cases others : p.wrapped hooks rest with
      | error e => simp [others, bind, Except.bind] at h
      | ok others' =>
        simp only [others, bind, Except.bind, pure, Except.pure, Except.ok.injEq] at h
        rw [← h, ih others]
        by_cases hw : p.wraps m = true <;> simp [hook, hw]

/-- The declaration of a proxy class that wraps some methods. -/
def proxyDeclaration (hooks : HookSet) (i : Identity) (wrapped : List Method) : ClassDecl where
  name := i.proxy.short
  isFinal := false
  parent := some i.base.text
  members := (wrapped.map (Method.wrapper i.base) ++ hooks.methods).map .method

theorem methods_proxyDeclaration (hooks : HookSet) (i : Identity) (wrapped : List Method) :
    (proxyDeclaration hooks i wrapped).methods = wrapped.map (Method.wrapper i.base) ++ hooks.methods := by
  unfold ClassDecl.methods proxyDeclaration Member.methods
  rw [List.filterMap_map]
  exact List.filterMap_some

/-- What is woven: a unit that differs from that of the base class in declaring the proxy class alone. -/
theorem weave_ok {p : Policy} {hooks : HookSet} {i : Identity} {u proxy : SourceUnit}
    {inherited : List InheritedMethod} (h : weave p hooks i u inherited = .ok proxy) :
    ∃ d wrapped, u.proxyable i.base = .ok d ∧ p.wrapped hooks d.methods = .ok wrapped ∧
      proxy = { u with declarations := [.class (proxyDeclaration hooks i wrapped)] } := by
  unfold weave at h
  cases proxyable : u.proxyable i.base with
  | error e => simp [proxyable, bind, Except.bind] at h
  | ok d =>
    cases wrapped : p.wrapped hooks d.methods with
    | error e => simp [proxyable, wrapped, forClass, bind, Except.bind, Except.mapError] at h
    | ok wrapped' =>
      cases checked : p.checkInherited hooks (d.methods.map (·.name)) inherited with
      | error e => simp [proxyable, wrapped, checked, forClass, bind, Except.bind, Except.mapError] at h
      | ok =>
        simp only [proxyable, wrapped, checked, forClass, bind, Except.bind, Except.mapError, pure, Except.pure,
          Except.ok.injEq] at h
        exact ⟨d, wrapped', rfl, wrapped, h.symm⟩

theorem proxyable_ok {u : SourceUnit} {c : ClassName} {d : ClassDecl} (h : u.proxyable c = .ok d) :
    u.classNamed c = .ok d ∧ asciiLower (u.package.getD "") = asciiLower (c.package?.getD "") := by
  unfold SourceUnit.proxyable at h
  cases named : u.classNamed c with
  | error e => simp [named, bind, Except.bind] at h
  | ok d' =>
    simp only [named, bind, Except.bind] at h
    split at h
    · cases h
    · split at h
      · cases h
      · rename_i package
        obtain rfl := Except.ok.inj h
        exact ⟨rfl, by simpa using package⟩

section Wraps

variable {policy : Policy} {hooks : HookSet} {i : Identity} {u proxy : SourceUnit} {inherited : List InheritedMethod}
  {d : ClassDecl} {parent : Option LoadedClass} {O P : LoadedClass} {m : Method}

/-- The class of a woven proxy wraps each method that it is to wrap, and finds each hook. -/
theorem wrapsMethod_of_weave (woven : weave policy hooks i u inherited = .ok proxy) (original : u.classNamed i.base = .ok d)
    (definedO : Machine.bodyOf u O.name (.class d) parent = .ok O)
    {declaration : Declaration} (declared : declaration ∈ proxy.declarations)
    (definedP : Machine.bodyOf proxy P.name declaration (some O) = .ok P) (hm : m ∈ d.methods)
    (free : hooks.get? m.name = none) (wraps : policy.wraps m = true)
    (distinct : (m.parameters.map (·.name)).Nodup) :
    WrapsMethod i.base P O m ∧ ∀ hook ∈ hooks.methods, P.findMethod hook.name = some (P, hook) := by
  obtain ⟨d', wrapped, proxyable, chosen, rfl⟩ := weave_ok woven
  obtain rfl : d' = d := Except.ok.inj ((proxyable_ok proxyable).1.symm.trans original)
  obtain rfl := List.mem_singleton.mp declared
  have bodyO := Machine.bodyOf_ok definedO
  have bodyP := Machine.bodyOf_ok definedP
  have methodsP : P.own.methods = wrapped.map (Method.wrapper i.base) ++ hooks.methods :=
    bodyP.methods.trans (methods_proxyDeclaration hooks i wrapped)
  have ownWrapper : m.wrapper i.base ∈ P.own.methods := by
    rw [methodsP, Policy.wrapped_ok chosen]
    refine List.mem_append_left _ (List.mem_map_of_mem (List.mem_filter.mpr ⟨hm, ?_⟩))
    simp [free, wraps]
  refine ⟨{
    parent := bodyP.parent_eq
    wrapped := LoadedClass.findMethod_own bodyO.distinct (by rw [bodyO.methods]; exact hm)
    wrapper := LoadedClass.findMethod_own bodyP.distinct ownWrapper
    distinct }, fun hook h => LoadedClass.findMethod_own bodyP.distinct ?_⟩
  rw [methodsP]
  exact List.mem_append_right _ h

/-- The class of a proxy that is woven with the built-in aspect wraps each method with advice. -/
theorem wraps_of_weave (builtin : hooks.methods = [adviceBefore, adviceAfter, aspectInstance])
    (woven : weave policy hooks i u inherited = .ok proxy) (original : u.classNamed i.base = .ok d)
    (definedO : Machine.bodyOf u O.name (.class d) parent = .ok O)
    {declaration : Declaration} (declared : declaration ∈ proxy.declarations)
    (definedP : Machine.bodyOf proxy P.name declaration (some O) = .ok P) (hm : m ∈ d.methods)
    (free : hooks.get? m.name = none) (wraps : policy.wraps m = true)
    (distinct : (m.parameters.map (·.name)).Nodup) : Wraps i.base P O m := by
  obtain ⟨wrapsMethod, hook⟩ := wrapsMethod_of_weave woven original definedO declared definedP hm free wraps distinct
  exact {
    toWrapsMethod := wrapsMethod
    before := hook adviceBefore (by simp [builtin])
    after := hook adviceAfter (by simp [builtin]) }

end Wraps

end AspectProxy
