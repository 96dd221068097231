import AspectProxy.Proofs.Weaving.Accepted

/-!
What a woven unit holds. Its only class declares a wrapper for each method that is chosen of the class it extends, in the
order of that class, then the hooks in theirs, and nothing else. Only the name of the class tells one proxy of a class from
another.
-/

namespace AspectProxy

/-- The methods of a class that get a wrapper: no static and no final one, none that makes objects, none with the name of a
hook, and private ones only if the policy says so. -/
def Policy.Chooses (p : Policy) (hooks : HookSet) (m : Method) : Prop :=
  m.modifiers.isStatic = false ∧ m.modifiers.isFinal = false ∧ m.name ≠ constructorName ∧ m.name ∉ hooks.names ∧
    (m.modifiers.visibility = .owner → p.wrapPrivate = true)

instance (p : Policy) (hooks : HookSet) : DecidablePred (p.Chooses hooks) :=
  fun _ => inferInstanceAs (Decidable (_ ∧ _ ∧ _ ∧ _ ∧ _))

/-- A class `c` that a proxy of class `d` is. -/
structure ClassDecl.IsProxyOf (c d : ClassDecl) (p : Policy) (hooks : HookSet) (i : Identity) : Prop where
  name_eq : c.name = i.proxy.short
  notFinal : c.isFinal = false
  parent_eq : c.parent = some i.base.text
  members_eq : c.members =
    ((d.methods.filter (p.Chooses hooks)).map (Method.wrapper i.base) ++ hooks.methods).map .method

namespace HookSet

theorem get?_eq_none_iff {hooks : HookSet} {name : String} : hooks.get? name = none ↔ name ∉ hooks.names := by
  simp [get?, names]

end HookSet

namespace Policy

variable {p : Policy} {hooks : HookSet} {methods wrapped : List Method}

theorem wraps_iff {m : Method} : p.wraps m = true ↔ m.modifiers.isStatic = false ∧ m.modifiers.isFinal = false ∧
    m.name ≠ constructorName ∧ (m.modifiers.visibility = .owner → p.wrapPrivate = true) := by
  simp only [wraps, Method.isConstructor, Bool.and_eq_true, Bool.or_eq_true, Bool.not_eq_true', decide_eq_true_eq,
    decide_eq_false_iff_not, and_assoc, or_comm, Decidable.imp_iff_not_or, ne_eq]

/-- What is wrapped of some methods are those that are chosen. -/
theorem wrapped_eq_filter (chosen : p.wrapped hooks methods = .ok wrapped) :
    wrapped = methods.filter (p.Chooses hooks) := by
  rw [wrapped_ok chosen]
  refine List.filter_congr fun m _ => ?_
  rw [Bool.eq_iff_iff, Bool.and_eq_true, Option.isNone_iff_eq_none, HookSet.get?_eq_none_iff, wraps_iff, decide_eq_true_eq]
  unfold Chooses
  tauto

end Policy

/-- A wrapper differs from its method in the body alone: modifiers, name, parameters and return type are kept. -/
theorem Method.wrapper_signature (base : ClassName) (m : Method) : { m.wrapper base with body := m.body } = m :=
  rfl

section Shape

variable {p : Policy} {hooks : HookSet} {i : Identity} {u proxy : SourceUnit} {inherited : List InheritedMethod}

/-- The wrappers of methods under distinct names and the hooks have distinct names: no chosen method has that of a hook. -/
theorem nodup_proxyDeclaration {methods wrapped : List Method} (chosen : p.wrapped hooks methods = .ok wrapped)
    (distinct : (methods.map (·.name)).Nodup) : ((proxyDeclaration hooks i wrapped).methods.map (·.name)).Nodup := by
  rw [methodNames_proxyDeclaration, Policy.wrapped_eq_filter chosen]
  refine List.nodup_append'.mpr ⟨distinct.sublist (List.filter_sublist.map _), hooks.distinct, ?_⟩
  intro name own hook
  obtain ⟨m, hm, rfl⟩ := List.mem_map.mp own
  have ⟨_, _, _, free, _⟩ : p.Chooses hooks m := by simpa using (List.mem_filter.mp hm).2
  exact free hook

/-- Weaving comes to a unit exactly if the class can be extended and its methods and those it inherits can be settled. -/
theorem weave_eq_ok_iff : weave p hooks i u inherited = .ok proxy ↔ ∃ d wrapped, u.proxyable i.base = .ok d ∧
    p.wrapped hooks d.methods = .ok wrapped ∧ p.checkInherited hooks (d.methods.map (·.name)) inherited = .ok () ∧
      proxy = { u with declarations := [.class (proxyDeclaration hooks i wrapped)] } := by
  unfold weave
  simp only [bind_ok_iff, forClass_ok_iff]
  constructor
  · rintro ⟨d, proxyable, wrapped, chosen, ⟨⟩, checked, ⟨⟩⟩
    exact ⟨d, wrapped, proxyable, chosen, checked, rfl⟩
  · rintro ⟨d, wrapped, proxyable, chosen, checked, rfl⟩
    exact ⟨d, proxyable, wrapped, chosen, (), checked, rfl⟩

/-- What is woven is the unit of the class with one class in place of its declarations. That class has the short name of
the proxy and is not final; its members are a wrapper for each chosen method in order, which has all of the method but its
body, and then the hooks in order. Its methods have distinct names if those of the class do, the unit passes the check, and
for other names of a proxy the same is woven but for the name of the class. -/
theorem weave_shape (woven : weave p hooks i u inherited = .ok proxy) :
    ∃ d c : ClassDecl, u.declaration? i.base.short = some (.class d) ∧ proxy = { u with declarations := [.class c] } ∧
      c.IsProxyOf d p hooks i ∧
      (∀ m : Method, { m.wrapper i.base with body := m.body } = m) ∧
      ((d.methods.map (·.name)).Nodup → (c.methods.map (·.name)).Nodup) ∧
      checkProxy p hooks i u proxy = .ok () ∧
      ∀ j : Identity, j.base = i.base →
        weave p hooks j u inherited = .ok { u with declarations := [.class { c with name := j.proxy.short }] } := by
  obtain ⟨d, wrapped, proxyable, chosen, checked, made⟩ := weave_eq_ok_iff.mp woven
  refine ⟨d, proxyDeclaration hooks i wrapped, (proxyable_ok_iff.mp proxyable).1, made, ?_, Method.wrapper_signature i.base,
    nodup_proxyDeclaration chosen, checkProxy_of_weave woven, ?_⟩
  · exact {
      name_eq := rfl
      notFinal := rfl
      parent_eq := rfl
      members_eq := by rw [← Policy.wrapped_eq_filter chosen]; rfl }
  · intro j same
    rw [weave_eq_ok_iff, same]
    refine ⟨d, wrapped, proxyable, chosen, checked, ?_⟩
    simp only [proxyDeclaration, same]

end Shape

def lampSwitch : Method :=
  ⟨{}, "switch", [⟨"level", some ⟨"int", false⟩, some (.int 1)⟩], some ⟨"bool", false⟩, [.return (some (.bool true))]⟩

def lampInit : Method :=
  ⟨{}, constructorName, [⟨"level", none, none⟩], none, [.assign (.property .self "level") (.var "level")]⟩

/-- A class of which one method gets a wrapper: the others make objects, are static, final or private. -/
def lampDeclaration : ClassDecl where
  name := "Lamp"
  isFinal := false
  parent := none
  members :=
    [.property ⟨{}, "level", none, some (.int 0)⟩, .method lampInit,
      .method ⟨{ isStatic := true }, "count", [], none, []⟩, .method lampSwitch,
      .method ⟨{ isFinal := true }, "off", [], none, []⟩, .method ⟨{ visibility := .owner }, "dim", [], none, []⟩]

def lampUnit : SourceUnit where
  package := some "home"
  imports := [⟨"home.parts.Bulb", none⟩]
  declarations := [.class lampDeclaration]

def lampIdentity (n : Nat) : Identity :=
  .numbered ⟨"home.Lamp", by decide⟩ n

def lampProxy : SourceUnit where
  package := some "home"
  imports := [⟨"home.parts.Bulb", none⟩]
  declarations := [.class (proxyDeclaration aspectHooks (lampIdentity 1) [lampSwitch])]

theorem weave_lamp : weave {} aspectHooks (lampIdentity 1) lampUnit [] = .ok lampProxy :=
  SourceUnit.eq_ok_of_beq (by decide)

theorem weave_shape_lamp : ∃ c : ClassDecl, lampProxy = { lampUnit with declarations := [.class c] } ∧
    c.members = (lampSwitch.wrapper (lampIdentity 1).base :: aspectHooks.methods).map .method ∧
    (c.methods.map (·.name)).Nodup ∧ checkProxy {} aspectHooks (lampIdentity 1) lampUnit lampProxy = .ok () ∧
    weave {} aspectHooks (lampIdentity 2) lampUnit [] =
      .ok { lampUnit with declarations := [.class { c with name := (lampIdentity 2).proxy.short }] } := by
  obtain ⟨d, c, declared, made, shape, -, distinct, checked, other⟩ := weave_shape weave_lamp
  obtain rfl : lampDeclaration = d := by
    have found : lampUnit.declaration? (lampIdentity 1).base.short = some (.class lampDeclaration) := rfl
    exact Declaration.class.inj (Option.some.inj (found.symm.trans declared))
  have chosen : lampDeclaration.methods.filter (Policy.Chooses {} aspectHooks) = [lampSwitch] := rfl
  refine ⟨c, made, ?_, distinct (by decide), checked, other (lampIdentity 2) rfl⟩
  rw [shape.members_eq, chosen]
  rfl

end AspectProxy
