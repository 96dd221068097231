import AspectProxy.Proofs.ClassTable.OneClass
import AspectProxy.Proofs.Weaving.Printed
import AspectProxy.Proofs.Weaving.ProxyNames
import AspectProxy.Proofs.Weaving.Sameness

/-!
Weaving a proxy of a proxy. The hooks are the same methods as those the proxy declares, so nothing collides with them
whatever the policy, and its wrappers are wrapped again: the new proxy declares the same names in the same order.
-/

namespace AspectProxy

namespace HookSet

theorem get?_of_mem (hooks : HookSet) {hook : Method} (h : hook ∈ hooks.methods) : hooks.get? hook.name = some hook := by
  cases found : hooks.get? hook.name with
  | none => exact absurd (List.find?_eq_none.mp found hook h) (by simp)
  | some other =>
    have named : other.name = hook.name := by simpa using List.find?_some found
    rw [List.inj_on_of_nodup_map hooks.distinct (List.mem_of_find?_eq_some found) h named]

theorem mem_names_of_get? {hooks : HookSet} {name : String} {hook : Method} (h : hooks.get? name = some hook) :
    name ∈ hooks.names := by
  have named : hook.name = name := by simpa using List.find?_some h
  exact named ▸ List.mem_map_of_mem (List.mem_of_find?_eq_some h)

/-- Hooks that are the same as themselves. -/
def Settled (hooks : HookSet) : Prop :=
  ∀ hook ∈ hooks.methods, (hook == hook) = true

theorem settled_of_stable {hooks : HookSet} (stable : ∀ hook ∈ hooks.methods, hook.Stable) : hooks.Settled := by
  intro hook h
  have written : (Member.method hook).Every Statement.Sound Expr.Sound :=
    .imp (fun _ here _ => here) (fun _ here _ => Expr.soundWith_isFinite.mp here.1.1) (stable hook h).every
      (stable hook h).every
  exact Method.beq_self written

end HookSet

namespace Policy

variable {hooks : HookSet} (p : Policy)

/-- Hooks among the methods of a class are settled, and none of them is wrapped. -/
theorem wrapped_hooks (settled : hooks.Settled) {methods : List Method} (h : methods ⊆ hooks.methods) :
    p.wrapped hooks methods = .ok [] := by
  induction methods with
  | nil => rfl
  | cons m rest ih =>
    obtain ⟨here, more⟩ := List.cons_subset.mp h
    have free : p.settle m none m = .ok () := by simp only [settle, settled m here, if_true]
    rw [wrapped, hooks.get?_of_mem here]
    dsimp only
    rw [free]
    exact ih more

/-- Methods that no hook replaces and that the policy wraps are wrapped in front of the others. -/
theorem wrapped_append {methods rest others : List Method}
    (h : ∀ m ∈ methods, hooks.get? m.name = none ∧ p.wraps m = true) (behind : p.wrapped hooks rest = .ok others) :
    p.wrapped hooks (methods ++ rest) = .ok (methods ++ others) := by
  induction methods with
  | nil => exact behind
  | cons m methods ih =>
    obtain ⟨⟨free, wraps⟩, more⟩ := List.forall_mem_cons.mp h
    rw [List.cons_append, wrapped, free]
    dsimp only
    rw [ih more]
    simp only [bind, Except.bind, wraps, if_true]
    rfl

/-- Where the names of all hooks are settled, nothing inherited collides with them. -/
theorem checkInherited_settled {settled : List String} (h : ∀ name ∈ hooks.names, name ∈ settled)
    (inherited : List InheritedMethod) : p.checkInherited hooks settled inherited = .ok () := by
  induction inherited generalizing settled with
  | nil => rfl
  | cons i rest ih =>
    have more := ih fun name hname => List.mem_cons_of_mem i.method.name (h name hname)
    rw [checkInherited]
    split
    case isTrue other =>
      cases hook : hooks.get? i.method.name with
      | some found => exact absurd (h _ (HookSet.mem_names_of_get? hook)) other
      | none => exact more
    case isFalse => exact more

/-- The wrappers of a proxy are what is wrapped of its methods. -/
theorem wrapped_proxyDeclaration (settled : hooks.Settled) {methods wrapped : List Method}
    (chosen : p.wrapped hooks methods = .ok wrapped) (i : Identity) :
    p.wrapped hooks (proxyDeclaration hooks i wrapped).methods = .ok (wrapped.map (Method.wrapper i.base)) := by
  have free : ∀ m ∈ wrapped.map (Method.wrapper i.base), hooks.get? m.name = none ∧ p.wraps m = true := by
    intro m hm
    obtain ⟨original, horiginal, rfl⟩ := List.mem_map.mp hm
    rw [wrapped_ok chosen] at horiginal
    have picked := (List.mem_filter.mp horiginal).2
    rw [Bool.and_eq_true, Option.isNone_iff_eq_none] at picked
    exact picked
  have whole := p.wrapped_append free (p.wrapped_hooks settled (List.Subset.refl _))
  rwa [List.append_nil, ← methods_proxyDeclaration] at whole

end Policy

section Again

variable {p : Policy} {hooks : HookSet} {i : Identity} {u proxy : SourceUnit} {inherited : List InheritedMethod}

theorem bind_of_eq_ok {x : Except ε α} {a : α} {f : α → Except ε β} (h : x = .ok a) : (x >>= f) = f a := by
  rw [h]
  rfl

theorem forM_of_eq_ok {f : α → Except ε PUnit} {xs : List α} (h : ∀ x ∈ xs, f x = .ok ⟨⟩) : xs.forM f = .ok ⟨⟩ := by
  induction xs with
  | nil => rfl
  | cons x xs ih =>
    obtain ⟨here, more⟩ := List.forall_mem_cons.mp h
    exact (bind_of_eq_ok here).trans (ih more)

/-- The class of a proxy finds each method that it declares. -/
theorem method?_proxyDeclaration {wrapped : List Method} {m : Method}
    (h : m ∈ wrapped.map (Method.wrapper i.base) ++ hooks.methods) :
    ((proxyDeclaration hooks i wrapped).method? m.name).isSome = true := by
  rw [ClassDecl.method?, methods_proxyDeclaration, List.find?_isSome]
  exact ⟨m, h, by simp⟩

theorem extendsClass_proxyDeclaration (wrapped : List Method) :
    (proxyDeclaration hooks i wrapped).extendsClass i.base = true := by
  simp only [ClassDecl.extendsClass, proxyDeclaration, Option.map_some, ClassName.parse_of_isDottedName i.base.valid]
  exact ClassName.beq_self i.base

/-- A woven proxy passes its check. -/
theorem checkProxy_of_weave (woven : weave p hooks i u inherited = .ok proxy) : checkProxy p hooks i u proxy = .ok () := by
  obtain ⟨d, wrapped, proxyable, chosen, rfl⟩ := weave_ok woven
  have wrappers : wrapped.forM (fun m => require i.base ((proxyDeclaration hooks i wrapped).method? m.name).isSome
      (.noWrapper m.name)) = .ok () := by
    refine forM_of_eq_ok fun m hm => if_pos ?_
    exact method?_proxyDeclaration (m := m.wrapper i.base) (List.mem_append_left _ (List.mem_map_of_mem hm))
  have declared : hooks.names.forM (fun h => require i.base ((proxyDeclaration hooks i wrapped).method? h).isSome
      (.noHook h)) = .ok () := by
    refine forM_of_eq_ok fun h hh => if_pos ?_
    obtain ⟨hook, mem, rfl⟩ := List.mem_map.mp hh
    exact method?_proxyDeclaration (List.mem_append_right _ mem)
  have chosen : forClass i.base (p.wrapped hooks d.methods) = .ok wrapped := by rw [chosen]; rfl
  unfold checkProxy
  refine (bind_of_eq_ok (if_pos (by simp [proxyDeclaration]))).trans ?_
  refine (bind_of_eq_ok (if_pos (extendsClass_proxyDeclaration wrapped))).trans ?_
  refine (bind_of_eq_ok (proxyable_ok proxyable).1).trans ?_
  refine (bind_of_eq_ok chosen).trans ?_
  exact (bind_of_eq_ok wrappers).trans declared

/-- The unit of a proxy declares a class that can be proxied. -/
theorem proxyable_of_weave (package : i.proxy.package? = i.base.package?)
    (woven : weave p hooks i u inherited = .ok proxy) : ∃ (d : ClassDecl) (wrapped : List Method),
      u.proxyable i.base = .ok d ∧ p.wrapped hooks d.methods = .ok wrapped ∧
      proxy = { u with declarations := [.class (proxyDeclaration hooks i wrapped)] } ∧
      proxy.proxyable i.proxy = .ok (proxyDeclaration hooks i wrapped) := by
  obtain ⟨d, wrapped, proxyable, chosen, rfl⟩ := weave_ok woven
  refine ⟨d, wrapped, proxyable, chosen, rfl, ?_⟩
  have named : SourceUnit.classNamed { u with declarations := [.class (proxyDeclaration hooks i wrapped)] } i.proxy =
      .ok (proxyDeclaration hooks i wrapped) := by
    simp [SourceUnit.classNamed, SourceUnit.declaration?, Declaration.name, proxyDeclaration]
  refine (bind_of_eq_ok named).trans ?_
  have same := (proxyable_ok proxyable).2
  simp [proxyDeclaration, package, same]

/-- What is woven of the unit of a proxy: a wrapper around each wrapper, and the hooks again. -/
theorem weave_again (settled : hooks.Settled) (package : i.proxy.package? = i.base.package?)
    (woven : weave p hooks i u inherited = .ok proxy) : ∃ wrapped : List Method,
      (∀ m ∈ wrapped, p.wraps m = true) ∧
      proxy = { u with declarations := [.class (proxyDeclaration hooks i wrapped)] } ∧
      proxy.proxyable i.proxy = .ok (proxyDeclaration hooks i wrapped) ∧
      ∀ (j : Identity) (above : List InheritedMethod), j.base = i.proxy → weave p hooks j proxy above =
        .ok { proxy with declarations := [.class (proxyDeclaration hooks j (wrapped.map (Method.wrapper i.base)))] } := by
  obtain ⟨d, wrapped, -, chosen, made, proxyable⟩ := proxyable_of_weave package woven
  have wraps : ∀ m ∈ wrapped, p.wraps m = true := by
    intro m hm
    rw [Policy.wrapped_ok chosen] at hm
    exact (Bool.and_eq_true_iff.mp (List.mem_filter.mp hm).2).2
  refine ⟨wrapped, wraps, made, proxyable, fun j above base => ?_⟩
  have again := p.wrapped_proxyDeclaration settled chosen i
  have names : ∀ name ∈ hooks.names, name ∈ (proxyDeclaration hooks i wrapped).methods.map (·.name) := by
    intro name hname
    rw [methods_proxyDeclaration, List.map_append]
    exact List.mem_append_right _ hname
  have checked := p.checkInherited_settled names above
  unfold weave
  rw [base]
  refine (bind_of_eq_ok proxyable).trans ?_
  refine (bind_of_eq_ok (a := wrapped.map (Method.wrapper i.base)) (by rw [again]; rfl)).trans ?_
  refine (bind_of_eq_ok (a := ()) (by rw [checked]; rfl)).trans ?_
  rw [← base]
  rfl

/-- The names that a proxy declares are those of what it wraps and of the hooks. -/
theorem methodNames_proxyDeclaration (wrapped : List Method) :
    (proxyDeclaration hooks i wrapped).methods.map (·.name) = wrapped.map (·.name) ++ hooks.names := by
  rw [methods_proxyDeclaration, List.map_append, List.map_map]
  rfl

end Again

/-- What a class declares counts as final above a class below it if it is. -/
theorem overridesFinal_own {c : LoadedClass} (distinct : (c.own.methods.map (·.name)).Nodup) {m : Method}
    (hm : m ∈ c.own.methods) : Machine.overridesFinal (some c) m.name = m.modifiers.isFinal := by
  rw [Machine.overridesFinal, Option.bind_some, LoadedClass.findMethod_own distinct hm]

theorem Policy.open_of_wraps {p : Policy} {m : Method} (h : p.wraps m = true) : m.modifiers.isFinal = false := by
  simp only [wraps, Bool.and_eq_true, Bool.not_eq_true'] at h
  exact h.1.1.2

/-- The runtime takes a proxy below the class of another with the same hooks exactly when no hook is final. -/
theorem bodyOf_above_proxy {hooks : HookSet} {i j : Identity} {wrapped : List Method}
    (wraps : ∀ m ∈ wrapped, m.modifiers.isFinal = false) {u v : SourceUnit} {name name' : ClassName}
    {parent : Option LoadedClass} {c : LoadedClass}
    (as : Machine.BodyOf u name (.class (proxyDeclaration hooks i wrapped)) parent c) :
    (∃ c', Machine.bodyOf v name' (.class (proxyDeclaration hooks j (wrapped.map (Method.wrapper i.base)))) (some c) =
      .ok c') ↔ ∀ hook ∈ hooks.methods, hook.modifiers.isFinal = false := by
  have declared : c.own.methods = wrapped.map (Method.wrapper i.base) ++ hooks.methods :=
    as.methods.trans (methods_proxyDeclaration hooks i wrapped)
  have names : (((wrapped.map (Method.wrapper i.base)).map (Method.wrapper j.base) ++ hooks.methods).map (·.name)) =
      c.own.methods.map (·.name) := by
    rw [declared, List.map_append, List.map_append, List.map_map]
    rfl
  have members : (proxyDeclaration hooks j (wrapped.map (Method.wrapper i.base))).members =
      ((wrapped.map (Method.wrapper i.base)).map (Method.wrapper j.base) ++ hooks.methods).map .method := rfl
  rw [Machine.bodyOf_methods members (names ▸ as.distinct)]
  have final : ∀ m ∈ c.own.methods, Machine.overridesFinal (some c) m.name = m.modifiers.isFinal :=
    fun m hm => overridesFinal_own as.distinct hm
  rw [declared] at final
  constructor
  · intro allowed hook hhook
    rw [← final hook (List.mem_append_right _ hhook)]
    exact allowed hook (List.mem_append_right _ hhook)
  · intro free m hm
    rcases List.mem_append.mp hm with hm | hm
    · obtain ⟨w, hw, rfl⟩ := List.mem_map.mp hm
      obtain ⟨original, horiginal, rfl⟩ := List.mem_map.mp hw
      exact (final _ (List.mem_append_left _ hw)).trans (wraps original horiginal)
    · exact (final m (List.mem_append_right _ hm)).trans (free m hm)

end AspectProxy
