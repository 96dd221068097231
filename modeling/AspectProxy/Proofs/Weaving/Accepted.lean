import AspectProxy.Proofs.Weaving.Rewoven

/-!
Which proxies can be woven. A hook takes the place of every method of its name, own or inherited, and of the methods of
one name the nearest is the one that counts. So weaving is refused exactly where a method that counts is final, or the
policy protects it, and it is not the hook itself.
-/

namespace AspectProxy

/-- The first of some items with a property. -/
def IsFirst (p : α → Prop) (items : List α) (a : α) : Prop :=
  p a ∧ ∃ front back, items = front ++ a :: back ∧ ∀ b ∈ front, ¬p b

theorem find?_eq_some_iff_isFirst {p : α → Prop} [DecidablePred p] {items : List α} {a : α} :
    items.find? (fun b => p b) = some a ↔ IsFirst p items a := by
  simp only [List.find?_eq_some_iff_append, decide_eq_true_eq, Bool.not_eq_true', decide_eq_false_iff_not, IsFirst]

theorem bind_ok_iff {x : Except ε α} {f : α → Except ε β} {b : β} :
    (x >>= f) = .ok b ↔ ∃ a, x = .ok a ∧ f a = .ok b := by
  cases x <;> simp [bind, Except.bind]

/-- A check, and what runs behind it. -/
theorem check_ok_iff {x : Except ε Unit} {f : Unit → Except ε β} {b : β} :
    (x >>= f) = .ok b ↔ x = .ok () ∧ f () = .ok b := by
  cases x <;> simp [bind, Except.bind]

namespace Policy

variable {p : Policy} {hooks : HookSet}

/-- A method that gives way to a hook: the hook itself, or a method that is not final where hooks win. -/
def Yields (p : Policy) (m hook : Method) : Prop :=
  (hook == m) = true ∨ m.modifiers.isFinal = false ∧ p.onCollision = .hookWins

theorem settle_ok_iff {m hook : Method} {owner : Option ClassName} :
    p.settle m owner hook = .ok () ↔ p.Yields m hook := by
  unfold settle Yields
  by_cases same : (hook == m) = true
  · simp [same]
  · cases final : m.modifiers.isFinal <;> cases collision : p.onCollision <;> simp [same]

/-- The methods of a class can be settled if each gives way to the hook of its name. -/
theorem wrapped_ok_iff {methods : List Method} :
    (∃ wrapped, p.wrapped hooks methods = .ok wrapped) ↔
      ∀ m ∈ methods, ∀ hook, hooks.get? m.name = some hook → p.Yields m hook := by
  induction methods with
  | nil => simp [wrapped]
  | cons m rest ih =>
    rw [List.forall_mem_cons, ← ih, wrapped]
    cases hook : hooks.get? m.name with
    | some found => simp only [check_ok_iff, settle_ok_iff, exists_and_left, Option.some.injEq, forall_eq']
    | none =>
      simp only [bind_ok_iff, reduceCtorEq, false_implies, implies_true, true_and]
      constructor
      · rintro ⟨_, others, chosen, -⟩
        exact ⟨others, chosen⟩
      · rintro ⟨others, chosen⟩
        exact ⟨_, others, chosen, rfl⟩

/-- Inherited methods can be settled if for each name that is not settled the nearest method gives way to the hook of that
name. -/
theorem checkInherited_ok_iff {settled : List String} {inherited : List InheritedMethod} :
    p.checkInherited hooks settled inherited = .ok () ↔
      ∀ name ∉ settled, ∀ hook, hooks.get? name = some hook →
        ∀ i, inherited.find? (·.method.name = name) = some i → p.Yields i.method hook := by
  induction inherited generalizing settled with
  | nil => simp [checkInherited]
  | cons i rest ih =>
    have nearest : (i :: rest).find? (·.method.name = i.method.name) = some i :=
      List.find?_cons_of_pos (by simp)
    have farther : ∀ name ≠ i.method.name,
        (i :: rest).find? (·.method.name = name) = rest.find? (·.method.name = name) :=
      fun name other => List.find?_cons_of_neg (by simpa using other.symm)
    -- The first method counts under its own name, if that is not settled, and settles it for those behind.
    have step : (∀ name ∉ settled, ∀ hook, hooks.get? name = some hook →
          ∀ j, (i :: rest).find? (·.method.name = name) = some j → p.Yields j.method hook) ↔
        (i.method.name ∉ settled → ∀ hook, hooks.get? i.method.name = some hook → p.Yields i.method hook) ∧
          p.checkInherited hooks (i.method.name :: settled) rest = .ok () := by
      rw [ih]
      constructor
      · intro h
        refine ⟨fun free hook found => h _ free hook found i nearest, fun name apart => ?_⟩
        rw [List.mem_cons, not_or] at apart
        obtain ⟨other, free⟩ := apart
        exact farther name other ▸ h name free
      · rintro ⟨first, others⟩ name free
        by_cases same : name = i.method.name
        · subst same
          intro hook found j counts
          obtain rfl : i = j := Option.some.inj (nearest.symm.trans counts)
          exact first free hook found
        · rw [farther name same]
          exact others name fun h => (List.mem_cons.mp h).elim same free
    rw [step, checkInherited]
    by_cases free : i.method.name ∈ settled
    · simp [free]
    · cases hook : hooks.get? i.method.name with
      | some found => simp [free, check_ok_iff, settle_ok_iff]
      | none => simp [free]

end Policy

theorem HookSet.get?_eq_some_iff {hooks : HookSet} {name : String} {hook : Method} :
    hooks.get? name = some hook ↔ hook ∈ hooks.methods ∧ hook.name = name := by
  constructor
  · intro found
    exact ⟨List.mem_of_find?_eq_some found, by simpa using List.find?_some found⟩
  · rintro ⟨member, rfl⟩
    exact hooks.get?_of_mem member

theorem classNamed_ok_iff {u : SourceUnit} {c : ClassName} {d : ClassDecl} :
    u.classNamed c = .ok d ↔ u.declaration? c.short = some (.class d) := by
  unfold SourceUnit.classNamed
  split
  case h_1 e found => simp [found]
  case h_2 other => simpa using other d

theorem proxyable_ok_iff {u : SourceUnit} {c : ClassName} {d : ClassDecl} :
    u.proxyable c = .ok d ↔
      u.declaration? c.short = some (.class d) ∧ d.isFinal = false ∧
        asciiLower (u.package.getD "") = asciiLower (c.package?.getD "") := by
  unfold SourceUnit.proxyable
  simp only [bind_ok_iff, classNamed_ok_iff]
  constructor
  · rintro ⟨e, found, passed⟩
    split at passed
    · cases passed
    · split at passed
      · cases passed
      · rename_i open_ package
        obtain rfl := Except.ok.inj passed
        exact ⟨found, by simpa using open_, by simpa using package⟩
  · rintro ⟨found, open_, package⟩
    exact ⟨d, found, by simp [open_, package]⟩

theorem forClass_ok_iff {c : ClassName} {r : Except WeavingProblem α} {a : α} : forClass c r = .ok a ↔ r = .ok a := by
  cases r <;> simp [forClass, Except.mapError]

/-- A proxy can be woven exactly if the first declaration of its class's name is a class that can be extended, in the
package of the name, each method of the class gives way to the hook of its name, and so does, for each hook that the class
has no method of the name of, the nearest inherited method of that name. -/
theorem weave_ok_iff (p : Policy) (hooks : HookSet) (i : Identity) (u : SourceUnit) (inherited : List InheritedMethod) :
    (∃ proxy, weave p hooks i u inherited = .ok proxy) ↔
      ∃ d, IsFirst (fun e => asciiLower e.name = asciiLower i.base.short) u.declarations (.class d) ∧
        d.isFinal = false ∧
        asciiLower (u.package.getD "") = asciiLower (i.base.package?.getD "") ∧
        (∀ m ∈ d.methods, ∀ hook ∈ hooks.methods, hook.name = m.name → p.Yields m hook) ∧
        ∀ hook ∈ hooks.methods, (∀ m ∈ d.methods, m.name ≠ hook.name) →
          ∀ nearest, IsFirst (fun j => j.method.name = hook.name) inherited nearest → p.Yields nearest.method hook := by
  have own : ∀ d : ClassDecl, (∃ wrapped, p.wrapped hooks d.methods = .ok wrapped) ↔
      ∀ m ∈ d.methods, ∀ hook ∈ hooks.methods, hook.name = m.name → p.Yields m hook := by
    intro d
    simp only [Policy.wrapped_ok_iff, HookSet.get?_eq_some_iff, and_imp]
  have above : ∀ d : ClassDecl, p.checkInherited hooks (d.methods.map (·.name)) inherited = .ok () ↔
      ∀ hook ∈ hooks.methods, (∀ m ∈ d.methods, m.name ≠ hook.name) →
        ∀ nearest, IsFirst (fun j => j.method.name = hook.name) inherited nearest → p.Yields nearest.method hook := by
    intro d
    rw [Policy.checkInherited_ok_iff]
    simp only [HookSet.get?_eq_some_iff, find?_eq_some_iff_isFirst]
    constructor
    · intro h hook member other
      refine h hook.name ?_ hook ⟨member, rfl⟩
      simpa using other
    · rintro h name free hook ⟨member, rfl⟩
      refine h hook member ?_
      simpa using free
  unfold weave
  simp only [bind_ok_iff, forClass_ok_iff, proxyable_ok_iff]
  constructor
  · rintro ⟨proxy, d, ⟨found, open_, package⟩, wrapped, chosen, ⟨⟩, checked, -⟩
    exact ⟨d, find?_eq_some_iff_isFirst.mp found, open_, package, (own d).mp ⟨wrapped, chosen⟩, (above d).mp checked⟩
  · rintro ⟨d, first, open_, package, settled, checked⟩
    obtain ⟨wrapped, chosen⟩ := (own d).mpr settled
    exact ⟨_, d, ⟨find?_eq_some_iff_isFirst.mpr first, open_, package⟩, wrapped, chosen, (), (above d).mpr checked, rfl⟩

end AspectProxy
