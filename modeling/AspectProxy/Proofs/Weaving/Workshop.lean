import AspectProxy.Proofs.Weaving.Rewoven
import AspectProxy.Proofs.Weaving.Walk

/-!
Making the units of proxies in a workshop. All that a workshop has was read from its places, so what it makes is written
as it is read; and it keeps what it has read, so the unit of a proxy is all that a proxy of the proxy needs besides.
-/

namespace AspectProxy

/-- A text whose floats are finite and are read from what they are written as. -/
def KeptFloats (text : String) : Prop :=
  FiniteFloats text ∧ ∀ u, SourceUnit.ofString? text = .ok u → u.Every (fun _ => True) Expr.ReadsBack

theorem keptFloats_of_read {text : String} (finite : FiniteFloats text) {u : SourceUnit}
    (read : SourceUnit.ofString? text = .ok u) (floats : u.Every (fun _ => True) Expr.ReadsBack) : KeptFloats text :=
  ⟨finite, fun _ again => Except.ok.inj (read.symm.trans again) ▸ floats⟩

theorem SourceUnit.stable_of_keptFloats {text : String} (kept : KeptFloats text) {u : SourceUnit}
    (read : ofString? text = .ok u) : u.Stable :=
  stable_of_ofString? read kept.1 (kept.2 u read)

/-- A store of texts without floats that overflow, and of units that were read from such. -/
structure UnitStore.Finite (s : UnitStore) : Prop where
  texts : ∀ c source, s.places.resolve c = .ok source → KeptFloats source.text
  units : ∀ e ∈ s.units, ∃ text, KeptFloats text ∧ SourceUnit.ofString? text = .ok e.2

namespace UnitStore.Finite

variable {s t : UnitStore} {c : ClassName} {u : SourceUnit}

theorem extended (h : s.Finite) (grown : s.Extended t) : t.Finite where
  texts := by
    rw [grown.places]
    exact h.texts
  units := by
    intro e he
    rcases grown.read e he with there | ⟨source, found, read⟩
    · exact h.units e there
    · exact ⟨source.text, h.texts _ _ found, read⟩

theorem stable (h : s.Finite) (kept : s.unit? c = some u) : u.Stable := by
  obtain ⟨e, found, rfl⟩ := Option.map_eq_some_iff.mp kept
  obtain ⟨text, floats, read⟩ := h.units e (List.mem_of_find?_eq_some found)
  exact SourceUnit.stable_of_keptFloats floats read

end UnitStore.Finite

/-- A workshop whose units and whose hooks are of texts without floats that overflow. -/
structure Workshop.Finite (w : Workshop) : Prop where
  units : w.units.Finite
  hooks : ∀ hooks ∈ w.hooks, ∃ text a, KeptFloats text ∧ SourceUnit.ofString? text = .ok a ∧
    HookSet.ofUnit w.aspect a = .ok hooks

namespace Workshop

variable {w w' : Workshop} {c : ClassName} {u proxy : SourceUnit} {i : Identity} {hooks : HookSet}
  {ancestors : List Ancestor}

/-- Hooks that are found were known, or the unit of the aspect has them. -/
theorem hookSet_ok (h : hookSet w = (.ok hooks, w')) : ∃ units, w' = { w with units, hooks := some hooks } ∧
    w.units.Extended units ∧
      (w.hooks = some hooks ∨ ∃ a, units.unit? w.aspect = some a ∧ HookSet.ofUnit w.aspect a = .ok hooks) := by
  unfold hookSet findHooks at h
  cases known : w.hooks with
  | some found =>
    simp only [known] at h
    cases h
    exact ⟨w.units, by rw [← known], .refl _, .inl rfl⟩
  | none =>
    have grown := w.units.get_extended w.aspect
    rcases got : w.units.get w.aspect with ⟨e | a, units⟩
    · simp only [known, got] at h
      cases h
    · rw [got] at grown
      cases made : HookSet.ofUnit w.aspect a with
      | error problem =>
        simp only [known, got, made] at h
        cases h
      | ok found =>
        simp only [known, got, made] at h
        cases h
        exact ⟨units, rfl, grown, .inr ⟨a, UnitStore.unit?_get got, made⟩⟩

/-- The ancestors of a class that can be proxied, as they are kept from then on. -/
theorem ancestors_ok (kept : w.units.unit? c = some u) (h : Workshop.ancestors UnitStore.get c u w = (.ok ancestors, w')) :
    ∃ d units, w' = { w with units } ∧ w.units.Extended units ∧ u.proxyable c = .ok d ∧
      Lineage units (some c) (⟨c, d⟩ :: ancestors) ∧ Distinct (⟨c, d⟩ :: ancestors) ∧ ancestors.length ≤ w.units.bound := by
  unfold Workshop.ancestors ancestorsOf at h
  obtain ⟨_, _, got, step⟩ := of_run_bind h
  cases got
  obtain ⟨d, _, lifted, next⟩ := of_run_bind step
  obtain ⟨proxyable, rfl⟩ := liftExcept_ok lifted
  obtain ⟨parent, _, lifted, walked⟩ := of_run_bind next
  obtain ⟨refers, rfl⟩ := liftExcept_ok lifted
  obtain ⟨units, rfl, grown, lineage, short, apart, distinct⟩ := ancestorsWithin_ok walked
  have declared : u.declaration? c.short = some (.class d) := classNamed_ok (proxyable_ok proxyable).1
  refine ⟨d, units, rfl, grown, proxyable, ?_, ?_, short⟩
  · exact .parent (grown.unit? kept) declared (parentOf_origin refers) lineage
  · exact List.pairwise_cons.mpr ⟨fun a ha => apart a ha c List.mem_cons_self, distinct⟩

theorem ofExcept_ok {r : Except ProxyError α} {a : α} (h : ofExcept r w = (.ok a, w')) : r = .ok a ∧ w' = w := by
  cases h
  exact ⟨rfl, rfl⟩

theorem bound_mono {s t : UnitStore} (grown : s.Extended t) : s.bound ≤ t.bound := by
  have longer := grown.units.length_le
  unfold UnitStore.bound UnitStore.size
  rw [grown.places]
  omega

/-- How a workshop made the unit of a proxy: with the units of the class and of its ancestors, and with the hooks. -/
structure Made (w w' : Workshop) (i : Identity) (proxy : SourceUnit) (hooks : HookSet) (u : SourceUnit)
    (classes : List Ancestor) : Prop where
  after : w' = { w with units := w'.units, hooks := some hooks }
  grown : w.units.Extended w'.units
  unit : w'.units.unit? i.base = some u
  lineage : Lineage w'.units (some i.base) classes
  distinct : Distinct classes
  bounded : classes.length ≤ w'.units.bound + 1
  found : w.hooks = some hooks ∨ ∃ a, w'.units.unit? w.aspect = some a ∧ HookSet.ofUnit w.aspect a = .ok hooks
  woven : weave w.policy hooks i u (inheritedMethods classes.tail) = .ok proxy

theorem proxyUnit_ok (h : proxyUnit UnitStore.get i w = (.ok proxy, w')) :
    ∃ hooks u classes, Made w w' i proxy hooks u classes := by
  unfold proxyUnit at h
  obtain ⟨u, _, fetched, afterFetch⟩ := of_run_bind h
  obtain ⟨read, got, rfl⟩ := fetch_ok fetched
  have first : w.units.Extended read := by
    have grown := w.units.get_extended i.base
    rwa [got] at grown
  obtain ⟨ancestors, _, walked, afterWalk⟩ := of_run_bind afterFetch
  obtain ⟨d, walkedTo, rfl, second, -, lineage, distinct, short⟩ := ancestors_ok (UnitStore.unit?_get got) walked
  obtain ⟨hooks, _, looked, afterHooks⟩ := of_run_bind afterWalk
  obtain ⟨units, rfl, third, found⟩ := hookSet_ok looked
  obtain ⟨_, _, same, step⟩ := of_run_bind afterHooks
  cases same
  obtain ⟨made, _, weaving, checking⟩ := of_run_bind step
  obtain ⟨woven, rfl⟩ := ofExcept_ok weaving
  obtain ⟨_, _, checked, last⟩ := of_run_bind checking
  obtain ⟨-, rfl⟩ := ofExcept_ok checked
  cases last
  refine ⟨hooks, u, ⟨i.base, d⟩ :: ancestors, rfl, (first.trans second).trans third, ?_, ?_, distinct, ?_, found, woven⟩
  · exact (second.trans third).unit? (UnitStore.unit?_get got)
  · exact lineage.mono fun c u => third.unit?
  · exact Nat.succ_le_succ (short.trans (bound_mono (second.trans third)))

theorem ancestors_of_lineage {d : ClassDecl} {parent : Option ClassName} (proxyable : u.proxyable c = .ok d)
    (refers : u.parentOf c d = .ok parent) (lineage : Lineage w.units parent ancestors)
    (apart : ∀ a ∈ ancestors, (c == a.name) = false) (distinct : Distinct ancestors)
    (bounded : ancestors.length ≤ w.units.bound) :
    Workshop.ancestors UnitStore.get c u w = (.ok ancestors, w) := by
  have unseen : ∀ a ∈ ancestors, ∀ x ∈ [c], (x == a.name) = false :=
    fun a ha => List.forall_mem_singleton.mpr (apart a ha)
  unfold Workshop.ancestors ancestorsOf
  refine (run_bind (x := get) rfl).trans ?_
  refine (run_bind (liftExcept_run proxyable)).trans ?_
  refine (run_bind (liftExcept_run refers)).trans ?_
  exact ancestorsWithin_of_lineage lineage bounded unseen distinct

theorem ofExcept_run {r : Except ProxyError α} {a : α} (h : r = .ok a) : ofExcept r w = (.ok a, w) := by
  rw [h]
  rfl

theorem hookSet_of_known (known : w.hooks = some hooks) : hookSet w = (.ok hooks, w) := by
  rw [hookSet, known]

/-- Hooks that are not known yet are those that the unit of the aspect declares. -/
theorem hookSet_of_get {a : SourceUnit} {units : UnitStore} (unknown : w.hooks = none)
    (got : w.units.get w.aspect = (.ok a, units)) (declared : HookSet.ofUnit w.aspect a = .ok hooks) :
    hookSet w = (.ok hooks, { w with units, hooks := some hooks }) := by
  simp only [hookSet, unknown, findHooks, got, declared]

theorem proxyUnit_run {units : UnitStore} (got : w.units.get i.base = (.ok u, units))
    (walked : Workshop.ancestors UnitStore.get i.base u { w with units } = (.ok ancestors, { w with units }))
    (looked : hookSet { w with units } = (.ok hooks, w'))
    (woven : weave w'.policy hooks i u (inheritedMethods ancestors) = .ok proxy) :
    proxyUnit UnitStore.get i w = (.ok proxy, w') := by
  have fetched : Workshop.fetch UnitStore.get i.base w = (.ok u, { w with units }) := by
    rw [Workshop.fetch, got]
    rfl
  unfold proxyUnit
  refine (run_bind fetched).trans ((run_bind walked).trans ((run_bind looked).trans ?_))
  refine (run_bind (x := get) rfl).trans ((run_bind (ofExcept_run woven)).trans ?_)
  exact run_bind (ofExcept_run (checkProxy_of_weave woven))

theorem parentOf_of_parentName {name origin parent : ClassName} {d : ClassDecl} {reference : String}
    (refers : d.parent = some reference) (means : Machine.parentName u name reference = .ok parent) :
    u.parentOf origin d = .ok (some parent) := by
  unfold Machine.parentName at means
  split at means
  · cases means
  · simp only [SourceUnit.parentOf, refers]
    cases parsed : ClassName.parse (u.resolve reference) with
    | error e => simp only [parsed] at means; cases means
    | ok c => simp only [parsed] at means; cases means; rfl

section Again

variable {classes : List Ancestor}

theorem Made.hooks_stable (made : Made w w' i proxy hooks u classes) (finite : w.Finite) :
    ∀ hook ∈ hooks.methods, hook.Stable := by
  rcases made.found with known | ⟨a, kept, declared⟩
  · obtain ⟨text, a, floats, read, declared⟩ := finite.hooks hooks known
    exact HookSet.meets (SourceUnit.stable_of_keptFloats floats read) declared
  · exact HookSet.meets ((finite.units.extended made.grown).stable kept) declared

theorem Made.unit_stable (made : Made w w' i proxy hooks u classes) (finite : w.Finite) : u.Stable :=
  (finite.units.extended made.grown).stable made.unit

variable (made : Made w w' i proxy hooks u classes) {v : Workshop} {units : UnitStore}
  (kept : ∀ c u, w'.units.unit? c = some u → v.units.unit? c = some u) (bound : w'.units.bound ≤ v.units.bound)
  (unread : v.units.unit? i.proxy = none) (got : v.units.get i.proxy = (.ok proxy, units))

include made kept bound unread got

/-- The walk from a proxy leads to the class, under the name that the unit of the proxy has for it, and from there on as
before. -/
theorem Made.walk {d : ClassDecl} {base : ClassName} (same : (base == i.base) = true)
    (proxyable : proxy.proxyable i.proxy = .ok d) (refers : proxy.parentOf i.proxy d = .ok (some base)) :
    ∃ ancestors, Workshop.ancestors UnitStore.get i.proxy proxy { v with units } = (.ok ancestors, { v with units }) := by
  obtain ⟨d, above, rfl⟩ : ∃ d above, classes = ⟨i.base, d⟩ :: above := by
    cases made.lineage
    exact ⟨_, _, rfl⟩
  have lineage := made.lineage.renamed same
  have unreadBefore : w'.units.unit? i.proxy = none := by
    by_contra some
    obtain ⟨x, here⟩ := Option.ne_none_iff_exists'.mp some
    rw [kept _ x here] at unread
    cases unread
  have distinct : Distinct (⟨base, d⟩ :: above) := by
    obtain ⟨apart, rest⟩ := List.pairwise_cons.mp made.distinct
    refine List.pairwise_cons.mpr ⟨fun a ha => ?_, rest⟩
    rw [ClassName.beq_congr_left same]
    exact apart a ha
  have grown := v.units.get_extended i.proxy
  rw [got] at grown
  have bounded : (⟨base, d⟩ :: above : List Ancestor).length ≤ units.bound := by
    have before := made.bounded
    rcases UnitStore.get_ok got with ⟨there, -⟩ | ⟨-, source, -, -, -, rfl⟩
    · rw [unread] at there
      cases there
    · simp only [UnitStore.bound, UnitStore.size, List.length_append, List.length_cons, List.length_nil] at before bound ⊢
      omega
  exact ⟨_, ancestors_of_lineage (w := { v with units }) proxyable refers
    (lineage.mono fun c u h => grown.unit? (kept c u h)) (lineage.ne_of_unread unreadBefore) distinct bounded⟩

/-- A workshop that has the units another made a proxy from, the same hooks and policy, and the unit of the proxy,
makes a proxy of the proxy. -/
theorem Made.again (finite : w.Finite) (package : i.proxy.package? = i.base.package?) (free : ¬proxy.Captures i.base)
    (policy : v.policy = w.policy) (known : v.hooks = some hooks) : ∃ wrapped : List Method,
      (∀ m ∈ wrapped, w.policy.wraps m = true) ∧
      proxy = { u with declarations := [.class (proxyDeclaration hooks i wrapped)] } ∧
      ∀ j : Identity, j.base = i.proxy → ∃ again above,
        again = { proxy with declarations := [.class (proxyDeclaration hooks j (wrapped.map (Method.wrapper i.base)))] } ∧
          weave w.policy hooks j proxy above = .ok again ∧
          proxyUnit UnitStore.get j v = (.ok again, { v with units }) := by
  have settled := HookSet.settled_of_stable (made.hooks_stable finite)
  have written := made.unit_stable finite
  obtain ⟨wrapped, wraps, unitEq, proxyable, woven⟩ := weave_again settled package made.woven
  obtain ⟨base, means, same⟩ : ∃ parent, Machine.parentName proxy i.proxy i.base.text = .ok parent ∧
      (parent == i.base) = true := by
    obtain ⟨d, -, proxied, -, -⟩ := weave_ok made.woven
    refine (parentName_iff ?_ ?_ ?_ i.proxy).mpr free <;> rw [unitEq]
    · exact written.package
    · exact written.imports
    · exact (proxyable_ok proxied).2
  obtain ⟨ancestors, walked⟩ := made.walk kept bound unread got same proxyable (parentOf_of_parentName rfl means)
  refine ⟨wrapped, wraps, unitEq, fun j same => ⟨_, inheritedMethods ancestors, rfl, woven j _ same, ?_⟩⟩
  rw [← same] at got walked
  rw [← policy] at woven
  exact proxyUnit_run got walked (hookSet_of_known known) (woven j _ same)

end Again

end Workshop

end AspectProxy
