import AspectProxy.Proofs.Outcomes
import AspectProxy.Proofs.Sources.Kept
import AspectProxy.Proofs.Weaving.ProxyNames
import AspectProxy.Proxy.Workshop

/-!
The walk from a class to its ancestors. A walk that ends has read the unit of each ancestor, and so the same walk from
any class below finds the same ancestors in the units that are kept, without reading any.
-/

namespace AspectProxy

/-- The ancestors from a parent on, as the units that a store keeps declare them. -/
inductive Lineage (s : UnitStore) : Option ClassName → List Ancestor → Prop
  | root : Lineage s none []
  | parent {c : ClassName} {u : SourceUnit} {d : ClassDecl} {next : Option ClassName} {rest : List Ancestor} :
    s.unit? c = some u → u.declaration? c.short = some (.class d) → (∀ origin, u.parentOf origin d = .ok next) →
    Lineage s next rest → Lineage s (some c) (⟨c, d⟩ :: rest)

/-- Classes of which each is met once. -/
def Distinct (ancestors : List Ancestor) : Prop :=
  ancestors.Pairwise fun a b => (a.name == b.name) = false

/-- A lineage stays where the units stay. -/
theorem Lineage.mono {s t : UnitStore} (h : ∀ c u, s.unit? c = some u → t.unit? c = some u)
    {parent : Option ClassName} {ancestors : List Ancestor} (lineage : Lineage s parent ancestors) :
    Lineage t parent ancestors := by
  induction lineage with
  | root => exact .root
  | parent kept declared next _ ih => exact .parent (h _ _ kept) declared next ih

/-- A class has its lineage under each of its names. -/
theorem Lineage.renamed {s : UnitStore} {c c' : ClassName} (same : (c' == c) = true) {d : ClassDecl}
    {rest : List Ancestor} (lineage : Lineage s (some c) (⟨c, d⟩ :: rest)) : Lineage s (some c') (⟨c', d⟩ :: rest) := by
  cases lineage with
  | @parent c u d next rest kept declared refers above =>
    refine .parent (u := u) ((UnitStore.unit?_congr same).trans kept) ?_ refers above
    rw [SourceUnit.declaration?_congr same, declared]

/-- A class that no unit is kept of is none of the ancestors. -/
theorem Lineage.ne_of_unread {s : UnitStore} {parent : Option ClassName} {ancestors : List Ancestor}
    (lineage : Lineage s parent ancestors) {c : ClassName} (unread : s.unit? c = none) :
    ∀ a ∈ ancestors, (c == a.name) = false := by
  induction lineage with
  | root => nofun
  | @parent d u _ _ _ kept _ _ _ ih =>
    refine List.forall_mem_cons.mpr ⟨?_, ih⟩
    by_contra same
    rw [Bool.not_eq_false] at same
    rw [UnitStore.unit?_congr same, kept] at unread
    cases unread

theorem parentOf_origin {u : SourceUnit} {origin : ClassName} {d : ClassDecl} {next : Option ClassName}
    (h : u.parentOf origin d = .ok next) (other : ClassName) : u.parentOf other d = .ok next := by
  unfold SourceUnit.parentOf at h ⊢
  split
  · rename_i none
    simpa only [none] using h
  · rename_i reference some
    simp only [some] at h
    split at h
    · rename_i parent parsed
      simpa only [parsed] using h
    · cases h

theorem ancestor_ok {u : SourceUnit} {origin name : ClassName} {a : Ancestor} (h : u.ancestor origin name = .ok a) :
    ∃ d, u.declaration? name.short = some (.class d) ∧ a = ⟨name, d⟩ := by
  unfold SourceUnit.ancestor at h
  split at h
  · rename_i d declared
    cases h
    exact ⟨d, declared, rfl⟩
  · cases h

section Walk

variable {origin : ClassName} {w w' : Workshop}

theorem fetch_ok {c : ClassName} {u : SourceUnit} (h : Workshop.fetch UnitStore.get c w = (.ok u, w')) :
    ∃ units, w.units.get c = (.ok u, units) ∧ w' = { w with units } := by
  unfold Workshop.fetch at h
  rcases got : w.units.get c with ⟨_ | v, units⟩ <;> rw [got] at h <;> cases h
  exact ⟨units, rfl, rfl⟩

theorem fetch_of_unit? {c : ClassName} {u : SourceUnit} (kept : w.units.unit? c = some u) :
    Workshop.fetch UnitStore.get c w = (.ok u, w) := by
  rw [Workshop.fetch, UnitStore.get_of_unit? kept]
  rfl

theorem liftExcept_ok {r : Except ProxyError α} {a : α}
    (h : (ancestorsWithin.liftExcept r : Work α) w = (.ok a, w')) : r = .ok a ∧ w' = w := by
  cases h
  exact ⟨rfl, rfl⟩

theorem liftExcept_run {r : Except ProxyError α} {a : α} (h : r = .ok a) :
    (ancestorsWithin.liftExcept r : Work α) w = (.ok a, w) := by
  rw [h]
  rfl

/-- What a walk that ends has found and read. -/
theorem ancestorsWithin_ok {steps : Nat} {seen : List ClassName} {parent : Option ClassName} {ancestors : List Ancestor}
    (h : ancestorsWithin (Workshop.fetch UnitStore.get) origin steps seen parent w = (.ok ancestors, w')) :
    ∃ units, w' = { w with units } ∧ w.units.Extended units ∧ Lineage units parent ancestors ∧
      ancestors.length ≤ steps ∧ (∀ a ∈ ancestors, ∀ c ∈ seen, (c == a.name) = false) ∧ Distinct ancestors := by
  induction steps generalizing seen parent ancestors w w' with
  | zero =>
    cases parent with
    | none =>
      cases h
      exact ⟨w.units, rfl, .refl _, .root, Nat.le_refl _, nofun, .nil⟩
    | some c => cases h
  | succ steps ih =>
    cases parent with
    | none =>
      cases h
      exact ⟨w.units, rfl, .refl _, .root, Nat.zero_le _, nofun, .nil⟩
    | some c =>
      rw [ancestorsWithin] at h
      obtain ⟨u, v, fetched, h⟩ := of_run_bind h
      obtain ⟨units, got, rfl⟩ := fetch_ok fetched
      split at h
      · cases h
      · rename_i unseen
        obtain ⟨a, v, lifted, h⟩ := of_run_bind h
        obtain ⟨found, rfl⟩ := liftExcept_ok lifted
        obtain ⟨d, declared, rfl⟩ := ancestor_ok found
        obtain ⟨next, v, lifted, h⟩ := of_run_bind h
        obtain ⟨refers, rfl⟩ := liftExcept_ok lifted
        obtain ⟨rest, v, walked, h⟩ := of_run_bind h
        cases h
        obtain ⟨units', rfl, extended, lineage, short, apart, distinct⟩ := ih walked
        have read : w.units.Extended units := by
          have grown := w.units.get_extended c
          rwa [got] at grown
        simp only [List.any_eq_true, not_exists, not_and, Bool.not_eq_true] at unseen
        refine ⟨units', rfl, read.trans extended, ?_, Nat.succ_le_succ short, ?_, ?_⟩
        · exact .parent (extended.unit? (UnitStore.unit?_get got)) declared (parentOf_origin refers) lineage
        · refine List.forall_mem_cons.mpr ⟨unseen, fun b hb x hx => apart b hb x (List.mem_cons_of_mem _ hx)⟩
        · exact List.pairwise_cons.mpr ⟨fun b hb => apart b hb c List.mem_cons_self, distinct⟩

/-- A walk through units that are kept. -/
theorem ancestorsWithin_of_lineage {parent : Option ClassName} {ancestors : List Ancestor}
    (lineage : Lineage w.units parent ancestors) {steps : Nat} (enough : ancestors.length ≤ steps)
    {seen : List ClassName} (apart : ∀ a ∈ ancestors, ∀ c ∈ seen, (c == a.name) = false) (distinct : Distinct ancestors) :
    ancestorsWithin (Workshop.fetch UnitStore.get) origin steps seen parent w = (.ok ancestors, w) := by
  induction lineage generalizing steps seen with
  | root => cases steps <;> rfl
  | @parent c u d next rest kept declared refers _ ih =>
    obtain ⟨steps, rfl⟩ : ∃ k, steps = k + 1 := ⟨steps - 1, by rw [List.length_cons] at enough; omega⟩
    obtain ⟨here, apart⟩ := List.forall_mem_cons.mp apart
    obtain ⟨below, distinct⟩ := List.pairwise_cons.mp distinct
    have unseen : ¬seen.any (· == c) = true := by simpa using here
    have more : ∀ a ∈ rest, ∀ x ∈ c :: seen, (x == a.name) = false :=
      fun a ha => List.forall_mem_cons.mpr ⟨below a ha, apart a ha⟩
    have found : u.ancestor origin c = .ok ⟨c, d⟩ := by simp only [SourceUnit.ancestor, declared]
    have rest := ih (Nat.le_of_succ_le_succ enough) more distinct
    rw [ancestorsWithin, run_bind (fetch_of_unit? kept), if_neg unseen]
    refine (run_bind (liftExcept_run found)).trans ?_
    refine (run_bind (liftExcept_run (refers origin))).trans ?_
    exact run_bind rest

end Walk

end AspectProxy
