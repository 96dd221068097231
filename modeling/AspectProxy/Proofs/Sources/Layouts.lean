import AspectProxy.Proofs.ClassTable.Lawful
import AspectProxy.Proofs.Sources.Inheritance

/-!
Layouts of units that can be checked. Names are compared by their keys, so that the units of a layout are arranged, and
inherit lawfully, can be found out by comparing texts; that no class extends itself is seen from a rank that falls along
inheritance.
-/

namespace AspectProxy

namespace SourceUnit

variable {u : SourceUnit} {d : Declaration} {c p : ClassName} {reference : String}

/-- The key of what a declaration is called outside its unit. -/
def keyOf? (u : SourceUnit) (d : Declaration) : Option String :=
  (u.qualified d.name).toOption.map ClassName.key

/-- The key of what a declaration extends. -/
def parentKey? (u : SourceUnit) (d : Declaration) : Option String :=
  (Machine.parentReference d).bind fun reference =>
    if reference = selfClass then none else (ClassName.parse (u.resolve reference)).toOption.map ClassName.key

theorem names_iff : u.Names d c ↔ u.keyOf? d = some c.key := by
  unfold Names keyOf?
  cases u.qualified d.name with
  | error e => simp [Except.toOption]
  | ok n => simp [Except.toOption, ClassName.beq_iff]

theorem means_iff (refers : Machine.parentReference d = some reference) :
    u.Means reference p ↔ u.parentKey? d = some p.key := by
  rw [Means, parentKey?, refers, Option.bind_some]
  by_cases self : reference = selfClass
  · simp [self]
  · cases ClassName.parse (u.resolve reference) <;> simp [Except.toOption, ClassName.beq_iff, self]

theorem exists_means {k : String} (refers : Machine.parentReference d = some reference) (h : u.parentKey? d = some k) :
    ∃ p, u.Means reference p ∧ p.key = k := by
  suffices named : ∃ p : ClassName, p.key = k by
    obtain ⟨p, rfl⟩ := named
    exact ⟨p, (means_iff refers).mpr h, rfl⟩
  rw [parentKey?, refers, Option.bind_some] at h
  split at h
  · cases h
  · obtain ⟨p, -, key⟩ := Option.map_eq_some_iff.mp h
    exact ⟨p, key⟩

end SourceUnit

namespace SourceChain

variable {places : SourceChain} {units : List (ClassName × SourceUnit)} {c p n : ClassName} {u : SourceUnit}
  {d : Declaration}

/-- The units that places hold, each under a name that it is asked for by. -/
structure Lists (places : SourceChain) (units : List (ClassName × SourceUnit)) : Prop where
  memory : places.InMemory
  held : ∀ e ∈ units, places.Holds e.1 e.2
  complete : ∀ k ∈ places.names, ∃ e ∈ units, e.1.key = k.key

namespace Lists

variable (lists : places.Lists units)
include lists

theorem exists_mem (h : places.Holds n u) : ∃ e ∈ units, e.1.key = n.key ∧ e.2 = u := by
  obtain ⟨k, hk, same⟩ := h.mem_names lists.memory
  obtain ⟨e, he, key⟩ := lists.complete k hk
  have key : e.1.key = n.key := key.trans (ClassName.beq_iff.mp same)
  exact ⟨e, he, key, ((lists.held e he).congr lists.memory (ClassName.beq_iff.mpr key)).unique h⟩

theorem exists_declares (h : places.Declares n u d c) :
    ∃ e ∈ units, e.1.key = n.key ∧ e.2 = u ∧ d ∈ e.2.declarations ∧ e.2.keyOf? d = some c.key := by
  obtain ⟨e, he, key, rfl⟩ := lists.exists_mem h.held
  exact ⟨e, he, key, rfl, h.mem, SourceUnit.names_iff.mp h.named⟩

theorem exists_extends (h : places.Extends c p) :
    ∃ e ∈ units, ∃ d ∈ e.2.declarations, e.2.keyOf? d = some c.key ∧ e.2.parentKey? d = some p.key := by
  obtain ⟨n, u, d, reference, declares, refers, means⟩ := h
  obtain ⟨e, he, -, rfl, hd, key⟩ := lists.exists_declares declares
  exact ⟨e, he, d, hd, key, (SourceUnit.means_iff refers).mp means⟩

/-- Which units need which is seen from the keys. -/
theorem needs_iff : places.Needs n p ↔ ∃ e ∈ units, e.1.key = n.key ∧ ∃ d ∈ e.2.declarations,
    e.2.parentKey? d = some p.key ∧ ∀ g ∈ e.2.declarations, e.2.keyOf? g ≠ some p.key := by
  constructor
  · rintro ⟨u, d, reference, held, hd, refers, means, outside⟩
    obtain ⟨e, he, key, rfl⟩ := lists.exists_mem held
    refine ⟨e, he, key, d, hd, (SourceUnit.means_iff refers).mp means, fun g hg named => ?_⟩
    exact outside g hg (SourceUnit.names_iff.mpr named)
  · rintro ⟨e, he, key, d, hd, parent, outside⟩
    have held := (lists.held e he).congr lists.memory (ClassName.beq_iff.mpr key)
    cases refers : Machine.parentReference d with
    | none => simp [SourceUnit.parentKey?, refers] at parent
    | some reference =>
      refine ⟨e.2, d, reference, held, hd, refers, (SourceUnit.means_iff refers).mpr parent, fun g hg named => ?_⟩
      exact outside g hg (SourceUnit.names_iff.mp named)

theorem arranged (main : ∀ e ∈ units, ∃ d ∈ e.2.declarations, e.2.keyOf? d = some e.1.key)
    (apart : ∀ e ∈ units, (e.2.declarations.map e.2.keyOf?).Nodup)
    (oneUnit : ∀ e ∈ units, ∀ d ∈ e.2.declarations, ∀ f ∈ units, ∀ g ∈ f.2.declarations,
      e.2.keyOf? d = f.2.keyOf? g → e.1.key = f.1.key)
    (parents : ∀ e ∈ units, ∀ d ∈ e.2.declarations, (Machine.parentReference d).isSome →
      ∃ k ∈ e.2.parentKey? d, (∃ g ∈ e.2.declarations, e.2.keyOf? g = some k) ∨ ∃ f ∈ units, f.1.key = k) :
    places.Arranged where
  memory := lists.memory
  main := by
    intro n u held
    obtain ⟨e, he, key, rfl⟩ := lists.exists_mem held
    obtain ⟨d, hd, named⟩ := main e he
    exact ⟨d, hd, SourceUnit.names_iff.mpr (named.trans (congrArg some key))⟩
  apart := by
    intro n u held
    obtain ⟨e, he, key, rfl⟩ := lists.exists_mem held
    refine (List.pairwise_map.mp (apart e he)).imp fun {a b} different c one other => different ?_
    exact (SourceUnit.names_iff.mp one).trans (SourceUnit.names_iff.mp other).symm
  oneUnit := by
    intro c n u d k v e h h'
    obtain ⟨x, hx, key, rfl, hd, named⟩ := lists.exists_declares h
    obtain ⟨y, hy, key', rfl, he, named'⟩ := lists.exists_declares h'
    have same := oneUnit x hx d hd y hy e he (named.trans named'.symm)
    exact ClassName.beq_iff.mpr (key.symm.trans (same.trans key'))
  parents := by
    intro n u held d hd reference refers
    obtain ⟨e, he, key, rfl⟩ := lists.exists_mem held
    obtain ⟨k, hk, there⟩ := parents e he d hd (by rw [refers]; rfl)
    obtain ⟨p, means, rfl⟩ := SourceUnit.exists_means refers hk
    refine ⟨p, means, there.imp ?_ ?_⟩
    · rintro ⟨g, hg, named⟩
      exact ⟨g, hg, SourceUnit.names_iff.mpr named⟩
    · rintro ⟨f, hf, same⟩
      exact ⟨f.2, (lists.held f hf).congr lists.memory (ClassName.beq_iff.mpr same)⟩

theorem lawfulInheritance (rank : String → Nat)
    (falls : ∀ e ∈ units, ∀ d ∈ e.2.declarations, ∀ c ∈ e.2.keyOf? d, ∀ p ∈ e.2.parentKey? d, rank p < rank c)
    (mayExtend : ∀ e ∈ units, ∀ d ∈ e.2.declarations, ∀ p ∈ e.2.parentKey? d, ∀ f ∈ units, ∀ g ∈ f.2.declarations,
      f.2.keyOf? g = some p → (g.class?.map (·.isFinal)) = some false)
    (finals : ∀ e ∈ units, ∀ d ∈ e.2.declarations, ∀ f ∈ units, ∀ g ∈ f.2.declarations, ∀ x ∈ d.methods,
      ∀ y ∈ g.methods, y.name = x.name → y.modifiers.isFinal = true → e.2.keyOf? d = f.2.keyOf? g)
    (members : ∀ e ∈ units, ∀ d ∈ e.2.declarations,
      ((Member.methods d.members).map (·.name)).Nodup ∧ ((Member.properties d.members).map (·.name)).Nodup) :
    places.LawfulInheritance := by
  have lower : ∀ {c p}, Relation.TransGen places.Extends c p → rank p.key < rank c.key := by
    intro c p way
    have step : ∀ {c p}, places.Extends c p → rank p.key < rank c.key := by
      intro c p up
      obtain ⟨e, he, d, hd, named, parent⟩ := lists.exists_extends up
      exact falls e he d hd c.key named p.key parent
    induction way with
    | single up => exact step up
    | tail _ up ih => exact (step up).trans ih
  refine ⟨fun c circle => Nat.lt_irrefl _ (lower circle), ?_, ?_, ?_⟩
  · intro c p n u g up declares
    obtain ⟨e, he, d, hd, -, parent⟩ := lists.exists_extends up
    obtain ⟨f, hf, -, rfl, hg, named⟩ := lists.exists_declares declares
    have open_ := mayExtend e he d hd p.key parent f hf g hg named
    cases g with
    | trait t => cases open_
    | «class» g => exact ⟨g, rfl, Option.some.inj open_⟩
  · intro c a n u d k v g way declares declares' x hx y hy same
    obtain ⟨e, he, -, rfl, hd, named⟩ := lists.exists_declares declares
    obtain ⟨f, hf, -, rfl, hg, named'⟩ := lists.exists_declares declares'
    by_contra final
    have equal := finals e he d hd f hf g hg x hx y hy same (by simpa using final)
    rw [named, named', Option.some.injEq] at equal
    exact absurd (lower way) (by rw [equal]; exact Nat.lt_irrefl _)
  · intro c n u d declares
    obtain ⟨e, he, -, rfl, hd, -⟩ := lists.exists_declares declares
    exact members e he d hd

end Lists

end SourceChain

end AspectProxy
