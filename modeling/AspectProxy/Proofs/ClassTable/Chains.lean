import AspectProxy.Proofs.ClassTable.Loading

/-!
The classes above a class in a table. They are in the table themselves, and each has fewer ancestors than those below it, so
none is met twice.
-/

namespace AspectProxy

namespace LoadedClass

/-- The ancestors of a class as loaded classes, the root first. -/
def above (c : LoadedClass) : List LoadedClass :=
  rootFirst c.ancestors

variable {b : ClassBody} {bodies rest : List ClassBody} {x : LoadedClass}

theorem forall_rootFirst_cons {P : LoadedClass → Prop} :
    (∀ x ∈ rootFirst (b :: rest), P x) ↔ P ⟨b, rest⟩ ∧ ∀ x ∈ rootFirst rest, P x := by
  rw [rootFirst, List.forall_mem_append, List.forall_mem_singleton, and_comm]

theorem exists_mem_rootFirst (hb : b ∈ bodies) : ∃ x ∈ rootFirst bodies, x.own = b := by
  induction bodies with
  | nil => cases hb
  | cons a rest ih =>
    rcases List.mem_cons.mp hb with rfl | hb
    · exact ⟨⟨b, rest⟩, List.mem_append_right _ (List.mem_singleton.mpr rfl), rfl⟩
    · obtain ⟨x, hx, own⟩ := ih hb
      exact ⟨x, List.mem_append_left _ hx, own⟩

theorem length_ancestors_lt (hx : x ∈ rootFirst bodies) : x.ancestors.length < bodies.length := by
  induction bodies with
  | nil => cases hx
  | cons a rest ih =>
    rcases List.mem_append.mp hx with hx | hx
    · exact Nat.lt_succ_of_lt (ih hx)
    · rw [List.mem_singleton.mp hx]
      exact Nat.lt_succ_self _

theorem mem_rootFirst {a : LoadedClass} {chain : List ClassBody} : a ∈ rootFirst chain ↔ a.chain <:+ chain := by
  induction chain with
  | nil => simp [rootFirst, chain]
  | cons b rest ih =>
    rw [rootFirst, List.mem_append, ih, List.mem_singleton, List.suffix_cons_iff, or_comm]
    refine or_congr_left ⟨fun h => h ▸ rfl, fun h => ?_⟩
    obtain ⟨own, ancestors⟩ := a
    obtain ⟨rfl, rfl⟩ := List.cons.inj h
    rfl

theorem mem_lineage {a c : LoadedClass} : a ∈ c.lineage ↔ a.chain <:+ c.chain :=
  mem_rootFirst

theorem mem_lineage_of_findMethod {c owner : LoadedClass} {name : String} {m : Method}
    (found : c.findMethod name = some (owner, m)) : owner ∈ c.lineage ∧ m ∈ owner.own.methods ∧ m.name = name := by
  rw [mem_lineage]
  unfold findMethod at found
  generalize c.chain = chain at found ⊢
  induction chain with
  | nil => cases found
  | cons b rest ih =>
    rw [findIn] at found
    cases here : b.method? name with
    | none =>
      rw [here] at found
      exact ⟨(ih found).1.trans (List.suffix_cons b rest), (ih found).2⟩
    | some own =>
      rw [here] at found
      cases found
      exact ⟨List.suffix_rfl, List.mem_of_find?_eq_some here, by simpa using List.find?_some here⟩

theorem parent?_mem_lineage {c p : LoadedClass} (h : c.parent? = some p) : p ∈ c.lineage := by
  obtain ⟨own, ancestors⟩ := c
  cases ancestors with
  | nil => cases h
  | cons b rest =>
    cases h
    exact mem_lineage.mpr (List.suffix_cons own _)

theorem parent?_map_name (b : ClassBody) (rest : List ClassBody) :
    (parent? ⟨b, rest⟩).map name = rest.head?.map ClassBody.name := by
  cases rest <;> rfl

end LoadedClass

namespace OrderedTable

variable {classes : List LoadedClass} {c x : LoadedClass} (ordered : OrderedTable classes)
include ordered

theorem mem_of_above (hc : c ∈ classes) : ∀ x ∈ c.above, x ∈ classes := by
  obtain ⟨own, ancestors⟩ := c
  induction ancestors generalizing own with
  | nil => nofun
  | cons b rest ih =>
    have hp := ordered.parent_mem _ hc _ rfl
    exact LoadedClass.forall_rootFirst_cons.mpr ⟨hp, ih b hp⟩

/-- Classes of one name are one class. -/
theorem eq_of_beq (hc : c ∈ classes) (hx : x ∈ classes) (same : (x.name == c.name) = true) : x = c := by
  have found : (classes.find? fun y => y.name == c.name) = some c := find?_name_of_distinct ordered.distinct hc
  have names : (fun y : LoadedClass => y.name == x.name) = fun y => y.name == c.name := by
    funext y
    exact ClassName.beq_congr_right same y.name
  rw [← names, find?_name_of_distinct ordered.distinct hx] at found
  exact Option.some.inj found

/-- No class is its own ancestor. -/
theorem chain_apart (hc : c ∈ classes) : c.chain.Pairwise fun a b => (a.name == b.name) = false := by
  obtain ⟨own, ancestors⟩ := c
  induction ancestors generalizing own with
  | nil => exact List.pairwise_singleton _ _
  | cons b rest ih =>
    have hp := ordered.parent_mem _ hc _ rfl
    refine List.pairwise_cons.mpr ⟨fun a ha => ?_, ih b hp⟩
    obtain ⟨x, hx, rfl⟩ := LoadedClass.exists_mem_rootFirst ha
    by_contra same
    rw [Bool.not_eq_false, ClassName.beq_comm] at same
    have shorter : x.ancestors.length < (b :: rest).length := LoadedClass.length_ancestors_lt hx
    rw [ordered.eq_of_beq hc (ordered.mem_of_above hc x hx) same] at shorter
    exact Nat.lt_irrefl _ shorter

/-- A class of a table extends neither a trait nor a final class. -/
theorem open_of_above (hc : c ∈ classes) : ∀ x ∈ c.above, x.own.isTrait = false ∧ x.own.isFinal = false := by
  obtain ⟨own, ancestors⟩ := c
  induction ancestors generalizing own with
  | nil => nofun
  | cons b rest ih =>
    obtain ⟨-, mayExtend, -⟩ := ordered.lawful _ hc
    exact LoadedClass.forall_rootFirst_cons.mpr ⟨mayExtend b rfl, ih b (ordered.parent_mem _ hc _ rfl)⟩

end OrderedTable

end AspectProxy
