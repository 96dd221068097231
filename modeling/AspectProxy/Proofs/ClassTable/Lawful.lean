import AspectProxy.Machine.Loading
import Mathlib.Data.List.Nodup

/-!
What inheritance allows, said of a class with its ancestors alone: no trait and no final class is extended, and no
final method is declared again below. A class that is built under such a parent is such a class; the check of its
methods looks only at the nearest declaration of each.
-/

namespace AspectProxy

theorem ClassName.beq_iff {a b : ClassName} : (a == b) = true ↔ a.key = b.key := by
  show (a.key == b.key) = true ↔ _
  rw [beq_iff_eq]

@[simp]
theorem ClassName.beq_self (a : ClassName) : (a == a) = true :=
  ClassName.beq_iff.mpr rfl

theorem ClassName.beq_comm (a b : ClassName) : (a == b) = (b == a) := by
  rw [Bool.eq_iff_iff, beq_iff, beq_iff, eq_comm]

theorem ClassName.beq_symm {a b : ClassName} (same : (a == b) = true) : (b == a) = true :=
  beq_comm a b ▸ same

theorem ClassName.beq_trans {a b c : ClassName} (first : (a == b) = true) (second : (b == c) = true) :
    (a == c) = true :=
  beq_iff.mpr ((beq_iff.mp first).trans (beq_iff.mp second))

theorem ClassName.beq_congr_left {a b : ClassName} (same : (a == b) = true) (c : ClassName) : (a == c) = (b == c) := by
  rw [Bool.eq_iff_iff, beq_iff, beq_iff, beq_iff.mp same]

theorem ClassName.beq_congr_right {b c : ClassName} (same : (b == c) = true) (a : ClassName) : (a == b) = (a == c) := by
  rw [Bool.eq_iff_iff, beq_iff, beq_iff, beq_iff.mp same]

namespace LoadedClass

/-- A list of declarations, nearest first, each of which may extend those behind it. -/
def LawfulChain : List ClassBody → Prop
  | [] => True
  | b :: rest =>
    (b.methods.map (·.name)).Nodup ∧
    (∀ p ∈ rest.head?, p.isTrait = false ∧ p.isFinal = false) ∧
    (∀ a ∈ rest, ∀ f ∈ a.methods, f.modifiers.isFinal = true → ∀ m ∈ b.methods, m.name ≠ f.name) ∧
    LawfulChain rest

def Lawful (c : LoadedClass) : Prop :=
  LawfulChain c.chain

theorem parent?_chain {c p : LoadedClass} (h : c.parent? = some p) : c.ancestors = p.chain := by
  unfold parent? at h
  split at h
  · cases h
  · rename_i ancestors
    cases h
    exact ancestors

theorem parent?_extending (own : ClassBody) (parent : Option LoadedClass) :
    (extending own parent).parent? = parent := by
  cases parent <;> rfl

theorem own_extending (own : ClassBody) (parent : Option LoadedClass) : (extending own parent).own = own := by
  cases parent <;> rfl

/-- A method that the nearest declaration of its name allows to declare again is final nowhere above. -/
theorem not_final_of_findIn {chain : List ClassBody} {name : String} (lawful : LawfulChain chain)
    (nearest : ∀ c m, findIn name chain = some (c, m) → m.modifiers.isFinal = false) :
    ∀ a ∈ chain, ∀ f ∈ a.methods, f.modifiers.isFinal = true → name ≠ f.name := by
  induction chain with
  | nil => simp
  | cons b rest ih =>
    obtain ⟨distinct, -, above, lawful⟩ := lawful
    intro a ha f hf final same
    cases found : b.method? name with
    | none =>
      have absent := List.find?_eq_none.mp found
      rcases List.mem_cons.mp ha with rfl | ha
      · exact absent f hf (by simp [same])
      · refine ih lawful (fun c m h => nearest c m ?_) a ha f hf final same
        rw [findIn, found]
        exact h
    | some m =>
      have hm : m ∈ b.methods := List.mem_of_find?_eq_some found
      have named : m.name = name := by simpa using List.find?_some found
      have open_ : m.modifiers.isFinal = false := nearest ⟨b, rest⟩ m (by rw [findIn, found])
      rcases List.mem_cons.mp ha with rfl | ha
      · have : m = f := List.inj_on_of_nodup_map distinct hm hf (named.trans same)
        simp [this, final] at open_
      · exact above a ha f hf final m hm (named.trans same)

end LoadedClass

namespace Member

@[simp]
theorem methods_cons_method (m : Method) (rest : List Member) : methods (.method m :: rest) = m :: methods rest :=
  rfl

@[simp]
theorem methods_cons_property (p : Property) (rest : List Member) : methods (.property p :: rest) = methods rest :=
  rfl

@[simp]
theorem properties_cons_method (m : Method) (rest : List Member) :
    properties (.method m :: rest) = properties rest :=
  rfl

@[simp]
theorem properties_cons_property (p : Property) (rest : List Member) :
    properties (.property p :: rest) = p :: properties rest :=
  rfl

end Member

namespace Machine

/-- What members are collected to: those of a unit in order, each name once, no method that is final above. -/
theorem collectMembers_ok {name : ClassName} {parent : Option LoadedClass} {members : List Member}
    {methods methods' : List Method} {properties properties' : List Property}
    (h : collectMembers name parent members methods properties = .ok (methods', properties'))
    (distinct : (methods.map (·.name)).Nodup) :
    methods' = methods ++ Member.methods members ∧ properties' = properties ++ Member.properties members ∧
      (methods'.map (·.name)).Nodup ∧ ∀ m ∈ Member.methods members, overridesFinal parent m.name = false := by
  induction members generalizing methods properties with
  | nil =>
    cases h
    simp [Member.methods, Member.properties, distinct]
  | cons member rest ih =>
    cases member with
    | method m =>
      simp only [collectMembers] at h
      split at h
      · cases h
      · split at h
        · cases h
        · rename_i overrides fresh
          have next : ((methods ++ [m]).map (·.name)).Nodup := by
            simp only [List.any_eq_true, decide_eq_true_eq, not_exists, not_and] at fresh
            simp only [List.map_append, List.map_cons, List.map_nil, List.nodup_append, distinct, true_and]
            refine ⟨by simp, ?_⟩
            intro a ha b hb same
            obtain ⟨x, hx, rfl⟩ := List.mem_map.mp ha
            exact fresh x hx (same.trans (List.mem_singleton.mp hb))
          obtain ⟨hm, hp, nodup, allowed⟩ := ih h next
          refine ⟨?_, ?_, nodup, ?_⟩
          · simpa using hm
          · simpa using hp
          · intro x hx
            rcases List.mem_cons.mp hx with rfl | hx
            · simpa using overrides
            · exact allowed x hx
    | property p =>
      simp only [collectMembers] at h
      split at h
      · cases h
      · obtain ⟨hm, hp, nodup, allowed⟩ := ih h distinct
        refine ⟨hm, ?_, nodup, allowed⟩
        simpa using hp

/-- What a declaration becomes under a parent. -/
structure BodyOf (u : SourceUnit) (name : ClassName) (d : Declaration) (parent : Option LoadedClass)
    (c : LoadedClass) : Prop where
  name_eq : c.name = name
  parent_eq : c.parent? = parent
  methods : c.own.methods = d.methods
  scope : c.own.scope = u.scope
  isTrait : c.own.isTrait = d.isTrait
  distinct : (c.own.methods.map (·.name)).Nodup
  allowed : ∀ m ∈ c.own.methods, overridesFinal parent m.name = false

theorem bodyOf_ok {u : SourceUnit} {name : ClassName} {d : Declaration} {parent : Option LoadedClass}
    {c : LoadedClass} (h : bodyOf u name d parent = .ok c) : BodyOf u name d parent c := by
  unfold bodyOf at h
  cases collected : collectMembers name parent d.members [] [] with
  | error e => simp [collected, bind, Except.bind] at h
  | ok found =>
    obtain ⟨methods, properties⟩ := found
    simp only [collected, bind, Except.bind, pure, Except.pure, Except.ok.injEq] at h
    obtain ⟨hm, -, distinct, allowed⟩ := collectMembers_ok collected List.nodup_nil
    simp only [List.nil_append] at hm
    subst h
    have own := LoadedClass.own_extending
    exact {
      name_eq := by rw [LoadedClass.name, own]
      parent_eq := LoadedClass.parent?_extending _ parent
      methods := by rw [own]; exact hm
      scope := by rw [own]
      isTrait := by rw [own]
      distinct := by rw [own]; exact distinct
      allowed := by rw [own]; exact hm ▸ allowed }

theorem checkParent_ok {name : ClassName} {p : LoadedClass} (h : checkParent name p = .ok ()) :
    p.own.isTrait = false ∧ p.own.isFinal = false := by
  unfold checkParent at h
  split at h
  · cases h
  · split at h
    · cases h
    · simp_all

/-- A class built under a lawful parent that may be extended is lawful. -/
theorem BodyOf.lawful {u : SourceUnit} {name : ClassName} {d : Declaration} {parent : Option LoadedClass}
    {c : LoadedClass} (h : BodyOf u name d parent c)
    (above : ∀ p, parent = some p → p.Lawful ∧ p.own.isTrait = false ∧ p.own.isFinal = false) : c.Lawful := by
  refine ⟨h.distinct, ?_⟩
  cases parent with
  | none =>
    have : c.ancestors = [] := by
      have := h.parent_eq
      unfold LoadedClass.parent? at this
      split at this
      · assumption
      · cases this
    simp [this, LoadedClass.LawfulChain]
  | some p =>
    obtain ⟨lawful, mayExtend⟩ := above p rfl
    rw [LoadedClass.parent?_chain h.parent_eq]
    refine ⟨?_, ?_, lawful⟩
    · intro b hb
      cases hb
      exact mayExtend
    · intro a ha f hf final m hm
      refine LoadedClass.not_final_of_findIn lawful ?_ a ha f hf final
      intro owner inherited found
      have := h.allowed m hm
      simpa only [overridesFinal, Option.bind_some, LoadedClass.findMethod, found] using this

end Machine

end AspectProxy
