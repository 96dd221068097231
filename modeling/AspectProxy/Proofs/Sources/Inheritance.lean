import AspectProxy.Machine.Loading
import AspectProxy.Proofs.Sources.DeclaredNames
import AspectProxy.Proofs.Sources.InMemory
import Mathlib.Logic.Relation

/-!
Inheritance as sources have it, before anything is loaded: which class extends which, and which unit needs which other one
to be loaded before it. The two differ where a unit declares several classes, since a unit is loaded as a whole.
-/

namespace AspectProxy

/-- Where a relation between classes holds whatever the spelling of the first, so do chains of it. -/
theorem ClassName.transGen_congr {r : ClassName → ClassName → Prop}
    (left : ∀ {a b c : ClassName}, r a c → (a == b) = true → r b c) {a b c : ClassName} (h : Relation.TransGen r a c)
    (same : (a == b) = true) : Relation.TransGen r b c := by
  obtain ⟨d, first, rest⟩ := Relation.TransGen.head'_iff.mp h
  exact Relation.TransGen.head' (left first same) rest

namespace SourceUnit

variable {u : SourceUnit} {reference : String} {c p : ClassName}

/-- A parent reference in a unit means a class. -/
def Means (u : SourceUnit) (reference : String) (c : ClassName) : Prop :=
  reference ≠ selfClass ∧ ∃ k, ClassName.parse (u.resolve reference) = .ok k ∧ (k == c) = true

theorem Means.congr (h : u.Means reference c) (same : (c == p) = true) : u.Means reference p := by
  obtain ⟨other, k, resolved, named⟩ := h
  exact ⟨other, k, resolved, ClassName.beq_trans named same⟩

theorem Means.unique (h : u.Means reference c) (h' : u.Means reference p) : (c == p) = true := by
  obtain ⟨-, k, resolved, named⟩ := h
  obtain ⟨-, k', resolved', named'⟩ := h'
  obtain rfl : k = k' := Except.ok.inj (resolved.symm.trans resolved')
  exact ClassName.beq_trans (ClassName.beq_symm named) named'

/-- What a unit takes the parent of a class to be is what the reference means. -/
theorem means_of_parentName {name : ClassName} (h : Machine.parentName u name reference = .ok c) :
    u.Means reference c := by
  unfold Machine.parentName at h
  split at h
  · cases h
  · rename_i other
    cases resolved : ClassName.parse (u.resolve reference) with
    | error e => simp [resolved] at h
    | ok k =>
      simp only [resolved, Except.ok.injEq] at h
      exact ⟨other, k, resolved, ClassName.beq_iff.mpr (congrArg ClassName.key h)⟩

theorem Means.parentName (h : u.Means reference c) (name : ClassName) :
    ∃ k, Machine.parentName u name reference = .ok k ∧ u.Means reference k := by
  obtain ⟨other, k, resolved, -⟩ := h
  refine ⟨k, ?_, other, k, resolved, ClassName.beq_self k⟩
  simp only [Machine.parentName, if_neg other, resolved]

end SourceUnit

namespace SourceChain

variable {places : SourceChain} {a b c p n k : ClassName} {u v : SourceUnit} {d e : Declaration}

/-- The unit of a name declares a class. -/
structure Declares (places : SourceChain) (n : ClassName) (u : SourceUnit) (d : Declaration) (c : ClassName) : Prop where
  held : places.Holds n u
  mem : d ∈ u.declarations
  named : u.Names d c

theorem Declares.congr (h : places.Declares n u d c) (same : (c == p) = true) : places.Declares n u d p :=
  { h with named := h.named.congr same }

/-- A class extends another: so says a declaration of it. -/
def Extends (places : SourceChain) (c p : ClassName) : Prop :=
  ∃ n u d reference, places.Declares n u d c ∧ Machine.parentReference d = some reference ∧ u.Means reference p

theorem Extends.congr_left (h : places.Extends a c) (same : (a == b) = true) : places.Extends b c := by
  obtain ⟨n, u, d, reference, declares, refers, means⟩ := h
  exact ⟨n, u, d, reference, declares.congr same, refers, means⟩

theorem Extends.congr_right (h : places.Extends a c) (same : (c == p) = true) : places.Extends a p := by
  obtain ⟨n, u, d, reference, declares, refers, means⟩ := h
  exact ⟨n, u, d, reference, declares, refers, means.congr same⟩

theorem Extends.chain_congr (h : Relation.TransGen places.Extends a c) (same : (a == b) = true) :
    Relation.TransGen places.Extends b c :=
  ClassName.transGen_congr (r := places.Extends) (fun first same => first.congr_left same) h same

/-- A unit needs another: one of its classes extends the class of that name, and it does not declare that itself. -/
def Needs (places : SourceChain) (n k : ClassName) : Prop :=
  ∃ u d reference, places.Holds n u ∧ d ∈ u.declarations ∧ Machine.parentReference d = some reference ∧
    u.Means reference k ∧ ∀ e ∈ u.declarations, ¬u.Names e k

theorem Needs.congr (memory : places.InMemory) (h : places.Needs a c) (same : (a == b) = true) : places.Needs b c := by
  obtain ⟨u, d, reference, held, rest⟩ := h
  exact ⟨u, d, reference, held.congr memory same, rest⟩

theorem Needs.chain_congr (memory : places.InMemory) (h : Relation.TransGen places.Needs a c) (same : (a == b) = true) :
    Relation.TransGen places.Needs b c :=
  ClassName.transGen_congr (r := places.Needs) (fun first same => first.congr memory same) h same

/-- A unit leads to units that need each other in a circle. -/
def Entangled (places : SourceChain) (n : ClassName) : Prop :=
  ∃ k, Relation.ReflTransGen places.Needs n k ∧ Relation.TransGen places.Needs k k

theorem Entangled.of_needs (needs : places.Needs n k) (h : places.Entangled k) : places.Entangled n := by
  obtain ⟨l, way, circle⟩ := h
  exact ⟨l, .head needs way, circle⟩

/-- The units that a unit needs, and those that they need, come to an end. -/
def Grounded (places : SourceChain) : ClassName → Prop :=
  Acc fun k n => places.Needs n k

theorem Grounded.congr (memory : places.InMemory) (h : places.Grounded a) (same : (a == b) = true) :
    places.Grounded b :=
  .intro b fun _ needs => h.inv (Needs.congr memory needs (ClassName.beq_symm same))

theorem Grounded.below (h : places.Grounded n) (way : Relation.ReflTransGen places.Needs n k) : places.Grounded k := by
  induction way with
  | refl => exact h
  | tail _ needs ih => exact ih.inv needs

theorem Grounded.no_circle (h : places.Grounded n) : ¬Relation.TransGen places.Needs n n := by
  induction h with
  | intro n _ ih =>
    intro circle
    obtain ⟨k, first, rest⟩ := Relation.TransGen.head'_iff.mp circle
    exact ih k first (Relation.TransGen.tail' rest first)

theorem Grounded.not_entangled (h : places.Grounded n) : ¬places.Entangled n := by
  rintro ⟨k, way, circle⟩
  exact (h.below way).no_circle circle

/-- Units that each declare what they are asked for by; no class has two declarations; and a parent is declared beside the
class or has a unit of its own. -/
structure Arranged (places : SourceChain) : Prop where
  memory : places.InMemory
  main : ∀ n u, places.Holds n u → ∃ d ∈ u.declarations, u.Names d n
  apart : ∀ n u, places.Holds n u → u.declarations.Pairwise fun d e => ∀ c, u.Names d c → ¬u.Names e c
  oneUnit : ∀ {c n u d k v e}, places.Declares n u d c → places.Declares k v e c → (n == k) = true
  parents : ∀ n u, places.Holds n u → ∀ d ∈ u.declarations, ∀ reference, Machine.parentReference d = some reference →
    ∃ p, u.Means reference p ∧ ((∃ e ∈ u.declarations, u.Names e p) ∨ ∃ v, places.Holds p v)

/-- Inheritance that the rules of the language allow. -/
structure LawfulInheritance (places : SourceChain) : Prop where
  acyclic : ∀ c, ¬Relation.TransGen places.Extends c c
  mayExtend : ∀ {c p n u d}, places.Extends c p → places.Declares n u d p → ∃ e, d = .class e ∧ e.isFinal = false
  finals : ∀ {c a n u d k v e}, Relation.TransGen places.Extends c a → places.Declares n u d c →
    places.Declares k v e a → ∀ f ∈ d.methods, ∀ g ∈ e.methods, g.name = f.name → g.modifiers.isFinal = false
  members : ∀ {c n u d}, places.Declares n u d c →
    ((Member.methods d.members).map (·.name)).Nodup ∧ ((Member.properties d.members).map (·.name)).Nodup

/-- Where each unit declares only what it is asked for by, units need each other as classes extend each other. -/
theorem LawfulInheritance.not_entangled_of_single (lawful : places.LawfulInheritance)
    (single : ∀ n u, places.Holds n u → ∀ d ∈ u.declarations, u.Names d n) (n : ClassName) : ¬places.Entangled n := by
  rintro ⟨k, -, circle⟩
  refine lawful.acyclic k (Relation.TransGen.mono (fun n k needs => ?_) _ _ circle)
  obtain ⟨u, d, reference, held, hd, refers, means, -⟩ := needs
  exact ⟨n, u, d, reference, ⟨held, hd, single n u held d hd⟩, refers, means⟩

namespace Arranged

variable (arranged : places.Arranged)
include arranged

/-- A class has one declaration. -/
theorem declares_unique (h : places.Declares n u d c) (h' : places.Declares k v e c) : u = v ∧ d = e := by
  have same := arranged.oneUnit h h'
  obtain rfl : u = v := (h.held.congr arranged.memory same).unique h'.held
  have both := arranged.apart n u h.held
  refine ⟨rfl, ?_⟩
  refine List.Pairwise.forall_of_forall_of_flip (R := fun d e => u.Names d c → u.Names e c → d = e) (fun _ _ _ _ => rfl)
    (both.imp fun {x y} different one other => ?_) (both.imp fun {x y} different one other => ?_) h.mem h'.mem h.named
    h'.named
  · exact absurd other (different c one)
  · exact absurd one (different c other)

/-- The parent of a declaration of a unit is declared in the unit, or has a unit that this one needs. -/
theorem declared_or_needs (held : places.Holds n u) (hd : d ∈ u.declarations) {reference : String}
    (refers : Machine.parentReference d = some reference) (means : u.Means reference p) :
    (∃ e ∈ u.declarations, u.Names e p) ∨ places.Needs n p ∧ ∃ v, places.Holds p v := by
  by_cases inside : ∃ e ∈ u.declarations, u.Names e p
  · exact .inl inside
  · obtain ⟨q, means', there⟩ := arranged.parents n u held d hd reference refers
    have same := means'.unique means
    rcases there with ⟨e, he, named⟩ | ⟨v, held'⟩
    · exact absurd ⟨e, he, named.congr same⟩ inside
    · refine .inr ⟨⟨u, d, reference, held, hd, refers, means, ?_⟩, v, held'.congr arranged.memory same⟩
      exact fun e he named => inside ⟨e, he, named⟩

end Arranged

end SourceChain

end AspectProxy
