import AspectProxy.Proofs.Sources.Bounds
import AspectProxy.Proofs.Weaving.Accepted
import AspectProxy.Proofs.Weaving.Hierarchy
import Mathlib.Logic.Relation

/-!
The walk to the ancestors of a class as a loop. A round fetches the unit of the next parent, refuses a class that was met
before and collects the methods of any other. No class is met twice, and only so many are given a unit; so the rounds come
to an end from wherever they begin. What they end with is read off the trail that leads from parent to parent through the
units that the store gave at first.
-/

namespace AspectProxy

open Relation (ReflTransGen)

namespace UnitStore

variable {s t : UnitStore} {c d : ClassName} {u : SourceUnit} {n : Nat}

/-- A store that has read more gives units to no more classes. -/
theorem Extended.atMost (grown : s.Extended t) (h : AtMost n fun c => ∃ u, (s.get c).1 = .ok u) :
    AtMost n fun c => ∃ u, (t.get c).1 = .ok u := by
  refine h.of_spelling ?_
  rintro c ⟨u, given⟩
  rcases get_ok (Prod.ext given rfl : t.get c = (.ok u, (t.get c).2)) with ⟨kept, -⟩ | ⟨absent, source, found, read, declares, -⟩
  · obtain ⟨e, there, -⟩ := Option.map_eq_some_iff.mp kept
    have member := List.mem_of_find?_eq_some there
    have named := List.find?_some there
    refine ⟨e.1, named, ?_⟩
    cases before : s.unit? e.1 with
    | some v => exact ⟨v, by rw [get_of_unit? before]⟩
    | none =>
      have new : e ∉ s.units := by
        intro old
        have none := List.find?_eq_none.mp (Option.map_eq_none_iff.mp before) e old
        simp at none
      obtain ⟨source, found, read⟩ := (grown.read e member).resolve_left new
      have declares := (grown.declares e member).resolve_left new
      exact ⟨e.2, by rw [get_of_resolve before found read declares]⟩
  · rw [grown.places] at found
    exact ⟨c, ClassName.beq_self c, u, by rw [get_of_resolve (grown.unit?_eq_none absent) found read declares]⟩

/-- What is read for one class leaves what is given for another. -/
theorem get_of_other (other : (d == c) = false) : ((s.get d).2.get c).1 = (s.get c).1 := by
  rcases got : s.get d with ⟨e | u, t⟩
  · obtain rfl := get_error got
    rfl
  · rcases get_ok got with ⟨-, rfl⟩ | ⟨absent, source, found, read, declares, rfl⟩
    · rfl
    · have same : unit? { s with units := s.units ++ [(d, u)] } c = s.unit? c := by
        simp [unit?, List.find?_append, other]
      unfold get store
      rw [same]
      cases kept : s.unit? c with
      | some v => rfl
      | none =>
        cases s.places.resolve c with
        | error e => rfl
        | ok source =>
          dsimp only
          cases SourceUnit.ofString? source.text with
          | error fault => rfl
          | ok v =>
            dsimp only
            split <;> rfl

/-- The unit of a class declares it, with a parent to ask for or with none. -/
def Declares (s : UnitStore) (c : ClassName) (d : ClassDecl) (parent : Option ClassName) : Prop :=
  ∃ u, (s.get c).1 = .ok u ∧ u.declaration? c.short = some (.class d) ∧ ∀ origin, u.parentOf origin d = .ok parent

theorem Declares.unique {d d' : ClassDecl} {parent parent' : Option ClassName} (h : s.Declares c d parent)
    (h' : s.Declares c d' parent') : d = d' ∧ parent = parent' := by
  obtain ⟨u, given, declared, refers⟩ := h
  obtain ⟨u', given', declared', refers'⟩ := h'
  obtain rfl := Except.ok.inj (given.symm.trans given')
  obtain rfl := Declaration.class.inj (Option.some.inj (declared.symm.trans declared'))
  exact ⟨rfl, Except.ok.inj ((refers c).symm.trans (refers' c))⟩

/-- Following the parents from a class leads along ancestors, each declared by the unit of its own name, to the parent that
the last of them asks for. -/
inductive Trail (s : UnitStore) (origin : ClassName) : List Ancestor → Option ClassName → Prop
  | start {d : ClassDecl} {next : Option ClassName} : s.Declares origin d next → Trail s origin [] next
  | visit {ancestors : List Ancestor} {parent : ClassName} {d : ClassDecl} {next : Option ClassName} :
    Trail s origin ancestors (some parent) → s.Declares parent d next → Trail s origin (ancestors ++ [⟨parent, d⟩]) next

/-- The classes of a trail, with the one it comes from. -/
abbrev onTrail (origin : ClassName) (ancestors : List Ancestor) : List ClassName :=
  origin :: ancestors.map (·.name)

theorem apart_of_onTrail {origin : ClassName} {as bs : List Ancestor} {a : Ancestor}
    (apart : Machine.Apart (onTrail origin (as ++ a :: bs))) : ∀ c ∈ onTrail origin as, (c == a.name) = false := by
  rw [onTrail, List.map_append, ← List.cons_append] at apart
  exact fun c hc => (List.pairwise_append.mp apart).2.2 c hc a.name (by simp)

/-- A trail comes back: what it leads to is a class that it has passed. -/
def ComesBack (s : UnitStore) (origin : ClassName) (ancestors : List Ancestor) (back : ClassName) : Prop :=
  s.Trail origin ancestors (some back) ∧ ∃ c ∈ onTrail origin ancestors, (c == back) = true

namespace Trail

variable {origin : ClassName} {as bs : List Ancestor} {next next' : Option ClassName}

theorem declares (h : s.Trail origin as next) : ∃ d parent, s.Declares origin d parent := by
  induction h with
  | start declares => exact ⟨_, _, declares⟩
  | visit _ _ ih => exact ih

theorem of_concat {a : Ancestor} (h : s.Trail origin (as ++ [a]) next) :
    s.Trail origin as (some a.name) ∧ s.Declares a.name a.declaration next := by
  generalize whole : as ++ [a] = cs at h
  cases h with
  | start => simp at whole
  | visit before declares =>
    obtain ⟨rfl, rfl⟩ := List.append_singleton_inj.mp whole
    exact ⟨before, declares⟩

/-- A trail has passed what each of its ancestors asks for. -/
theorem of_append_cons {a : Ancestor} (h : s.Trail origin (as ++ a :: bs) next) :
    s.Trail origin as (some a.name) ∧ ∃ parent, s.Declares a.name a.declaration parent := by
  induction bs using List.reverseRecOn generalizing next with
  | nil =>
    obtain ⟨before, declares⟩ := h.of_concat
    exact ⟨before, next, declares⟩
  | append_singleton bs b ih =>
    rw [← List.cons_append, ← List.append_assoc] at h
    exact ih h.of_concat.1

theorem unique (h : s.Trail origin as next) (h' : s.Trail origin bs next') (same : as.length = bs.length) :
    as = bs ∧ next = next' := by
  induction h generalizing bs next' with
  | start declares =>
    cases h' with
    | start declares' => exact ⟨rfl, (declares.unique declares').2⟩
    | visit => simp at same
  | visit _ declares ih =>
    cases h' with
    | start => simp at same
    | visit before declares' =>
      rw [List.length_append, List.length_append, List.length_singleton, List.length_singleton] at same
      obtain ⟨rfl, asked⟩ := ih before (Nat.succ.inj same)
      obtain rfl := Option.some.inj asked
      obtain ⟨rfl, rfl⟩ := declares.unique declares'
      exact ⟨rfl, rfl⟩

/-- Of two trails from a class the longer one goes on from the other. -/
theorem prefix_of_le (h : s.Trail origin as next) (h' : s.Trail origin bs next') (le : as.length ≤ bs.length) :
    as <+: bs := by
  induction h' with
  | start =>
    exact List.eq_nil_of_length_eq_zero (Nat.le_zero.mp le) ▸ List.nil_prefix
  | visit before declares ih =>
    rw [List.length_append, List.length_singleton] at le
    rcases Nat.lt_or_eq_of_le le with shorter | same
    · exact (ih (Nat.le_of_lt_succ shorter)).trans (List.prefix_append _ _)
    · exact (h.unique (before.visit declares) (by simpa using same)).1 ▸ List.prefix_refl _

/-- Where the longer trail goes on, it does so with the class that the other asks for. -/
theorem goes_on (h : s.Trail origin as next) (h' : s.Trail origin bs next') (le : as.length ≤ bs.length) :
    (as = bs ∧ next = next') ∨ ∃ a rest parent, bs = as ++ a :: rest ∧ next = some a.name ∧
      s.Declares a.name a.declaration parent := by
  obtain ⟨rest, rfl⟩ := h.prefix_of_le h' le
  cases rest with
  | nil =>
    rw [List.append_nil] at h'
    exact .inl ⟨(List.append_nil as).symm, (h.unique h' rfl).2⟩
  | cons a rest =>
    obtain ⟨before, parent, declares⟩ := h'.of_append_cons
    exact .inr ⟨a, rest, parent, rfl, (h.unique before rfl).2, declares⟩

end Trail

end UnitStore

/-- Where a walk to ancestors has got to: the class that it asks for next, the classes it has met, the last of them first, and
the methods it has collected. -/
structure AncestorWalk where
  next : Option ClassName
  met : List ClassName
  inherited : List InheritedMethod

namespace AncestorWalk

/-- The walk from a class before the first round. -/
def start (origin : ClassName) (u : SourceUnit) : Except ProxyError AncestorWalk := do
  let d ← u.proxyable origin
  let next ← u.parentOf origin d
  return ⟨next, [origin], []⟩

/-- The walk after a visit to the unit of a parent. -/
def visit (origin : ClassName) (walk : AncestorWalk) (parent : ClassName) (u : SourceUnit) :
    Except ProxyError AncestorWalk := do
  if walk.met.any (· == parent) then throw (.weaving origin.text (.inheritanceCycle parent.text))
  let a ← u.ancestor origin parent
  let next ← u.parentOf origin a.declaration
  return ⟨next, parent :: walk.met, walk.inherited ++ a.inherited⟩

/-- A round: the unit of the next parent is fetched and visited. -/
def Round (origin : ClassName) (before after : AncestorWalk × Workshop) : Prop :=
  ∃ parent u, before.1.next = some parent ∧ Workshop.fetch UnitStore.get parent before.2 = (.ok u, after.2) ∧
    before.1.visit origin parent u = .ok after.1

/-- What the rounds end with where none follows. -/
inductive Ends (origin : ClassName) (last : AncestorWalk × Workshop) :
    Except ProxyError (List InheritedMethod) × Workshop → Prop
  | finished : last.1.next = none → Ends origin last (.ok last.1.inherited, last.2)
  | unread {parent : ClassName} {e : ProxyError} {w : Workshop} :
    last.1.next = some parent → Workshop.fetch UnitStore.get parent last.2 = (.error e, w) → Ends origin last (.error e, w)
  | refused {parent : ClassName} {u : SourceUnit} {e : ProxyError} {w : Workshop} :
    last.1.next = some parent → Workshop.fetch UnitStore.get parent last.2 = (.ok u, w) →
    last.1.visit origin parent u = .error e → Ends origin last (.error e, w)

section Visit

variable {origin parent : ClassName} {walk walk' : AncestorWalk} {u : SourceUnit}

/-- A class that was met before is refused. -/
theorem visit_of_met (met : ∃ c ∈ walk.met, (c == parent) = true) :
    walk.visit origin parent u = .error (.weaving origin.text (.inheritanceCycle parent.text)) := by
  rw [visit, if_pos (List.any_eq_true.mpr met)]
  rfl

/-- Any other class is looked up in its unit. -/
theorem visit_eq (unmet : ∀ c ∈ walk.met, (c == parent) = false) : walk.visit origin parent u = (do
    let a ← u.ancestor origin parent
    let next ← u.parentOf origin a.declaration
    return ⟨next, parent :: walk.met, walk.inherited ++ a.inherited⟩) := by
  have unseen : ¬walk.met.any (· == parent) = true := by simpa using unmet
  rw [visit, if_neg unseen]

theorem visit_of_unmet (unmet : ∀ c ∈ walk.met, (c == parent) = false) {d : ClassDecl} {next : Option ClassName}
    (declared : u.declaration? parent.short = some (.class d)) (refers : u.parentOf origin d = .ok next) :
    walk.visit origin parent u =
      .ok ⟨next, parent :: walk.met, walk.inherited ++ Ancestor.inherited ⟨parent, d⟩⟩ := by
  have found : u.ancestor origin parent = .ok ⟨parent, d⟩ := by simp only [SourceUnit.ancestor, declared]
  rw [visit_eq unmet, bind_of_eq_ok found, bind_of_eq_ok refers]
  rfl

theorem visit_ok (h : walk.visit origin parent u = .ok walk') :
    (∀ c ∈ walk.met, (c == parent) = false) ∧ ∃ d next, u.declaration? parent.short = some (.class d) ∧
      (∀ origin, u.parentOf origin d = .ok next) ∧
      walk' = ⟨next, parent :: walk.met, walk.inherited ++ Ancestor.inherited ⟨parent, d⟩⟩ := by
  have unmet : ∀ c ∈ walk.met, (c == parent) = false := by
    intro c hc
    by_contra same
    rw [visit_of_met ⟨c, hc, by simpa using same⟩] at h
    cases h
  refine ⟨unmet, ?_⟩
  rw [visit_eq unmet] at h
  obtain ⟨a, found, h⟩ := bind_ok_iff.mp h
  obtain ⟨d, declared, rfl⟩ := ancestor_ok found
  obtain ⟨next, refers, h⟩ := bind_ok_iff.mp h
  exact ⟨d, next, declared, parentOf_origin refers, (Except.ok.inj h).symm⟩

theorem ancestor_error {e : ProxyError} (h : u.ancestor origin parent = .error e) :
    e = .weaving origin.text (.parentNotClass parent.text) := by
  unfold SourceUnit.ancestor at h
  split at h
  · cases h
  · exact (Except.error.inj h).symm

theorem parentOf_error {d : ClassDecl} {e : ProxyError} (h : u.parentOf origin d = .error e) :
    ∃ invalid, e = .weaving origin.text (.invalidParent invalid) := by
  unfold SourceUnit.parentOf at h
  split at h
  · cases h
  · split at h
    · cases h
    · rename_i invalid _
      exact ⟨invalid, (Except.error.inj h).symm⟩

/-- Any other class is refused only where its unit does not declare it, with a parent to ask for or with none. -/
theorem visit_error (unmet : ∀ c ∈ walk.met, (c == parent) = false) {e : ProxyError}
    (h : walk.visit origin parent u = .error e) :
    (∀ k, e ≠ .weaving origin.text (.inheritanceCycle k)) ∧
      ¬∃ d next, u.declaration? parent.short = some (.class d) ∧ ∀ origin, u.parentOf origin d = .ok next := by
  constructor
  · rw [visit_eq unmet] at h
    rintro k rfl
    cases found : u.ancestor origin parent with
    | error e =>
      rw [found] at h
      cases Except.error.inj h
      cases ancestor_error found
    | ok a =>
      cases refers : u.parentOf origin a.declaration with
      | error e =>
        rw [bind_of_eq_ok found, refers] at h
        cases Except.error.inj h
        obtain ⟨_, ⟨⟩⟩ := parentOf_error refers
      | ok next =>
        rw [bind_of_eq_ok found, bind_of_eq_ok refers] at h
        cases h
  · rintro ⟨d, next, declared, refers⟩
    rw [visit_of_unmet unmet declared (refers origin)] at h
    cases h

end Visit

section Rounds

variable {origin : ClassName} {before after last state : AncestorWalk × Workshop} {classes : List ClassName} {n : Nat}

/-- What a round does: it meets one class more, as the unit of the class declares it. -/
theorem Round.meets (round : Round origin before after) : ∃ parent d next,
    before.1.next = some parent ∧ (∀ c ∈ before.1.met, (c == parent) = false) ∧
      before.2.units.Declares parent d next ∧
      after.1 = ⟨next, parent :: before.1.met, before.1.inherited ++ Ancestor.inherited ⟨parent, d⟩⟩ ∧
      after.2.units = (before.2.units.get parent).2 := by
  obtain ⟨parent, u, asked, fetched, visited⟩ := round
  obtain ⟨units, got, same⟩ := fetch_ok fetched
  obtain ⟨unmet, d, next, declared, refers, walked⟩ := visit_ok visited
  refine ⟨parent, d, next, asked, unmet, ⟨u, by rw [got], declared, refers⟩, walked, ?_⟩
  rw [same, got]

theorem Round.grown (round : Round origin before after) : before.2.units.Extended after.2.units := by
  obtain ⟨parent, d, next, -, -, -, -, units⟩ := round.meets
  exact units ▸ before.2.units.get_extended parent

/-- Different classes that a walk has met, each with a unit that is kept. -/
structure Kept (state : AncestorWalk × Workshop) (classes : List ClassName) : Prop where
  met : classes ⊆ state.1.met
  apart : Machine.Apart classes
  units : ∀ c ∈ classes, ∃ u, state.2.units.unit? c = some u

theorem Kept.length_le (kept : Kept state classes) (room : AtMost n fun c => ∃ u, (state.2.units.get c).1 = .ok u) :
    classes.length ≤ n := by
  refine room classes kept.apart fun c hc => ?_
  obtain ⟨u, here⟩ := kept.units c hc
  exact ⟨u, by rw [UnitStore.get_of_unit? here]⟩

/-- The class that a round meets is another one, and its unit is kept. -/
theorem Round.kept (round : Round origin before after) (kept : Kept before classes) : ∃ parent,
    after.1.met = parent :: before.1.met ∧ Kept after (parent :: classes) := by
  obtain ⟨parent, d, next, -, unmet, ⟨u, given, -, -⟩, walked, units⟩ := round.meets
  have met : after.1.met = parent :: before.1.met := congrArg AncestorWalk.met walked
  refine ⟨parent, met, ?_, ?_, ?_⟩
  · rw [met]
    exact List.cons_subset_cons _ kept.met
  · refine List.pairwise_cons.mpr ⟨fun c hc => ?_, kept.apart⟩
    exact ClassName.beq_comm c parent ▸ unmet c (kept.met hc)
  · refine List.forall_mem_cons.mpr ⟨⟨u, ?_⟩, fun c hc => ?_⟩
    · rw [units]
      exact UnitStore.unit?_get (Prod.ext given rfl)
    · obtain ⟨v, here⟩ := kept.units c hc
      exact ⟨v, round.grown.unit? here⟩

/-- Each round meets a class more of those that are given a unit, so there is an end to them. -/
theorem acc_of_kept {k : Nat} (kept : Kept state classes)
    (room : AtMost (classes.length + k) fun c => ∃ u, (state.2.units.get c).1 = .ok u) :
    Acc (fun after before => Round origin before after) state := by
  induction k generalizing state classes with
  | zero =>
    refine .intro _ fun after round => ?_
    obtain ⟨parent, -, more⟩ := round.kept kept
    have tooMany := more.length_le (round.grown.atMost room)
    rw [List.length_cons] at tooMany
    omega
  | succ k ih =>
    refine .intro _ fun after round => ?_
    obtain ⟨parent, -, more⟩ := round.kept kept
    refine ih more ((round.grown.atMost room).le ?_)
    rw [List.length_cons]
    omega

theorem round_wellFounded (origin : ClassName) : WellFounded fun after before => Round origin before after := by
  refine ⟨fun state => ?_⟩
  have none : Kept state [] := ⟨List.nil_subset _, .nil, nofun⟩
  refine acc_of_kept (k := state.2.units.places.size + state.2.units.size) none ?_
  rw [List.length_nil, Nat.zero_add]
  exact state.2.units.atMost

/-- What a walk collects in so many steps, with what it has collected before. -/
def collected (origin : ClassName) (steps : Nat) (walk : AncestorWalk) : Work (List InheritedMethod) := do
  let ancestors ← ancestorsWithin (Workshop.fetch UnitStore.get) origin steps walk.met walk.next
  return walk.inherited ++ inheritedMethods ancestors

theorem liftExcept_bind {x : Except ProxyError α} {f : α → Except ProxyError β} :
    (ancestorsWithin.liftExcept (x >>= f) : Work β) =
      ancestorsWithin.liftExcept x >>= fun a => ancestorsWithin.liftExcept (f a) := by
  cases x <;> rfl

section Collected

variable {walk : AncestorWalk} {parent : ClassName} {steps : Nat}

theorem collected_of_none (finished : walk.next = none) :
    collected origin steps walk = pure walk.inherited := by
  have walked : ancestorsWithin (Workshop.fetch UnitStore.get) origin steps walk.met walk.next = pure [] := by
    rw [finished]
    cases steps <;> rfl
  rw [collected, walked, pure_bind, inheritedMethods, List.flatMap_nil, List.append_nil]

/-- A step of the walk is a visit to the unit of the next parent. -/
theorem collected_succ (asked : walk.next = some parent) : collected origin (steps + 1) walk =
    Workshop.fetch UnitStore.get parent >>= fun u =>
      ancestorsWithin.liftExcept (walk.visit origin parent u) >>= collected origin steps := by
  rw [collected, asked, ancestorsWithin, bind_assoc]
  congr 1
  funext u
  rw [visit]
  by_cases met : walk.met.any (· == parent) = true
  · simp only [if_pos met, bind_assoc]
    rfl
  · simp only [if_neg met, liftExcept_bind, bind_assoc, pure_bind]
    congr 1
    funext a
    congr 1
    funext next
    rw [show ancestorsWithin.liftExcept (pure _) = pure (f := Work) _ from rfl, pure_bind, collected]
    simp only [inheritedMethods, List.flatMap_cons, List.append_assoc]

end Collected

/-- The rounds lead to what the walk collects, if it has more steps than there are classes left that are given a unit. -/
theorem collected_ends {steps : Nat} (kept : Kept state state.1.met)
    (room : AtMost n fun c => ∃ u, (state.2.units.get c).1 = .ok u) (enough : n < steps + state.1.met.length) :
    ∃ last, ReflTransGen (Round origin) state last ∧ Ends origin last (collected origin steps state.1 state.2) := by
  induction steps generalizing state with
  | zero =>
    cases asked : state.1.next with
    | none =>
      rw [collected_of_none asked]
      exact ⟨state, .refl, .finished asked⟩
    | some parent =>
      have short := kept.length_le room
      omega
  | succ steps ih =>
    cases asked : state.1.next with
    | none =>
      rw [collected_of_none asked]
      exact ⟨state, .refl, .finished asked⟩
    | some parent =>
      rw [collected_succ asked]
      rcases fetched : Workshop.fetch UnitStore.get parent state.2 with ⟨e | u, w⟩
      · rw [run_bind_error fetched]
        exact ⟨state, .refl, .unread asked fetched⟩
      rw [run_bind fetched]
      cases visited : state.1.visit origin parent u with
      | error e => exact ⟨state, .refl, .refused asked fetched visited⟩
      | ok walk =>
        have round : Round origin state (walk, w) := ⟨parent, u, asked, fetched, visited⟩
        obtain ⟨_, met, more⟩ := round.kept kept
        have left : n < steps + walk.met.length := by
          rw [met, List.length_cons]
          omega
        rw [run_bind (liftExcept_run rfl)]
        obtain ⟨last, rounds, ends⟩ := @ih (walk, w) (met ▸ more) (round.grown.atMost room) left
        exact ⟨last, .head round rounds, ends⟩

/-- A walk has got along a trail: its classes are those that were met, and for any other the store gives what it gave at
first. -/
structure Reached (s : UnitStore) (origin : ClassName) (state : AncestorWalk × Workshop) (ancestors : List Ancestor) :
    Prop where
  trail : s.Trail origin ancestors state.1.next
  met : state.1.met = (UnitStore.onTrail origin ancestors).reverse
  inherited : state.1.inherited = inheritedMethods ancestors
  kept : Kept state state.1.met
  unmet : ∀ c, (∀ m ∈ state.1.met, (m == c) = false) → (state.2.units.get c).1 = (s.get c).1

section Reached

variable {s : UnitStore} {ancestors : List Ancestor} {parent : ClassName}

theorem Reached.declares_iff (reached : Reached s origin state ancestors) {d : ClassDecl} {next : Option ClassName}
    (unmet : ∀ m ∈ state.1.met, (m == parent) = false) :
    state.2.units.Declares parent d next ↔ s.Declares parent d next := by
  unfold UnitStore.Declares
  rw [reached.unmet parent unmet]

/-- A round leads one ancestor further. -/
theorem Reached.round (reached : Reached s origin before ancestors) (round : Round origin before after) :
    ∃ a, Reached s origin after (ancestors ++ [a]) := by
  obtain ⟨parent, d, next, asked, unmet, declares, walked, units⟩ := round.meets
  obtain ⟨_, met, more⟩ := round.kept reached.kept
  refine ⟨⟨parent, d⟩, ?_, ?_, ?_, met ▸ more, fun c others => ?_⟩
  · rw [walked]
    exact .visit (asked ▸ reached.trail) ((reached.declares_iff unmet).mp declares)
  · rw [walked, reached.met]
    simp [UnitStore.onTrail]
  · rw [walked, reached.inherited]
    simp [inheritedMethods]
  · rw [walked] at others
    obtain ⟨other, others⟩ := List.forall_mem_cons.mp others
    rw [units, UnitStore.get_of_other other, reached.unmet c others]

theorem Reached.rounds (reached : Reached s origin before ancestors) (rounds : ReflTransGen (Round origin) before after) :
    ∃ further, Reached s origin after further := by
  induction rounds with
  | refl => exact ⟨ancestors, reached⟩
  | tail _ round ih =>
    obtain ⟨further, there⟩ := ih
    obtain ⟨a, next⟩ := there.round round
    exact ⟨_, next⟩

theorem Reached.apart (reached : Reached s origin state ancestors) :
    Machine.Apart (UnitStore.onTrail origin ancestors) := by
  have apart : Machine.Apart (UnitStore.onTrail origin ancestors).reverse := reached.met ▸ reached.kept.apart
  refine (List.pairwise_reverse.mp apart).imp fun {c d} different => ?_
  exact ClassName.beq_comm c d ▸ different

theorem Reached.mem_met (reached : Reached s origin state ancestors) {c : ClassName} :
    c ∈ state.1.met ↔ c ∈ UnitStore.onTrail origin ancestors := by
  rw [reached.met, List.mem_reverse]

/-- What a walk can end with that has got along a trail: there is no parent to ask for, or the trail comes back, or no unit
declares the parent. -/
inductive Outcome (s : UnitStore) (origin : ClassName) (ancestors : List Ancestor) :
    Option ClassName → Except ProxyError (List InheritedMethod) → Prop
  | finished : Outcome s origin ancestors none (.ok (inheritedMethods ancestors))
  | cycle {back : ClassName} : (∃ c ∈ UnitStore.onTrail origin ancestors, (c == back) = true) →
    Outcome s origin ancestors (some back) (.error (.weaving origin.text (.inheritanceCycle back.text)))
  | lost {parent : ClassName} {e : ProxyError} : (∀ c ∈ UnitStore.onTrail origin ancestors, (c == parent) = false) →
    (¬∃ d next, s.Declares parent d next) → (∀ k, e ≠ .weaving origin.text (.inheritanceCycle k)) →
    Outcome s origin ancestors (some parent) (.error e)

theorem fetch_error {c : ClassName} {e : ProxyError} {w w' : Workshop}
    (h : Workshop.fetch UnitStore.get c w = (.error e, w')) : ∃ why, (w.units.get c).1 = .error why ∧ e = .noUnit why := by
  unfold Workshop.fetch at h
  rcases got : w.units.get c with ⟨why | u, units⟩ <;> rw [got] at h <;> cases h
  exact ⟨why, rfl, rfl⟩

theorem Reached.outcome (reached : Reached s origin last ancestors) {r : Except ProxyError (List InheritedMethod)}
    {w : Workshop} (ends : Ends origin last (r, w)) : Outcome s origin ancestors last.1.next r := by
  cases ends with
  | finished asked =>
    rw [asked, reached.inherited]
    exact .finished
  | @unread parent e w asked fetched =>
    obtain ⟨why, missing, rfl⟩ := fetch_error fetched
    have unmet : ∀ c ∈ last.1.met, (c == parent) = false := by
      intro c hc
      by_contra same
      obtain ⟨u, here⟩ := reached.kept.units c hc
      rw [UnitStore.unit?_congr (Bool.not_eq_false _ ▸ same)] at here
      rw [UnitStore.get_of_unit? here] at missing
      cases missing
    rw [asked]
    refine .lost (fun c hc => unmet c (reached.mem_met.mpr hc)) ?_ nofun
    rintro ⟨d, next, u, given, -⟩
    rw [← reached.unmet parent unmet, missing] at given
    cases given
  | @refused parent u e w asked fetched refused =>
    rw [asked]
    by_cases met : ∃ c ∈ last.1.met, (c == parent) = true
    · rw [visit_of_met met] at refused
      cases refused
      obtain ⟨c, hc, same⟩ := met
      exact .cycle ⟨c, reached.mem_met.mp hc, same⟩
    · have unmet : ∀ c ∈ last.1.met, (c == parent) = false :=
        fun c hc => Bool.eq_false_iff.mpr fun same => met ⟨c, hc, same⟩
      obtain ⟨noCycle, undeclared⟩ := visit_error unmet refused
      refine .lost (fun c hc => unmet c (reached.mem_met.mpr hc)) ?_ noCycle
      rintro ⟨d, next, declares⟩
      obtain ⟨v, given, declared, refers⟩ := (reached.declares_iff unmet).mpr declares
      obtain ⟨units, got, -⟩ := fetch_ok fetched
      rw [got] at given
      obtain rfl := Except.ok.inj given
      exact undeclared ⟨d, next, declared, refers⟩

end Reached

section Outcome

variable {s : UnitStore} {ancestors trail : List Ancestor} {next : Option ClassName}
  {r : Except ProxyError (List InheritedMethod)}

/-- A trail that comes back makes a walk end with a cycle. -/
theorem Outcome.cycle_of_comesBack (outcome : Outcome s origin ancestors next r) (walked : s.Trail origin ancestors next)
    (apart : Machine.Apart (UnitStore.onTrail origin ancestors)) {back : ClassName}
    (comesBack : s.ComesBack origin trail back) : ∃ k, r = .error (.weaving origin.text (.inheritanceCycle k)) := by
  obtain ⟨leads, c, hc, same⟩ := comesBack
  rcases Nat.lt_or_ge trail.length ancestors.length with shorter | longer
  · -- The walk went on, with the class that the trail comes back to: so it met that class twice.
    rcases leads.goes_on walked (Nat.le_of_lt shorter) with ⟨rfl, -⟩ | ⟨a, rest, _, rfl, asked, -⟩
    · exact absurd shorter (Nat.lt_irrefl _)
    · obtain rfl := Option.some.inj asked
      rw [UnitStore.apart_of_onTrail apart c hc] at same
      cases same
  · rcases walked.goes_on leads longer with ⟨rfl, rfl⟩ | ⟨a, rest, parent, rfl, rfl, declares⟩
    · cases outcome with
      | cycle => exact ⟨_, rfl⟩
      | lost unmet =>
        rw [unmet c hc] at same
        cases same
    · cases outcome with
      | cycle => exact ⟨_, rfl⟩
      | lost _ undeclared => exact absurd ⟨_, _, declares⟩ undeclared

/-- A trail of different classes that comes to an end is the one that a walk takes. -/
theorem Outcome.finished_of_trail (outcome : Outcome s origin ancestors next r) (walked : s.Trail origin ancestors next)
    (leads : s.Trail origin trail none) (distinct : Machine.Apart (UnitStore.onTrail origin trail)) :
    r = .ok (inheritedMethods trail) := by
  rcases Nat.lt_or_ge trail.length ancestors.length with shorter | longer
  · rcases leads.goes_on walked (Nat.le_of_lt shorter) with ⟨rfl, -⟩ | ⟨a, rest, _, -, asked, -⟩
    · exact absurd shorter (Nat.lt_irrefl _)
    · cases asked
  · rcases walked.goes_on leads longer with ⟨rfl, rfl⟩ | ⟨a, rest, parent, rfl, rfl, declares⟩
    · cases outcome
      rfl
    · cases outcome with
      | cycle met =>
        obtain ⟨c, hc, same⟩ := met
        rw [UnitStore.apart_of_onTrail distinct c hc] at same
        cases same
      | lost _ undeclared => exact absurd ⟨_, _, declares⟩ undeclared

end Outcome

end Rounds

end AncestorWalk

namespace Workshop

open AncestorWalk

variable {c : ClassName} {u : SourceUnit} {d : ClassDecl} {w w₁ w' : Workshop} {first : AncestorWalk}
  {r : Except ProxyError (List Ancestor)}

theorem start_ok (proxyable : u.proxyable c = .ok d) (started : AncestorWalk.start c u = .ok first) :
    ∃ next, u.parentOf c d = .ok next ∧ first = ⟨next, [c], []⟩ := by
  rw [AncestorWalk.start, bind_of_eq_ok proxyable] at started
  obtain ⟨next, refers, made⟩ := bind_ok_iff.mp started
  exact ⟨next, refers, (Except.ok.inj made).symm⟩

theorem start_error (proxyable : u.proxyable c = .ok d) {e : ProxyError} (refused : AncestorWalk.start c u = .error e) :
    u.parentOf c d = .error e := by
  rw [AncestorWalk.start, bind_of_eq_ok proxyable] at refused
  cases refers : u.parentOf c d with
  | error why => exact congrArg Except.error (Except.error.inj (refers ▸ refused))
  | ok next =>
    rw [bind_of_eq_ok refers] at refused
    cases refused

section Ran

variable (fetched : fetch UnitStore.get c w = (.ok u, w₁)) (proxyable : u.proxyable c = .ok d)
include fetched proxyable

theorem ancestry_run : ancestry c w = (do
    let parent ← ancestorsWithin.liftExcept (u.parentOf c d)
    ancestorsWithin (fetch UnitStore.get) c w₁.units.bound [c] parent : Work (List Ancestor)) w₁ := by
  rw [ancestry, run_bind fetched]
  exact (run_bind (x := get) rfl).trans (run_bind (liftExcept_run proxyable))

/-- The walk from a class collects what the rounds do. -/
theorem collected_of_ancestry (started : AncestorWalk.start c u = .ok first) (ran : ancestry c w = (r, w')) :
    collected c w₁.units.bound first w₁ = (r.map inheritedMethods, w') := by
  obtain ⟨next, refers, rfl⟩ := start_ok proxyable started
  rw [ancestry_run fetched proxyable, run_bind (liftExcept_run refers)] at ran
  unfold collected
  cases r with
  | error e => exact run_bind_error ran
  | ok ancestors => exact run_bind ran

theorem reached_start (started : AncestorWalk.start c u = .ok first) : Reached w.units c (first, w₁) [] := by
  obtain ⟨next, refers, rfl⟩ := start_ok proxyable started
  obtain ⟨units, got, rfl⟩ := fetch_ok fetched
  have declared : u.declaration? c.short = some (.class d) := classNamed_ok (proxyable_ok proxyable).1
  refine ⟨.start ⟨u, by rw [got], declared, parentOf_origin refers⟩, rfl, rfl, ?_, fun k other => ?_⟩
  · exact ⟨List.Subset.refl _, List.pairwise_singleton _ _, List.forall_mem_singleton.mpr ⟨u, UnitStore.unit?_get got⟩⟩
  · have same := UnitStore.get_of_other (s := w.units) (other c List.mem_cons_self)
    rwa [got] at same

/-- A walk that does not start has no trail. -/
theorem refused_start {e : ProxyError} (refused : AncestorWalk.start c u = .error e) (ran : ancestry c w = (r, w')) :
    r = .error e ∧ (∀ k, e ≠ .weaving c.text (.inheritanceCycle k)) ∧ ∀ ancestors next, ¬w.units.Trail c ancestors next := by
  have refers := start_error proxyable refused
  refine ⟨?_, ?_, fun ancestors next trail => ?_⟩
  · rw [ancestry_run fetched proxyable, refers] at ran
    exact (Prod.mk.inj ran).1.symm
  · obtain ⟨_, rfl⟩ := parentOf_error refers
    nofun
  · obtain ⟨e, parent, v, given, declared, means⟩ := trail.declares
    obtain ⟨units, got, -⟩ := fetch_ok fetched
    rw [got] at given
    obtain rfl := Except.ok.inj given
    rw [classNamed_ok (proxyable_ok proxyable).1] at declared
    obtain rfl := Declaration.class.inj (Option.some.inj declared)
    rw [means c] at refers
    cases refers

/-- The rounds from a class come to an end, with what the walk gives. -/
theorem ancestry_ends (started : AncestorWalk.start c u = .ok first) (ran : ancestry c w = (r, w')) :
    ∃ last, ReflTransGen (Round c) (first, w₁) last ∧ Ends c last (r.map inheritedMethods, w') := by
  have begun := reached_start fetched proxyable started
  have grown : w.units.Extended w₁.units := by
    obtain ⟨units, got, rfl⟩ := fetch_ok fetched
    have grown := w.units.get_extended c
    rwa [got] at grown
  have enough : w.units.places.size + w.units.size < w₁.units.bound + first.met.length := by
    have more := bound_mono grown
    unfold UnitStore.bound at more ⊢
    omega
  rw [← collected_of_ancestry fetched proxyable started ran]
  exact collected_ends begun.kept (grown.atMost w.units.atMost) enough

end Ran

/-- The walk to the ancestors of a class that can be proxied, over the units that a store gives, whatever they are. From
wherever they begin, the rounds come to an end; those from the class end with what the walk gives, and on the way no class is
met twice, in any spelling. What the class inherits is what its ancestors declare in order, the nearest first, each method
with the ancestor that it is from, where the parents come to an end along different classes; and there is a cycle exactly if
the parents, each a class that its unit declares, come back to the class or to an ancestor that they have passed. -/
theorem ancestry_rounds (fetched : fetch UnitStore.get c w = (.ok u, w₁)) (proxyable : u.proxyable c = .ok d)
    (ran : ancestry c w = (r, w')) :
    (WellFounded fun after before => Round c before after) ∧
    (∀ first, AncestorWalk.start c u = .ok first →
      (∃ last, ReflTransGen (Round c) (first, w₁) last ∧ Ends c last (r.map inheritedMethods, w')) ∧
      ∀ state, ReflTransGen (Round c) (first, w₁) state → Machine.Apart state.1.met) ∧
    (∀ inherited, r.map inheritedMethods = .ok inherited ↔ ∃ ancestors, w.units.Trail c ancestors none ∧
      Machine.Apart (UnitStore.onTrail c ancestors) ∧
      inherited = ancestors.flatMap fun a => a.declaration.methods.map fun m => ⟨a.name, m⟩) ∧
    (∀ k, r = .error (.weaving c.text (.inheritanceCycle k)) →
      ∃ ancestors back, w.units.ComesBack c ancestors back ∧ back.text = k) ∧
    ∀ ancestors back, w.units.ComesBack c ancestors back →
      ∃ k, r = .error (.weaving c.text (.inheritanceCycle k)) := by
  refine ⟨round_wellFounded c, ?_⟩
  cases started : AncestorWalk.start c u with
  | error e =>
    obtain ⟨rfl, noCycle, noTrail⟩ := refused_start fetched proxyable started ran
    refine ⟨nofun, fun inherited => ⟨nofun, ?_⟩, fun k cycle => absurd (Except.error.inj cycle) (noCycle k), ?_⟩
    · rintro ⟨ancestors, leads, -⟩
      exact absurd leads (noTrail _ _)
    · rintro ancestors back ⟨leads, -⟩
      exact absurd leads (noTrail _ _)
  | ok first =>
    have begun := reached_start fetched proxyable started
    obtain ⟨last, rounds, ends⟩ := ancestry_ends fetched proxyable started ran
    obtain ⟨ancestors, reached⟩ := begun.rounds rounds
    have outcome := reached.outcome ends
    have trail := reached.trail
    refine ⟨?_, fun inherited => ⟨fun ok => ?_, ?_⟩, fun k cycle => ?_, fun trail back comesBack => ?_⟩
    · rintro _ ⟨⟩
      refine ⟨⟨last, rounds, ends⟩, fun state there => ?_⟩
      obtain ⟨_, reached⟩ := begun.rounds there
      exact reached.kept.apart
    · rw [ok] at outcome
      generalize last.1.next = next at outcome trail
      cases outcome
      exact ⟨ancestors, trail, reached.apart, rfl⟩
    · rintro ⟨trail, leads, distinct, rfl⟩
      exact outcome.finished_of_trail reached.trail leads distinct
    · rw [cycle] at outcome
      generalize last.1.next = next at outcome trail
      cases outcome with
      | cycle met => exact ⟨ancestors, _, ⟨trail, met⟩, rfl⟩
      | lost _ _ noCycle => exact absurd rfl (noCycle k)
    · obtain ⟨k, cycle⟩ := outcome.cycle_of_comesBack reached.trail reached.apart comesBack
      cases r with
      | ok found => cases cycle
      | error e => exact ⟨k, congrArg Except.error (Except.error.inj cycle)⟩

/-- A class of some methods, perhaps below another. -/
def plantUnit (name : String) (parent : Option String) (methods : List String) : SourceUnit :=
  { declarations := [.class ⟨name, false, parent, methods.map (Machine.bareMethod · false)⟩] }

def fernName : ClassName := ⟨"Fern", by decide⟩

def ivyName : ClassName := ⟨"Ivy", by decide⟩

/-- Units of five classes: the parents of one come to an end, those of another go round, in other spellings and past it. -/
def garden : Workshop where
  aspect := builtinAspect
  units := { places := [], units := [
    (fernName, plantUnit "Fern" (some "MOSS") []), (⟨"Moss", by decide⟩, plantUnit "Moss" (some "Lichen") []),
    (⟨"Lichen", by decide⟩, plantUnit "Lichen" (some "moss") []), (ivyName, plantUnit "Ivy" (some "OAK") ["climb"]),
    (⟨"Oak", by decide⟩, plantUnit "Oak" none ["grow", "shed"])] }

/-- The rounds from one class end with a cycle through another, those from a third with what its parent declares. -/
theorem ancestry_rounds_garden :
    (∃ ancestors back, garden.units.ComesBack fernName ancestors back ∧ back.text = "moss") ∧
    ∃ ancestors inherited, garden.units.Trail ivyName ancestors none ∧
      (ancestry ivyName garden).1.map inheritedMethods = .ok inherited ∧
      inherited = ancestors.flatMap (fun a => a.declaration.methods.map fun m => ⟨a.name, m⟩) ∧
      inherited.map (fun i => (i.owner.text, i.method.name)) = [("OAK", "grow"), ("OAK", "shed")] := by
  constructor
  · have cycle : (ancestry fernName garden).1.map (fun _ => ()) = .error (.weaving "Fern" (.inheritanceCycle "moss")) := by
      decide +kernel
    rcases ran : ancestry fernName garden with ⟨e | found, w'⟩ <;> rw [ran] at cycle <;> cases cycle
    have fetched : fetch UnitStore.get fernName garden = (.ok (plantUnit "Fern" (some "MOSS") []), garden) := rfl
    have proxyable : (plantUnit "Fern" (some "MOSS") []).proxyable fernName = .ok ⟨"Fern", false, some "MOSS", []⟩ := rfl
    obtain ⟨-, -, -, comesBack, -⟩ := ancestry_rounds fetched proxyable ran
    exact comesBack "moss" rfl
  · have owners : (ancestry ivyName garden).1.map
        (fun found => (inheritedMethods found).map fun i => (i.owner.text, i.method.name)) =
          .ok [("OAK", "grow"), ("OAK", "shed")] := by
      decide +kernel
    rcases ran : ancestry ivyName garden with ⟨e | found, w'⟩ <;> rw [ran] at owners
    · cases owners
    have fetched : fetch UnitStore.get ivyName garden = (.ok (plantUnit "Ivy" (some "OAK") ["climb"]), garden) := rfl
    have proxyable : (plantUnit "Ivy" (some "OAK") ["climb"]).proxyable ivyName =
        .ok ⟨"Ivy", false, some "OAK", [Machine.bareMethod "climb" false]⟩ :=
      rfl
    obtain ⟨-, -, inherits, -, -⟩ := ancestry_rounds fetched proxyable ran
    obtain ⟨ancestors, leads, -, collected⟩ := (inherits (inheritedMethods found)).mp rfl
    exact ⟨ancestors, _, leads, rfl, collected, Except.ok.inj owners⟩

end Workshop

end AspectProxy
