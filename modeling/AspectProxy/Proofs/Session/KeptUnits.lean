import AspectProxy.Proofs.Session.Repeated

/-!
The units that proxies are made from, whatever uses them: a unit is asked for, a proxy is made, which takes the units of
ancestors and of the aspect, or a running program loads classes, while sources come and change in between. A unit that was
given stays the unit of its class, and each unit is read from the source that its class had when it was first needed.
-/

namespace AspectProxy

/-- Whether a unit is what the source of a class holds, as the places of a store are. -/
structure UnitStore.Reads (s : UnitStore) (c : ClassName) (u : SourceUnit) : Prop where
  source : ∃ source, s.places.resolve c = .ok source ∧ SourceUnit.ofString? source.text = .ok u
  declares : u.declarations ≠ []

namespace UnitStore

variable {s t : UnitStore}

theorem Extended.reads (h : Extended s t) {e : ClassName × SourceUnit} (kept : e ∈ t.units) (new : e ∉ s.units) :
    s.Reads e.1 e.2 :=
  ⟨(h.read e kept).resolve_left new, (h.declares e kept).resolve_left new⟩

/-- Stores of which the second has all units of the first, and further ones only if the places are the same. -/
def Continues (before after : UnitStore) : Prop :=
  Extended before after ∨ after.units = before.units

theorem Continues.units (h : Continues s t) : s.units <+: t.units := by
  rcases h with extended | same
  · exact extended.units
  · exact same ▸ List.prefix_refl _

end UnitStore

namespace Session

variable {s t r : Session} {c d : ClassName} {u : SourceUnit}

/-- The unit of a class, from those that proxies are made from; it may be requested where a host would otherwise wait for
a file. -/
def unitOf (requesting : Bool) (c : ClassName) : Session → Except ProxyError SourceUnit × Session :=
  work (Workshop.fetch (if requesting then UnitStore.request else UnitStore.get) c)

/-- What uses the units that proxies are made from, or changes where they come from. -/
inductive UnitUse where
  | unitOf (requesting : Bool) (c : ClassName)
  | giveSource (c : ClassName) (text : String)
  | hookNames
  | operation (o : Operation)

/-- The session after its units were used, whatever has come of it. -/
def useUnits (s : Session) : UnitUse → Session
  | .unitOf requesting c => (s.unitOf requesting c).2
  | .giveSource c text => s.giveSource c text
  | .hookNames => s.hookNames.2
  | .operation o => s.perform o

/-- The session after one use behind the other. -/
def useAll (s : Session) (uses : List UnitUse) : Session :=
  uses.foldl useUnits s

theorem unitOf_get (c : ClassName) (s : Session) : s.unitOf false c =
    ((s.workshop.units.get c).1.mapError .noUnit,
      s.setWorkshop { s.workshop with units := (s.workshop.units.get c).2 }) :=
  rfl

/-- A unit is given as if no file were awaited, unless the file for the class cannot be read; then the units stay. -/
theorem unitOf_cases (requesting : Bool) (c : ClassName) (s : Session) : s.unitOf requesting c = s.unitOf false c ∨
    ∃ e, s.unitOf requesting c = (.error e, s.setWorkshop s.workshop) := by
  cases requesting with
  | false => exact .inl rfl
  | true =>
    show s.work (Workshop.fetch UnitStore.request c) = s.work (Workshop.fetch UnitStore.get c) ∨
      ∃ e, s.work (Workshop.fetch UnitStore.request c) = (.error e, s.setWorkshop s.workshop)
    unfold work ExceptT.run
    rcases Workshop.fetch_request c s.workshop with same | ⟨-, -, e, failed⟩
    · exact .inl (by rw [same])
    · exact .inr ⟨e, by rw [failed]⟩

theorem workshop_setWorkshop_self (s : Session) : (s.setWorkshop s.workshop).workshop = s.workshop :=
  workshop_setWorkshop rfl rfl

theorem unitOf_get_workshop (c : ClassName) (s : Session) :
    (s.unitOf false c).2.workshop = { s.workshop with units := (s.workshop.units.get c).2 } :=
  workshop_setWorkshop rfl rfl

/-- A unit that is given is kept. -/
theorem unitOf_ok {requesting : Bool} (given : s.unitOf requesting c = (.ok u, t)) :
    t.workshop.units.unit? c = some u := by
  rcases s.unitOf_cases requesting c with same | ⟨e, failed⟩
  · rw [same] at given
    have after := unitOf_get_workshop c s
    rw [given] at after
    rw [unitOf_get] at given
    rw [after]
    rcases got : s.workshop.units.get c with ⟨e | v, units⟩ <;> rw [got] at given
    · cases given
    · cases given
      exact UnitStore.unit?_get got
  · rw [failed] at given
    cases given

/-- A unit that is kept is given for every spelling of its class, and the units stay as they are. -/
theorem unitOf_kept (requesting : Bool) (kept : s.workshop.units.unit? c = some u) (same : (c == d) = true) :
    (s.unitOf requesting d).1 = .ok u ∧ (s.unitOf requesting d).2.workshop = s.workshop := by
  rw [UnitStore.unit?_congr same] at kept
  have access : (if requesting then UnitStore.request else UnitStore.get) s.workshop.units d = (.ok u, s.workshop.units) := by
    cases requesting with
    | false => exact UnitStore.get_of_unit? kept
    | true => exact UnitStore.request_of_unit? kept
  have fetched : Workshop.fetch (if requesting then UnitStore.request else UnitStore.get) d s.workshop =
      (.ok u, s.workshop) := by
    rw [Workshop.fetch, access]
    rfl
  rw [unitOf, work, ExceptT.run, fetched]
  exact ⟨rfl, s.workshop_setWorkshop_self⟩

/-- Where no unit is given, none is kept. -/
theorem unitOf_error {requesting : Bool} {e : ProxyError} (failed : s.unitOf requesting c = (.error e, t)) :
    t.workshop = s.workshop := by
  rcases s.unitOf_cases requesting c with same | ⟨problem, unread⟩
  · rw [same] at failed
    have after := unitOf_get_workshop c s
    rw [failed] at after
    rw [unitOf_get] at failed
    rw [after]
    rcases got : s.workshop.units.get c with ⟨e | v, units⟩ <;> rw [got] at failed
    · rw [UnitStore.get_error got]
    · cases failed
  · rw [unread] at failed
    cases failed
    exact s.workshop_setWorkshop_self

theorem useUnits_continues (s : Session) (use : UnitUse) :
    s.workshop.units.Continues (s.useUnits use).workshop.units := by
  cases use with
  | unitOf requesting c =>
    rw [useUnits]
    rcases s.unitOf_cases requesting c with same | ⟨e, failed⟩
    · rw [same, unitOf_get_workshop]
      exact .inl (s.workshop.units.get_extended c)
    · rw [failed, workshop_setWorkshop_self]
      exact .inl (.refl _)
  | giveSource c text =>
    rw [useUnits, workshop_giveSource]
    exact .inr rfl
  | hookNames => exact .inl (advances_setWorkshop (Workshop.hookSet_grows s.workshop)).workshop.units
  | operation o =>
    rcases s.perform_advances o with ⟨c, text, rfl⟩ | advanced
    · obtain ⟨units, after, same, -⟩ := s.workshop_addSource c text
      rw [useUnits, perform, after]
      exact .inr same
    · exact .inl advanced.workshop.units

/-- A use of the units during which a unit is kept for the first time: it is what the source of its class holds, and no
source changes meanwhile. -/
structure KeptBy (s : Session) (use : UnitUse) (e : ClassName × SourceUnit) : Prop where
  new : e ∉ s.workshop.units.units
  kept : e ∈ (s.useUnits use).workshop.units.units
  places : (s.useUnits use).workshop.units.places = s.workshop.units.places
  reads : s.workshop.units.Reads e.1 e.2

theorem useUnits_kept {use : UnitUse} {e : ClassName × SourceUnit} (kept : e ∈ (s.useUnits use).workshop.units.units) :
    e ∈ s.workshop.units.units ∨ s.KeptBy use e := by
  by_cases there : e ∈ s.workshop.units.units
  · exact .inl there
  · rcases s.useUnits_continues use with extended | same
    · exact .inr ⟨there, kept, extended.places, extended.reads kept there⟩
    · rw [same] at kept
      exact absurd kept there

theorem useAll_units (s : Session) (uses : List UnitUse) :
    s.workshop.units.units <+: (s.useAll uses).workshop.units.units := by
  induction uses generalizing s with
  | nil => exact List.prefix_rfl
  | cons use rest ih => exact (s.useUnits_continues use).units.trans (ih (s.useUnits use))

/-- Each unit of a run was there before, or one use of the run kept it. -/
theorem useAll_kept {uses : List UnitUse} {e : ClassName × SourceUnit} (kept : e ∈ (s.useAll uses).workshop.units.units) :
    e ∈ s.workshop.units.units ∨ ∃ before use after, uses = before ++ use :: after ∧ (s.useAll before).KeptBy use e := by
  induction uses generalizing s with
  | nil => exact .inl kept
  | cons use rest ih =>
    rcases ih kept with there | ⟨before, later, after, split, keptBy⟩
    · rcases useUnits_kept there with there | keptBy
      · exact .inl there
      · exact .inr ⟨[], use, rest, rfl, keptBy⟩
    · exact .inr ⟨use :: before, later, after, congrArg (use :: ·) split, keptBy⟩

/-- A unit that is kept for a class stays so. -/
theorem unit?_useAll (uses : List UnitUse) (kept : s.workshop.units.unit? c = some u) :
    (s.useAll uses).workshop.units.unit? c = some u := by
  obtain ⟨more, units⟩ := s.useAll_units uses
  obtain ⟨e, found, rfl⟩ := Option.map_eq_some_iff.mp kept
  rw [UnitStore.unit?, ← units, List.find?_append, found]
  rfl

/-- The units that proxies are made from only grow, whatever uses them and whichever sources are added or replaced: each
stands where it stood, and each further one is what the source of its class held when a use first kept it. Once a unit is
given for a class, it is given for every spelling of the class from then on; where none is given, the units stay. -/
theorem units_stable (s : Session) (uses : List UnitUse) :
    s.workshop.units.units <+: (s.useAll uses).workshop.units.units ∧
    (∀ e ∈ (s.useAll uses).workshop.units.units, e ∈ s.workshop.units.units ∨
      ∃ before use after, uses = before ++ use :: after ∧ (s.useAll before).KeptBy use e) ∧
    (∀ requesting c u t, s.unitOf requesting c = (.ok u, t) → ∀ again d, (c == d) = true →
      ((t.useAll uses).unitOf again d).1 = .ok u ∧
        ((t.useAll uses).unitOf again d).2.workshop = (t.useAll uses).workshop) ∧
    ∀ requesting c e t, s.unitOf requesting c = (.error e, t) → t.workshop = s.workshop := by
  refine ⟨s.useAll_units uses, fun e kept => useAll_kept kept, ?_, fun requesting c e t failed => unitOf_error failed⟩
  intro requesting c u t given again d same
  exact unitOf_kept again (unit?_useAll uses (unitOf_ok given)) same

/-- The class is asked for by another spelling after its source has become a text that is none. -/
theorem units_stable_bell : ∃ t, (quietSession quietSources []).unitOf false bell = (.ok bellUnit, t) ∧
    ((t.useAll [.giveSource bell "class", .hookNames, .operation (.instantiate bell [])]).unitOf true
      ⟨"APP.bell", by decide⟩).1 = .ok bellUnit := by
  have source : (quietSession quietSources []).workshop.units.places.resolve bell = .ok ⟨bell, bellText, .memory⟩ := rfl
  have given : (quietSession quietSources []).unitOf false bell =
      (.ok bellUnit, quietSession quietSources [(bell, bellUnit)]) := by
    rw [unitOf_get, UnitStore.get_of_resolve rfl source bell_read (by decide)]
    rfl
  obtain ⟨-, -, stays, -⟩ := (quietSession quietSources []).units_stable
    [.giveSource bell "class", .hookNames, .operation (.instantiate bell [])]
  obtain ⟨again, -⟩ := stays false bell bellUnit _ given true ⟨"APP.bell", by decide⟩ (by decide)
  exact ⟨_, given, again⟩

end Session

end AspectProxy
