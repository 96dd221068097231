import AspectProxy.Proofs.ClassTable.Lawful
import AspectProxy.Proofs.Machine.LoadFrame

/-!
What a store of units keeps. A unit that was given once is given from then on for every spelling of its class, whatever
is read, loaded or added as a source in between.
-/

namespace AspectProxy

/-- Every file that is located for a class can be read. -/
def SourceChain.Readable (chain : SourceChain) : Prop :=
  ∀ c path fault, chain.locate? c ≠ some (path, .error fault)

namespace UnitStore

variable {s t r : UnitStore} {c d : ClassName} {u : SourceUnit}

theorem unit?_congr (same : (c == d) = true) : s.unit? c = s.unit? d := by
  unfold unit?
  congr 2
  funext e
  exact ClassName.beq_congr_right same e.1

/-- Stores that look in the same places, the second with all units of the first and with such as were read there. -/
structure Extended (before after : UnitStore) : Prop where
  places : after.places = before.places
  units : before.units <+: after.units
  read : ∀ e ∈ after.units, e ∈ before.units ∨
    ∃ source, before.places.resolve e.1 = .ok source ∧ SourceUnit.ofString? source.text = .ok e.2
  declares : ∀ e ∈ after.units, e ∈ before.units ∨ e.2.declarations ≠ []

theorem Extended.refl (s : UnitStore) : Extended s s :=
  ⟨rfl, List.prefix_rfl, fun _ => .inl, fun _ => .inl⟩

theorem Extended.trans (first : Extended s t) (second : Extended t r) : Extended s r := by
  refine ⟨second.places.trans first.places, first.units.trans second.units, fun e he => ?_, fun e he => ?_⟩
  · rcases second.read e he with there | ⟨source, found, read⟩
    · exact first.read e there
    · exact .inr ⟨source, first.places ▸ found, read⟩
  · rcases second.declares e he with there | declares
    · exact first.declares e there
    · exact .inr declares

theorem Extended.keep {source : Source} (found : s.places.resolve c = .ok source)
    (read : SourceUnit.ofString? source.text = .ok u) (declares : u.declarations ≠ []) :
    Extended s { s with units := s.units ++ [(c, u)] } := by
  refine ⟨rfl, List.prefix_append _ _, fun e he => ?_, fun e he => ?_⟩ <;> rcases List.mem_append.mp he with there | new
  · exact .inl there
  · obtain rfl := List.mem_singleton.mp new
    exact .inr ⟨source, found, read⟩
  · exact .inl there
  · obtain rfl := List.mem_singleton.mp new
    exact .inr declares

theorem Extended.unit? (h : Extended s t) (kept : s.unit? c = some u) : t.unit? c = some u := by
  obtain ⟨more, units⟩ := h.units
  obtain ⟨e, found, rfl⟩ := Option.map_eq_some_iff.mp kept
  rw [UnitStore.unit?, ← units, List.find?_append, found]
  rfl

theorem Extended.unit?_eq_none (h : Extended s t) (absent : t.unit? c = none) : s.unit? c = none := by
  cases kept : s.unit? c with
  | none => rfl
  | some u => rw [h.unit? kept] at absent; cases absent

/-- A unit that is kept is given, and nothing is read. -/
theorem get_of_unit? (kept : s.unit? c = some u) : s.get c = (.ok u, s) := by
  rw [get, kept]

/-- What a text is stored as, for a class that no unit is kept of. -/
theorem store_ok {text : String} (h : s.store c text = (.ok u, t)) (absent : s.unit? c = none) :
    SourceUnit.ofString? text = .ok u ∧ u.declarations ≠ [] ∧ t = { s with units := s.units ++ [(c, u)] } := by
  unfold store at h
  split at h
  · cases h
  · rename_i v read
    split at h
    · cases h
    · rename_i declares
      rw [absent] at h
      cases h
      exact ⟨read, by simpa using declares, rfl⟩

/-- How a unit is got: it was kept, or it is read from the source of the class and kept. -/
theorem get_ok (h : s.get c = (.ok u, t)) : s.unit? c = some u ∧ t = s ∨
    s.unit? c = none ∧ ∃ source, s.places.resolve c = .ok source ∧ SourceUnit.ofString? source.text = .ok u ∧
      u.declarations ≠ [] ∧ t = { s with units := s.units ++ [(c, u)] } := by
  unfold get at h
  cases kept : s.unit? c with
  | some v =>
    rw [kept] at h
    cases h
    exact .inl ⟨rfl, rfl⟩
  | none =>
    rw [kept] at h
    cases found : s.places.resolve c with
    | error e => simp [found] at h
    | ok source =>
      simp only [found] at h
      obtain ⟨read, declares, grown⟩ := store_ok h kept
      exact .inr ⟨rfl, source, rfl, read, declares, grown⟩

/-- Where no unit is got, none is kept. -/
theorem get_error {e : UnitError} (h : s.get c = (.error e, t)) : t = s := by
  unfold get store at h
  repeat' split at h
  all_goals cases h
  all_goals rfl

/-- The unit that the source of a class holds is given for the class, and kept. -/
theorem get_of_resolve {source : Source} (absent : s.unit? c = none) (found : s.places.resolve c = .ok source)
    (read : SourceUnit.ofString? source.text = .ok u) (declares : u.declarations ≠ []) :
    s.get c = (.ok u, { s with units := s.units ++ [(c, u)] }) := by
  simp [get, absent, found, store, read, declares]

theorem unit?_append (absent : s.unit? c = none) : unit? { s with units := s.units ++ [(c, u)] } c = some u := by
  have none : s.units.find? (fun e => e.1 == c) = none := Option.map_eq_none_iff.mp absent
  unfold unit?
  rw [List.find?_append, none]
  simp

theorem get_extended (s : UnitStore) (c : ClassName) : Extended s (s.get c).2 := by
  rcases got : s.get c with ⟨e | u, t⟩
  · obtain rfl := get_error got
    exact .refl t
  · rcases get_ok got with ⟨-, rfl⟩ | ⟨-, source, found, read, declares, rfl⟩
    · exact .refl t
    · exact .keep found read declares

/-- What is given is kept. -/
theorem unit?_get (h : s.get c = (.ok u, t)) : t.unit? c = some u := by
  rcases get_ok h with ⟨kept, rfl⟩ | ⟨absent, -, -, -, -, rfl⟩
  · exact kept
  · exact unit?_append absent

/-- A text that is located for a class is the source of the class. -/
theorem resolveFrom_of_locate? {chain : SourceChain} {path text : String}
    (located : chain.locate? c = some (path, .ok text)) (misses : List String) :
    SourceChain.resolveFrom c chain misses = .ok (text, .file path) := by
  induction chain generalizing misses with
  | nil => cases located
  | cons p rest ih =>
    rw [SourceChain.locate?] at located
    cases here : p.locate? c with
    | some found =>
      rw [here] at located
      obtain rfl := Option.some.inj located
      cases p with
      | memory sources => cases here
      | builtin => cases here
      | files roots extension => simp only [SourceChain.resolveFrom, SourcePlace.resolve, here]
    | none =>
      rw [here] at located
      cases resolved : p.resolve c with
      | ok found => simp [resolved] at located
      | error reason =>
        simp only [resolved] at located
        rw [SourceChain.resolveFrom, resolved]
        exact ih located _

/-- The source of a class that is from a file is located, unless another file is that cannot be read. -/
theorem locate?_of_resolveFrom {chain : SourceChain} {path text : String} {misses : List String}
    (readable : ∀ path fault, chain.locate? c ≠ some (path, .error fault))
    (found : SourceChain.resolveFrom c chain misses = .ok (text, .file path)) :
    chain.locate? c = some (path, .ok text) := by
  induction chain generalizing misses with
  | nil => cases misses <;> cases found
  | cons p rest ih =>
    rw [SourceChain.resolveFrom] at found
    rw [SourceChain.locate?] at readable ⊢
    cases here : p.locate? c with
    | some file =>
      cases p with
      | memory sources => cases here
      | builtin => cases here
      | files roots extension =>
        obtain ⟨place, fault | content⟩ := file
        · exact absurd (by rw [here]) (readable place fault)
        · simp only [SourcePlace.resolve, here] at found
          cases found
          rfl
    | none =>
      cases resolved : p.resolve c with
      | error reason =>
        rw [resolved] at found
        simp only [here, resolved] at readable
        exact ih readable found
      | ok source =>
        -- A place that locates nothing has its sources from no file.
        rw [resolved] at found
        obtain rfl := Except.ok.inj found
        unfold SourcePlace.resolve at resolved
        split at resolved
        · split at resolved <;> cases resolved
        · simp [here] at resolved
        · split at resolved <;> cases resolved

/-- A unit that is kept is given on request. -/
theorem request_of_unit? (kept : s.unit? c = some u) : s.request c = (.ok u, s) := by
  rw [request, kept]

/-- A unit that is requested is the one that is got, however files are read, unless the file that is located for the class
cannot be read. -/
theorem request_cases (s : UnitStore) (c : ClassName) : s.request c = s.get c ∨
    ∃ path fault, s.places.locate? c = some (path, .error fault) ∧
      s.request c = (.error (.notFound c.text (fault.reason path)), s) := by
  unfold request
  cases kept : s.unit? c with
  | some u => exact .inl (get_of_unit? kept).symm
  | none =>
    cases s.mode with
    | blocking => exact .inl rfl
    | async =>
      rcases located : s.places.locate? c with _ | ⟨path, fault | text⟩
      · exact .inl rfl
      · exact .inr ⟨path, fault, rfl, rfl⟩
      · refine .inl ?_
        simp only [get, kept, SourceChain.resolve, resolveFrom_of_locate? located]

theorem find?_setSource (c : ClassName) (text : String) (sources : List (ClassName × String)) :
    ∃ n, (setSource c text sources).find? (fun e => e.1 == c) = some (n, text) := by
  induction sources with
  | nil => exact ⟨c, by simp [setSource]⟩
  | cons e rest ih =>
    obtain ⟨n, t⟩ := e
    by_cases same : (n == c) = true
    · exact ⟨n, by simp [setSource, same]⟩
    · obtain ⟨m, found⟩ := ih
      exact ⟨m, by simp [setSource, same, found]⟩

/-- A source that is added is the source of its class, where the memory is asked first. -/
theorem resolve_addSource {sources : List (ClassName × String)} {rest : List SourcePlace}
    (memory : s.places = .memory sources :: rest) (c : ClassName) (text : String) :
    (s.addSource c text).places.resolve c = .ok ⟨c, text, .memory⟩ := by
  obtain ⟨n, found⟩ := find?_setSource c text sources
  simp [addSource, memory, addSource.go, SourceChain.resolve, SourceChain.resolveFrom, SourcePlace.resolve, found]

theorem length_setSource (c : ClassName) (text : String) (sources : List (ClassName × String)) :
    sources.length ≤ (setSource c text sources).length := by
  induction sources with
  | nil => exact Nat.zero_le _
  | cons e rest ih =>
    rw [setSource]
    split
    · exact Nat.le_refl _
    · exact Nat.succ_le_succ ih

theorem foldl_size_mono (places : List SourcePlace) {n k : Nat} (h : n ≤ k) :
    places.foldl (fun n p => n + p.size) n ≤ places.foldl (fun n p => n + p.size) k := by
  induction places generalizing n k with
  | nil => exact h
  | cons p rest ih => exact ih (Nat.add_le_add_right h _)

/-- No place loses a source by one that is added. -/
theorem size_addSource (s : UnitStore) (c : ClassName) (text : String) :
    s.places.size ≤ (s.addSource c text).places.size := by
  have grows : ∀ (places : List SourcePlace) (n : Nat), places.foldl (fun n p => n + p.size) n ≤
      (addSource.go c text places).foldl (fun n p => n + p.size) n := by
    intro places
    induction places with
    | nil => exact fun n => Nat.le_refl n
    | cons p rest ih =>
      intro n
      cases p with
      | memory sources => exact foldl_size_mono rest (Nat.add_le_add_left (length_setSource c text sources) n)
      | files roots extension => exact ih _
      | builtin => exact ih _
  exact grows s.places 0

end UnitStore

namespace Machine

/-- The units that a machine loads classes from. -/
def store (m : Machine) : UnitStore :=
  m.units.getD { places := [] }

theorem store_of_units {m : Machine} {store : UnitStore} (units : m.units = some store) : m.store = store := by
  rw [Machine.store, units]
  rfl

/-- The store of a machine has at least the units it had before. -/
def KeepsUnits (before after : Machine) : Prop :=
  before.store.Extended after.store

instance : LoadRelation KeepsUnits where
  refl := fun m => .refl m.store
  trans := UnitStore.Extended.trans
  fetch := by
    intro store name m here
    rw [KeepsUnits, store_of_units here]
    exact store.get_extended name
  addClass := fun _ m => .refl m.store
  loading := fun _ m => .refl m.store

end Machine

end AspectProxy
