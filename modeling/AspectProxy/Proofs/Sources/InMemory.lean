import AspectProxy.Proofs.ClassTable.Loading
import AspectProxy.Proofs.Sources.Kept
import Mathlib.Data.List.Perm.Subperm

/-!
Sources in memory. A class has the same source under every spelling of its name; a store that looks there gives each class
the unit of its source.
-/

namespace AspectProxy

/-- Names of different classes that are told apart by marks are no more than these. -/
theorem ClassName.length_le_of_marks {names : List ClassName} {mark : ClassName → α} {marks : List α}
    (apart : Machine.Apart names) (marked : ∀ c ∈ names, mark c ∈ marks)
    (tells : ∀ c d, mark c = mark d → (c == d) = true) : names.length ≤ marks.length := by
  have distinct : (names.map mark).Nodup := by
    refine List.pairwise_map.mpr (apart.imp fun {c d} different same => ?_)
    rw [tells c d same] at different
    cases different
  have among : names.map mark ⊆ marks := by
    intro x hx
    obtain ⟨c, hc, rfl⟩ := List.mem_map.mp hx
    exact marked c hc
  have shorter := (List.subperm_of_subset distinct among).length_le
  rwa [List.length_map] at shorter

/-- Names of different classes, each the name of a class of a list, are no more than the list is long. -/
theorem ClassName.length_le_of_apart {names known : List ClassName} (apart : Machine.Apart names)
    (h : ∀ n ∈ names, ∃ k ∈ known, (k == n) = true) : names.length ≤ known.length := by
  have marks : names.length ≤ (known.map key).length := by
    refine length_le_of_marks apart (fun n hn => ?_) fun c d => ClassName.beq_iff.mpr
    obtain ⟨k, hk, same⟩ := h n hn
    exact List.mem_map.mpr ⟨k, hk, ClassName.beq_iff.mp same⟩
  rwa [List.length_map] at marks

namespace SourcePlace

variable {p : SourcePlace} {c d : ClassName} {found : String × Origin}

/-- A place of which no source is a file. -/
def InMemory : SourcePlace → Prop
  | memory _ | builtin => True
  | files roots _ => roots = []

/-- The names that a place has sources under. -/
def names : SourcePlace → List ClassName
  | memory sources => sources.map (·.1)
  | files _ _ => []
  | builtin => [builtinAspect]

theorem resolve_congr (memory : p.InMemory) (same : (c == d) = true) (h : p.resolve c = .ok found) :
    p.resolve d = .ok found := by
  cases p with
  | memory sources =>
    have finds : (fun e : ClassName × String => e.1 == c) = fun e => e.1 == d := by
      funext e
      exact ClassName.beq_congr_right same e.1
    rwa [resolve, finds] at h
  | files roots extension =>
    obtain rfl : roots = [] := memory
    cases h
  | builtin => rwa [resolve, ClassName.beq_iff.mp same] at h

theorem mem_names_of_resolve (memory : p.InMemory) (h : p.resolve c = .ok found) :
    ∃ n ∈ p.names, (n == c) = true := by
  cases p with
  | memory sources =>
    rw [resolve] at h
    split at h
    case h_1 n text there =>
      have named := List.find?_some there
      exact ⟨n, List.mem_map_of_mem (List.mem_of_find?_eq_some there), named⟩
    case h_2 => cases h
  | files roots extension =>
    obtain rfl : roots = [] := memory
    cases h
  | builtin =>
    rw [resolve] at h
    split at h
    case isTrue named => exact ⟨builtinAspect, List.mem_cons_self, ClassName.beq_iff.mpr named⟩
    case isFalse => cases h

end SourcePlace

namespace SourceChain

variable {places : SourceChain} {c d n : ClassName} {u v : SourceUnit}

/-- Places without files, of which a class could have several that differ in case. -/
def InMemory (places : SourceChain) : Prop :=
  ∀ p ∈ places, p.InMemory

/-- The unit that the source of a class holds. -/
def Holds (places : SourceChain) (c : ClassName) (u : SourceUnit) : Prop :=
  ∃ source, places.resolve c = .ok source ∧ SourceUnit.ofString? source.text = .ok u

theorem resolve_eq_ok {source : Source} : places.resolve c = .ok source ↔
    ∃ text origin, resolveFrom c places [] = .ok (text, origin) ∧ source = ⟨c, text, origin⟩ := by
  unfold resolve
  cases resolveFrom c places [] with
  | error reason => exact iff_of_false nofun (by rintro ⟨_, _, ⟨⟩, -⟩)
  | ok found =>
    constructor
    · rintro ⟨⟩
      exact ⟨_, _, rfl, rfl⟩
    · rintro ⟨_, _, ⟨⟩, rfl⟩
      rfl

theorem resolveFrom_ok {misses : List String} {found : String × Origin} (h : resolveFrom c places misses = .ok found) :
    ∃ p ∈ places, p.resolve c = .ok found := by
  induction places generalizing misses with
  | nil => cases misses <;> cases h
  | cons p rest ih =>
    rw [resolveFrom] at h
    split at h
    case h_1 here => exact ⟨p, List.mem_cons_self, h ▸ here⟩
    case h_2 =>
      obtain ⟨q, hq, there⟩ := ih h
      exact ⟨q, List.mem_cons_of_mem _ hq, there⟩

theorem resolveFrom_congr (memory : places.InMemory) (same : (c == d) = true) {misses misses' : List String}
    {found : String × Origin} (h : resolveFrom c places misses = .ok found) :
    resolveFrom d places misses' = .ok found := by
  induction places generalizing misses misses' with
  | nil => cases misses <;> cases h
  | cons p rest ih =>
    obtain ⟨here, more⟩ := List.forall_mem_cons.mp memory
    rw [resolveFrom] at h ⊢
    cases found? : p.resolve c with
    | ok f =>
      rw [found?] at h
      rw [SourcePlace.resolve_congr here same found?]
      exact h
    | error reason =>
      rw [found?] at h
      cases other : p.resolve d with
      | ok f =>
        have back := SourcePlace.resolve_congr here (ClassName.beq_comm c d ▸ same) other
        rw [found?] at back
        cases back
      | error reason' => exact ih more h

theorem Holds.congr (memory : places.InMemory) (same : (c == d) = true) (h : places.Holds c u) : places.Holds d u := by
  obtain ⟨source, found, read⟩ := h
  obtain ⟨text, origin, here, rfl⟩ := resolve_eq_ok.mp found
  exact ⟨_, resolve_eq_ok.mpr ⟨text, origin, resolveFrom_congr memory same here, rfl⟩, read⟩

/-- What a memory alone holds is its first source of a name. -/
theorem holds_memory {sources : List (ClassName × String)} {text : String} (read : SourceUnit.ofString? text = .ok u)
    (found : sources.find? (fun e => e.1 == c) = some (n, text)) : Holds [.memory sources] c u := by
  refine ⟨⟨c, text, .memory⟩, resolve_eq_ok.mpr ⟨text, .memory, ?_, rfl⟩, read⟩
  simp [resolveFrom, SourcePlace.resolve, found]

theorem Holds.unique (h : places.Holds c u) (h' : places.Holds c v) : u = v := by
  obtain ⟨source, found, read⟩ := h
  obtain ⟨source', found', read'⟩ := h'
  obtain rfl := Except.ok.inj (found.symm.trans found')
  exact Except.ok.inj (read.symm.trans read')

/-- The names that the places have sources under. -/
def names (places : SourceChain) : List ClassName :=
  places.flatMap SourcePlace.names

theorem Holds.mem_names (h : places.Holds c u) (memory : places.InMemory) : ∃ n ∈ places.names, (n == c) = true := by
  obtain ⟨source, found, -⟩ := h
  obtain ⟨text, origin, first, -⟩ := resolve_eq_ok.mp found
  obtain ⟨p, hp, here⟩ := resolveFrom_ok first
  obtain ⟨n, hn, same⟩ := SourcePlace.mem_names_of_resolve (memory p hp) here
  exact ⟨n, List.mem_flatMap.mpr ⟨p, hp, hn⟩, same⟩

end SourceChain

namespace UnitStore

variable {places : SourceChain} {s t : UnitStore} {c : ClassName} {u : SourceUnit}

/-- A store that looks in places and keeps what it has read there. -/
structure ReadFrom (places : SourceChain) (s : UnitStore) : Prop where
  places_eq : s.places = places
  held : ∀ e ∈ s.units, places.Holds e.1 e.2

theorem ReadFrom.fresh (places : SourceChain) : ReadFrom places { places } :=
  ⟨rfl, nofun⟩

theorem ReadFrom.extended (h : s.ReadFrom places) (grown : s.Extended t) : t.ReadFrom places where
  places_eq := grown.places.trans h.places_eq
  held := by
    intro e he
    rcases grown.read e he with there | read
    · exact h.held e there
    · exact h.places_eq ▸ read

theorem ReadFrom.holds_of_unit? (h : s.ReadFrom places) (memory : places.InMemory) (kept : s.unit? c = some u) :
    places.Holds c u := by
  obtain ⟨e, found, rfl⟩ := Option.map_eq_some_iff.mp kept
  have named := List.find?_some found
  exact (h.held e (List.mem_of_find?_eq_some found)).congr memory named

theorem ReadFrom.holds_of_get (h : s.ReadFrom places) (memory : places.InMemory) (got : s.get c = (.ok u, t)) :
    places.Holds c u := by
  rcases get_ok got with ⟨kept, -⟩ | ⟨-, source, found, read, -, -⟩
  · exact h.holds_of_unit? memory kept
  · exact ⟨source, h.places_eq ▸ found, read⟩

/-- The unit that the places hold for a class is given, read or kept. -/
theorem ReadFrom.get_of_holds (h : s.ReadFrom places) (memory : places.InMemory) (held : places.Holds c u)
    (declares : u.declarations ≠ []) : ∃ t, s.get c = (.ok u, t) := by
  cases kept : s.unit? c with
  | some v =>
    obtain rfl := held.unique (h.holds_of_unit? memory kept)
    exact ⟨s, get_of_unit? kept⟩
  | none =>
    obtain ⟨source, found, read⟩ := held
    exact ⟨_, get_of_resolve kept (h.places_eq ▸ found) read declares⟩

end UnitStore

end AspectProxy
