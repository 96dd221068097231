import AspectProxy.Proofs.Outcomes
import AspectProxy.Proofs.Sources.DeclaredNames
import AspectProxy.Proofs.Sources.InMemory
import Mathlib.Logic.Relation

/-!
How a class table grows while classes are loaded from memory: by the classes of whole units, each unit being one that is
not already on its way. So a table can be read as the list of the units that were loaded, and every class in it is what a
declaration of one of them has become.
-/

namespace AspectProxy

namespace Machine

variable {places : SourceChain} {u : SourceUnit} {name : ClassName} {m m' : Machine}

/-- A machine that loads classes from the units of places. -/
def LoadsFrom (places : SourceChain) (m : Machine) : Prop :=
  ∃ store, m.units = some store ∧ store.ReadFrom places

/-- A class that a declaration of a unit has become, under the name it has outside the unit. -/
structure Became (u : SourceUnit) (d : Declaration) (c : LoadedClass) : Prop where
  qualified : u.qualified d.name = .ok c.name
  as : DeclaredAs u d c

theorem Became.names {d : Declaration} {c : LoadedClass} (h : Became u d c) : u.Names d c.name :=
  SourceUnit.names_of_qualified h.qualified

/-- No two declarations of a unit have one name. -/
def DeclaresOnce (u : SourceUnit) : Prop :=
  ∀ c, ∀ d ∈ u.declarations, ∀ e ∈ u.declarations, u.Names d c → u.Names e c → d = e

/-- The classes of one unit enter a table, all of them and no others. The unit is none of those to be avoided. -/
inductive UnitEnters (places : SourceChain) (avoid : List ClassName) (before : List LoadedClass) :
    List LoadedClass → Prop
  | enter {n : ClassName} {u : SourceUnit} {added : List LoadedClass} (held : places.Holds n u)
    (other : avoid.any (· == n) = false) (once : DeclaresOnce u) (ordered : OrderedTable (before ++ added))
    (declared : ∀ d ∈ u.declarations, ∃ c ∈ added, Became u d c)
    (became : ∀ c ∈ added, ∃ d ∈ u.declarations, Became u d c) : UnitEnters places avoid before (before ++ added)

/-- One unit after the other enters a table. -/
def UnitsEnter (places : SourceChain) (avoid : List ClassName) : List LoadedClass → List LoadedClass → Prop :=
  Relation.ReflTransGen (UnitEnters places avoid)

theorem UnitsEnter.mono {avoid avoid' : List ClassName} {before after : List LoadedClass} (fewer : avoid ⊆ avoid')
    (h : UnitsEnter places avoid' before after) : UnitsEnter places avoid before after := by
  refine Relation.ReflTransGen.mono (fun _ _ step => ?_) _ _ h
  obtain ⟨held, other, once, ordered, declared, became⟩ := step
  refine .enter held ?_ once ordered declared became
  simp only [List.any_eq_false] at other ⊢
  exact fun l hl => other l (fewer hl)

/-- What loading leaves: a table that units have entered, the same places, and the loads under way as they were. -/
structure Advanced (places : SourceChain) (avoid : List ClassName) (before after : Machine) : Prop where
  ordered : OrderedTable after.classes
  supplied : after.LoadsFrom places
  loading : after.loading = before.loading
  entered : UnitsEnter places avoid before.classes after.classes

/-- Loading advances a machine that is in order. -/
def Advances (places : SourceChain) (before after : Machine) : Prop :=
  OrderedTable before.classes → before.LoadsFrom places → Advanced places before.loading before after

theorem Advanced.refl {avoid : List ClassName} (ordered : OrderedTable m.classes) (supplied : m.LoadsFrom places) :
    Advanced places avoid m m :=
  ⟨ordered, supplied, rfl, .refl⟩

instance : RunOrder (Advances places) where
  refl := fun _ => .refl
  trans := by
    intro a b c first second ordered supplied
    have one := first ordered supplied
    have two := second one.ordered one.supplied
    exact ⟨two.ordered, two.supplied, two.loading.trans one.loading, one.entered.trans (one.loading ▸ two.entered)⟩

theorem register_error {names : List ClassName} {built : List LoadedClass} {e : DefinitionError}
    (h : register names built m = (.error e, m')) : m' = m := by
  unfold register at h
  split at h <;> cases h
  rfl

/-- Registering adds the classes of the names in order. -/
theorem register_ok {names : List ClassName} {built : List LoadedClass} {handles : List ClassHandle}
    (h : register names built m = (.ok handles, m')) :
    m' = { m with classes := m.classes ++ names.filterMap fun n => built.find? fun c => c.name == n } := by
  unfold register at h
  split at h
  · cases h
  · cases h
    exact foldl_addClass_eq _ m

section Define

variable {load : ClassName → Change LoadError LoadedClass}

/-- The entries that a unit is built from: its declarations with the names they have outside. -/
structure EntriesOf (u : SourceUnit) (entries : List (ClassName × Declaration)) : Prop where
  apart : Apart (entries.map (·.1))
  declarations : entries.map (·.2) = u.declarations
  qualified : ∀ n d, (n, d) ∈ entries → u.qualified d.name = .ok n

namespace EntriesOf

variable {entries : List (ClassName × Declaration)} (h : EntriesOf u entries)
include h

theorem exists_mem {d : Declaration} (hd : d ∈ u.declarations) : ∃ n, (n, d) ∈ entries := by
  rw [← h.declarations] at hd
  obtain ⟨⟨n, d⟩, he, rfl⟩ := List.mem_map.mp hd
  exact ⟨n, he⟩

theorem mem_declarations {n : ClassName} {d : Declaration} (he : (n, d) ∈ entries) : d ∈ u.declarations :=
  h.declarations ▸ List.mem_map_of_mem (f := (·.2)) he

theorem declaresOnce : DeclaresOnce u := by
  rintro c d hd e he ⟨n, qualified, named⟩ ⟨k, qualified', named'⟩
  obtain ⟨n', hn⟩ := h.exists_mem hd
  obtain ⟨k', hk⟩ := h.exists_mem he
  obtain rfl : n = n' := Except.ok.inj (qualified.symm.trans (h.qualified _ _ hn))
  obtain rfl : k = k' := Except.ok.inj (qualified'.symm.trans (h.qualified _ _ hk))
  have same : (n == k) = true := ClassName.beq_trans named (ClassName.beq_symm named')
  have entry : ((n, d) : ClassName × Declaration) = (k, e) := eq_of_name_beq h.apart hn hk same
  exact (Prod.mk.inj entry).2

theorem names {n : ClassName} {d : Declaration} (he : (n, d) ∈ entries) : u.Names d n :=
  SourceUnit.names_of_qualified (h.qualified n d he)

theorem names_of_find? {k : ClassName} {entry : ClassName × Declaration}
    (found : entries.find? (fun e => e.1 == k) = some entry) : entry ∈ entries ∧ u.Names entry.2 k := by
  have listed := List.mem_of_find?_eq_some found
  have same : (entry.1 == k) = true := by simpa using List.find?_some found
  exact ⟨listed, (h.names listed).congr same⟩

theorem not_names_of_find? {k : ClassName} (missing : entries.find? (fun e => e.1 == k) = none) :
    ∀ e ∈ u.declarations, ¬u.Names e k := by
  intro e he named
  obtain ⟨n, listed⟩ := h.exists_mem he
  have none := List.find?_eq_none.mp missing (n, e) listed
  exact none ((h.names listed).unique named)

end EntriesOf

/-- Different declarations of a unit are no more than all. -/
theorem length_path_le {entries : List (ClassName × Declaration)} {path : List ClassName} (apart : Apart path)
    (listed : ∀ q ∈ path, q ∈ entries.map (·.1)) : path.length ≤ entries.length := by
  have short := ClassName.length_le_of_apart apart fun q hq => ⟨q, listed q hq, ClassName.beq_self q⟩
  rwa [List.length_map] at short

theorem entriesOf_declaredNames {names : List ClassName} (h : declaredNames u m u.declarations [] = .ok names) :
    EntriesOf u (names.zip u.declarations) ∧ (names.zip u.declarations).map (·.1) = names := by
  obtain ⟨apart, _, rfl, qualified⟩ := declaredNames_ok h List.Pairwise.nil
  have length : names.length = u.declarations.length := qualified.length_eq
  have named : (names.zip u.declarations).map (·.1) = names := List.map_fst_zip (Nat.le_of_eq length)
  refine ⟨⟨named.symm ▸ apart, List.map_snd_zip (Nat.le_of_eq length.symm), ?_⟩, named⟩
  exact fun n d he => List.forall₂_zip qualified he

/-- Defining a unit whose declarations have names that are free: its classes are built, and then they enter together. -/
theorem defineWith_eq {names : List ClassName} (declares : u.declarations ≠ [])
    (h : declaredNames u m u.declarations [] = .ok names) :
    defineWith load u m =
      match buildAll load u (names.zip u.declarations) (names.zip u.declarations) [] m with
      | (.error e, m') => (.error e, m')
      | (.ok ((), built), m') => register names built m' := by
  unfold defineWith
  rw [if_neg (by simpa using declares)]
  refine (run_bind (x := get) (s := m) rfl).trans ?_
  refine (run_bind (x := defineWith.liftExcept _) (congrArg (·, m) h)).trans ?_
  rcases ran : buildAll load u (names.zip u.declarations) (names.zip u.declarations) [] m with ⟨e | ⟨⟨⟩, built⟩, m'⟩
  · exact run_bind_error ran
  · exact run_bind ran

theorem defineWith_of_empty (none : u.declarations = []) :
    defineWith load u m = (.error (.invalidSource .declaresNothing), m) := by
  unfold defineWith
  rw [none]
  rfl

theorem defineWith_of_error {e : DefinitionError} (declares : u.declarations ≠ [])
    (h : declaredNames u m u.declarations [] = .error e) : defineWith load u m = (.error e, m) := by
  unfold defineWith
  rw [if_neg (by simpa using declares)]
  refine (run_bind (x := get) (s := m) rfl).trans ?_
  exact run_bind_error (x := defineWith.liftExcept _) (congrArg (·, m) h)

/-- What defining a unit comes to. It is refused at once, or one of its classes cannot be built, or they are built and enter
together, unless by then one of their names is taken. -/
inductive Defining (load : ClassName → Change LoadError LoadedClass) (u : SourceUnit) (m : Machine) :
    Except DefinitionError (List ClassHandle) × Machine → Prop
  | refused {e} (why : u.declarations = [] ∨ declaredNames u m u.declarations [] = .error e) : Defining load u m (.error e, m)
  | unbuilt (entries) {e m₁} (unit : EntriesOf u entries) (ran : buildAll load u entries entries [] m = (.error e, m₁)) :
    Defining load u m (.error e, m₁)
  | taken (entries) {built e m₁} (unit : EntriesOf u entries)
    (ran : buildAll load u entries entries [] m = (.ok ((), built), m₁))
    (registered : register (entries.map (·.1)) built m₁ = (.error e, m₁)) : Defining load u m (.error e, m₁)
  | defined (entries) {built handles m₁ m₂} (declares : u.declarations ≠ []) (unit : EntriesOf u entries)
    (ran : buildAll load u entries entries [] m = (.ok ((), built), m₁))
    (registered : register (entries.map (·.1)) built m₁ = (.ok handles, m₂)) : Defining load u m (.ok handles, m₂)

theorem defineWith_defining (load : ClassName → Change LoadError LoadedClass) (u : SourceUnit) (m : Machine) :
    Defining load u m (defineWith load u m) := by
  by_cases declares : u.declarations = []
  · rw [defineWith_of_empty declares]
    exact .refused (.inl declares)
  · cases found : declaredNames u m u.declarations [] with
    | error e =>
      rw [defineWith_of_error declares found]
      exact .refused (.inr found)
    | ok names =>
      obtain ⟨unit, named⟩ := entriesOf_declaredNames found
      rw [defineWith_eq declares found]
      rcases ran : buildAll load u (names.zip u.declarations) (names.zip u.declarations) [] m with
        ⟨e | ⟨⟨⟩, built⟩, m₁⟩
      · exact .unbuilt _ unit ran
      · rcases registered : register names built m₁ with ⟨e | handles, m₂⟩
        · simp only [registered]
          obtain rfl := register_error registered
          rw [← named] at registered
          exact .taken _ unit ran registered
        · simp only [registered]
          rw [← named] at registered
          exact .defined _ declares unit ran registered

/-- The classes that were built of a unit enter a table that they stand above. -/
theorem unitEnters_register {entries : List (ClassName × Declaration)} {built : List LoadedClass}
    {avoid : List ClassName} {n : ClassName} {handles : List ClassHandle} (held : places.Holds n u)
    (other : avoid.any (· == n) = false) (of : EntriesOf u entries) (ordered : OrderedTable m.classes)
    (unfinished : Unfinished u entries m.classes built) (made : ∀ e ∈ entries, ∃ c ∈ built, (c.name == e.1) = true)
    (h : register (entries.map (·.1)) built m = (.ok handles, m')) :
    UnitEnters places avoid m.classes m'.classes ∧ OrderedTable m'.classes := by
  have named : ∀ c ∈ built, c.name ∈ entries.map (·.1) := by
    intro c hc
    obtain ⟨d, listed, -⟩ := unfinished.declared c hc
    exact List.mem_map_of_mem (f := (·.1)) listed
  have ends := register_ends ordered of.apart unfinished named
  simp only [Change.Ends, h] at ends
  obtain ⟨grown, -⟩ := ends
  obtain rfl := register_ok h
  refine ⟨.enter held other of.declaresOnce grown.ordered ?_ ?_, grown.ordered⟩
  · intro d hd
    obtain ⟨k, hk⟩ := of.exists_mem hd
    obtain ⟨c, hc, same⟩ := made _ hk
    obtain ⟨d', listed, as⟩ := unfinished.declared c hc
    have entry : (c.name, d') = (k, d) := eq_of_name_beq of.apart listed hk same
    obtain rfl : d' = d := (Prod.mk.inj entry).2
    refine ⟨c, List.mem_filterMap.mpr ⟨c.name, named c hc, find?_name_of_distinct unfinished.distinct hc⟩, ?_, as⟩
    exact of.qualified _ _ listed
  · intro c hc
    obtain ⟨k, -, found⟩ := List.mem_filterMap.mp hc
    obtain ⟨d, listed, as⟩ := unfinished.declared c (List.mem_of_find?_eq_some found)
    exact ⟨d, of.mem_declarations listed, of.qualified _ _ listed, as⟩

/-- Defining the unit of a class that is being loaded: first units enter that are not being loaded, then this one. -/
theorem defineWith_advanced (loads : Loads load) (keeps : ∀ name, Change.Keeps (Advances places) (load name))
    {under : List ClassName} (held : places.Holds name u) (begun : m.loading = name :: under)
    (idle : under.any (· == name) = false) (ordered : OrderedTable m.classes) (supplied : m.LoadsFrom places) :
    Advanced places under m (defineWith load u m).2 := by
  have below {entries r m₁} (ran : buildAll load u entries entries [] m = (r, m₁)) : Advanced places under m m₁ := by
    have below := buildAll_keeps keeps u entries entries [] m ordered supplied
    rw [ran] at below
    exact ⟨below.ordered, below.supplied, below.loading, below.entered.mono (begun ▸ List.subset_cons_self name under)⟩
  have outcome := defineWith_defining load u m
  generalize defineWith load u m = result at outcome
  cases outcome with
  | refused => exact .refl ordered supplied
  | unbuilt _ _ ran => exact below ran
  | taken _ _ ran => exact below ran
  | defined entries _ unit ran registered =>
    have ends := buildAll_ends (u := u) (s := ([], m)) loads (List.Subset.refl entries) ordered .empty
    simp only [Build.Ends, Change.Ends, ran] at ends
    obtain ⟨on, made⟩ := ends
    obtain ⟨ordered, supplied, loading, entered⟩ := below ran
    obtain ⟨enters, ordered⟩ := unitEnters_register held idle unit ordered on.unfinished made registered
    obtain rfl := register_ok registered
    exact ⟨ordered, supplied, loading, entered.tail enters⟩

end Define

theorem endLoading_loading {under : List ClassName} (h : m.loading = name :: under)
    (idle : under.any (· == name) = false) : (m.endLoading name).loading = under := by
  unfold endLoading
  rw [h, List.filter_cons_of_neg (by simp), List.filter_eq_self]
  simpa using idle

/-- Each load advances the machine, whether it succeeds or fails: its own unit is not being loaded when it is fetched,
and what loads within it enter below it. -/
theorem loadWithin_advances (memory : places.InMemory) (fuel : Nat) (name : ClassName) :
    Change.Keeps (Advances places) (loadWithin fuel name) := by
  induction fuel generalizing name with
  | zero => exact fun m => .refl
  | succ fuel ih =>
    intro m ordered supplied
    have fetches {store r begun} (starts : Starts name m store)
        (fetched : fetchUnit store name (m.beginLoading name) = (r, begun)) :
        Advanced places m.loading (m.beginLoading name) begun := by
      obtain ⟨_, units, read⟩ := supplied
      obtain rfl := Option.some.inj (starts.units.symm.trans units)
      obtain rfl := fetchUnit_eq fetched
      exact ⟨ordered, ⟨_, rfl, read.extended (store.get_extended name)⟩, rfl, .refl⟩
    have defines {store u begun r after} (starts : Starts name m store)
        (fetched : fetchUnit store name (m.beginLoading name) = (.ok u, begun))
        (defined : defineWith (loadWithin fuel) u begun = (r, after)) :
        Advanced places m.loading (m.beginLoading name) after := by
      have begins := fetches starts fetched
      obtain ⟨_, units, read⟩ := supplied
      obtain rfl := Option.some.inj (starts.units.symm.trans units)
      obtain ⟨store', got, rfl⟩ := fetchUnit_ok fetched
      have inner := defineWith_advanced (loadWithin_loads fuel) ih (read.holds_of_get memory got) begins.loading starts.idle
        begins.ordered begins.supplied
      rw [defined] at inner
      exact ⟨inner.ordered, inner.supplied, inner.loading, inner.entered⟩
    have ended {store m'} (starts : Starts name m store) (inside : Advanced places m.loading (m.beginLoading name) m') :
        Advanced places m.loading m (m'.endLoading name) :=
      ⟨inside.ordered, inside.supplied, endLoading_loading inside.loading starts.idle, inside.entered⟩
    have outcome := loadWith_loading (loadWithin fuel) name m
    rw [loadWithin_succ]
    generalize loadWith (loadWithin fuel) name m = result at outcome
    cases outcome with
    | present | unsupplied | busy => exact .refl ordered supplied
    | unfetched starts fetched => exact ended starts (fetches starts fetched)
    | undefined starts fetched defined | undeclared starts fetched defined | loaded starts fetched defined =>
      exact ended starts (defines starts fetched defined)

/-- Each class is what a declaration of a unit has become, and so is each other declaration of that unit a class. -/
def FromUnits (places : SourceChain) (classes : List LoadedClass) : Prop :=
  ∀ c ∈ classes, ∃ n u d, places.Holds n u ∧ DeclaresOnce u ∧ d ∈ u.declarations ∧ Became u d c ∧
    ∀ e ∈ u.declarations, ∃ x ∈ classes, Became u e x

theorem UnitEnters.fromUnits {avoid : List ClassName} {before after : List LoadedClass}
    (h : UnitEnters places avoid before after) (whole : FromUnits places before) : FromUnits places after := by
  cases h with
  | enter held other once ordered declared became =>
    intro c hc
    rcases List.mem_append.mp hc with old | new
    · obtain ⟨n, u, d, held, once, hd, as, others⟩ := whole c old
      refine ⟨n, u, d, held, once, hd, as, fun e he => ?_⟩
      obtain ⟨x, hx, as⟩ := others e he
      exact ⟨x, List.mem_append_left _ hx, as⟩
    · obtain ⟨d, hd, as⟩ := became c new
      refine ⟨_, _, d, held, once, hd, as, fun e he => ?_⟩
      obtain ⟨x, hx, as⟩ := declared e he
      exact ⟨x, List.mem_append_right _ hx, as⟩

theorem UnitsEnter.fromUnits {avoid : List ClassName} {before after : List LoadedClass}
    (h : UnitsEnter places avoid before after) (whole : FromUnits places before) : FromUnits places after := by
  induction h with
  | refl => exact whole
  | tail _ step ih => exact step.fromUnits ih

/-- A machine without classes that loads from places. -/
structure Fresh (places : SourceChain) (m : Machine) : Prop where
  classes : m.classes = []
  loading : m.loading = []
  supplied : m.LoadsFrom places

theorem Fresh.ordered (fresh : Fresh places m) : OrderedTable m.classes :=
  fresh.classes ▸ .empty

theorem Fresh.fromUnits (fresh : Fresh places m) : FromUnits places m.classes := by
  rw [fresh.classes]
  nofun

/-- A machine that has read nothing. -/
def machineOn (places : SourceChain) : Machine := { units := some { places } }

theorem fresh_machineOn (places : SourceChain) : Fresh places (machineOn places) :=
  ⟨rfl, rfl, { places }, rfl, .fresh places⟩

theorem declaresOnce_of_defineWith {load : ClassName → Change LoadError LoadedClass} {handles : List ClassHandle}
    (h : defineWith load u m = (.ok handles, m')) : DeclaresOnce u := by
  have outcome := defineWith_defining load u m
  rw [h] at outcome
  cases outcome with
  | defined _ _ unit => exact unit.declaresOnce

/-- A class that was loaded has brought its whole unit into the table. -/
theorem loadWithin_definedIn (memory : places.InMemory) {fuel : Nat} {c : LoadedClass} (ordered : OrderedTable m.classes)
    (supplied : m.LoadsFrom places) (absent : m.class? name = none) (h : loadWithin fuel name m = (.ok c, m')) :
    ∃ u, places.Holds name u ∧ DeclaresOnce u ∧ DefinedIn u m' := by
  obtain ⟨store, units, read⟩ := supplied
  cases fuel with
  | zero => cases h
  | succ fuel =>
    have outcome := loadWith_loading (loadWithin fuel) name m
    rw [← loadWithin_succ, h] at outcome
    cases outcome with
    | present found => cases absent.symm.trans found
    | @loaded _ u _ _ _ _ starts fetched defined =>
      obtain rfl := Option.some.inj (starts.units.symm.trans units)
      obtain ⟨store', got, rfl⟩ := fetchUnit_ok fetched
      have ends := defineWith_ends (m := { m.beginLoading name with units := some store' }) (loadWithin_loads fuel) u ordered
      simp only [Change.Ends, defined] at ends
      exact ⟨u, read.holds_of_get memory got, declaresOnce_of_defineWith defined, ends.2⟩

/-- What loading a class into a machine without classes comes to. -/
structure LoadedFrom (places : SourceChain) (name : ClassName) (c : LoadedClass) (m : Machine) : Prop where
  ordered : OrderedTable m.classes
  mem : c ∈ m.classes
  named : (c.name == name) = true
  whole : FromUnits places m.classes
  unit : ∃ u, places.Holds name u ∧ DeclaresOnce u ∧ DefinedIn u m

theorem load_ok (memory : places.InMemory) (fresh : Fresh places m) {c : LoadedClass}
    (h : load name m = (.ok c, m')) : LoadedFrom places name c m' := by
  have absent : m.class? name = none := by
    rw [class?, fresh.classes]
    rfl
  have ends := loadWithin_loads m.loadBound name m fresh.ordered
  have advanced := loadWithin_advances memory m.loadBound name m fresh.ordered fresh.supplied
  unfold load at h
  simp only [Change.Ends, h] at ends advanced
  exact {
    ordered := ends.1.ordered
    mem := ends.2.1
    named := ends.2.2
    whole := advanced.entered.fromUnits fresh.fromUnits
    unit := loadWithin_definedIn memory fresh.ordered fresh.supplied absent h }

end Machine

end AspectProxy
