import AspectProxy.Proofs.ClassTable.OneClass
import AspectProxy.Proofs.ClassTable.WholeUnits
import AspectProxy.Proofs.Machine.Extension

/-!
What defining a unit does to any class table, in order or not. The classes of the unit enter together and last, or none of
them enters; whatever else enters is of units that classes are loaded from, and no entry is replaced.
-/

namespace AspectProxy

namespace UnitStore

variable {s t : UnitStore} {c d : ClassName} {v : SourceUnit}

/-- A unit that a store gives for some class. -/
def Supplies (s : UnitStore) (v : SourceUnit) : Prop :=
  ∃ c, (s.get c).1 = .ok v

theorem get_congr (places : t.places = s.places) (same : t.unit? c = s.unit? c) : (t.get c).1 = (s.get c).1 := by
  unfold get store
  rw [places, same]
  cases s.unit? c with
  | some u => rfl
  | none =>
    cases s.places.resolve c with
    | error e => rfl
    | ok source =>
      dsimp only
      cases SourceUnit.ofString? source.text with
      | error fault => rfl
      | ok u => dsimp only; split <;> rfl

/-- Reading some units makes no others available: what is kept then was there to be read, maybe under another spelling. -/
theorem get_of_extended (grown : s.Extended t) (given : (t.get c).1 = .ok v) :
    ∃ d, (d == c) = true ∧ (s.get d).1 = .ok v := by
  cases kept : t.unit? c with
  | none =>
    have same := get_congr grown.places (kept.trans (grown.unit?_eq_none kept).symm)
    exact ⟨c, ClassName.beq_self c, same.symm.trans given⟩
  | some u =>
    rw [get_of_unit? kept] at given
    obtain rfl : u = v := Except.ok.inj given
    cases before : s.unit? c with
    | some x =>
      obtain rfl : x = u := Option.some.inj ((grown.unit? before).symm.trans kept)
      exact ⟨c, ClassName.beq_self c, by rw [get_of_unit? before]⟩
    | none =>
      obtain ⟨e, found, rfl⟩ := Option.map_eq_some_iff.mp kept
      have same : (e.1 == c) = true := by simpa using List.find?_some found
      have new : e ∉ s.units := by
        intro there
        have none : s.units.find? (fun e => e.1 == c) = none := Option.map_eq_none_iff.mp before
        exact absurd same (by simpa using List.find?_eq_none.mp none e there)
      have listed : e ∈ t.units := List.mem_of_find?_eq_some found
      obtain ⟨source, resolved, read⟩ := (grown.read e listed).resolve_left new
      have declares := (grown.declares e listed).resolve_left new
      have absent : s.unit? e.1 = none := (unit?_congr same).trans before
      exact ⟨e.1, same, by rw [get_of_resolve absent resolved read declares]⟩

theorem Supplies.of_extended (grown : s.Extended t) (h : t.Supplies v) : s.Supplies v := by
  obtain ⟨c, given⟩ := h
  obtain ⟨d, -, given⟩ := get_of_extended grown given
  exact ⟨d, given⟩

/-- Where no source can be found, only units that are kept are given. -/
theorem Supplies.mem_units (h : s.Supplies v) (nothing : ∀ c, ∃ e, s.places.resolve c = .error e) :
    ∃ e ∈ s.units, e.2 = v := by
  obtain ⟨c, given⟩ := h
  unfold get at given
  cases kept : s.unit? c with
  | none =>
    obtain ⟨e, missing⟩ := nothing c
    simp [kept, missing] at given
  | some w =>
    rw [kept] at given
    obtain rfl := Except.ok.inj given
    obtain ⟨e, found, same⟩ := Option.map_eq_some_iff.mp kept
    exact ⟨e, List.mem_of_find?_eq_some found, same⟩

end UnitStore

namespace Machine

variable {u v : SourceUnit} {m m' : Machine} {entries : List (ClassName × Declaration)}

/-- A unit that a machine can load. -/
def Supplies (m : Machine) (v : SourceUnit) : Prop :=
  ∃ store, m.units = some store ∧ store.Supplies v

/-- A class that comes of a unit which a machine can load. -/
def Brings (m : Machine) (c : LoadedClass) : Prop :=
  ∃ v, m.Supplies v ∧ ∃ d ∈ v.declarations, Became v d c

theorem supplies_iff_store : m.Supplies v ↔ m.store.Supplies v := by
  have nothing : ¬UnitStore.Supplies { places := [] } v := by
    rintro ⟨c, given⟩
    cases given
  unfold Supplies store
  cases m.units with
  | none => simpa using nothing
  | some units => simp

/-- What loading adds to a table, behind all else: classes that the machine could load from the beginning. -/
structure Autoloads (before after : Machine) : Prop where
  grown : ∃ loaded, after.classes = before.classes ++ loaded ∧ ∀ c ∈ loaded, before.Brings c
  supplied : ∀ v, after.Supplies v → before.Supplies v

theorem Autoloads.of_classes (classes : m'.classes = m.classes) (supplied : ∀ v, m'.Supplies v → m.Supplies v) :
    Autoloads m m' :=
  ⟨⟨[], by rw [classes, List.append_nil], nofun⟩, supplied⟩

instance : RunOrder Autoloads where
  refl := fun _ => .of_classes rfl fun _ => id
  trans := by
    rintro a b c ⟨⟨loaded, first, brought⟩, supplied⟩ ⟨⟨more, second, brought'⟩, supplied'⟩
    refine ⟨⟨loaded ++ more, by rw [second, first, List.append_assoc], ?_⟩, fun v hv => supplied v (supplied' v hv)⟩
    refine List.forall_mem_append.mpr ⟨brought, fun c hc => ?_⟩
    obtain ⟨v, hv, became⟩ := brought' c hc
    exact ⟨v, supplied v hv, became⟩

/-- The unit that a machine gives for a class. -/
def Gives (m : Machine) (k : ClassName) (v : SourceUnit) : Prop :=
  (m.store.get k).1 = .ok v

/-- What loads leave as it is, however they end: the units that there were, and what is being loaded. -/
structure Inside (before after : Machine) : Prop where
  units : KeepsUnits before after
  loading : SameLoading before after

instance : RunOrder Inside where
  refl := fun m => ⟨RunOrder.refl m, RunOrder.refl m⟩
  trans := fun first second => ⟨RunOrder.trans first.units second.units, RunOrder.trans first.loading second.loading⟩

theorem loadWithin_inside (fuel : Nat) (name : ClassName) : Change.Keeps Inside (loadWithin fuel name) :=
  fun m => ⟨loadWithin_keeps fuel name m, loadWithin_loading fuel name m⟩

theorem load_inside (name : ClassName) : Change.Keeps Inside (load name) :=
  fun m => loadWithin_inside m.loadBound name m

/-- The names of a class are in a list alike. -/
theorem any_beq_congr {names : List ClassName} {c d : ClassName} (same : (c == d) = true) :
    names.any (· == c) = names.any (· == d) := by
  congr 1
  funext n
  exact ClassName.beq_congr_right same n

/-- A class that a unit becomes which can be fetched for a class that is not being loaded. -/
def Loadable (m : Machine) (c : LoadedClass) : Prop :=
  ∃ k v, m.Gives k v ∧ m.loading.any (· == k) = false ∧ ∃ d ∈ v.declarations, Became v d c

theorem Loadable.of_keepsUnits (units : KeepsUnits m m')
    (idle : ∀ k, m'.loading.any (· == k) = false → m.loading.any (· == k) = false) {c : LoadedClass} (h : m'.Loadable c) :
    m.Loadable c := by
  obtain ⟨k, v, given, free, became⟩ := h
  obtain ⟨d, same, given⟩ := UnitStore.get_of_extended units given
  exact ⟨d, v, given, any_beq_congr same ▸ idle k free, became⟩

theorem Inside.loadable (h : Inside m m') {c : LoadedClass} : m'.Loadable c → m.Loadable c :=
  .of_keepsUnits h.units fun _ free => h.loading ▸ free

/-- What loads add to a table, behind all else: classes of units that are fetched for classes not being loaded. -/
structure Fetches (before after : Machine) : Prop where
  inside : Inside before after
  grown : ∃ loaded, after.classes = before.classes ++ loaded ∧ ∀ c ∈ loaded, before.Loadable c

instance : RunOrder Fetches where
  refl := fun m => ⟨RunOrder.refl m, [], (List.append_nil _).symm, nofun⟩
  trans := by
    rintro a b c ⟨inside, loaded, first, loadable⟩ ⟨inside', more, second, loadable'⟩
    refine ⟨RunOrder.trans inside inside', loaded ++ more, by rw [second, first, List.append_assoc], ?_⟩
    exact List.forall_mem_append.mpr ⟨loadable, fun x hx => inside.loadable (loadable' x hx)⟩

theorem Fetches.autoloads (h : Fetches m m') : Autoloads m m' := by
  obtain ⟨loaded, classes, loadable⟩ := h.grown
  refine ⟨⟨loaded, classes, fun c hc => ?_⟩, fun v supplied => ?_⟩
  · obtain ⟨k, v, given, -, became⟩ := loadable c hc
    exact ⟨v, supplies_iff_store.mpr ⟨k, given⟩, became⟩
  · exact supplies_iff_store.mpr ((supplies_iff_store.mp supplied).of_extended h.inside.units)

/-- A way to load classes that gives the class asked for. -/
def GivesNamed (load : ClassName → Change LoadError LoadedClass) : Prop :=
  ∀ name m, (load name).Ends m (fun c _ => (c.name == name) = true) fun _ => True

section Define

variable {load : ClassName → Change LoadError LoadedClass}

/-- Classes that declarations of a unit have become. -/
def OfEntries (u : SourceUnit) (entries : List (ClassName × Declaration)) (built : List LoadedClass) : Prop :=
  ∀ c ∈ built, ∃ d, (c.name, d) ∈ entries ∧ DeclaredAs u d c

theorem finish_ofEntries {name : ClassName} {d : Declaration} {parent : Option LoadedClass}
    {s : List LoadedClass × Machine} (listed : (name, d) ∈ entries) (of : OfEntries u entries s.1)
    (parentOf : ParentOf u name d parent) :
    Build.Ends (do
        let c ← Build.lift (bodyOf u name d parent)
        modify (· ++ [c])
        return c)
      s (fun c t => OfEntries u entries t.1 ∧ s.1 <+: t.1 ∧ c ∈ t.1 ∧ (c.name == name) = true) fun _ => True := by
  refine .bind_lift trivial fun c made => ?_
  have body := bodyOf_ok made
  obtain rfl : c.name = name := body.name_eq
  obtain rfl : c.parent? = parent := body.parent_eq
  have more : OfEntries u entries (s.1 ++ [c]) :=
    List.forall_mem_append.mpr ⟨of, List.forall_mem_singleton.mpr ⟨d, listed, made, parentOf⟩⟩
  exact ⟨more, List.prefix_append _ _, List.mem_append_right _ List.mem_cons_self, ClassName.beq_self _⟩

theorem under_ofEntries {name resolved : ClassName} {d : Declaration} {reference : String} {p : LoadedClass}
    {s : List LoadedClass × Machine} (listed : (name, d) ∈ entries) (of : OfEntries u entries s.1)
    (refers : parentReference d = some reference) (means : parentName u name reference = .ok resolved)
    (named : (p.name == resolved) = true) :
    Build.Ends (do
        Build.lift (checkParent name p)
        let parent ← pure (some p)
        let c ← Build.lift (bodyOf u name d parent)
        modify (· ++ [c])
        return c)
      s (fun c t => OfEntries u entries t.1 ∧ s.1 <+: t.1 ∧ c ∈ t.1 ∧ (c.name == name) = true) fun _ => True := by
  refine .bind_lift trivial fun _ _ => finish_ofEntries listed of ?_
  rw [ParentOf, refers]
  exact ⟨resolved, p, means, rfl, named⟩

theorem build_ofEntries (gives : GivesNamed load) (fuel : Nat) {path : List ClassName} {name : ClassName}
    {d : Declaration} {s : List LoadedClass × Machine} (listed : (name, d) ∈ entries) (of : OfEntries u entries s.1) :
    (build load u entries fuel path name d).Ends s
      (fun c t => OfEntries u entries t.1 ∧ s.1 <+: t.1 ∧ c ∈ t.1 ∧ (c.name == name) = true) fun _ => True := by
  induction fuel generalizing path name d s with
  | zero => trivial
  | succ fuel ih =>
    rw [build]
    refine .bind_get ?_
    dsimp only
    split
    case h_1 c found =>
      have named := List.find?_some found
      exact ⟨of, List.prefix_rfl, List.mem_of_find?_eq_some found, named⟩
    case h_2 =>
      split
      case isTrue => exact .bind_lift trivial fun _ refused => by cases refused
      case isFalse =>
        cases refers : parentReference d with
        | none =>
          refine finish_ofEntries listed of ?_
          rw [ParentOf, refers]
        | some reference =>
          refine .bind_lift trivial fun resolved means => ?_
          split
          case h_1 n e declared =>
            have entered : (n, e) ∈ entries := List.mem_of_find?_eq_some declared
            have same := List.find?_some declared
            refine .bind (ih entered of) ?_
            rintro p t ⟨of, grown, -, named⟩
            have named : (p.name == resolved) = true := ClassName.beq_trans named same
            refine Change.Ends.mono (under_ofEntries listed of refers means named) ?_ fun _ _ => trivial
            rintro ⟨c, built⟩ m' ⟨of, more, there, named⟩
            exact ⟨of, grown.trans more, there, named⟩
          case h_2 =>
            refine .bind (.liftChange ((gives resolved s.2).mapError _)) ?_
            rintro p t ⟨kept, named⟩
            have under := under_ofEntries (s := t) listed (kept ▸ of) refers means named
            rw [kept] at under
            exact under

theorem buildAll_ofEntries (gives : GivesNamed load) {todo : List (ClassName × Declaration)}
    {s : List LoadedClass × Machine} (listed : todo ⊆ entries) (of : OfEntries u entries s.1) :
    (buildAll load u entries todo).Ends s
      (fun _ t => OfEntries u entries t.1 ∧ s.1 <+: t.1 ∧ ∀ e ∈ todo, ∃ c ∈ t.1, (c.name == e.1) = true)
      fun _ => True := by
  induction todo generalizing s with
  | nil => exact ⟨of, List.prefix_rfl, nofun⟩
  | cons e rest ih =>
    obtain ⟨here, later⟩ := List.cons_subset.mp listed
    refine .bind (build_ofEntries gives _ here of) ?_
    rintro c t ⟨of, grown, there, named⟩
    refine Change.Ends.mono (ih later of) ?_ fun _ _ => trivial
    rintro ⟨⟨⟩, built⟩ m' ⟨of, more, made⟩
    exact ⟨of, grown.trans more, List.forall_mem_cons.mpr ⟨⟨c, more.subset there, named⟩, made⟩⟩

/-- The classes of a unit stand last in a table, one for each declaration in order, and none of their names had a class
before. -/
structure Entered (u : SourceUnit) (before after : Machine) (added : List LoadedClass) : Prop where
  classes : after.classes = before.classes ++ added
  became : List.Forall₂ (Became u) u.declarations added
  free : ∀ c ∈ added, before.isDefined c.name = false
  found : ∀ c ∈ added, after.class? c.name = some c

/-- Every entry of a unit finds the class that its declaration has become. -/
theorem filterMap_entries {built : List LoadedClass} (apart : Apart (entries.map (·.1))) (of : OfEntries u entries built)
    {todo : List (ClassName × Declaration)} (listed : todo ⊆ entries)
    (made : ∀ e ∈ todo, ∃ c ∈ built, (c.name == e.1) = true) :
    List.Forall₂ (fun e c => c.name = e.1 ∧ DeclaredAs u e.2 c) todo
      ((todo.map (·.1)).filterMap fun n => built.find? fun c => c.name == n) := by
  induction todo with
  | nil => exact .nil
  | cons e rest ih =>
    obtain ⟨here, later⟩ := List.cons_subset.mp listed
    obtain ⟨⟨c, hc, named⟩, made'⟩ := List.forall_mem_cons.mp made
    obtain ⟨x, found⟩ : ∃ x, built.find? (fun c => c.name == e.1) = some x :=
      Option.isSome_iff_exists.mp (List.find?_isSome.mpr ⟨c, hc, named⟩)
    obtain ⟨d, there, as⟩ := of x (List.mem_of_find?_eq_some found)
    have same := List.find?_some found
    obtain rfl : (x.name, d) = e := eq_of_name_beq apart there here same
    rw [List.map_cons, List.filterMap_cons, found]
    exact .cons ⟨rfl, as⟩ (ih later made')

/-- Classes that are built of all declarations of a unit enter together. -/
theorem register_entered {built : List LoadedClass} {handles : List ClassHandle} (unit : EntriesOf u entries)
    (of : OfEntries u entries built) (made : ∀ e ∈ entries, ∃ c ∈ built, (c.name == e.1) = true)
    (h : register (entries.map (·.1)) built m = (.ok handles, m')) :
    ∃ added, Entered u m m' added ∧ handles = added.map (·.handle) := by
  have each := filterMap_entries unit.apart of (List.Subset.refl entries) made
  unfold register at h
  cases taken : (entries.map (·.1)).find? m.isDefined with
  | some name =>
    rw [taken] at h
    cases h
  | none =>
    rw [taken] at h
    generalize (entries.map (·.1)).filterMap (fun n => built.find? fun c => c.name == n) = added at each h
    cases h
    have names : added.map (·.name) = entries.map (·.1) := by
      clear taken unit of made
      induction each with
      | nil => rfl
      | cons first _ ih => rw [List.map_cons, List.map_cons, ih, first.1]
    have free : ∀ c ∈ added, m.isDefined c.name = false := by
      intro c hc
      have listed : c.name ∈ entries.map (·.1) := names ▸ List.mem_map_of_mem (f := (·.name)) hc
      simpa using List.find?_eq_none.mp taken _ listed
    have distinct : added.Pairwise fun a b => (a.name == b.name) = false := by
      have apart := unit.apart
      rw [← names] at apart
      exact List.pairwise_map.mp apart
    refine ⟨added, ⟨foldl_addClass added m, ?_, free, fun c hc => ?_⟩, rfl⟩
    · rw [← unit.declarations, List.forall₂_map_left_iff]
      refine List.forall₂_iff_zip.mpr ⟨each.length_eq, ?_⟩
      intro e c both
      obtain ⟨named, as⟩ := List.forall₂_zip each both
      exact ⟨named ▸ unit.qualified e.1 e.2 (List.of_mem_zip both).1, as⟩
    · have before : m.classes.find? (fun x => x.name == c.name) = none :=
        List.find?_eq_none.mpr fun x hx => by simp [class?_eq_none (free c hc) x hx]
      rw [class?, foldl_addClass, List.find?_append, before]
      exact find?_name_of_distinct distinct hc

/-- How defining a unit ends: loads, and behind them the classes of the unit if it succeeds. -/
theorem defineWith_entered {R : Machine → Machine → Prop} [order : RunOrder R] (gives : GivesNamed load)
    (loads : ∀ name, Change.Keeps R (load name)) (u : SourceUnit) (m : Machine) :
    (defineWith load u).Ends m
      (fun handles m' => ∃ m₁ added, R m m₁ ∧ m'.units = m₁.units ∧ Entered u m₁ m' added ∧
        handles = added.map (·.handle))
      fun m' => R m m' := by
  have below {entries r m₁} (ran : buildAll load u entries entries [] m = (r, m₁)) : R m m₁ := by
    have below := buildAll_keeps loads u entries entries [] m
    rwa [ran] at below
  have outcome := defineWith_defining load u m
  unfold Change.Ends
  generalize defineWith load u m = result at outcome
  cases outcome with
  | refused => exact order.refl m
  | unbuilt _ _ ran => exact below ran
  | taken _ _ ran => exact below ran
  | @defined entries built handles m₁ m₂ _ unit ran registered =>
    have ends := buildAll_ofEntries (s := ([], m)) gives (List.Subset.refl entries) (show OfEntries u entries [] from nofun)
    simp only [Build.Ends, Change.Ends, ran] at ends
    obtain ⟨of, -, made⟩ := ends
    obtain ⟨added, entered, handled⟩ := register_entered unit of made registered
    obtain rfl := register_ok registered
    exact ⟨m₁, added, below ran, rfl, entered, handled⟩

theorem Supplies.of_units (same : m'.units = m.units) (h : m'.Supplies v) : m.Supplies v := by
  rwa [Supplies, ← same]

theorem Entered.exists_class {added : List LoadedClass} (h : Entered u m m' added) :
    ∀ d ∈ u.declarations, ∃ c ∈ added, Became u d c := by
  intro d hd
  obtain ⟨i, there, rfl⟩ := List.getElem_of_mem hd
  have length := h.became.length_eq
  exact ⟨added[i], List.getElem_mem _, h.became.get there (length ▸ there)⟩

theorem Entered.exists_became {added : List LoadedClass} (h : Entered u m m' added) :
    ∀ c ∈ added, ∃ d ∈ u.declarations, Became u d c := by
  intro c hc
  obtain ⟨i, there, rfl⟩ := List.getElem_of_mem hc
  have length := h.became.length_eq
  exact ⟨u.declarations[i], List.getElem_mem _, h.became.get (length ▸ there) there⟩

end Define

theorem loadWithin_gives (fuel : Nat) : GivesNamed (loadWithin fuel) := by
  intro name m
  cases fuel with
  | zero => trivial
  | succ fuel =>
    have outcome := loadWith_loading (loadWithin fuel) name m
    unfold Change.Ends
    rw [loadWithin_succ]
    generalize loadWith (loadWithin fuel) name m = result at outcome
    cases outcome with
    | present found => exact (mem_of_class? found).2
    | loaded _ _ _ found => exact (mem_of_class? found).2
    | _ => trivial

theorem loadWithin_fetches (fuel : Nat) (name : ClassName) : Change.Keeps Fetches (loadWithin fuel name) := by
  induction fuel generalizing name with
  | zero => exact .throw _
  | succ fuel ih =>
    intro m
    refine ⟨loadWithin_inside (fuel + 1) name m, ?_⟩
    have stays : ∃ loaded, m.classes = m.classes ++ loaded ∧ ∀ c ∈ loaded, m.Loadable c :=
      ⟨[], (List.append_nil _).symm, nofun⟩
    have defines {store u begun r after} (starts : Starts name m store)
        (fetched : fetchUnit store name (m.beginLoading name) = (.ok u, begun))
        (defined : defineWith (loadWithin fuel) u begun = (r, after)) :
        ∃ loaded, (after.endLoading name).classes = m.classes ++ loaded ∧ ∀ c ∈ loaded, m.Loadable c := by
      obtain ⟨store', got, rfl⟩ := fetchUnit_ok fetched
      have given : m.Gives name u := by rw [Gives, store_of_units starts.units, got]
      have grown : KeepsUnits m { m.beginLoading name with units := some store' } := by
        have grown := store.get_extended name
        rwa [got, ← store_of_units starts.units] at grown
      have inner : ∀ c, Loadable { m.beginLoading name with units := some store' } c → m.Loadable c := by
        refine fun c => .of_keepsUnits grown fun k free => ?_
        rw [beginLoading, List.any_cons, Bool.or_eq_false_iff] at free
        exact free.2
      have ends := defineWith_entered (loadWithin_gives fuel) ih u { m.beginLoading name with units := some store' }
      rw [Change.Ends, defined] at ends
      cases r with
      | error e =>
        obtain ⟨-, loaded, classes, loadable⟩ := ends
        exact ⟨loaded, classes, fun c hc => inner c (loadable c hc)⟩
      | ok handles =>
        obtain ⟨m₁, added, ⟨-, loaded, classes, loadable⟩, -, entered, -⟩ := ends
        have whole : after.classes = m.classes ++ (loaded ++ added) := by
          rw [entered.classes, classes, List.append_assoc]
          rfl
        refine ⟨loaded ++ added, whole, List.forall_mem_append.mpr ⟨fun c hc => inner c (loadable c hc), fun c hc => ?_⟩⟩
        exact ⟨name, u, given, starts.idle, entered.exists_became c hc⟩
    have outcome := loadWith_loading (loadWithin fuel) name m
    rw [loadWithin_succ]
    generalize loadWith (loadWithin fuel) name m = result at outcome
    cases outcome with
    | present | unsupplied | busy => exact stays
    | unfetched _ fetched =>
      obtain rfl := fetchUnit_eq fetched
      exact stays
    | undefined starts fetched defined | undeclared starts fetched defined | loaded starts fetched defined =>
      exact defines starts fetched defined

theorem load_fetches (name : ClassName) : Change.Keeps Fetches (load name) :=
  fun m => loadWithin_fetches m.loadBound name m

theorem load_gives : GivesNamed load :=
  fun name m => loadWithin_gives m.loadBound name m

theorem load_autoloads (name : ClassName) : Change.Keeps Autoloads (load name) :=
  fun m => (load_fetches name m).autoloads

theorem defineUnit_entered (u : SourceUnit) (m : Machine) :
    (defineUnit u).Ends m
      (fun handles m' => ∃ m₁ added, Autoloads m m₁ ∧ m'.units = m₁.units ∧ Entered u m₁ m' added ∧
        handles = added.map (·.handle))
      fun m' => Autoloads m m' :=
  defineWith_entered load_gives load_autoloads u m

/-- A text is defined as the unit that it holds. -/
theorem define_entered (source : String) (m : Machine) :
    (define source).Ends m
      (fun handle m' => ∃ u m₁ added, SourceUnit.ofString? source = .ok u ∧ Autoloads m m₁ ∧ m'.units = m₁.units ∧
        Entered u m₁ m' added ∧ (added.map (·.handle))[firstClass u]? = some handle)
      fun m' => Autoloads m m' := by
  have stays : Autoloads m m := RunOrder.refl m
  unfold define
  cases read : SourceUnit.ofString? source with
  | error fault => exact stays
  | ok u =>
    by_cases declares : u.declarations = []
    · have refused : defineUnit u m = (.error (.invalidSource .declaresNothing), m) := defineWith_of_empty declares
      dsimp only [Change.Ends]
      rw [run_bind_error refused]
      exact stays
    · refine .bind (defineUnit_entered u m) ?_
      rintro _ m' ⟨m₁, added, loads, units, entered, rfl⟩
      cases first : (added.map (·.handle))[firstClass u]? with
      | some handle => exact ⟨u, m₁, added, rfl, loads, units, entered, first⟩
      | none =>
        -- Every declaration has a class, so there is a first.
        have within : firstClass u < (added.map (·.handle)).length := by
          rw [List.length_map, ← entered.became.length_eq, firstClass]
          cases found : u.declarations.findIdx? fun d => !d.isTrait with
          | none => simpa using List.length_pos_iff.mpr declares
          | some i => exact (List.findIdx?_eq_some_iff_findIdx_eq.mp found).1
        rw [List.getElem?_eq_getElem within] at first
        cases first

theorem isDefined_of_append {n : ClassName} {added : List LoadedClass} (classes : m'.classes = m.classes ++ added)
    (undefined : m'.isDefined n = false) : m.isDefined n = false := by
  cases found : m.class? n with
  | none => rw [isDefined, found]; rfl
  | some c => simp [isDefined, class?_of_append classes found] at undefined

/-- No declaration of one unit is called as one of another is. -/
def Unrelated (u v : SourceUnit) : Prop :=
  ∀ d ∈ u.declarations, ∀ e ∈ v.declarations, ∀ n, u.Names d n → ¬v.Names e n

/-- Loading defines no name that is not declared in what can be loaded. -/
theorem Autoloads.isDefined (h : Autoloads m m') {n : ClassName}
    (undeclared : ∀ v, m.Supplies v → ∀ e ∈ v.declarations, ¬v.Names e n) (undefined : m.isDefined n = false) :
    m'.isDefined n = false := by
  obtain ⟨loaded, classes, brought⟩ := h.grown
  have before : ∀ c ∈ m.classes, (c.name == n) = false := class?_eq_none undefined
  have behind : ∀ c ∈ loaded, (c.name == n) = false := by
    intro c hc
    obtain ⟨v, hv, e, he, became⟩ := brought c hc
    exact Bool.eq_false_iff.mpr fun same => undeclared v hv e he (became.names.congr same)
  have all : ∀ c ∈ m'.classes, (c.name == n) = false := classes ▸ List.forall_mem_append.mpr ⟨before, behind⟩
  simpa [Machine.isDefined, class?] using all

/-- Defining a unit replaces no class. If it succeeds, each declaration has become the class that its name finds and that
nothing had before, and all other new classes are loaded; if it fails, no name of the unit is defined unless a unit that
can be loaded declares it too. -/
theorem defineUnit_atomic (u : SourceUnit) (m : Machine) :
    (∀ n c, m.class? n = some c → (defineUnit u m).2.class? n = some c) ∧
    (∀ handles m', defineUnit u m = (.ok handles, m') → ∃ loaded added,
      m'.classes = m.classes ++ loaded ++ added ∧ (∀ c ∈ loaded, m.Brings c) ∧ handles = added.map (·.handle) ∧
        List.Forall₂ (fun d c => Became u d c ∧ m.isDefined c.name = false ∧ m'.class? c.name = some c)
          u.declarations added) ∧
    ∀ e m', defineUnit u m = (.error e, m') → (∀ v, m.Supplies v → Unrelated u v) →
      ∀ d ∈ u.declarations, ∀ n, u.Names d n → m.isDefined n = false → m'.isDefined n = false := by
  have ends := defineUnit_entered u m
  unfold Change.Ends at ends
  rcases ran : defineUnit u m with ⟨e | handles, m'⟩ <;> rw [ran] at ends
  · obtain ⟨loaded, classes, -⟩ := ends.grown
    refine ⟨fun n c => class?_of_append classes, nofun, ?_⟩
    rintro _ _ ⟨⟩ unrelated d hd n named undefined
    exact ends.isDefined (fun v hv e he => unrelated v hv d hd e he n named) undefined
  · obtain ⟨m₁, added, first, -, entered, rfl⟩ := ends
    obtain ⟨loaded, classes, brought⟩ := first.grown
    have kept : ∀ n c, m.class? n = some c → m'.class? n = some c := by
      intro n c found
      have loadedToo : m₁.class? n = some c := class?_of_append classes found
      exact class?_of_append entered.classes loadedToo
    refine ⟨kept, ?_, by rintro _ _ ⟨⟩⟩
    rintro _ _ ⟨⟩
    refine ⟨loaded, added, by rw [entered.classes, classes], brought, rfl, ?_⟩
    refine List.forall₂_iff_zip.mpr ⟨entered.became.length_eq, fun both => ?_⟩
    have hc := (List.of_mem_zip both).2
    exact ⟨List.forall₂_zip entered.became both, isDefined_of_append classes (entered.free _ hc), entered.found _ hc⟩

/-- A class that other units build on. -/
def footingUnit : SourceUnit :=
  { declarations := [.class ⟨"Footing", false, none, []⟩] }

/-- A machine that can load one unit. -/
def footed : Machine :=
  { units := some { places := [], units := [(⟨"Footing", by decide⟩, footingUnit)] } }

theorem eq_footingUnit {v : SourceUnit} (h : footed.Supplies v) : v = footingUnit := by
  obtain ⟨_, ⟨⟩, given⟩ := h
  obtain ⟨e, there, rfl⟩ := given.mem_units fun c => ⟨_, rfl⟩
  rw [List.mem_singleton.mp there]

/-- Two classes, the first below the second, and this below a class of another unit. -/
def towerUnit (isFinal : Bool) : SourceUnit :=
  { declarations := [.class ⟨"Spire", false, some "Tower", []⟩, .class ⟨"Tower", isFinal, some "Footing", []⟩] }

theorem tower_unrelated {v : SourceUnit} (h : footed.Supplies v) : Unrelated (towerUnit true) v := by
  obtain rfl := eq_footingUnit h
  rintro d hd e he n ⟨k, qualified, named⟩ ⟨k', qualified', named'⟩
  have same : k.key = k'.key := (ClassName.beq_iff.mp named).trans (ClassName.beq_iff.mp named').symm
  have apart : ∀ d ∈ (towerUnit true).declarations, ∀ e ∈ footingUnit.declarations,
      ((towerUnit true).qualified d.name).map (·.key) ≠ (footingUnit.qualified e.name).map (·.key) := by
    decide
  exact apart d hd e he (by rw [qualified, qualified', Except.map, Except.map, same])

/-- The tower is defined above its footing; when its lower class is final, the footing alone is there in the end. -/
theorem defineUnit_tower :
    (∃ handles m', defineUnit (towerUnit false) footed = (.ok handles, m') ∧ ∃ loaded added,
      m'.classes = footed.classes ++ loaded ++ added ∧ (∀ c ∈ loaded, footed.Brings c) ∧ handles = added.map (·.handle) ∧
        List.Forall₂ (fun d c => Became (towerUnit false) d c ∧ footed.isDefined c.name = false ∧ m'.class? c.name = some c)
          (towerUnit false).declarations added) ∧
    ∃ e m', defineUnit (towerUnit true) footed = (.error e, m') ∧ m'.classes.map (·.name.text) = ["Footing"] ∧
      m'.isDefined ⟨"Spire", by decide⟩ = false := by
  have succeeds : (defineUnit (towerUnit false) footed).1.toOption.isSome = true := by decide
  have fails : (defineUnit (towerUnit true) footed).1.toOption.isSome = false := by decide
  have left : (defineUnit (towerUnit true) footed).2.classes.map (·.name.text) = ["Footing"] := by decide
  constructor
  · rcases ran : defineUnit (towerUnit false) footed with ⟨e | handles, m'⟩
    · rw [ran] at succeeds
      cases succeeds
    · exact ⟨handles, m', rfl, (defineUnit_atomic (towerUnit false) footed).2.1 handles m' ran⟩
  · rcases ran : defineUnit (towerUnit true) footed with ⟨e | handles, m'⟩
    · rw [ran] at left
      refine ⟨e, m', rfl, left, ?_⟩
      exact (defineUnit_atomic (towerUnit true) footed).2.2 e m' ran (fun v => tower_unrelated) _ List.mem_cons_self _
        ⟨⟨"Spire", by decide⟩, rfl, by decide⟩ (by decide)
    · rw [ran] at fails
      cases fails

end Machine

end AspectProxy
