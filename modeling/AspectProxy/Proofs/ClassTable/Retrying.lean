import AspectProxy.Proofs.ClassTable.Nesting
import AspectProxy.Proofs.Sources.Inheritance

/-!
Loading a class again after it failed. What was loaded before the failure is found the second time, and what failed meets
what it met the first time, so nothing more happens and the same error is given. This takes units that declare the class
they are given for, and no class of another: else a unit is defined though its load fails, and stands in its own way then.
-/

namespace AspectProxy

/-- A step that does not look at the machine. -/
def Change.Still (x : Change ε α) : Prop :=
  ∃ r, ∀ m, x m = (r, m)

theorem Change.Still.bind {x : Change ε α} {f : α → Change ε β} (first : x.Still) (rest : ∀ a, (f a).Still) :
    (x >>= f).Still := by
  obtain ⟨r, still⟩ := first
  cases r with
  | error e => exact ⟨.error e, fun m => run_bind_error (still m)⟩
  | ok a =>
    obtain ⟨r, still'⟩ := rest a
    exact ⟨r, fun m => (run_bind (still m)).trans (still' m)⟩

/-- A step that does the same again. After a success it gives the same on every machine that has got more classes, and
changes nothing there; after a failure it fails the same way, and changes nothing more. -/
structure Change.Replays (x : Change ε α) (m : Machine) : Prop where
  grows : m.KeepsClasses (x m).2
  gives : ∀ a m', x m = (.ok a, m') → ∀ later, m'.KeepsClasses later → x later = (.ok a, later)
  fails : ∀ e m', x m = (.error e, m') → x m' = (.error e, m')

namespace Change.Replays

variable {m : Machine}

theorem of_still {x : Change ε α} (h : x.Still) : x.Replays m := by
  obtain ⟨r, still⟩ := h
  constructor
  · rw [still]
    exact List.prefix_rfl
  · intro a m' ran later more
    rw [still] at ran ⊢
    rw [(Prod.mk.inj ran).1]
  · intro e m' ran
    rw [still] at ran ⊢
    rw [(Prod.mk.inj ran).1]

theorem bind {x : Change ε α} {f : α → Change ε β} (first : x.Replays m)
    (rest : ∀ a m', x m = (.ok a, m') → (f a).Replays m') : (x >>= f).Replays m := by
  have grows := first.grows
  rcases ran : x m with ⟨e | a, m₁⟩ <;> rw [ran] at grows
  · constructor
    · rw [run_bind_error ran]
      exact grows
    · intro b m' whole
      cases (run_bind_error ran).symm.trans whole
    · intro e' m' whole
      cases (run_bind_error ran).symm.trans whole
      exact run_bind_error (first.fails e m₁ ran)
  · have second := rest a m₁ ran
    have grows' := second.grows
    constructor
    · rw [run_bind ran]
      exact RunOrder.trans grows grows'
    · intro b m' whole later more
      rw [run_bind ran] at whole
      rw [whole] at grows'
      rw [run_bind (first.gives a m₁ ran later (RunOrder.trans grows' more))]
      exact second.gives b m' whole later more
    · intro e' m' whole
      rw [run_bind ran] at whole
      rw [whole] at grows'
      rw [run_bind (first.gives a m₁ ran m' grows')]
      exact second.fails e' m' whole

theorem mapError {x : Change ε α} (h : x.Replays m) (f : ε → δ) : (Machine.mapError f x).Replays m := by
  have grows := h.grows
  unfold Machine.mapError
  rcases ran : x m with ⟨e | a, m₁⟩ <;> rw [ran] at grows
  · constructor
    · simpa only [ran] using grows
    · intro a m' whole
      simp only [ran] at whole
      cases whole
    · intro e' m' whole
      simp only [ran] at whole
      cases whole
      simp only [h.fails e m₁ ran]
  · constructor
    · simpa only [ran] using grows
    · intro b m' whole later more
      simp only [ran] at whole
      cases whole
      simp only [h.gives a m₁ ran later more]
    · intro e' m' whole
      simp only [ran] at whole
      cases whole

end Change.Replays

/-- The classes of a unit that is given for one: that one, and those that it declares. -/
def SourceUnit.Claims (u : SourceUnit) (n c : ClassName) : Prop :=
  (n == c) = true ∨ ∃ d ∈ u.declarations, u.Names d c

theorem SourceUnit.Claims.exists_mem {u : SourceUnit} {n c : ClassName} (h : u.Claims n c) :
    ∃ k ∈ n :: u.names, (k == c) = true := by
  rcases h with same | ⟨d, hd, k, qualified, same⟩
  · exact ⟨n, List.mem_cons_self, same⟩
  · exact ⟨k, List.mem_cons_of_mem _ (SourceUnit.mem_names.mpr ⟨d, hd, qualified⟩), same⟩

theorem SourceUnit.Claims.congr {u : SourceUnit} {n k c : ClassName} (h : u.Claims n c) (same : (n == k) = true) :
    u.Claims k c :=
  h.imp (fun here => ClassName.beq_trans (ClassName.beq_symm same) here) id

namespace Machine

variable {u : SourceUnit} {m m' : Machine} {name : ClassName} {entries : List (ClassName × Declaration)}

theorem Build.bind_replays {x : Build α} {f : α → Build β} {built : List LoadedClass} (first : (x built).Replays m)
    (rest : ∀ a built' m', x built m = (.ok (a, built'), m') → (f a built').Replays m') : ((x >>= f) built).Replays m :=
  first.bind fun r m' ran => rest r.1 r.2 m' ran

theorem Build.lift_still (r : Except DefinitionError α) (built : List LoadedClass) : (Build.lift r built).Still :=
  ⟨_, fun _ => rfl⟩

theorem finish_still (u : SourceUnit) (name : ClassName) (d : Declaration) (parent : Option LoadedClass)
    (built : List LoadedClass) : Change.Still ((do
      let c ← Build.lift (bodyOf u name d parent)
      modify (· ++ [c])
      return c : Build LoadedClass) built) :=
  .bind (Build.lift_still _ built) fun _ => ⟨_, fun _ => rfl⟩

theorem under_still (u : SourceUnit) (name : ClassName) (d : Declaration) (parent : LoadedClass)
    (built : List LoadedClass) : Change.Still ((do
      Build.lift (checkParent name parent)
      let parent ← pure (some parent)
      let c ← Build.lift (bodyOf u name d parent)
      modify (· ++ [c])
      return c : Build LoadedClass) built) :=
  .bind (Build.lift_still _ built) fun r => finish_still u name d (some parent) r.2

section Define

variable {load : ClassName → Change LoadError LoadedClass}

theorem build_replays (loads : ∀ c, (load c).Replays m) (fuel : Nat) {path : List ClassName} {d : Declaration}
    {built : List LoadedClass} : (build load u entries fuel path name d built).Replays m := by
  induction fuel generalizing path name d built with
  | zero => exact .of_still (Build.lift_still _ built)
  | succ fuel ih =>
    rw [build_succ]
    refine Build.bind_replays (.of_still ⟨_, fun _ => rfl⟩) fun _ _ _ got => ?_
    cases got
    cases built.find? fun c => c.name == name with
    | some c => exact .of_still ⟨_, fun _ => rfl⟩
    | none =>
      cases path.any (· == name) with
      | true => exact .of_still ⟨_, fun _ => rfl⟩
      | false =>
        cases parentReference d with
        | none => exact .of_still (finish_still u name d none built)
        | some reference =>
          refine Build.bind_replays (.of_still (Build.lift_still _ built)) fun resolved _ m' means => ?_
          obtain ⟨-, rfl, rfl⟩ := Build.of_lift_ok means
          cases entries.find? fun e => e.1 == resolved with
          | some e => exact Build.bind_replays ih fun p built' _ _ => .of_still (under_still u name d p built')
          | none =>
            refine Build.bind_replays (.bind ((loads resolved).mapError _) fun _ _ _ => .of_still ⟨_, fun _ => rfl⟩) ?_
            exact fun p built' _ _ => .of_still (under_still u name d p built')

theorem buildAll_replays (inside : ∀ c, Change.Keeps Inside (load c)) (loads : ∀ m', Inside m m' → ∀ c, (load c).Replays m')
    (todo : List (ClassName × Declaration)) (built : List LoadedClass) :
    (buildAll load u entries todo built).Replays m := by
  induction todo generalizing m built with
  | nil => exact .of_still ⟨_, fun _ => rfl⟩
  | cons e rest ih =>
    apply Build.bind_replays (build_replays (loads m (RunOrder.refl m)) _)
    intro c built' m' ran
    have reached := build_keeps inside u entries (entries.length + 1) [] e.1 e.2 built m
    rw [ran] at reached
    exact ih (fun m'' further => loads m'' (RunOrder.trans reached further)) built'

end Define

/-- Units no two of which have a class in common, and each of which declares the class that it is given for, unless that is
being loaded. -/
structure Homed (m : Machine) : Prop where
  main : ∀ n u, m.Gives n u → m.loading.any (· == n) = false → ∃ d ∈ u.declarations, u.Names d n
  apart : ∀ n u k v c, m.Gives n u → m.Gives k v → u.Claims n c → v.Claims k c → (n == k) = true

theorem Homed.of_keepsUnits (homed : m.Homed) (units : m.KeepsUnits m')
    (idle : ∀ n, m'.loading.any (· == n) = false → m.loading.any (· == n) = false) : m'.Homed where
  main := by
    intro n u given free
    obtain ⟨k, same, given⟩ := UnitStore.get_of_extended units given
    obtain ⟨d, hd, named⟩ := homed.main k u given (any_beq_congr same ▸ idle n free)
    exact ⟨d, hd, named.congr same⟩
  apart := by
    intro n u k v c given given' claims claims'
    obtain ⟨n', same, given⟩ := UnitStore.get_of_extended units given
    obtain ⟨k', same', given'⟩ := UnitStore.get_of_extended units given'
    have one := homed.apart n' u k' v c given given' (claims.congr (ClassName.beq_symm same))
      (claims'.congr (ClassName.beq_symm same'))
    exact ClassName.beq_trans (ClassName.beq_trans (ClassName.beq_symm same) one) same'

theorem Homed.inside (homed : m.Homed) (h : Inside m m') : m'.Homed :=
  homed.of_keepsUnits h.units fun _ free => h.loading ▸ free

theorem Homed.beginLoading (homed : m.Homed) (name : ClassName) : (m.beginLoading name).Homed := by
  have units : m.KeepsUnits (m.beginLoading name) := RunOrder.refl (R := KeepsUnits) m
  apply homed.of_keepsUnits units
  intro n free
  rw [Machine.beginLoading, List.any_cons, Bool.or_eq_false_iff] at free
  exact free.2

theorem isDefined_of_keepsClasses (h : m.KeepsClasses m') (defined : m.isDefined name = true) :
    m'.isDefined name = true := by
  obtain ⟨c, found⟩ := Option.isSome_iff_exists.mp defined
  obtain ⟨more, classes⟩ := h
  rw [isDefined, class?_of_append classes.symm found]
  rfl

theorem Fetches.keepsClasses (h : Fetches m m') : m.KeepsClasses m' := by
  obtain ⟨loaded, classes, -⟩ := h.grown
  exact ⟨loaded, classes.symm⟩

/-- While the unit of a class is being loaded, none of its classes is defined by other loads. -/
theorem Fetches.isDefined (h : Fetches m m') (homed : m.Homed) (given : m.Gives name u)
    (busy : m.loading.any (· == name) = true) {c : ClassName} (claims : u.Claims name c) :
    m'.isDefined c = m.isDefined c := by
  cases defined : m.isDefined c with
  | true => exact isDefined_of_keepsClasses h.keepsClasses defined
  | false =>
    obtain ⟨loaded, classes, loadable⟩ := h.grown
    have behind : ∀ x ∈ loaded, (x.name == c) = false := by
      intro x hx
      obtain ⟨k, v, given', idle, e, he, became⟩ := loadable x hx
      rw [Bool.eq_false_iff]
      intro same
      have one := homed.apart name u k v c given given' claims (.inr ⟨e, he, became.names.congr same⟩)
      rw [any_beq_congr one, idle] at busy
      cases busy
    have all : ∀ x ∈ m'.classes, (x.name == c) = false :=
      classes ▸ List.forall_mem_append.mpr ⟨class?_eq_none defined, behind⟩
    simpa [Machine.isDefined, class?] using all

theorem declaredNames_congr {ds : List Declaration} (same : ∀ d ∈ ds, ∀ n, u.qualified d.name = .ok n →
    m'.isDefined n = m.isDefined n) (names : List ClassName) : declaredNames u m' ds names = declaredNames u m ds names := by
  induction ds generalizing names with
  | nil => rfl
  | cons d rest ih =>
    obtain ⟨here, later⟩ := List.forall_mem_cons.mp same
    rw [declaredNames, declaredNames]
    cases qualified : u.qualified d.name with
    | error e => rfl
    | ok n =>
      dsimp only
      rw [here n qualified, ih later]

/-- A unit that is being loaded, and could not be defined, can still not be defined for the same reason. -/
theorem defineUnit_fails_again (homed : m.Homed) (given : m.Gives name u) (busy : m.loading.any (· == name) = true)
    (loads : ∀ m', Inside m m' → ∀ c, (load c).Replays m') {e : DefinitionError}
    (failed : defineUnit u m = (.error e, m')) : defineUnit u m' = (.error e, m') ∧ Fetches m m' := by
  have fetches := defineWith_entered load_gives load_fetches u m
  have same : defineUnit u m = defineWith load u m := rfl
  rw [same] at failed
  simp only [Change.Ends, failed] at fetches
  refine ⟨?_, fetches⟩
  have free : declaredNames u m' u.declarations [] = declaredNames u m u.declarations [] := by
    apply declaredNames_congr
    intro d hd n qualified
    exact fetches.isDefined homed given busy (.inr ⟨d, hd, SourceUnit.names_of_qualified qualified⟩)
  show defineWith load u m' = _
  by_cases declares : u.declarations = []
  · rw [defineWith_of_empty declares] at failed ⊢
    cases failed
    rfl
  · cases found : declaredNames u m u.declarations [] with
    | error e' =>
      rw [defineWith_of_error declares found] at failed
      cases failed
      exact defineWith_of_error declares found
    | ok names =>
      have replays : (buildAll load u (names.zip u.declarations) (names.zip u.declarations) []).Replays m :=
        buildAll_replays load_inside loads _ []
      rw [defineWith_eq declares (free.trans found)]
      rw [defineWith_eq declares found] at failed
      rcases ran : buildAll load u (names.zip u.declarations) (names.zip u.declarations) [] m with ⟨e' | ⟨⟨⟩, built⟩, m₁⟩
      · rw [ran] at failed
        cases failed
        rw [replays.fails e m' ran]
      · rw [ran] at failed
        obtain rfl := register_error failed
        rw [replays.gives _ _ ran m' List.prefix_rfl]
        exact failed

/-- Machines that both load classes from units, or both do not. -/
def SameLoader (before after : Machine) : Prop :=
  after.units.isSome = before.units.isSome

instance : LoadRelation SameLoader where
  refl := fun _ => rfl
  trans := fun first second => Eq.trans second first
  fetch := by
    intro store name m here
    rw [SameLoader, here]
    rfl
  addClass := fun _ _ => rfl
  loading := fun _ _ => rfl

theorem endLoading_beginLoading (idle : m.loading.any (· == name) = false) : (m.beginLoading name).endLoading name = m := by
  have loading : ((m.beginLoading name).endLoading name).loading = m.loading := endLoading_loading rfl idle
  calc (m.beginLoading name).endLoading name
      = { m with loading := ((m.beginLoading name).endLoading name).loading } := rfl
    _ = m := by rw [loading]

theorem beginLoading_endLoading {under : List ClassName} (busy : m.loading = name :: under)
    (idle : under.any (· == name) = false) : (m.endLoading name).beginLoading name = m := by
  have loading : (m.endLoading name).loading = under := endLoading_loading busy idle
  calc (m.endLoading name).beginLoading name
      = { m with loading := name :: (m.endLoading name).loading } := rfl
    _ = m := by rw [loading, ← busy]

/-- A machine on which the unit of a class has been fetched for it to be loaded. -/
structure Begun (name : ClassName) (m : Machine) (u : SourceUnit) (begun : Machine) : Prop where
  absent : m.isDefined name = false
  idle : m.loading.any (· == name) = false
  given : m.Gives name u
  kept : begun.store.unit? name = some u
  units : m.KeepsUnits begun
  loader : begun.units.isSome = true
  classes : begun.classes = m.classes
  loading : begun.loading = name :: m.loading
  fewer : ∀ n, AtMost (n + 1) m.Pending → AtMost n begun.Pending

theorem begun_of_fetch {store : UnitStore} {begun : Machine} (absent : m.class? name = none) (units : m.units = some store)
    (idle : m.loading.any (· == name) = false) (fetched : fetchUnit store name (m.beginLoading name) = (.ok u, begun)) :
    Begun name m u begun := by
  have fewer : ∀ n, AtMost (n + 1) m.Pending → AtMost n begun.Pending := fun n few => atMost_of_fetch few units idle fetched
  obtain ⟨store', got, rfl⟩ := fetchUnit_ok fetched
  have grown := store.get_extended name
  rw [got, ← store_of_units units] at grown
  exact {
    absent := by rw [isDefined, absent]; rfl
    idle
    given := by rw [Gives, store_of_units units, got]
    kept := UnitStore.unit?_get got
    units := grown
    loader := rfl
    classes := rfl
    loading := rfl
    fewer }

theorem Begun.busy {begun : Machine} (h : Begun name m u begun) : begun.loading.any (· == name) = true := by
  rw [h.loading, List.any_cons, ClassName.beq_self, Bool.true_or]

theorem Begun.pending {begun : Machine} (h : Begun name m u begun) : m.Pending name :=
  ⟨⟨u, h.given⟩, h.idle⟩

/-- A load for which no unit could be fetched has changed nothing, and fails for that. -/
theorem fetchUnit_failed {store : UnitStore} {e : LoadError} (units : m.units = some store)
    (idle : m.loading.any (· == name) = false) (fetched : fetchUnit store name (m.beginLoading name) = (.error e, m')) :
    m'.endLoading name = m ∧ ∀ c, e ≠ .missing (.notDeclared c) := by
  unfold fetchUnit at fetched
  rcases got : store.get name with ⟨e' | u, store'⟩
  · rw [got] at fetched
    obtain rfl : store' = store := UnitStore.get_error got
    cases fetched
    rw [← units]
    exact ⟨endLoading_beginLoading idle, by rintro _ ⟨⟩⟩
  · rw [got] at fetched
    cases fetched

theorem Begun.homed {begun : Machine} (h : Begun name m u begun) (homed : (m.beginLoading name).Homed) : begun.Homed :=
  homed.of_keepsUnits h.units fun _ free => by rwa [h.loading] at free

theorem Begun.gives {begun : Machine} (h : Begun name m u begun) : begun.Gives name u := by
  rw [Gives, UnitStore.get_of_unit? h.kept]

/-- How a load fails: nothing happened, or its unit could not be defined, or could but does not declare the class. -/
theorem load_failed {e : LoadError} (failed : load name m = (.error e, m')) :
    (e ≠ .missing (.notDeclared name.text) ∧ m' = m) ∨ ∃ u begun after, Begun name m u begun ∧ m' = after.endLoading name ∧
      ((∃ e', e = .invalid e' ∧ defineUnit u begun = (.error e', after)) ∨
        e = .missing (.notDeclared name.text) ∧ after.isDefined name = false ∧
          ∃ handles, defineUnit u begun = (.ok handles, after)) := by
  have outcome := loadWith_loading load name m
  rw [← load_eq_loadWith, failed] at outcome
  cases outcome with
  | unsupplied => exact .inl ⟨by rintro ⟨⟩, rfl⟩
  | busy => exact .inl ⟨by rintro ⟨⟩, rfl⟩
  | unfetched starts fetched =>
    obtain ⟨unchanged, noUnit⟩ := fetchUnit_failed starts.units starts.idle fetched
    exact .inl ⟨noUnit _, unchanged⟩
  | undefined starts fetched defined =>
    have begun := begun_of_fetch starts.absent starts.units starts.idle fetched
    exact .inr ⟨_, _, _, begun, rfl, .inl ⟨_, rfl, defined⟩⟩
  | undeclared starts fetched defined absent =>
    have begun := begun_of_fetch starts.absent starts.units starts.idle fetched
    exact .inr ⟨_, _, _, begun, rfl, .inr ⟨rfl, Option.isSome_eq_false_iff.mpr (Option.isNone_iff_eq_none.mpr absent), _, defined⟩⟩

/-- A load whose unit, once it has been fetched and tried, cannot be defined, fails so again. -/
theorem Begun.load_again {begun after : Machine} (h : Begun name m u begun) (ran : (defineUnit u begun).2 = after)
    (absent : after.isDefined name = false) {e : DefinitionError} (fails : defineUnit u after = (.error e, after)) :
    load name (after.endLoading name) = (.error (.invalid e), after.endLoading name) := by
  have loader : after.units.isSome = true := by
    rw [← ran, ← h.loader]
    exact defineWith_keeps (R := SameLoader) load_keeps u begun
  have kept : after.store.unit? name = some u := by
    rw [← ran]
    exact (defineWith_keeps (R := KeepsUnits) load_keeps u begun).unit? h.kept
  have loading : after.loading = name :: m.loading := by
    rw [← ran, ← h.loading]
    exact defineUnit_loading u begun
  obtain ⟨store, units⟩ := Option.isSome_iff_exists.mp loader
  have fetched : fetchUnit store name ((after.endLoading name).beginLoading name) = (.ok u, after) := by
    rw [beginLoading_endLoading loading h.idle, fetchUnit, UnitStore.get_of_unit? (by rwa [← store_of_units units])]
    dsimp only
    rw [← units]
  have idle : (after.endLoading name).loading.any (· == name) = false := by
    rw [endLoading_loading loading h.idle]
    exact h.idle
  have absent : (after.endLoading name).class? name = none := by
    rw [isDefined, Option.isSome_eq_false_iff, Option.isNone_iff_eq_none] at absent
    exact absent
  have units : (after.endLoading name).units = some store := units
  rw [load_of_fetch absent units idle, fetchAndDefine_of_ok fetched, show defineWith load u after = _ from fails]
  rfl

/-- A load that failed has defined none of the classes of its own unit, and fails the same way again, unless the unit does
not declare the class. -/
theorem load_fails_again (homed : (m.beginLoading name).Homed) (inner : ∀ u begun, Begun name m u begun → ∀ m',
    Inside begun m' → ∀ c, (load c).Replays m') {e : LoadError} (failed : load name m = (.error e, m'))
    (declared : e ≠ .missing (.notDeclared name.text)) :
    load name m' = (.error e, m') ∧ ∀ u, m.Gives name u → ∀ c, u.Claims name c → m'.isDefined c = m.isDefined c := by
  rcases load_failed failed with ⟨-, rfl⟩ | ⟨u, begun, after, begins, rfl, ⟨e', rfl, fails⟩ | ⟨undeclared, -⟩⟩
  · exact ⟨failed, fun _ _ _ _ => rfl⟩
  · have homed' := begins.homed homed
    obtain ⟨again, fetches⟩ := defineUnit_fails_again homed' begins.gives begins.busy (inner u begun begins) fails
    have undefined : ∀ c, u.Claims name c → after.isDefined c = m.isDefined c := by
      intro c claims
      rw [fetches.isDefined homed' begins.gives begins.busy claims, isDefined, isDefined, class?, class?, begins.classes]
    refine ⟨begins.load_again (congrArg (·.2) fails) ?_ again, fun v given c claims => ?_⟩
    · rw [undefined name (.inl (ClassName.beq_self name))]
      exact begins.absent
    · obtain rfl : u = v := Except.ok.inj (begins.given.symm.trans given)
      exact undefined c claims
  · exact absurd undeclared declared

/-- All classes of a unit that could be defined are new. -/
theorem Begun.defined {begun after : Machine} {handles : List ClassHandle} (h : Begun name m u begun)
    (succeeds : defineUnit u begun = (.ok handles, after)) {d : Declaration} (hd : d ∈ u.declarations) :
    ∃ c, u.qualified d.name = .ok c ∧ m.isDefined c = false ∧ after.isDefined c = true := by
  have entered := defineUnit_entered u begun
  simp only [Change.Ends, succeeds] at entered
  obtain ⟨m₁, added, loads, -, entered, -⟩ := entered
  obtain ⟨loaded, classes, -⟩ := loads.grown
  obtain ⟨c, hc, qualified, -⟩ := entered.exists_class d hd
  refine ⟨c.name, qualified, isDefined_of_append (classes.trans (by rw [h.classes])) (entered.free c hc), ?_⟩
  rw [isDefined, entered.found c hc]
  rfl

/-- A unit that could be defined cannot be defined again. -/
theorem Begun.taken {begun after : Machine} {handles : List ClassHandle} (h : Begun name m u begun)
    (succeeds : defineUnit u begun = (.ok handles, after)) :
    ∃ taken, defineUnit u after = (.error (.duplicate taken), after) := by
  cases declares : u.declarations with
  | nil => cases (defineWith_of_empty declares).symm.trans succeeds
  | cons d rest =>
    obtain ⟨c, qualified, -, there⟩ := h.defined succeeds (declares ▸ List.mem_cons_self)
    have taken : declaredNames u after u.declarations [] = .error (.duplicate c.text) := by
      rw [declares, declaredNames, qualified]
      simp only [there, Bool.or_true, if_true]
    exact ⟨c.text, defineWith_of_error (by simp [declares]) taken⟩

/-- A load does the same again if the loads within it do. -/
theorem load_replays_of (homed : m.Homed) (inner : ∀ u begun, Begun name m u begun → ∀ m', Inside begun m' →
    ∀ c, (load c).Replays m') : (load name).Replays m where
  grows := load_keeps name m
  gives := by
    rintro c m' ran later ⟨more, classes⟩
    exact load_of_class? (class?_of_append classes.symm (load_found ran))
  fails := by
    intro e m' failed
    refine (load_fails_again (homed.beginLoading name) inner failed ?_).1
    rintro rfl
    rcases load_failed failed with ⟨other, -⟩ | ⟨u, begun, after, begins, -, ⟨_, ⟨⟩, -⟩ | ⟨-, absent, handles, succeeds⟩⟩
    · exact other rfl
    · obtain ⟨d, hd, named⟩ := homed.main name u begins.given begins.idle
      obtain ⟨c, qualified, -, there⟩ := begins.defined succeeds hd
      rw [isDefined_congr (named.unique (SourceUnit.names_of_qualified qualified)), there] at absent
      cases absent

/-- A load does the same again. The induction is on how many classes are pending; while the unit of the class is being
loaded, these are fewer. -/
theorem load_replays {n : Nat} (homed : m.Homed) (few : AtMost n m.Pending) (name : ClassName) : (load name).Replays m := by
  induction n generalizing m name with
  | zero =>
    apply load_replays_of homed
    intro u begun begins
    have one := few [name] (List.pairwise_singleton _ _) (List.forall_mem_singleton.mpr begins.pending)
    cases one
  | succ n ih =>
    apply load_replays_of homed
    intro u begun begins m' inside c
    have homed' := begins.homed (homed.beginLoading name)
    exact ih (homed'.inside inside) (inside.atMost (begins.fewer n few)) c

theorem loadClass_of_error {e : LoadError} (failed : load name m = (.error e, m')) :
    loadClass name m = (.error (.failed (e.toEvalError name)), m') := by
  have split : loadClass name m = ((load name m).1.mapError fun e => .failed (e.toEvalError name), (load name m).2) := rfl
  rw [split, failed]
  rfl

theorem load_of_loadClass {stop : Stop} (failed : loadClass name m = (.error stop, m')) :
    ∃ e, load name m = (.error e, m') ∧ stop = .failed (e.toEvalError name) := by
  have split : loadClass name m = ((load name m).1.mapError fun e => .failed (e.toEvalError name), (load name m).2) := rfl
  rw [split] at failed
  rcases ran : load name m with ⟨e | c, m₁⟩ <;> rw [ran] at failed <;> cases failed
  exact ⟨e, rfl, rfl⟩

/-- Why a class is not there if its unit was defined and does not declare it. -/
def undeclared (name : ClassName) : Stop :=
  .failed (.classNotFound name.text (some (.notDeclared name.text)))

/-- Loading a class fails the same way again, where no two units have a class in common and the other units declare the
classes that they are given for: the second time nothing happens, and the first time none of the classes of the unit was
defined. But if the unit itself does not declare the class, all of its classes are defined, and these are in its way when
the class is loaded again. -/
theorem loadClass_fails_again (homed : (m.beginLoading name).Homed) {stop : Stop}
    (failed : loadClass name m = (.error stop, m')) :
    (stop ≠ undeclared name → loadClass name m' = (.error stop, m') ∧
      ∀ u, m.Gives name u → ∀ c, u.Claims name c → m'.isDefined c = m.isDefined c) ∧
    (stop = undeclared name → ∃ u, m.Gives name u ∧
      (∀ d ∈ u.declarations, ∃ c, u.Names d c ∧ m.isDefined c = false ∧ m'.isDefined c = true) ∧
      ∃ taken, loadClass name m' = (.error (.failed (.definition (.duplicate taken))), m')) := by
  have inner : ∀ u begun, Begun name m u begun → ∀ m', Inside begun m' → ∀ c, (load c).Replays m' := by
    intro u begun begins m' inside
    exact load_replays ((begins.homed homed).inside inside) m'.atMost_pending
  obtain ⟨e, ran, rfl⟩ := load_of_loadClass failed
  constructor
  · intro other
    obtain ⟨again, kept⟩ := load_fails_again homed inner ran fun same => other (by rw [same]; rfl)
    exact ⟨loadClass_of_error again, kept⟩
  · intro same
    obtain rfl : e = .missing (.notDeclared name.text) := by
      cases e with
      | missing reason => simpa [undeclared, LoadError.toEvalError] using same
      | invalid e => cases same
    rcases load_failed ran with ⟨other, -⟩ | ⟨u, begun, after, begins, rfl, ⟨_, ⟨⟩, -⟩ | ⟨-, absent, handles, succeeds⟩⟩
    · exact absurd rfl other
    · refine ⟨u, begins.given, fun d hd => ?_, ?_⟩
      · obtain ⟨c, qualified, free, there⟩ := begins.defined succeeds hd
        exact ⟨c, SourceUnit.names_of_qualified qualified, free, there⟩
      · obtain ⟨taken, fails⟩ := begins.taken succeeds
        exact ⟨taken, loadClass_of_error (begins.load_again (congrArg (·.2) succeeds) absent fails)⟩

/-- A machine that loads classes from units that it keeps. -/
def keeping (units : List (ClassName × SourceUnit)) : Machine :=
  { units := some { places := [], units } }

theorem gives_keeping {units : List (ClassName × SourceUnit)} (given : (keeping units).Gives name u) :
    ∃ e ∈ units, (e.1 == name) = true ∧ e.2 = u := by
  have got : ((keeping units).store.get name).1 = .ok u := given
  rcases found : (keeping units).store.get name with ⟨_, store⟩
  rw [found] at got
  cases got
  rcases UnitStore.get_ok found with ⟨kept, -⟩ | ⟨-, _, resolved, -⟩
  · obtain ⟨e, there, same⟩ := Option.map_eq_some_iff.mp kept
    exact ⟨e, List.mem_of_find?_eq_some there, by simpa using List.find?_some there, same⟩
  · cases resolved

theorem homed_keeping {units : List (ClassName × SourceUnit)}
    (main : ∀ e ∈ units, (name == e.1) = true ∨ ∃ k ∈ e.2.names, (k == e.1) = true)
    (apart : ∀ e ∈ units, ∀ f ∈ units, ∀ k ∈ e.1 :: e.2.names, ∀ l ∈ f.1 :: f.2.names,
      (k == l) = true → (e.1 == f.1) = true) :
    ((keeping units).beginLoading name).Homed where
  main := by
    intro n u given free
    obtain ⟨e, he, same, rfl⟩ := gives_keeping given
    have other : (name == n) = false := by
      rw [beginLoading, List.any_cons, Bool.or_eq_false_iff] at free
      exact free.1
    rcases main e he with busy | ⟨k, listed, named⟩
    · rw [ClassName.beq_trans busy same] at other
      cases other
    · obtain ⟨d, hd, qualified⟩ := SourceUnit.mem_names.mp listed
      exact ⟨d, hd, k, qualified, ClassName.beq_trans named same⟩
  apart := by
    intro n u k v c given given' claims claims'
    obtain ⟨e, he, same, rfl⟩ := gives_keeping given
    obtain ⟨f, hf, same', rfl⟩ := gives_keeping given'
    obtain ⟨a, ha, first⟩ := (claims.congr (ClassName.beq_symm same)).exists_mem
    obtain ⟨b, hb, second⟩ := (claims'.congr (ClassName.beq_symm same')).exists_mem
    have one := apart e he f hf a ha b hb (ClassName.beq_trans first (ClassName.beq_symm second))
    exact ClassName.beq_trans (ClassName.beq_trans (ClassName.beq_symm same) one) same'

/-- A class below one that cannot have any below it. -/
def kiosk : Machine :=
  keeping [(⟨"Kiosk", by decide⟩, belowUnit "Kiosk" "Stall"),
    (⟨"Stall", by decide⟩, { declarations := [.class ⟨"Stall", true, none, []⟩] })]

def kioskName : ClassName :=
  ⟨"KIOSK", by decide⟩

def depotName : ClassName :=
  ⟨"Depot", by decide⟩

def barrowName : ClassName :=
  ⟨"Barrow", by decide⟩

/-- A unit that declares another class than the one it is given for. -/
def depot : Machine :=
  keeping [(depotName, { declarations := [.class ⟨"Barrow", false, none, []⟩] })]

theorem kiosk_stops :
    (load kioskName kiosk).1.map (·.name.text) = .error (.invalid (.finalParent "Kiosk" "Stall")) ∧
      (load kioskName kiosk).2.classes.map (·.name.text) = ["Stall"] := by
  decide

theorem depot_stops :
    (load depotName depot).1.map (·.name.text) = .error (.missing (.notDeclared "Depot")) ∧
      (load depotName depot).2.isDefined barrowName = true := by
  decide

/-- Below the final class the load fails twice alike, and only the final class is there; the unit that does not declare its
class is defined all the same. -/
theorem loadClass_fails_again_kiosk :
    (∃ m', loadClass kioskName kiosk = (.error (.failed (.definition (.finalParent "Kiosk" "Stall"))), m') ∧
      loadClass kioskName m' = (.error (.failed (.definition (.finalParent "Kiosk" "Stall"))), m') ∧
      m'.classes.map (·.name.text) = ["Stall"]) ∧
    ∃ m' taken, loadClass depotName depot = (.error (undeclared depotName), m') ∧ m'.isDefined barrowName = true ∧
      loadClass depotName m' = (.error (.failed (.definition (.duplicate taken))), m') := by
  constructor
  · obtain ⟨stops, left⟩ := kiosk_stops
    rcases ran : load kioskName kiosk with ⟨stop | c, m'⟩ <;> rw [ran] at stops left <;> cases stops
    have homed : (kiosk.beginLoading kioskName).Homed := homed_keeping (by decide) (by decide)
    exact ⟨m', loadClass_of_error ran, ((loadClass_fails_again homed (loadClass_of_error ran)).1 (by rintro ⟨⟩)).1, left⟩
  · obtain ⟨stops, left⟩ := depot_stops
    rcases ran : load depotName depot with ⟨stop | c, m'⟩ <;> rw [ran] at stops left <;> cases stops
    have homed : (depot.beginLoading depotName).Homed := homed_keeping (by decide) (by decide)
    obtain ⟨u, -, -, taken, again⟩ := (loadClass_fails_again homed (loadClass_of_error ran)).2 rfl
    exact ⟨m', taken, loadClass_of_error ran, left, again⟩

/-- A load fails first as its unit does not declare the class, and then as the unit's own class is defined already. -/
theorem barrow_is_left :
    ¬∀ (name : ClassName) (m m' : Machine) (stop : Stop), loadClass name m = (.error stop, m') →
      (∀ u, m.Gives name u → ∀ d ∈ u.declarations, ∀ c, u.Names d c → m'.isDefined c = m.isDefined c) ∧
        (loadClass name m').1 = .error stop := by
  intro all
  obtain ⟨stops, -⟩ := depot_stops
  have stops' : (load depotName (load depotName depot).2).1.map (·.name.text) =
      .error (.invalid (.duplicate "Barrow")) := by
    decide
  rcases ran : load depotName depot with ⟨stop | c, m'⟩ <;> rw [ran] at stops stops' <;> cases stops
  rcases ran' : load depotName m' with ⟨stop | c, m''⟩ <;> rw [ran'] at stops' <;> cases stops'
  have same := (all depotName depot m' _ (loadClass_of_error ran)).2
  rw [loadClass_of_error ran'] at same
  cases same

end Machine

end AspectProxy
