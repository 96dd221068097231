import AspectProxy.Proofs.ClassTable.Atomic
import AspectProxy.Proofs.Sources.Bounds

/-!
How loads and builds nest. Each asks another only for a class that is not under way yet, and there are only so many of
these: the units that can be loaded, and the declarations of a unit. So what would happen further in than that does not
matter, and neither does the fuel that is counted down; what is being loaded is the same again in the end.
-/

namespace AspectProxy

namespace Machine

variable {u : SourceUnit} {m m' : Machine} {name : ClassName} {entries : List (ClassName × Declaration)} {n : Nat}

/-- The class of a declaration, when the parents that the unit declares are built by `inner`. -/
def buildWith (load : ClassName → Change LoadError LoadedClass) (u : SourceUnit) (entries : List (ClassName × Declaration))
    (inner : List ClassName → ClassName → Declaration → Build LoadedClass) (path : List ClassName) (name : ClassName)
    (d : Declaration) : Build LoadedClass := do
  match (← get).find? fun c => c.name == name with
  | some c => return c
  | none =>
    if path.any (· == name) then
      Build.lift (.error (.invalidSource (.inheritanceCycle name.text)))
    let parent ← match parentReference d with
      | none => pure none
      | some reference => do
        let parentName ← Build.lift (parentName u name reference)
        let parent ← match entries.find? fun (n, _) => n == parentName with
          | some (n, e) => inner (name :: path) n e
          | none => StateT.lift (outsideParent load name parentName)
        Build.lift (checkParent name parent)
        pure (some parent)
    let c ← Build.lift (bodyOf u name d parent)
    modify (· ++ [c])
    return c

theorem build_succ (load : ClassName → Change LoadError LoadedClass) (u : SourceUnit)
    (entries : List (ClassName × Declaration)) (fuel : Nat) :
    build load u entries (fuel + 1) = buildWith load u entries (build load u entries fuel) := by
  funext path name d
  rw [build]
  rfl

section Agreement

variable {R : Machine → Machine → Prop} [order : RunOrder R] {f g : ClassName → Change LoadError LoadedClass}

omit order in
/-- Building a class is the same where its parents are built and loaded the same. -/
theorem buildWith_congr {inner inner' : List ClassName → ClassName → Declaration → Build LoadedClass} {path : List ClassName}
    {d : Declaration} {built : List LoadedClass} (agree : ∀ k, f k m = g k m)
    (within : path.any (· == name) = false → ∀ e ∈ entries,
      inner (name :: path) e.1 e.2 built m = inner' (name :: path) e.1 e.2 built m) :
    buildWith f u entries inner path name d built m = buildWith g u entries inner' path name d built m := by
  refine Build.run_bind_congr rfl fun _ _ _ got => ?_
  cases got
  cases built.find? fun c => c.name == name with
  | some c => rfl
  | none =>
    cases busy : path.any (· == name) with
    | true => rfl
    | false =>
      cases parentReference d with
      | none => rfl
      | some reference =>
        refine Build.run_bind_congr rfl fun resolved _ m' means => ?_
        obtain ⟨-, rfl, rfl⟩ := Build.of_lift_ok means
        cases declared : entries.find? fun e => e.1 == resolved with
        | some e => exact Build.run_bind_congr (within busy e (List.mem_of_find?_eq_some declared)) fun _ _ _ _ => rfl
        | none =>
          have outside : outsideParent f name resolved m' = outsideParent g name resolved m' := by
            rw [outsideParent, outsideParent, mapError, mapError, agree]
          exact Build.run_bind_congr (run_bind_congr outside fun _ _ _ => rfl) fun _ _ _ _ => rfl

omit order in
theorem build_agrees (fuel : Nat) {path : List ClassName} {d : Declaration} {built : List LoadedClass}
    (agree : ∀ k, f k m = g k m) :
    build f u entries fuel path name d built m = build g u entries fuel path name d built m := by
  induction fuel generalizing path name d with
  | zero => rfl
  | succ fuel ih =>
    rw [build_succ, build_succ]
    exact buildWith_congr agree fun _ _ _ => ih

theorem buildAll_agrees (keeps : ∀ k, Change.Keeps R (f k)) (agree : ∀ k m', R m m' → f k m' = g k m')
    (todo : List (ClassName × Declaration)) (built : List LoadedClass) :
    buildAll f u entries todo built m = buildAll g u entries todo built m := by
  induction todo generalizing built m with
  | nil => rfl
  | cons e rest ih =>
    refine Build.run_bind_congr (build_agrees _ fun k => agree k m (order.refl m)) fun c built' m' ran => ?_
    have reached := build_keeps keeps u entries (entries.length + 1) [] e.1 e.2 built m
    rw [ran] at reached
    exact ih (fun k m'' further => agree k m'' (order.trans reached further)) built'

/-- Defining a unit is the same where the loads that it asks for are. -/
theorem defineWith_agrees (keeps : ∀ k, Change.Keeps R (f k)) (agree : ∀ k m', R m m' → f k m' = g k m') (u : SourceUnit) :
    defineWith f u m = defineWith g u m := by
  by_cases declares : u.declarations = []
  · rw [defineWith_of_empty declares, defineWith_of_empty declares]
  · cases found : declaredNames u m u.declarations [] with
    | error e => rw [defineWith_of_error declares found, defineWith_of_error declares found]
    | ok names => rw [defineWith_eq declares found, defineWith_eq declares found, buildAll_agrees keeps agree]

/-- So is loading a class, for the loads within it. -/
theorem loadWith_agrees (keeps : ∀ k, Change.Keeps R (f k))
    (agree : ∀ store u begun, m.units = some store → m.loading.any (· == name) = false →
      fetchUnit store name (m.beginLoading name) = (.ok u, begun) → ∀ k m', R begun m' → f k m' = g k m') :
    loadWith f name m = loadWith g name m := by
  cases absent : m.class? name with
  | some c => simp only [loadWith, absent]
  | none =>
    cases units : m.units with
    | none => simp only [loadWith, absent, units]
    | some store =>
      cases idle : m.loading.any (· == name) with
      | true => simp only [loadWith, absent, units, idle, if_true]
      | false =>
        have within : fetchAndDefine f store name (m.beginLoading name) = fetchAndDefine g store name (m.beginLoading name) := by
          rcases fetched : fetchUnit store name (m.beginLoading name) with ⟨e | u, begun⟩
          · rw [fetchAndDefine_of_error fetched, fetchAndDefine_of_error fetched]
          · have same := defineWith_agrees keeps (agree store u begun units idle fetched) u
            rw [fetchAndDefine_of_ok fetched, fetchAndDefine_of_ok fetched, same]
        simp only [loadWith, absent, units, idle, Bool.false_eq_true, if_false, within]

end Agreement

/-- A class is built the same whatever would happen further in than there are declarations: those on the path are
different ones of the unit. -/
theorem buildWith_iterate {load : ClassName → Change LoadError LoadedClass} {path : List ClassName} {built : List LoadedClass}
    (apart : Apart path) (listed : ∀ q ∈ path, q ∈ entries.map (·.1)) {k : Nat} (enough : entries.length < path.length + n)
    (enough' : entries.length < path.length + k) (inner inner' : List ClassName → ClassName → Declaration → Build LoadedClass)
    {e : ClassName × Declaration} (he : e ∈ entries) :
    (buildWith load u entries)^[n] inner path e.1 e.2 built m = (buildWith load u entries)^[k] inner' path e.1 e.2 built m := by
  induction n generalizing path k e with
  | zero =>
    have short := length_path_le apart listed
    omega
  | succ n ih =>
    cases k with
    | zero =>
      have short := length_path_le apart listed
      omega
    | succ k =>
      rw [Function.iterate_succ_apply', Function.iterate_succ_apply']
      refine buildWith_congr (fun _ => rfl) fun idle e' he' => ih (apart.cons idle) ?_ ?_ ?_ he'
      · exact List.forall_mem_cons.mpr ⟨List.mem_map_of_mem he, listed⟩
      · rw [List.length_cons]
        omega
      · rw [List.length_cons]
        omega

theorem build_eq_iterate (load : ClassName → Change LoadError LoadedClass) (u : SourceUnit)
    (entries : List (ClassName × Declaration)) (fuel : Nat) :
    build load u entries fuel = (buildWith load u entries)^[fuel] (build load u entries 0) := by
  induction fuel with
  | zero => rfl
  | succ fuel ih => rw [build_succ, ih, Function.iterate_succ_apply']

/-- A class of which there is a unit that is not being loaded. -/
def Pending (m : Machine) (c : ClassName) : Prop :=
  (∃ u, (m.store.get c).1 = .ok u) ∧ m.loading.any (· == c) = false

/-- Loads leave no more classes pending. -/
theorem Inside.atMost (h : Inside m m') (few : AtMost n m.Pending) : AtMost n m'.Pending := by
  refine few.of_spelling fun c pending => ?_
  obtain ⟨⟨u, given⟩, idle⟩ := pending
  obtain ⟨d, same, given⟩ := UnitStore.get_of_extended h.units given
  exact ⟨d, same, ⟨u, given⟩, any_beq_congr same ▸ h.loading ▸ idle⟩

/-- A class of which the unit was fetched was pending. -/
theorem pending_of_fetch {store : UnitStore} {begun : Machine} (units : m.units = some store)
    (idle : m.loading.any (· == name) = false) (fetched : fetchUnit store name (m.beginLoading name) = (.ok u, begun)) :
    m.Pending name := by
  obtain ⟨store', got, -⟩ := fetchUnit_ok fetched
  exact ⟨⟨u, by rw [store_of_units units, got]⟩, idle⟩

/-- It is no longer pending while its unit is being loaded. -/
theorem atMost_of_fetch {store : UnitStore} {begun : Machine} (few : AtMost (n + 1) m.Pending) (units : m.units = some store)
    (idle : m.loading.any (· == name) = false) (fetched : fetchUnit store name (m.beginLoading name) = (.ok u, begun)) :
    AtMost n begun.Pending := by
  have here := pending_of_fetch units idle fetched
  obtain ⟨store', got, rfl⟩ := fetchUnit_ok fetched
  have grown : store.Extended store' := by
    have grown := store.get_extended name
    rwa [got] at grown
  have each : AtMost (n + 1) fun c => c = name ∨ Pending { m.beginLoading name with units := some store' } c := by
    refine few.of_spelling fun c held => ?_
    rcases held with rfl | ⟨⟨v, given⟩, free⟩
    · exact ⟨c, ClassName.beq_self c, here⟩
    · obtain ⟨d, same, given⟩ := UnitStore.get_of_extended (s := store) grown given
      rw [beginLoading, List.any_cons, Bool.or_eq_false_iff] at free
      exact ⟨d, same, ⟨v, by rw [store_of_units units, given]⟩, any_beq_congr same ▸ free.2⟩
  intro names apart all
  have more := each (name :: names) ?_ ?_
  · simpa using more
  · refine List.pairwise_cons.mpr ⟨fun c hc => ?_, apart⟩
    have free := (all c hc).2
    rw [beginLoading, List.any_cons, Bool.or_eq_false_iff] at free
    exact free.1
  · exact List.forall_mem_cons.mpr ⟨.inl rfl, fun c hc => .inr (all c hc)⟩

/-- A class is loaded the same whatever would happen further in than there are classes pending. The induction is on how far
in that is; each load further in has one class less pending. -/
theorem loadWith_iterate {k : Nat} (few : AtMost n m.Pending) (enough : n < k)
    (inner : ClassName → Change LoadError LoadedClass) (name : ClassName) :
    loadWith^[k] inner name m = loadWithin (n + 1) name m := by
  induction k generalizing n m name with
  | zero => cases enough
  | succ k ih =>
    rw [Function.iterate_succ_apply', loadWithin_succ]
    refine (loadWith_agrees (loadWithin_inside n) fun store u begun units idle fetched c m' inside => ?_).symm
    cases n with
    | zero => exact absurd (few [name] (List.pairwise_singleton _ _) (by simpa using pending_of_fetch units idle fetched)) (by simp)
    | succ n => exact (ih (inside.atMost (atMost_of_fetch few units idle fetched)) (Nat.lt_of_succ_lt_succ enough) c).symm

theorem loadBound_eq (m : Machine) : m.loadBound = m.store.places.size + m.store.size + 2 := by
  unfold loadBound Machine.store
  cases m.units <;> rfl

/-- The bound on loads within each other is above the number of classes pending. -/
theorem atMost_pending (m : Machine) : AtMost (m.store.places.size + m.store.size) m.Pending :=
  m.store.atMost.mono fun _ pending => pending.1

/-- The fuel of loading is never used up: any more, and anything in place of what the last of it would do, gives the same. -/
theorem loadWith_iterate_load {k : Nat} (few : AtMost n m.Pending) (enough : n < k)
    (inner : ClassName → Change LoadError LoadedClass) (name : ClassName) : loadWith^[k] inner name m = load name m := by
  have bound := m.loadBound_eq
  have fuel : ∀ k, loadWithin k = loadWith^[k] (loadWithin 0) := by
    intro k
    induction k with
    | zero => rfl
    | succ k ih => rw [loadWithin_succ, ih, Function.iterate_succ_apply']
  rw [load, fuel]
  rcases Nat.le_total n (m.store.places.size + m.store.size) with less | more
  · rw [loadWith_iterate few enough, loadWith_iterate few (by omega)]
  · rw [loadWith_iterate m.atMost_pending (by omega), loadWith_iterate m.atMost_pending (by omega)]

/-- Defining a unit asks for no load within which more loads nest. -/
theorem defineWith_iterate {k : Nat} (enough : m.loadBound ≤ k) (inner : ClassName → Change LoadError LoadedClass)
    (u : SourceUnit) : defineWith (loadWith^[k] inner) u m = defineUnit u m := by
  have bound := m.loadBound_eq
  refine (defineWith_agrees load_inside (fun c m' inside => ?_) u).symm
  exact (loadWith_iterate_load (inside.atMost m.atMost_pending) (by omega) inner c).symm

/-- Loading a class is loading the classes that its unit needs in the same way. -/
theorem load_eq_loadWith (name : ClassName) : load name = loadWith load name := by
  funext m
  have bound := m.loadBound_eq
  have whole := loadWith_iterate_load (k := m.loadBound) m.atMost_pending (by omega) load name
  rw [← whole, show m.loadBound = m.store.places.size + m.store.size + 1 + 1 by omega, Function.iterate_succ_apply']
  refine (loadWith_agrees load_inside fun store u begun units idle fetched c m' inside => ?_).symm
  have few := atMost_of_fetch (m.atMost_pending.le (Nat.le_succ _)) units idle fetched
  exact (loadWith_iterate_load (inside.atMost few) (Nat.lt_succ_self _) load c).symm

theorem load_of_class? {c : LoadedClass} (found : m.class? name = some c) : load name m = (.ok c, m) := by
  rw [load_eq_loadWith]
  simp only [loadWith, found]

theorem load_of_fetch {store : UnitStore} (absent : m.class? name = none) (units : m.units = some store)
    (idle : m.loading.any (· == name) = false) :
    load name m = finishLoading name (fetchAndDefine load store name (m.beginLoading name)) := by
  rw [load_eq_loadWith]
  simp only [loadWith, absent, units, idle, Bool.false_eq_true, if_false]

/-- A load asks for others only while its class is being loaded and was not before. -/
theorem loadWith_eq_load {inner : ClassName → Change LoadError LoadedClass} (same : ∀ c m',
    m.loading.any (· == name) = false → m'.loading = name :: m.loading → inner c m' = load c m') :
    loadWith inner name m = load name m := by
  rw [load_eq_loadWith]
  refine (loadWith_agrees load_loading fun store u begun units idle fetched c m' loading => ?_).symm
  obtain ⟨store', -, rfl⟩ := fetchUnit_ok fetched
  exact (same c m' idle loading).symm

theorem loadClass_loading (name : ClassName) (m : Machine) : (loadClass name m).2.loading = m.loading :=
  load_loading name m

theorem defineUnit_loading (u : SourceUnit) : Change.Keeps SameLoading (defineUnit u) :=
  defineWith_keeps_of_register load_loading register_loading u

/-- Loading and defining come to an end, from every store of units. No more loads are within each other than the bound, which
counts the sources, and no more builds than a unit has declarations: it does not matter what would happen further in. The
loads under way are of different classes, as one asks for others only if its class was not being loaded, and then with that
class in front; and the same classes are being loaded in the end as in the beginning, also after a failure. -/
theorem loads_terminate (m : Machine) :
    (∀ inner k, m.loadBound ≤ k →
      (∀ name, loadWith^[k] inner name m = load name m) ∧ ∀ u, defineWith (loadWith^[k] inner) u m = defineUnit u m) ∧
    (∀ u names entries, declaredNames u m u.declarations [] = .ok names → entries = names.zip u.declarations →
      ∀ load inner k, entries.length < k → ∀ e ∈ entries,
        (buildWith load u entries)^[k] inner [] e.1 e.2 = build load u entries (entries.length + 1) [] e.1 e.2) ∧
    (∀ name inner, (∀ c m', m.loading.any (· == name) = false → m'.loading = name :: m.loading → inner c m' = load c m') →
      loadWith inner name m = load name m) ∧
    (∀ u inner, (∀ c m', m'.loading = m.loading → inner c m' = load c m') → defineWith inner u m = defineUnit u m) ∧
    (∀ name, (load name m).2.loading = m.loading ∧ (loadClass name m).2.loading = m.loading) ∧
    ∀ u, (defineUnit u m).2.loading = m.loading := by
  refine ⟨fun inner k enough => ⟨fun name => ?_, fun u => defineWith_iterate enough inner u⟩, ?_, fun name inner => loadWith_eq_load,
    fun u inner same => ?_, fun name => ⟨load_loading name m, loadClass_loading name m⟩, fun u => defineUnit_loading u m⟩
  · have bound := m.loadBound_eq
    exact loadWith_iterate_load m.atMost_pending (by omega) inner name
  · rintro u names entries found rfl load inner k enough e he
    funext built m'
    rw [build_eq_iterate]
    exact buildWith_iterate .nil nofun (by simpa using enough) (by simp) inner _ he
  · exact (defineWith_agrees load_loading (fun c m' loading => (same c m' loading).symm) u).symm

/-- A class below one of another unit. -/
def belowUnit (name parent : String) : SourceUnit :=
  { declarations := [.class ⟨name, false, some parent, []⟩] }

/-- A machine that can load two classes, each below the other in another spelling. -/
def ring : Machine :=
  { units := some { places := [], units := [(⟨"Head", by decide⟩, belowUnit "Head" "TAIL"),
      (⟨"Tail", by decide⟩, belowUnit "Tail" "HEAD")] } }

/-- Two classes of one unit, each below the other. -/
def knotUnit : SourceUnit :=
  { declarations := [.class ⟨"Knot", false, some "Loop", []⟩, .class ⟨"Loop", false, some "Knot", []⟩] }

def headName : ClassName :=
  ⟨"head", by decide⟩

/-- Loads classes only where no more than one is being loaded. -/
def loadShallow (name : ClassName) : Change LoadError LoadedClass :=
  fun m => if m.loading.length ≤ 1 then load name m else (.error (.missing (.notDefined name.text)), m)

/-- Builds nothing. -/
def buildNothing (_ : List ClassName) (name : ClassName) (_ : Declaration) : Build LoadedClass :=
  Build.lift (.error (.duplicate name.text))

/-- Loading around the ring and defining the knot come to an end as loads and builds do of which the inner ones would do
something else. -/
theorem loads_terminate_ring :
    (loadWith^[4] loadShallow headName ring = load headName ring ∧
      (load headName ring).1.map (·.name.text) = .error (.invalid (.invalidSource (.inheritanceCycle "HEAD"))) ∧
      loadWith loadShallow headName ring = load headName ring ∧ (load headName ring).2.loading = []) ∧
    defineWith (loadWith^[4] loadShallow) knotUnit ring = defineUnit knotUnit ring ∧
    defineWith loadShallow knotUnit ring = defineUnit knotUnit ring ∧
    ∃ names, declaredNames knotUnit ring knotUnit.declarations [] = .ok names ∧
      ∀ e ∈ names.zip knotUnit.declarations,
        (buildWith load knotUnit (names.zip knotUnit.declarations))^[3] buildNothing [] e.1 e.2 =
          build load knotUnit (names.zip knotUnit.declarations) ((names.zip knotUnit.declarations).length + 1) [] e.1 e.2 := by
  obtain ⟨bounded, builds, within, defines, loading, -⟩ := loads_terminate ring
  have cycle : (load headName ring).1.map (·.name.text) = .error (.invalid (.invalidSource (.inheritanceCycle "HEAD"))) := by
    decide
  have one : ∀ c m', m'.loading = headName :: ring.loading → loadShallow c m' = load c m' := by
    intro c m' loading
    rw [loadShallow, loading]
    exact if_pos (Nat.le_refl 1)
  have none : ∀ c m', m'.loading = ring.loading → loadShallow c m' = load c m' := by
    intro c m' loading
    rw [loadShallow, loading]
    exact if_pos (Nat.zero_le 1)
  refine ⟨⟨(bounded loadShallow 4 (Nat.le_refl 4)).1 headName, cycle, within headName loadShallow fun c m' _ => one c m',
    (loading headName).1⟩, (bounded loadShallow 4 (Nat.le_refl 4)).2 knotUnit, defines knotUnit loadShallow none, ?_⟩
  have two : (declaredNames knotUnit ring knotUnit.declarations []).map List.length = .ok 2 := by decide
  cases found : declaredNames knotUnit ring knotUnit.declarations [] with
  | error e =>
    rw [found] at two
    cases two
  | ok names =>
    rw [found] at two
    have length : names.length = 2 := Except.ok.inj two
    refine ⟨names, rfl, builds knotUnit names _ found rfl load buildNothing 3 ?_⟩
    rw [List.length_zip, length]
    exact Nat.lt_succ_self 2

end Machine

end AspectProxy
