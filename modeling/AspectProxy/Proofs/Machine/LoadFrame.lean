import AspectProxy.Proofs.Machine.Loads

/-!
What defining and loading do to a machine. A relation between machines that each of their steps keeps is kept by the
whole, whether it succeeds or fails. So loading leaves all but the class table, the units and the list of loads under
way as it is.
-/

namespace AspectProxy

/-- A relation between the machines before and after that is true of no step and of steps behind each other. -/
class RunOrder (R : Machine → Machine → Prop) : Prop where
  refl : ∀ m, R m m
  trans : ∀ {a b c}, R a b → R b c → R a c

/-- A relation between the machines before and after, true of each step that defining and loading are made of. -/
class LoadRelation (R : Machine → Machine → Prop) : Prop extends RunOrder R where
  fetch : ∀ (store : UnitStore) (name : ClassName) (m : Machine), m.units = some store →
    R m { m with units := some (store.get name).2 }
  addClass : ∀ (c : LoadedClass) (m : Machine), R m (m.addClass c)
  loading : ∀ (names : List ClassName) (m : Machine), R m { m with loading := names }

/-- A step every run of which keeps a relation. -/
def Change.Keeps (R : Machine → Machine → Prop) (step : Change ε α) : Prop :=
  ∀ m, R m (step m).2

/-- A step of a build every run of which keeps a relation. -/
def Machine.Build.Keeps (R : Machine → Machine → Prop) (step : Machine.Build α) : Prop :=
  ∀ built, Change.Keeps R (step built)

section Keeping

variable {R : Machine → Machine → Prop}

section Order

variable [order : RunOrder R]

namespace Change.Keeps

theorem pure (a : α) : Keeps R (Pure.pure a : Change ε α) :=
  order.refl

theorem throw (e : ε) : Keeps R (MonadExcept.throw e : Change ε α) :=
  order.refl

/-- What follows a step keeps a relation that the step keeps on a machine. -/
theorem bind_at {x : Change ε α} {f : α → Change ε β} {m : Machine} (first : R m (x m).2)
    (rest : ∀ a, Keeps R (f a)) : R m ((x >>= f) m).2 := by
  simp only [Bind.bind, ExceptT.bind, ExceptT.mk, StateT.bind]
  rcases h : x m with ⟨_ | a, m'⟩ <;> simp only [h] at first ⊢
  · exact first
  · exact order.trans first (rest a m')

theorem bind {x : Change ε α} {f : α → Change ε β} (first : Keeps R x) (rest : ∀ a, Keeps R (f a)) :
    Keeps R (x >>= f) :=
  fun m => bind_at (first m) rest

omit order in
theorem mapError {x : Change ε α} (h : Keeps R x) (f : ε → δ) : Keeps R (Machine.mapError f x) := by
  intro m
  have hx := h m
  unfold Machine.mapError
  rcases h : x m with ⟨_ | a, m'⟩ <;> simpa only [h] using hx

end Change.Keeps

namespace Machine

namespace Build.Keeps

theorem bind {x : Build α} {f : α → Build β} (first : Build.Keeps R x) (rest : ∀ a, Build.Keeps R (f a)) :
    Build.Keeps R (x >>= f) :=
  fun built => .bind (first built) fun r => rest r.1 r.2

theorem pure (a : α) : Build.Keeps R (Pure.pure a : Build α) :=
  fun _ => .pure _

theorem lift (r : Except DefinitionError α) : Build.Keeps R (Build.lift r) :=
  fun _ => order.refl

/-- Behind an error nothing runs. -/
theorem error (e : DefinitionError) (f : α → Build β) : Build.Keeps R (Build.lift (.error e) >>= f) :=
  fun _ => order.refl

end Build.Keeps

section Define

variable {load : ClassName → Change LoadError LoadedClass} (loads : ∀ name, Change.Keeps R (load name))

include loads

theorem build_keeps (u : SourceUnit) (entries : List (ClassName × Declaration)) (fuel : Nat)
    (path : List ClassName) (name : ClassName) (d : Declaration) :
    Build.Keeps R (build load u entries fuel path name d) := by
  induction fuel generalizing path name d with
  | zero => exact .lift _
  | succ fuel ih =>
    have finish : ∀ parent, Build.Keeps R (do
        let c ← Build.lift (bodyOf u name d parent)
        modify (· ++ [c])
        return c) :=
      fun parent => .bind (.lift _) fun c => .bind (fun _ => .pure _) fun _ => .pure c
    have under : ∀ parent, Build.Keeps R (do
        Build.lift (checkParent name parent)
        let parent ← pure (some parent)
        let c ← Build.lift (bodyOf u name d parent)
        modify (· ++ [c])
        return c) :=
      fun parent => .bind (.lift _) fun _ => finish (some parent)
    rw [build]
    refine .bind (fun _ => .pure _) fun built => ?_
    dsimp only
    split
    case h_1 => exact .pure _
    case h_2 =>
      split
      case isTrue => exact .error _ _
      case isFalse =>
        split
        case h_1 => exact finish none
        case h_2 =>
          refine .bind (.lift _) fun resolved => ?_
          split
          case h_1 => exact .bind (ih _ _ _) under
          case h_2 => exact .bind (fun _ => .bind ((loads _).mapError _) fun _ => .pure _) under

theorem buildAll_keeps (u : SourceUnit) (entries todo : List (ClassName × Declaration)) :
    Build.Keeps R (buildAll load u entries todo) := by
  induction todo with
  | nil => exact .pure _
  | cons e rest ih => exact .bind (build_keeps loads u entries _ _ _ _) fun _ => ih

theorem defineWith_keeps_of_register (registers : ∀ names built, Change.Keeps R (register names built)) (u : SourceUnit) :
    Change.Keeps R (defineWith load u) := by
  unfold defineWith
  split
  · exact fun m => order.refl m
  · refine .bind (fun m => order.refl m) fun m => ?_
    refine .bind (fun m => order.refl m) fun names => ?_
    refine .bind (buildAll_keeps loads u _ _ []) ?_
    rintro ⟨⟨⟩, built⟩
    exact registers names built

end Define

end Machine

end Order

namespace Machine

variable [relation : LoadRelation R]

theorem foldl_addClass_keeps (classes : List LoadedClass) (m : Machine) : R m (classes.foldl addClass m) := by
  induction classes generalizing m with
  | nil => exact relation.refl m
  | cons c rest ih => exact relation.trans (relation.addClass c m) (ih _)

theorem register_keeps (names : List ClassName) (built : List LoadedClass) : Change.Keeps R (register names built) := by
  intro m
  unfold register
  split
  · exact relation.refl m
  · exact foldl_addClass_keeps _ m

theorem defineWith_keeps {load : ClassName → Change LoadError LoadedClass} (loads : ∀ name, Change.Keeps R (load name))
    (u : SourceUnit) : Change.Keeps R (defineWith load u) :=
  defineWith_keeps_of_register loads register_keeps u

theorem fetchUnit_keeps {store : UnitStore} {m : Machine} (here : m.units = some store) (name : ClassName) :
    R m (fetchUnit store name m).2 := by
  have fetched := relation.fetch store name m here
  unfold fetchUnit
  rcases got : store.get name with ⟨_ | _, _⟩ <;> simpa only [got] using fetched

theorem loadWithin_keeps (fuel : Nat) (name : ClassName) : Change.Keeps R (loadWithin fuel name) := by
  induction fuel generalizing name with
  | zero => exact .throw _
  | succ fuel ih =>
    intro m
    have fetches {store r begun} (starts : Starts name m store)
        (fetched : fetchUnit store name (m.beginLoading name) = (r, begun)) : R m begun := by
      have kept : R (m.beginLoading name) (fetchUnit store name (m.beginLoading name)).2 :=
        fetchUnit_keeps (m := m.beginLoading name) starts.units name
      rw [fetched] at kept
      exact relation.trans (relation.loading _ m) kept
    have defines {u begun r after} (defined : defineWith (loadWithin fuel) u begun = (r, after)) : R begun after := by
      have kept : R begun _ := defineWith_keeps ih u begun
      rwa [defined] at kept
    have ended : ∀ m', R m m' → R m (m'.endLoading name) := fun m' kept => relation.trans kept (relation.loading _ m')
    have outcome := loadWith_loading (loadWithin fuel) name m
    rw [loadWithin_succ]
    generalize loadWith (loadWithin fuel) name m = result at outcome
    cases outcome with
    | present | unsupplied | busy => exact relation.refl m
    | unfetched starts fetched => exact ended _ (fetches starts fetched)
    | undefined starts fetched defined | undeclared starts fetched defined | loaded starts fetched defined =>
      exact ended _ (relation.trans (fetches starts fetched) (defines defined))

theorem load_keeps (name : ClassName) : Change.Keeps R (load name) :=
  fun m => loadWithin_keeps _ name m

theorem define_keeps (source : String) : Change.Keeps R (define source) := by
  unfold define
  split
  · exact .throw _
  · refine .bind (defineWith_keeps load_keeps _) fun handles => ?_
    split
    · exact .pure _
    · exact .throw _

end Machine

end Keeping

namespace Machine

/-- Machines that differ at most in their classes and in where these come from. -/
structure SameRun (before after : Machine) : Prop where
  heap : after.heap = before.heap
  advice : after.advice = before.advice
  output : after.output = before.output
  maxDepth : after.maxDepth = before.maxDepth

instance : LoadRelation SameRun where
  refl := fun _ => ⟨rfl, rfl, rfl, rfl⟩
  trans := fun first second =>
    ⟨second.heap.trans first.heap, second.advice.trans first.advice, second.output.trans first.output,
      second.maxDepth.trans first.maxDepth⟩
  fetch := fun _ _ _ _ => ⟨rfl, rfl, rfl, rfl⟩
  addClass := fun _ _ => ⟨rfl, rfl, rfl, rfl⟩
  loading := fun _ _ => ⟨rfl, rfl, rfl, rfl⟩

/-- Loading a class leaves the heap, the advice, the output and the bound on calls as they are. -/
theorem load_framed (name : ClassName) : Change.Keeps SameRun (load name) :=
  load_keeps name

/-- The machine with room for more calls within each other. -/
def deepened (k : Nat) (m : Machine) : Machine :=
  { m with maxDepth := m.maxDepth + k }

end Machine

variable {k : Nat}

/-- A step that does not depend on how deeply calls may nest. -/
def Change.Unbounded (k : Nat) (step : Change ε α) : Prop :=
  ∀ m, step (m.deepened k) = ((step m).1, (step m).2.deepened k)

/-- A step of a build that does not depend on how deeply calls may nest. -/
def Machine.Build.Unbounded (k : Nat) (step : Machine.Build α) : Prop :=
  ∀ built, Change.Unbounded k (step built)

namespace Change.Unbounded

theorem pure (a : α) : Unbounded k (Pure.pure a : Change ε α) :=
  fun _ => rfl

theorem throw (e : ε) : Unbounded k (MonadExcept.throw e : Change ε α) :=
  fun _ => rfl

/-- What follows a step on a machine follows it on the machine with more room. -/
theorem bind_at {x : Change ε α} {f : α → Change ε β} {m : Machine}
    (first : x (m.deepened k) = ((x m).1, (x m).2.deepened k)) (rest : ∀ a, Unbounded k (f a)) :
    (x >>= f) (m.deepened k) = (((x >>= f) m).1, ((x >>= f) m).2.deepened k) := by
  simp only [Bind.bind, ExceptT.bind, ExceptT.mk, StateT.bind, first]
  rcases x m with ⟨_ | a, m'⟩
  · rfl
  · exact rest a m'

theorem bind {x : Change ε α} {f : α → Change ε β} (first : Unbounded k x) (rest : ∀ a, Unbounded k (f a)) :
    Unbounded k (x >>= f) :=
  fun m => bind_at (first m) rest

theorem mapError {x : Change ε α} (h : Unbounded k x) (f : ε → δ) : Unbounded k (Machine.mapError f x) := by
  intro m
  unfold Machine.mapError
  rw [h m]
  rcases x m with ⟨_ | a, m'⟩ <;> rfl

end Change.Unbounded

namespace Machine

namespace Build.Unbounded

theorem bind {x : Build α} {f : α → Build β} (first : Build.Unbounded k x) (rest : ∀ a, Build.Unbounded k (f a)) :
    Build.Unbounded k (x >>= f) :=
  fun built => .bind (first built) fun r => rest r.1 r.2

theorem pure (a : α) : Build.Unbounded k (Pure.pure a : Build α) :=
  fun _ => .pure _

theorem lift (r : Except DefinitionError α) : Build.Unbounded k (Build.lift r) :=
  fun _ _ => rfl

end Build.Unbounded

section Define

variable {load : ClassName → Change LoadError LoadedClass} (loads : ∀ name, Change.Unbounded k (load name))

include loads

theorem build_unbounded (u : SourceUnit) (entries : List (ClassName × Declaration)) (fuel : Nat)
    (path : List ClassName) (name : ClassName) (d : Declaration) :
    Build.Unbounded k (build load u entries fuel path name d) := by
  induction fuel generalizing path name d with
  | zero => exact .lift _
  | succ fuel ih =>
    have finish : ∀ parent, Build.Unbounded k (do
        let c ← Build.lift (bodyOf u name d parent)
        modify (· ++ [c])
        return c) :=
      fun parent => .bind (.lift _) fun c => .bind (fun _ => .pure _) fun _ => .pure c
    have under : ∀ parent, Build.Unbounded k (do
        Build.lift (checkParent name parent)
        let parent ← pure (some parent)
        let c ← Build.lift (bodyOf u name d parent)
        modify (· ++ [c])
        return c) :=
      fun parent => .bind (.lift _) fun _ => finish (some parent)
    rw [build]
    refine .bind (fun _ => .pure _) fun built => ?_
    dsimp only
    split
    case h_1 => exact .pure _
    case h_2 =>
      split
      case isTrue => exact fun _ _ => rfl
      case isFalse =>
        split
        case h_1 => exact finish none
        case h_2 =>
          refine .bind (.lift _) fun resolved => ?_
          split
          case h_1 => exact .bind (ih _ _ _) under
          case h_2 => exact .bind (fun _ => .bind ((loads _).mapError _) fun _ => .pure _) under

theorem buildAll_unbounded (u : SourceUnit) (entries todo : List (ClassName × Declaration)) :
    Build.Unbounded k (buildAll load u entries todo) := by
  induction todo with
  | nil => exact .pure _
  | cons e rest ih => exact .bind (build_unbounded loads u entries _ _ _ _) fun _ => ih

omit loads in
theorem foldl_addClass_deepened (classes : List LoadedClass) (m : Machine) :
    classes.foldl addClass (m.deepened k) = (classes.foldl addClass m).deepened k := by
  induction classes generalizing m with
  | nil => rfl
  | cons c rest ih => exact ih (m.addClass c)

omit loads in
theorem register_unbounded (names : List ClassName) (built : List LoadedClass) :
    Change.Unbounded k (register names built) := by
  intro m
  have same : (m.deepened k).isDefined = m.isDefined := rfl
  unfold register
  rw [same]
  split
  · rfl
  · dsimp only
    rw [foldl_addClass_deepened]

omit loads in
theorem declaredNames_deepened (u : SourceUnit) (m : Machine) (ds : List Declaration) (names : List ClassName) :
    declaredNames u (m.deepened k) ds names = declaredNames u m ds names := by
  induction ds generalizing names with
  | nil => rfl
  | cons d rest ih =>
    simp only [declaredNames, ih]
    rfl

/-- The steps of defining a unit, once its declarations have names or are refused. -/
theorem enter_unbounded (u : SourceUnit) (names : Except DefinitionError (List ClassName)) : Change.Unbounded k (do
    let names ← defineWith.liftExcept names
    let ((), built) ← (buildAll load u (names.zip u.declarations) (names.zip u.declarations)).run []
    register names built) :=
  .bind (fun _ => rfl) fun names => .bind (buildAll_unbounded loads u _ _ []) fun r => register_unbounded names r.2

theorem defineWith_unbounded (u : SourceUnit) : Change.Unbounded k (defineWith load u) := by
  unfold defineWith
  split
  · exact .throw _
  · intro m
    refine (run_bind (x := get) (s := m.deepened k) rfl).trans ?_
    rw [declaredNames_deepened]
    exact enter_unbounded loads u _ m

end Define

theorem fetchUnit_unbounded (store : UnitStore) (name : ClassName) : Change.Unbounded k (fetchUnit store name) := by
  intro m
  unfold fetchUnit
  rcases store.get name with ⟨_ | _, _⟩ <;> rfl

theorem loadWithin_unbounded (fuel : Nat) (name : ClassName) : Change.Unbounded k (loadWithin fuel name) := by
  induction fuel generalizing name with
  | zero => exact .throw _
  | succ fuel ih =>
    intro m
    have same : (m.deepened k).class? = m.class? := rfl
    unfold loadWithin
    rw [same]
    cases m.class? name with
    | some c => rfl
    | none =>
      have units : (m.deepened k).units = m.units := rfl
      have loading : (m.deepened k).loading = m.loading := rfl
      rw [units, loading]
      cases m.units with
      | none => rfl
      | some store =>
        dsimp only
        split
        case isTrue => rfl
        case isFalse =>
          have step : Change.Unbounded k (do
              let u ← fetchUnit store name
              let _ ← mapError .invalid (defineWith (loadWithin fuel) u) : Change LoadError Unit) :=
            .bind (fetchUnit_unbounded store name) fun u => .bind ((defineWith_unbounded ih u).mapError _) fun _ => .pure _
          have begun : (m.deepened k).beginLoading name = (m.beginLoading name).deepened k := rfl
          rw [begun, step (m.beginLoading name)]
          rcases (fetchUnit store name >>= _ : Change LoadError Unit) (m.beginLoading name) with ⟨_ | _, m'⟩
          · rfl
          · have there : ((m'.deepened k).endLoading name).class? = (m'.endLoading name).class? := rfl
            dsimp only
            rw [there]
            split <;> rfl

/-- Loading does not depend on how deeply calls may nest. -/
theorem load_unbounded (name : ClassName) : Change.Unbounded k (load name) :=
  fun m => loadWithin_unbounded m.loadBound name m

end Machine

end AspectProxy
