import AspectProxy.Proofs.Outcomes

/-!
What one load comes to. A class is in the table, or its unit is fetched and defined while the class counts as being loaded;
how the units of parents are loaded in between is left open.
-/

namespace AspectProxy

namespace Machine

variable {inner : ClassName → Change LoadError LoadedClass} {name : ClassName} {u : SourceUnit} {m m' : Machine}

theorem fetchUnit_snd (store : UnitStore) (name : ClassName) (m : Machine) :
    (fetchUnit store name m).2 = { m with units := some (store.get name).2 } := by
  unfold fetchUnit
  rcases store.get name with ⟨_ | _, _⟩ <;> rfl

theorem fetchUnit_ok {store : UnitStore} (h : fetchUnit store name m = (.ok u, m')) :
    ∃ store', store.get name = (.ok u, store') ∧ m' = { m with units := some store' } := by
  unfold fetchUnit at h
  rcases got : store.get name with ⟨_ | v, store'⟩ <;> rw [got] at h <;> cases h
  exact ⟨store', rfl, rfl⟩

/-- Fetching a unit does nothing to a machine but for its store. -/
theorem fetchUnit_eq {store : UnitStore} {r : Except LoadError SourceUnit} (h : fetchUnit store name m = (r, m')) :
    m' = { m with units := some (store.get name).2 } := by
  rw [← fetchUnit_snd, h]

/-- Fetching the unit of a class and defining it. -/
def fetchAndDefine (load : ClassName → Change LoadError LoadedClass) (store : UnitStore) (name : ClassName) :
    Change LoadError Unit := do
  let u ← fetchUnit store name
  let _ ← mapError .invalid (defineWith load u)

theorem fetchAndDefine_of_error {load : ClassName → Change LoadError LoadedClass} {store : UnitStore} {e : LoadError}
    (h : fetchUnit store name m = (.error e, m')) : fetchAndDefine load store name m = (.error e, m') :=
  run_bind_error h

theorem fetchAndDefine_of_ok {load : ClassName → Change LoadError LoadedClass} {store : UnitStore}
    (h : fetchUnit store name m = (.ok u, m')) : fetchAndDefine load store name m =
      ((defineWith load u m').1.map (fun _ => ()) |>.mapError .invalid, (defineWith load u m').2) := by
  refine (run_bind h).trans ?_
  rcases defined : defineWith load u m' with ⟨e | handles, m''⟩
  · exact run_bind_error (x := mapError _ (defineWith load u)) (by rw [mapError, defined])
  · exact run_bind (x := mapError _ (defineWith load u)) (by rw [mapError, defined])

/-- The end of a load: the class is no longer being loaded, and its unit has brought it about or has not. -/
def finishLoading (name : ClassName) : Except LoadError Unit × Machine → Except LoadError LoadedClass × Machine
  | (.error e, m) => (.error e, m.endLoading name)
  | (.ok (), m) =>
    match (m.endLoading name).class? name with
    | some c => (.ok c, m.endLoading name)
    | none => (.error (.missing (.notDeclared name.text)), m.endLoading name)

/-- A class, loaded from its unit if it is not defined, when the units of its parents are loaded by `inner`. -/
def loadWith (inner : ClassName → Change LoadError LoadedClass) (name : ClassName) : Change LoadError LoadedClass :=
  fun m =>
    match m.class? name with
    | some c => (.ok c, m)
    | none =>
      match m.units with
      | none => (.error (.missing (.notDefined name.text)), m)
      | some store =>
        if m.loading.any (· == name) then
          (.error (.invalid (.invalidSource (.inheritanceCycle name.text))), m)
        else finishLoading name (fetchAndDefine inner store name (m.beginLoading name))

theorem loadWithin_succ (fuel : Nat) : loadWithin (fuel + 1) = loadWith (loadWithin fuel) := by
  funext name m
  unfold loadWith
  cases absent : m.class? name with
  | some c => simp only [loadWithin, absent]
  | none =>
    cases units : m.units with
    | none => simp only [loadWithin, absent, units]
    | some store =>
      cases idle : m.loading.any (· == name) with
      | true => simp only [loadWithin, absent, units, idle, if_true]
      | false =>
        rw [loadWithin]
        simp only [absent, units, idle, Bool.false_eq_true, if_false]
        unfold fetchAndDefine
        rcases (fetchUnit store name >>= _ : Change LoadError Unit) (m.beginLoading name) with ⟨_ | _, m'⟩ <;> rfl

/-- A class is to be loaded: it is not there, and not being loaded either. -/
structure Starts (name : ClassName) (m : Machine) (store : UnitStore) : Prop where
  absent : m.class? name = none
  units : m.units = some store
  idle : m.loading.any (· == name) = false

theorem Starts.loadWith_eq {store : UnitStore} (starts : Starts name m store) :
    loadWith inner name m = finishLoading name (fetchAndDefine inner store name (m.beginLoading name)) := by
  simp only [loadWith, starts.absent, starts.units, starts.idle, Bool.false_eq_true, if_false]

/-- What loading a class comes to. Without a unit nothing happens but for the store; otherwise the machine is left as
defining the unit leaves it, and the class is there or is not. -/
inductive Loading (inner : ClassName → Change LoadError LoadedClass) (name : ClassName) (m : Machine) :
    Except LoadError LoadedClass × Machine → Prop
  | present {c} (found : m.class? name = some c) : Loading inner name m (.ok c, m)
  | unsupplied (absent : m.class? name = none) (units : m.units = none) :
    Loading inner name m (.error (.missing (.notDefined name.text)), m)
  | busy {store} (absent : m.class? name = none) (units : m.units = some store) (busy : m.loading.any (· == name) = true) :
    Loading inner name m (.error (.invalid (.invalidSource (.inheritanceCycle name.text))), m)
  | unfetched {store e m'} (starts : Starts name m store)
    (fetched : fetchUnit store name (m.beginLoading name) = (.error e, m')) : Loading inner name m (.error e, m'.endLoading name)
  | undefined {store u begun e after} (starts : Starts name m store)
    (fetched : fetchUnit store name (m.beginLoading name) = (.ok u, begun))
    (defined : defineWith inner u begun = (.error e, after)) : Loading inner name m (.error (.invalid e), after.endLoading name)
  | undeclared {store u begun handles after} (starts : Starts name m store)
    (fetched : fetchUnit store name (m.beginLoading name) = (.ok u, begun))
    (defined : defineWith inner u begun = (.ok handles, after)) (absent : (after.endLoading name).class? name = none) :
    Loading inner name m (.error (.missing (.notDeclared name.text)), after.endLoading name)
  | loaded {store u begun handles after c} (starts : Starts name m store)
    (fetched : fetchUnit store name (m.beginLoading name) = (.ok u, begun))
    (defined : defineWith inner u begun = (.ok handles, after)) (found : (after.endLoading name).class? name = some c) :
    Loading inner name m (.ok c, after.endLoading name)

theorem loadWith_loading (inner : ClassName → Change LoadError LoadedClass) (name : ClassName) (m : Machine) :
    Loading inner name m (loadWith inner name m) := by
  cases absent : m.class? name with
  | some c =>
    simp only [loadWith, absent]
    exact .present absent
  | none =>
    cases units : m.units with
    | none =>
      simp only [loadWith, absent, units]
      exact .unsupplied absent units
    | some store =>
      cases idle : m.loading.any (· == name) with
      | true =>
        simp only [loadWith, absent, units, idle, if_true]
        exact .busy absent units idle
      | false =>
        have starts : Starts name m store := ⟨absent, units, idle⟩
        rw [starts.loadWith_eq]
        rcases fetched : fetchUnit store name (m.beginLoading name) with ⟨e | u, begun⟩
        · rw [fetchAndDefine_of_error fetched]
          exact .unfetched starts fetched
        · rw [fetchAndDefine_of_ok fetched]
          rcases defined : defineWith inner u begun with ⟨e | handles, after⟩
          · exact .undefined starts fetched defined
          · change Loading inner name m (finishLoading name (.ok (), after))
            cases found : (after.endLoading name).class? name with
            | none =>
              simp only [finishLoading, found]
              exact .undeclared starts fetched defined found
            | some c =>
              simp only [finishLoading, found]
              exact .loaded starts fetched defined found

end Machine

end AspectProxy
