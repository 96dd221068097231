import AspectProxy.Proofs.ClassTable.Reachable
import AspectProxy.Proofs.Session.Generating
import AspectProxy.Proofs.Weaving.Texts

/-!
What the operations of a session leave. Whatever a session is asked for, and whether it succeeds or fails, the session
keeps its classes, its units and its hooks; its class table stays in order, and all its units and hooks are of texts.
-/

namespace AspectProxy

namespace Machine

/-- A machine with all the units that it had before and, if its table was in order, with all the classes. -/
structure Continues (before after : Machine) : Prop where
  units : KeepsUnits before after
  table : KeepsOrder before after

theorem Continues.refl (m : Machine) : Continues m m :=
  ⟨.refl m.store, StepRelation.refl m⟩

theorem Continues.trans {m₁ m₂ m₃ : Machine} (first : Continues m₁ m₂) (second : Continues m₂ m₃) : Continues m₁ m₃ :=
  ⟨UnitStore.Extended.trans first.units second.units, StepRelation.trans first.table second.table⟩

/-- Running programs changes units and classes only by loading. -/
instance : StepRelation Continues where
  refl := .refl
  trans := .trans
  load := fun name m => ⟨load_keeps name m, StepRelation.load name m⟩
  write := fun line m => ⟨.refl m.store, StepRelation.write line m⟩
  alloc := fun c m => ⟨.refl m.store, StepRelation.alloc c m⟩
  set := fun o field v m => ⟨.refl m.store, StepRelation.set o field v m⟩
  before := fun p m => ⟨.refl m.store, StepRelation.before p m⟩
  after := fun p v m => ⟨.refl m.store, StepRelation.after p v m⟩

theorem define_continues (source : String) (m : Machine) : Continues m (define source m).2 :=
  ⟨define_keeps source m, define_grown source⟩

end Machine

namespace Session

variable {s t r : Session} {i : Identity}

/-- A session after steps that only add to what it has. -/
structure Advances (before after : Session) : Prop where
  workshop : before.workshop.Grown after.workshop
  machine : before.machine.Continues after.machine
  printer : after.printer = before.printer
  own : after.ownUnits.isSome = before.ownUnits.isSome

theorem Advances.refl (s : Session) : s.Advances s :=
  ⟨.refl _, .refl _, rfl, rfl⟩

theorem Advances.trans (first : s.Advances t) (second : t.Advances r) : s.Advances r :=
  ⟨first.workshop.trans second.workshop, first.machine.trans second.machine, second.printer.trans first.printer,
    second.own.trans first.own⟩

/-- What has happened on the machine, where the units that proxies are made from may be those of the machine. -/
theorem advances_machine {machine : Machine} (continues : s.machine.Continues machine) : s.Advances { s with machine } := by
  refine ⟨⟨rfl, rfl, ?_, .inl rfl⟩, continues, rfl, rfl⟩
  unfold workshop
  cases own : s.ownUnits with
  | some units => exact .refl units
  | none => exact continues.units

theorem advances_setWorkshop {w : Workshop} (grown : s.workshop.Grown w) : s.Advances (s.setWorkshop w) := by
  have units := grown.units
  have after : (s.setWorkshop w).workshop = w := workshop_setWorkshop grown.aspect grown.policy
  refine ⟨by rwa [after], ?_, ?_, ?_⟩
  · unfold workshop at units
    unfold setWorkshop
    cases own : s.ownUnits with
    | some _ => exact .refl s.machine
    | none =>
      rw [own] at units
      exact ⟨units, fun ordered => ordered.grown⟩
  · obtain ⟨units, own, same⟩ := s.setWorkshop_eq w
    rw [same]
  · unfold setWorkshop
    cases own : s.ownUnits <;> simp [own, setMachineUnits]

/-- Fetching the unit of a class for the machine. -/
theorem fetch_advances (c : ClassName) : s.Advances (s.fetch UnitStore.request c).2 := by
  have extended : s.machineUnits.Extended (s.machineUnits.request c).2 := by
    rcases s.machineUnits.request_cases c with same | ⟨path, fault, -, failed⟩
    · rw [same]
      exact s.machineUnits.get_extended c
    · rw [failed]
      exact .refl s.machineUnits
  have continues : s.machine.Continues { s.machine with units := some (s.machineUnits.request c).2 } :=
    ⟨extended, fun ordered => ordered.grown⟩
  exact advances_machine continues

theorem onMachine_advances {step : Machine → Except Stop α × Machine} (continues : ∀ m : Machine, m.Continues (step m).2) :
    s.Advances (onMachine step s).2 :=
  advances_machine (continues s.machine)

theorem define_advances (source : String) : s.Advances (define i source s).2 := by
  have continues := Machine.define_continues source s.machine
  unfold define
  split
  · exact .refl s
  · rcases defined : Machine.define source s.machine with ⟨e | handle, machine⟩ <;> rw [defined] at continues
    · exact advances_machine continues
    · have advanced := advances_machine continues
      dsimp only
      split
      · split
        · exact advanced
        · exact ⟨advanced.workshop, advanced.machine, rfl, rfl⟩
      · exact advanced

theorem activate_advances (unit : SourceUnit) : s.Advances (activate i unit s).2 := by
  have defined : s.Advances (define i (s.printer.print unit) { s with numbered := s.numbered + 1 }).2 := by
    have advanced := define_advances (s := { s with numbered := s.numbered + 1 }) (i := i) (s.printer.print unit)
    exact ⟨advanced.workshop, advanced.machine, advanced.printer, advanced.own⟩
  unfold activate
  dsimp only
  rcases ran : define i (s.printer.print unit) { s with numbered := s.numbered + 1 } with ⟨e | entry, t⟩ <;>
    rw [ran] at defined <;> exact defined

/-- Making a proxy only adds to what a session has, whatever comes of it. -/
theorem generateAs_advances (i : Identity) (s : Session) : s.Advances (s.generateAs UnitStore.get i).2 := by
  have worked := advances_setWorkshop (Workshop.proxyUnit_grows i s.workshop)
  unfold generateAs work
  rcases ran : (Workshop.proxyUnit UnitStore.get i).run s.workshop with ⟨e | unit, w⟩
  · rw [show Workshop.proxyUnit UnitStore.get i s.workshop = _ from ran] at worked
    exact worked
  · rw [show Workshop.proxyUnit UnitStore.get i s.workshop = _ from ran] at worked
    exact worked.trans (activate_advances unit)

/-- From requested units a session makes the proxy that it makes from others, unless there are files that cannot be read. -/
theorem generateAs_request (i : Identity) (s : Session) :
    s.generateAs UnitStore.request i = s.generateAs UnitStore.get i ∨ ¬s.workshop.units.places.Readable ∧
      ∃ e w, s.workshop.Grown w ∧ s.generateAs UnitStore.request i = (.error e, s.setWorkshop w) := by
  unfold generateAs work
  rcases (Workshop.proxyUnit_follows i).run s.workshop with same | ⟨unreadable, ⟨e, w, failed, grown⟩, -⟩
  · have same : (Workshop.proxyUnit UnitStore.request i).run s.workshop = _ := same
    rw [same]
    exact .inl rfl
  · have failed : (Workshop.proxyUnit UnitStore.request i).run s.workshop = _ := failed
    rw [failed]
    exact .inr ⟨unreadable, e, w, grown, rfl⟩

theorem generateAs_congr {first second : UnitAccess}
    (same : Workshop.proxyUnit first i s.workshop = Workshop.proxyUnit second i s.workshop) :
    s.generateAs first i = s.generateAs second i := by
  have same : (Workshop.proxyUnit first i).run s.workshop = (Workshop.proxyUnit second i).run s.workshop := same
  unfold generateAs work
  rw [same]

theorem generateAs_request_advances (i : Identity) (s : Session) : s.Advances (s.generateAs UnitStore.request i).2 := by
  rcases s.generateAs_request i with same | ⟨-, e, w, grown, failed⟩
  · rw [same]
    exact generateAs_advances i s
  · rw [failed]
    exact advances_setWorkshop grown

/-- A class table in order, and units and hooks that are of texts. -/
structure InOrder (s : Session) : Prop where
  table : OrderedTable s.machine.classes
  units : s.machine.store.OfTexts
  workshop : s.workshop.OfTexts

theorem InOrder.advances (h : s.InOrder) (advanced : s.Advances t) : t.InOrder where
  table := (advanced.machine.table h.table).ordered
  units := h.units.extended advanced.machine.units
  workshop := h.workshop.grown advanced.workshop

/-- A session that is opened has no classes and no units yet. -/
theorem open?_ok {settings : Settings} {roots : List SourceRoot} {text : Except ReadFault String}
    (opened : open? settings roots text = .ok s) :
    s.InOrder ∧ s.ownUnits = none ∧ s.printer = .standard 4 ∧ s.ledger.records = [] := by
  unfold open? at opened
  cases aspect : (ClassName.parse settings.aspect).mapError SettingsError.invalidAspect with
  | error e => simp [aspect, bind, Except.bind] at opened
  | ok c =>
    simp only [aspect, bind, Except.bind] at opened
    split at opened
    · cases opened
    · split at opened
      · cases opened
      · cases opened
        exact ⟨⟨.empty, nofun, nofun, nofun⟩, rfl, rfl, rfl⟩

/-- What a session is asked for: to take a source, to fetch the unit of a class or make a proxy of it, and to make
objects and call methods. -/
inductive Operation where
  | addSource (c : ClassName) (text : String)
  | fetch (c : ClassName)
  | generate (i : Identity)
  | generateRequesting (i : Identity)
  | instantiate (c : ClassName) (args : List Value)
  | callMethod (target : Value) (method : String) (args : List Value)
  | callStatic (c : ClassName) (method : String) (args : List Value)

/-- The session after an operation, whatever has come of it. -/
def perform (s : Session) : Operation → Session
  | .addSource c text => s.addSource c text
  | .fetch c => (s.fetch UnitStore.request c).2
  | .generate i => (s.generateAs UnitStore.get i).2
  | .generateRequesting i => (s.generateAs UnitStore.request i).2
  | .instantiate c args => (s.instantiate c args).2
  | .callMethod target method args => (s.callMethod target method args).2
  | .callStatic c method args => (s.callStatic c method args).2

/-- The session after one operation behind the other. -/
def performAll (s : Session) (operations : List Operation) : Session :=
  operations.foldl perform s

/-- A session with all that another had, though it may look for further units in other places. -/
structure Keeps (before after : Session) : Prop where
  aspect : after.aspect = before.aspect
  policy : after.policy = before.policy
  printer : after.printer = before.printer
  own : after.ownUnits.isSome = before.ownUnits.isSome
  hooks : ∀ hooks, before.hooks = some hooks → after.hooks = some hooks
  unit : ∀ c u, before.workshop.units.unit? c = some u → after.workshop.units.unit? c = some u
  bound : before.workshop.units.bound ≤ after.workshop.units.bound
  classes : before.machine.classes <+: after.machine.classes

theorem Keeps.refl (s : Session) : s.Keeps s :=
  ⟨rfl, rfl, rfl, rfl, fun _ => id, fun _ _ => id, Nat.le_refl _, List.prefix_rfl⟩

theorem Keeps.trans (first : s.Keeps t) (second : t.Keeps r) : s.Keeps r where
  aspect := second.aspect.trans first.aspect
  policy := second.policy.trans first.policy
  printer := second.printer.trans first.printer
  own := second.own.trans first.own
  hooks := fun hooks known => second.hooks hooks (first.hooks hooks known)
  unit := fun c u kept => second.unit c u (first.unit c u kept)
  bound := first.bound.trans second.bound
  classes := first.classes.trans second.classes

theorem Advances.keeps (advanced : s.Advances t) (ordered : OrderedTable s.machine.classes) : s.Keeps t where
  aspect := advanced.workshop.aspect
  policy := advanced.workshop.policy
  printer := advanced.printer
  own := advanced.own
  hooks := fun _ known => advanced.workshop.keeps_hooks known
  unit := fun _ _ kept => advanced.workshop.units.unit? kept
  bound := Workshop.bound_mono advanced.workshop.units
  classes := (advanced.machine.table ordered).extends_

/-- A source that is added changes at most the places of the units that proxies are made from. -/
theorem workshop_addSource (s : Session) (c : ClassName) (text : String) : ∃ units : UnitStore,
    (s.addSource c text).workshop = { s.workshop with units } ∧ units.units = s.workshop.units.units ∧
      s.workshop.units.bound ≤ units.bound := by
  unfold workshop addSource setMachineUnits
  cases own : s.ownUnits with
  | some units => exact ⟨units, by simp, rfl, Nat.le_refl _⟩
  | none =>
    refine ⟨s.machineUnits.addSource c text, by simp [machineUnits], rfl, ?_⟩
    exact Nat.add_le_add_right (Nat.add_le_add_right (UnitStore.size_addSource _ c text) _) _

theorem addSource_keeps (c : ClassName) (text : String) : s.Keeps (s.addSource c text) := by
  obtain ⟨units, after, same, bound⟩ := s.workshop_addSource c text
  refine ⟨rfl, rfl, rfl, rfl, fun _ => id, fun d u kept => ?_, by rwa [after], List.prefix_rfl⟩
  rw [after]
  unfold UnitStore.unit? at kept ⊢
  rwa [same]

theorem InOrder.addSource (h : s.InOrder) (c : ClassName) (text : String) : (s.addSource c text).InOrder := by
  obtain ⟨units, after, same, -⟩ := s.workshop_addSource c text
  refine ⟨h.table, h.units, ?_⟩
  rw [after]
  refine ⟨fun e he => h.workshop.units e ?_, h.workshop.hooks⟩
  rwa [← same]

/-- Every operation only adds to what a session has, but that a source that is added changes the places of units. -/
theorem perform_advances (s : Session) (operation : Operation) :
    (∃ c text, operation = .addSource c text) ∨ s.Advances (s.perform operation) := by
  cases operation with
  | addSource c text => exact .inl ⟨c, text, rfl⟩
  | fetch c => exact .inr (fetch_advances c)
  | generate i => exact .inr (generateAs_advances i s)
  | generateRequesting i => exact .inr (generateAs_request_advances i s)
  | instantiate c args => exact .inr (onMachine_advances fun m => Machine.instantiate_keeps _ c args m)
  | callMethod target method args =>
    exact .inr (onMachine_advances fun m => Machine.callMethod_keeps _ target method args m)
  | callStatic c method args => exact .inr (onMachine_advances fun m => Machine.callStatic_keeps _ c method args m)

/-- Every operation keeps a session in order, and the session keeps what it has. -/
theorem perform_keeps (h : s.InOrder) (operation : Operation) :
    (s.perform operation).InOrder ∧ s.Keeps (s.perform operation) := by
  rcases s.perform_advances operation with ⟨c, text, rfl⟩ | advanced
  · exact ⟨h.addSource c text, addSource_keeps c text⟩
  · exact ⟨h.advances advanced, advanced.keeps h.table⟩

theorem performAll_keeps (h : s.InOrder) (operations : List Operation) :
    (s.performAll operations).InOrder ∧ s.Keeps (s.performAll operations) := by
  induction operations generalizing s with
  | nil => exact ⟨h, .refl s⟩
  | cons operation rest ih =>
    obtain ⟨ordered, first⟩ := perform_keeps h operation
    obtain ⟨ordered', later⟩ := ih ordered
    exact ⟨ordered', first.trans later⟩

end Session

end AspectProxy
