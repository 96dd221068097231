import AspectProxy.Proofs.Weaving.Workshop
import AspectProxy.Session

/-!
Making a proxy in a session: its unit is made in the workshop and its class defined from its text. What a session has
besides units, classes and the entry of the proxy stays as it is.
-/

namespace AspectProxy

namespace Session

variable {s s₁ : Session} {w : Workshop} {i : Identity} {p : Proxy} {machine : Machine}

theorem workshop_setWorkshop (aspect : w.aspect = s.aspect) (policy : w.policy = s.policy) :
    (s.setWorkshop w).workshop = w := by
  unfold setWorkshop workshop
  cases w
  cases aspect
  cases policy
  cases own : s.ownUnits <;> simp [own, setMachineUnits, machineUnits]

/-- A change of the workshop leaves the session as it is, but for units and hooks. -/
theorem setWorkshop_eq (s : Session) (w : Workshop) : ∃ units own, s.setWorkshop w =
    { s with machine := { s.machine with units }, ownUnits := own, hooks := w.hooks } := by
  unfold setWorkshop
  cases own : s.ownUnits with
  | some _ => exact ⟨s.machine.units, some w.units, rfl⟩
  | none => exact ⟨some w.units, s.ownUnits, rfl⟩

/-- Gives a class a source where proxies are made from. -/
def giveSource (s : Session) (c : ClassName) (text : String) : Session :=
  s.setWorkshop { s.workshop with units := s.workshop.units.addSource c text }

theorem workshop_giveSource (s : Session) (c : ClassName) (text : String) :
    (s.giveSource c text).workshop = { s.workshop with units := s.workshop.units.addSource c text } :=
  workshop_setWorkshop rfl rfl

theorem giveSource_eq (s : Session) (c : ClassName) (text : String) : ∃ units own, s.giveSource c text =
    { s with machine := { s.machine with units }, ownUnits := own } :=
  s.setWorkshop_eq _

/-- How a session makes a proxy: by its workshop, and by its machine from the text of the proxy. -/
structure Generated (s s₁ : Session) (i : Identity) (p : Proxy) (w : Workshop) (machine : Machine) : Prop where
  woven : Workshop.proxyUnit UnitStore.get i s.workshop = (.ok p.unit, w)
  identity : p.identity = i
  source : p.source = s.printer.print p.unit
  defined : Machine.define p.source (s.setWorkshop w).machine = (.ok p.handle, machine)
  named : (p.handle.name == i.proxy) = true
  new : s.ledger.contains i.proxy = false
  after : s₁ = { s.setWorkshop w with
    machine, numbered := s.numbered + 1, ledger := ⟨s.ledger.records ++ [⟨i, p.handle⟩]⟩ }

theorem record_new {l : Ledger} {r : ProxyRecord} (new : l.contains r.proxy = false) :
    l.record r = .ok ⟨l.records ++ [r]⟩ := by
  rw [Ledger.record, new]
  rfl

theorem define_ok {source : String} {r : ProxyRecord} : define i source s = (.ok r, s₁) ↔
    ∃ handle machine, Machine.define source s.machine = (.ok handle, machine) ∧ (handle.name == i.proxy) = true ∧
      s.ledger.contains i.proxy = false ∧ r = ⟨i, handle⟩ ∧
      s₁ = { s with machine, ledger := ⟨s.ledger.records ++ [⟨i, handle⟩]⟩ } := by
  unfold define
  cases new : s.ledger.contains i.proxy with
  | true =>
    refine ⟨nofun, ?_⟩
    rintro ⟨_, _, _, _, ⟨⟩, _⟩
  | false =>
    rcases defined : Machine.define source s.machine with ⟨e | handle, machine⟩
    · refine ⟨nofun, ?_⟩
      rintro ⟨_, _, ⟨⟩, _⟩
    · have recorded : s.ledger.record ⟨i, handle⟩ = .ok ⟨s.ledger.records ++ [⟨i, handle⟩]⟩ := record_new new
      cases named : handle.name == i.proxy with
      | false =>
        simp only [Bool.false_eq_true, if_false, named]
        refine ⟨nofun, ?_⟩
        rintro ⟨_, _, ⟨⟩, same, _⟩
        rw [named] at same
        cases same
      | true =>
        simp only [Bool.false_eq_true, if_false, named, if_true, recorded]
        constructor
        · rintro ⟨⟩
          exact ⟨handle, machine, rfl, named, trivial, rfl, rfl⟩
        · rintro ⟨_, _, ⟨⟩, -, -, rfl, rfl⟩
          rfl

theorem activate_ok {unit : SourceUnit} : activate i unit s = (.ok p, s₁) ↔
    p.identity = i ∧ p.unit = unit ∧ p.source = s.printer.print unit ∧
      define i p.source { s with numbered := s.numbered + 1 } = (.ok ⟨i, p.handle⟩, s₁) := by
  unfold activate
  dsimp only
  constructor
  · intro h
    rcases defined : define i (s.printer.print unit) { s with numbered := s.numbered + 1 } with ⟨e | r, t⟩
    · rw [defined] at h
      cases h
    · rw [defined] at h
      cases h
      obtain ⟨handle, machine, -, -, -, rfl, rfl⟩ := define_ok.mp defined
      exact ⟨rfl, rfl, rfl, defined⟩
  · obtain ⟨identity, made, source, handle⟩ := p
    rintro ⟨rfl, rfl, written, defined⟩
    dsimp only at written defined ⊢
    subst written
    rw [defined]

theorem generateAs_ok : s.generateAs UnitStore.get i = (.ok p, s₁) ↔ ∃ w machine, Generated s s₁ i p w machine := by
  have kept : ∀ w, (s.setWorkshop w).ledger = s.ledger ∧ (s.setWorkshop w).printer = s.printer ∧
      (s.setWorkshop w).numbered = s.numbered := by
    intro w
    obtain ⟨units, own, same⟩ := s.setWorkshop_eq w
    rw [same]
    exact ⟨rfl, rfl, rfl⟩
  unfold generateAs work
  constructor
  · intro h
    rcases woven : (Workshop.proxyUnit UnitStore.get i).run s.workshop with ⟨e | unit, w⟩
    · rw [woven] at h
      cases h
    · rw [woven] at h
      obtain ⟨ledger, printer, numbered⟩ := kept w
      obtain ⟨identity, made, source, defined⟩ := activate_ok.mp h
      obtain ⟨handle, machine, defined, named, new, same, after⟩ := define_ok.mp defined
      cases same
      refine ⟨w, machine, made ▸ woven, identity, ?_, defined, named, ?_, ?_⟩
      · rw [source, printer, made]
      · rw [← ledger]
        exact new
      · rw [after, ledger, numbered]
  · rintro ⟨w, machine, made⟩
    obtain ⟨ledger, printer, numbered⟩ := kept w
    have woven : (Workshop.proxyUnit UnitStore.get i).run s.workshop = (.ok p.unit, w) := made.woven
    rw [woven]
    refine activate_ok.mpr ⟨made.identity, rfl, ?_, define_ok.mpr ⟨p.handle, machine, made.defined, made.named, ?_, rfl, ?_⟩⟩
    · rw [made.source, printer]
    · rw [← made.new, ← ledger]
    · rw [made.after, ledger, numbered]

namespace Generated

variable (made : Generated s s₁ i p w machine)
include made

theorem hooks_eq : s₁.hooks = w.hooks := by
  obtain ⟨units, own, same⟩ := s.setWorkshop_eq w
  rw [made.after, same]

theorem printer_eq : s₁.printer = s.printer := by
  obtain ⟨units, own, same⟩ := s.setWorkshop_eq w
  rw [made.after, same]

/-- The units of the workshop stay where proxies are made from; defining the class may add some. -/
theorem units_extended : w.units.Extended s₁.workshop.units := by
  rw [made.after]
  cases own : s.ownUnits with
  | some _ =>
    simp only [workshop, setWorkshop, own, Option.getD_some]
    exact .refl _
  | none =>
    have loads : (s.setWorkshop w).machine.KeepsUnits machine := by
      have keeps := Machine.define_keeps (R := Machine.KeepsUnits) p.source (s.setWorkshop w).machine
      rwa [made.defined] at keeps
    have units : (s.setWorkshop w).machine.store = w.units := by
      simp only [setWorkshop, own]
      rfl
    rw [Machine.KeepsUnits, units] at loads
    simp only [workshop, setWorkshop, own, setMachineUnits, Option.getD_none]
    exact loads

/-- The machine is one that a host can bring about if it was. -/
theorem reachable (before : s.machine.Reachable) : s₁.machine.Reachable := by
  obtain ⟨units, own, same⟩ := s.setWorkshop_eq w
  have after : (s.setWorkshop w).machine.Reachable := by
    rw [same]
    exact .arrange units _ _ _ before
  have defined := after.define p.source
  rw [made.defined] at defined
  rw [made.after]
  exact defined

/-- The class of a proxy whose text is read as its unit. -/
theorem loaded (read : SourceUnit.ofString? p.source = .ok p.unit) {d : ClassDecl} {reference : String}
    (one : p.unit.declarations = [.class d]) (refers : d.parent = some reference) : ∃ parent c,
      Machine.bodyOf p.unit c.name (.class d) (some parent) = .ok c ∧ p.handle = c.handle ∧
        (c.name == i.proxy) = true ∧ c ∈ s₁.machine.classes := by
  obtain ⟨parent, c, body, handle, listed⟩ := Machine.define_one_ok read one refers made.defined
  refine ⟨parent, c, body, handle, ?_, ?_⟩
  · have named := made.named
    rwa [handle] at named
  · rw [made.after]
    exact listed

end Generated

end Session

end AspectProxy
