import AspectProxy.Proofs.Session.Generating
import AspectProxy.Proofs.Weaving.Texts

/-!
Proxies of proxies. A proxy whose source is added under its name is a class like any other: its unit is read back from
the source, its hooks are recognised as those of the session, and its ancestors are known. So a proxy of it is made,
unless a hook is final: the proxy declares such a hook, and the runtime lets no class below declare it again.
-/

namespace AspectProxy

variable {s s₁ : Session} {w : Workshop} {i j : Identity} {p : Proxy} {machine : Machine} {width : Nat}

namespace Session.Generated

/-- The text of a proxy that was made is read as its unit. -/
theorem reads (made : Generated s s₁ i p w machine) (finite : s.workshop.Finite) (standard : s.printer = .standard width)
    (short : IsName i.proxy.short) : p.unit.Stable ∧ SourceUnit.ofString? p.source = .ok p.unit := by
  obtain ⟨hooks, u, classes, workshop⟩ := Workshop.proxyUnit_ok made.woven
  have source : p.source = p.unit.print width := by rw [made.source, standard]; rfl
  have written := workshop.unit_stable finite
  have hooksStable := workshop.hooks_stable finite
  obtain ⟨v, handles, read, -, -⟩ := Machine.define_ok made.defined
  rw [source] at read
  have named := isDotted_of_weave_read written hooksStable short workshop.woven read
  have stable : p.unit.Stable := weave_meets written hooksStable short workshop.woven named
  exact ⟨stable, source ▸ stable.reads width⟩

end Session.Generated

/-- A proxy of a class in the table is defined from its text as soon as its class may stand there. -/
theorem define_above {m : Machine} (ordered : OrderedTable m.classes) (suffixed : i.Suffixed) {b : LoadedClass}
    (listed : b ∈ m.classes) (named : (b.name == i.base) = true) (isClass : b.own.isTrait = false)
    (isOpen : b.own.isFinal = false) {v : SourceUnit} (stable : v.Stable) (width : Nat) {d : ClassDecl}
    (one : v.declarations = [.class d]) (name : d.name = i.proxy.short) (parent : d.parent = some i.base.text)
    (same : asciiLower (v.package.getD "") = asciiLower (i.base.package?.getD "")) (free : ¬v.Captures i.base)
    (fresh : m.isDefined i.proxy = false) :
    ∃ c : ClassName, (c == i.proxy) = true ∧
      Machine.define (v.print width) m = match Machine.bodyOf v c (.class d) (some b) with
        | .ok c => (.ok c.handle, m.addClass c)
        | .error e => (.error e, m) := by
  obtain ⟨c, qualified, isProxy⟩ := SourceUnit.qualified_short stable.package (suffixed.package?.symm ▸ same)
  obtain ⟨found, means, isBase⟩ := (parentName_iff stable.package stable.imports same c).mpr free
  have other : (c == found) = false := by
    rw [ClassName.beq_congr_left isProxy, ClassName.beq_congr_right isBase, suffixed.ne_base]
  have there : m.class? found = some b := by
    refine (ordered.class?_iff listed found).mpr (ClassName.beq_iff.mpr ?_)
    rw [ClassName.beq_iff.mp named, ClassName.beq_iff.mp isBase]
  have allowed : Machine.checkParent c b = .ok () := by
    simp only [Machine.checkParent, isClass, isOpen, Bool.false_eq_true, if_false]
  refine ⟨c, isProxy, Machine.define_one (stable.reads width) one parent ?_ ?_ means other there allowed⟩
  · rw [name, qualified]
  · rw [Machine.isDefined_congr isProxy, fresh]

/-- A proxy is one of another in a machine: its unit names the other as the parent, its class has the class of the other
as its parent, and both declare the same methods in one order. -/
structure Proxy.Extends (q p : Proxy) (m : Machine) : Prop where
  unit : ∃ d d', q.unit.declarations = [.class d] ∧ p.unit.declarations = [.class d'] ∧
    d.parent = some p.identity.proxy.text ∧ d.methods.map (·.name) = d'.methods.map (·.name)
  classes : ∃ c b, m.class? q.identity.proxy = some c ∧ m.class? p.identity.proxy = some b ∧ c.parent? = some b
  handle : q.handle.methods = p.handle.methods

/-- The full name of a proxy is a name of the language if that of the class is. -/
theorem Identity.Suffixed.isDotted (suffixed : i.Suffixed) (named : IsDotted i.base.text) : IsDotted i.proxy.text := by
  have text : i.proxy.text.toList = i.base.text.toList ++ ("_" ++ i.suffix).toList := by
    rw [suffixed.text, Identity.proxyText, String.append_assoc, String.toList_append]
  obtain ⟨front, last, before, after⟩ := dotSegments_append i.base.text.toList _ (plain_of_parts suffixed.parts)
  refine isDotted_of_free i.proxy.valid ?_
  rw [text, after]
  rintro ⟨cs, hcs, reserved⟩
  rcases List.mem_append.mp hcs with hcs | hcs
  · exact (named.segments cs (before ▸ List.mem_append_left _ hcs)).2 reserved
  · have plain : ∀ w ∈ reservedWords, '_' ∉ w.toList := by decide
    obtain rfl := List.mem_singleton.mp hcs
    exact plain _ reserved (by simp)

namespace Session.Generated

theorem again (made : Generated s s₁ i p w machine) (suffixed : i.Suffixed) (suffixed' : j.Suffixed)
    (below : j.base = i.proxy) (finite : s.workshop.Finite) (standard : s.printer = .standard width)
    (free : ¬p.unit.Captures i.base) (unread : s₁.workshop.units.unit? i.proxy = none)
    (counts : (s₁.workshop.units.addSource i.proxy p.source).places.resolve i.proxy = .ok ⟨i.proxy, p.source, .memory⟩) :
    ∃ hooks wrapped v w', s₁.hooks = some hooks ∧ (∀ m ∈ wrapped, m.modifiers.isFinal = false) ∧
      p.unit.declarations = [.class (proxyDeclaration hooks i wrapped)] ∧ v.Stable ∧
      v = { p.unit with declarations := [.class (proxyDeclaration hooks j (wrapped.map (Method.wrapper i.base)))] } ∧
      Workshop.proxyUnit UnitStore.get j (s₁.giveSource i.proxy p.source).workshop = (.ok v, w') := by
  obtain ⟨stable, read⟩ := made.reads finite standard suffixed.short
  obtain ⟨hooks, u, classes, workshop⟩ := Workshop.proxyUnit_ok made.woven
  have known : s₁.hooks = some hooks := by rw [made.hooks_eq, workshop.after]
  have policy : s₁.policy = s.policy := by
    obtain ⟨units, own, same⟩ := s.setWorkshop_eq w
    rw [made.after, same]
  have declares : p.unit.declarations ≠ [] := by
    obtain ⟨d, wrapped, -, -, made⟩ := weave_ok workshop.woven
    rw [made]
    exact List.cons_ne_nil _ _
  let units := s₁.workshop.units.addSource i.proxy p.source
  have bound : w.units.bound ≤ units.bound := by
    refine (Workshop.bound_mono made.units_extended).trans ?_
    exact Nat.add_le_add_right (Nat.add_le_add_right (UnitStore.size_addSource _ _ _) _) _
  rw [workshop_giveSource]
  obtain ⟨wrapped, wraps, unitEq, proxies⟩ := workshop.again (v := { s₁.workshop with units })
    (fun x u here => made.units_extended.unit? here) bound unread
    (UnitStore.get_of_resolve (s := units) unread counts read declares) finite suffixed.package? free policy known
  have one : p.unit.declarations = [.class (proxyDeclaration hooks i wrapped)] := by rw [unitEq]
  obtain ⟨v, above, unit, woven, ran⟩ := proxies j below
  have named : IsDotted i.base.text :=
    (stable.declarations (.class (proxyDeclaration hooks i wrapped)) (by simp [one])).parent _ rfl _ rfl
  have written := weave_meets stable (workshop.hooks_stable finite) suffixed'.short woven
    (below ▸ suffixed.isDotted named)
  exact ⟨hooks, wrapped, v, _, known, fun m hm => Policy.open_of_wraps (wraps m hm), one, written, unit, ran⟩

end Session.Generated

/-- A proxy of a proxy declares the same names. -/
theorem methodNames_again (hooks : HookSet) (i j : Identity) (wrapped : List Method) (base : ClassName) :
    (proxyDeclaration hooks j (wrapped.map (Method.wrapper base))).methods.map (·.name) =
      (proxyDeclaration hooks i wrapped).methods.map (·.name) := by
  rw [methodNames_proxyDeclaration, methodNames_proxyDeclaration, List.map_map]
  rfl

/-- The package of a proxy is that of the class. -/
theorem Session.Generated.package_eq (made : Generated s s₁ i p w machine) :
    asciiLower (p.unit.package.getD "") = asciiLower (i.base.package?.getD "") := by
  obtain ⟨hooks, u, classes, workshop⟩ := Workshop.proxyUnit_ok made.woven
  obtain ⟨d, wrapped, proxyable, -, unit⟩ := weave_ok workshop.woven
  rw [unit]
  exact (proxyable_ok proxyable).2

/-- What a session does to make a proxy under some names of a proxy whose class is in the table: it weaves the unit, and it
defines the class above that of the proxy, with some outcome. -/
structure Attempt (t : Session) (p : Proxy) (j : Identity) (width : Nat) (hooks : HookSet) (v : SourceUnit) (w : Workshop)
    (b : LoadedClass) (outcome : Except DefinitionError LoadedClass) : Prop where
  woven : Workshop.proxyUnit UnitStore.get j t.workshop = (.ok v, w)
  printer : t.printer = .standard width
  defined : Machine.define (v.print width) (t.setWorkshop w).machine = match outcome with
    | .ok c => (.ok c.handle, (t.setWorkshop w).machine.addClass c)
    | .error e => (.error e, (t.setWorkshop w).machine)
  unit : ∃ d d', v.declarations = [.class d] ∧ p.unit.declarations = [.class d'] ∧
    d.parent = some p.identity.proxy.text ∧ d.methods.map (·.name) = d'.methods.map (·.name) ∧
    b.methodNames = d'.methods.map (·.name) ∧ ∃ name, (name == j.proxy) = true ∧
      outcome = Machine.bodyOf v name (.class d) (some b)
  listed : b ∈ t.machine.classes
  named : (b.name == p.identity.proxy) = true
  handle : p.handle = b.handle
  allowed : (∃ c, outcome = .ok c) ↔ ∀ hook ∈ hooks.methods, hook.modifiers.isFinal = false

namespace Attempt

variable {t t' : Session} {hooks : HookSet} {v : SourceUnit} {w' : Workshop} {b : LoadedClass}
  {outcome : Except DefinitionError LoadedClass} (attempt : Attempt t p j width hooks v w' b outcome)

include attempt

/-- A proxy is made only if no hook is final. -/
theorem not_final {q : Proxy} (made : t.generateAs UnitStore.get j = (.ok q, t')) :
    ∀ hook ∈ hooks.methods, hook.modifiers.isFinal = false := by
  obtain ⟨w₂, machine, made⟩ := Session.generateAs_ok.mp made
  cases made.woven.symm.trans attempt.woven
  have text : q.source = q.unit.print width := by rw [made.source, attempt.printer]; rfl
  have defined := made.defined
  rw [text, attempt.defined] at defined
  refine attempt.allowed.mp ?_
  cases outcome with
  | error e => cases defined
  | ok c => exact ⟨c, rfl⟩

/-- A proxy is made if no hook is final. -/
theorem succeeds (reachable : t.machine.Reachable) (new : t.ledger.contains j.proxy = false)
    (isOpen : ∀ hook ∈ hooks.methods, hook.modifiers.isFinal = false) :
    ∃ q t', t.generateAs UnitStore.get j = (.ok q, t') ∧ q.Extends p t'.machine := by
  obtain ⟨c, made⟩ := attempt.allowed.mpr isOpen
  obtain ⟨d, d', one, one', parent, names, names', name, isProxy, built⟩ := attempt.unit
  have body := Machine.bodyOf_ok (built.symm.trans made)
  have named : (c.name == j.proxy) = true := by
    rw [body.name_eq]
    exact isProxy
  have defined := attempt.defined
  rw [made] at defined
  have printed : v.print width = t.printer.print v := by rw [attempt.printer]; rfl
  have second : Session.Generated t _ j ⟨_, v, v.print width, c.handle⟩ w' _ :=
    ⟨attempt.woven, rfl, printed, defined, named, new, rfl⟩
  have ordered := (second.reachable reachable).ordered
  obtain ⟨units, own, worked⟩ := t.setWorkshop_eq w'
  have table : ((t.setWorkshop w').machine.addClass c).classes = t.machine.classes ++ [c] := by rw [worked]; rfl
  refine ⟨_, _, Session.generateAs_ok.mpr ⟨w', _, second⟩, ⟨d, d', one, one', parent, names⟩,
    ⟨c, b, ?_, ?_, body.parent_eq⟩, ?_⟩
  · exact (ordered.class?_iff (table ▸ List.mem_append_right _ List.mem_cons_self) _).mpr named
  · exact (ordered.class?_iff (table ▸ List.mem_append_left _ attempt.listed) _).mpr attempt.named
  · show c.own.methods.map (·.name) = p.handle.methods
    rw [attempt.handle, body.methods]
    exact names.trans names'.symm

end Attempt

/-- A session that made a proxy and has its source attempts to make a proxy of it. -/
theorem Session.Generated.attempt (made : Generated s s₁ i p w machine) (suffixed : i.Suffixed) (suffixed' : j.Suffixed)
    (below : j.base = i.proxy) (reachable : s.machine.Reachable) (finite : s.workshop.Finite)
    (standard : s.printer = .standard width) (free : ¬p.unit.Captures i.base) (freeProxy : ¬p.unit.Captures i.proxy)
    (unread : s₁.workshop.units.unit? i.proxy = none)
    (counts : (s₁.workshop.units.addSource i.proxy p.source).places.resolve i.proxy = .ok ⟨i.proxy, p.source, .memory⟩)
    (undefined : s₁.machine.isDefined j.proxy = false) :
    ∃ hooks v w' b outcome, s₁.hooks = some hooks ∧
      Attempt (s₁.giveSource i.proxy p.source) p j width hooks v w' b outcome := by
  have identity : p.identity.proxy = i.proxy := by rw [made.identity]
  obtain ⟨-, read⟩ := made.reads finite standard suffixed.short
  obtain ⟨hooks, wrapped, v, w', known, wraps, one, stable, unit, woven⟩ :=
    made.again suffixed suffixed' below finite standard free unread counts
  obtain ⟨parent, b, body, handle, named, listed⟩ := made.loaded read one rfl
  have as := Machine.bodyOf_ok body
  -- Neither giving the source nor weaving changes the class table.
  obtain ⟨units, own, given⟩ := s₁.giveSource_eq i.proxy p.source
  generalize s₁.giveSource i.proxy p.source = t at given woven ⊢
  obtain ⟨units', own', worked⟩ := t.setWorkshop_eq w'
  have classes : (t.setWorkshop w').machine.classes = s₁.machine.classes := by rw [worked, given]
  have ordered := (made.reachable reachable).ordered
  have package := made.package_eq
  rw [← classes] at ordered listed
  obtain ⟨name, isProxy, defined⟩ := define_above ordered suffixed' listed (below ▸ named) as.isTrait
    (Machine.isFinal_of_bodyOf body) stable width (by rw [unit]) rfl rfl
    (by rw [unit, below, suffixed.package?]; exact package) (by rw [unit, below]; exact freeProxy)
    (by rw [Machine.isDefined, Machine.class?, classes]; exact undefined)
  refine ⟨hooks, v, w', b, _, known, {
    woven
    printer := by rw [given, ← standard]; exact made.printer_eq
    unit := ⟨_, _, by rw [unit], one, by rw [identity, ← below]; rfl, methodNames_again .., ?_, name, isProxy, rfl⟩
    listed := by rw [worked] at listed; exact listed
    named := identity ▸ named
    handle
    defined
    allowed := bodyOf_above_proxy wraps as }⟩
  rw [LoadedClass.methodNames, as.methods]
  rfl

/-- A proxy can be proxied again, under whatever policy and suffixes, after its source is added under its name, exactly when
no hook is final: then the new proxy extends the first and has its methods. Only the name of a class without a package can be
captured, by an import of the unit. -/
theorem Session.generate_again (reachable : s.machine.Reachable) (finite : s.workshop.Finite)
    (standard : s.printer = .standard width) (suffixed : i.Suffixed) (made : s.generateAs UnitStore.get i = (.ok p, s₁))
    (free : ¬p.unit.Captures i.base) (freeProxy : ¬p.unit.Captures i.proxy)
    (unread : s₁.workshop.units.unit? i.proxy = none)
    (counts : (s₁.workshop.units.addSource i.proxy p.source).places.resolve i.proxy = .ok ⟨i.proxy, p.source, .memory⟩)
    (suffixed' : j.Suffixed) (below : j.base = i.proxy) (unrecorded : s₁.ledger.contains j.proxy = false)
    (undefined : s₁.machine.isDefined j.proxy = false) :
    (∃ q s₂, (s₁.giveSource i.proxy p.source).generateAs UnitStore.get j = (.ok q, s₂) ∧ q.Extends p s₂.machine) ↔
      ∀ hooks ∈ s₁.hooks, ∀ hook ∈ hooks.methods, hook.modifiers.isFinal = false := by
  obtain ⟨w, machine, first⟩ := generateAs_ok.mp made
  obtain ⟨hooks, v, w', b, outcome, known, attempt⟩ :=
    first.attempt suffixed suffixed' below reachable finite standard free freeProxy unread counts undefined
  constructor
  · rintro ⟨q, s₂, again, -⟩ hooks' known'
    obtain rfl : hooks = hooks' := Option.some.inj (known.symm.trans known')
    exact attempt.not_final again
  · intro isOpen
    obtain ⟨units, own, given⟩ := s₁.giveSource_eq i.proxy p.source
    refine attempt.succeeds ?_ ?_ (isOpen hooks known) <;> rw [given]
    · exact .arrange units _ _ _ (first.reachable reachable)
    · exact unrecorded

def ringMethod : Method :=
  ⟨{}, "ring", [], none, []⟩

def bellUnit : SourceUnit where
  package := some "app"
  declarations := [.class ⟨"Bell", false, none, [.method ringMethod]⟩]

theorem bell_read : SourceUnit.ofString? "package app; class Bell { fn ring() {} }" = .ok bellUnit :=
  SourceUnit.eq_ok_of_beq (by decide +kernel)

def bell : ClassName :=
  ⟨"app.Bell", by decide⟩

def bellClass : LoadedClass where
  own := {
    name := bell
    isFinal := false
    isTrait := false
    scope := bellUnit.scope
    methods := [ringMethod]
    properties := [] }
  ancestors := []

def bellIdentity : Identity :=
  .numbered bell 1

/-- A session with the class defined and with the hooks of some aspect. -/
def bellSession (aspect : ClassName) (hooks : HookSet) : Session where
  machine := { (Machine.defineUnit bellUnit {}).2 with
    units := some { places := [.memory []], units := [(bell, bellUnit)] } }
  aspect
  hooks := some hooks

def bellProxy (hooks : HookSet) : SourceUnit where
  package := some "app"
  declarations := [.class (proxyDeclaration hooks bellIdentity [ringMethod])]

theorem bellProxy_called (hooks : HookSet) :
    (bellProxy hooks).qualified bellIdentity.proxy.short = .ok bellIdentity.proxy :=
  SourceUnit.qualified_eq (p := "app") rfl (by decide) (by decide)

theorem bellProxy_extends (hooks : HookSet) :
    Machine.parentName (bellProxy hooks) bellIdentity.proxy bell.text = .ok bell :=
  parentName_eq (by decide) rfl _

def bellProxyClass (hooks : HookSet) : LoadedClass where
  own := {
    name := bellIdentity.proxy
    isFinal := false
    isTrait := false
    scope := bellUnit.scope
    methods := ringMethod.wrapper bell :: hooks.methods
    properties := [] }
  ancestors := [bellClass.own]

def bellMade (hooks : HookSet) : Proxy :=
  ⟨bellIdentity, bellProxy hooks, (bellProxy hooks).print 4, (bellProxyClass hooks).handle⟩

section Bell

variable (aspect : ClassName) {hooks : HookSet}

/-- The session that made a proxy of the class. -/
def bellProxied (hooks : HookSet) : Session :=
  { bellSession aspect hooks with
    machine :=
      ((bellSession aspect hooks).setWorkshop (bellSession aspect hooks).workshop).machine.addClass (bellProxyClass hooks)
    numbered := 1
    ledger := ⟨[⟨bellIdentity, (bellProxyClass hooks).handle⟩]⟩ }

theorem bell_keptFloats : KeptFloats "package app; class Bell { fn ring() {} }" := by
  refine keptFloats_of_read (by decide) bell_read ?_
  exact List.forall_mem_singleton.mpr (List.forall_mem_singleton.mpr ⟨nofun, trivial⟩)

theorem bell_stable : bellUnit.Stable :=
  SourceUnit.stable_of_keptFloats bell_keptFloats bell_read

theorem bell_reachable : (bellSession aspect hooks).machine.Reachable :=
  .arrange _ {} #[] 256 (.defineUnit bellUnit .fresh)

theorem bell_finite {text : String} {a : SourceUnit} (kept : KeptFloats text) (read : SourceUnit.ofString? text = .ok a)
    (found : HookSet.ofUnit aspect a = .ok hooks) : (bellSession aspect hooks).workshop.Finite where
  units := ⟨nofun, List.forall_mem_singleton.mpr ⟨_, bell_keptFloats, bell_read⟩⟩
  hooks := by
    rintro _ ⟨⟩
    exact ⟨text, a, kept, read, found⟩

theorem bell_generated (stable : ∀ hook ∈ hooks.methods, hook.Stable)
    (woven : weave {} hooks bellIdentity bellUnit [] = .ok (bellProxy hooks))
    (body : Machine.bodyOf (bellProxy hooks) bellIdentity.proxy
      (.class (proxyDeclaration hooks bellIdentity [ringMethod])) (some bellClass) = .ok (bellProxyClass hooks)) :
    (bellSession aspect hooks).Generated (bellProxied aspect hooks) bellIdentity (bellMade hooks)
      (bellSession aspect hooks).workshop (bellProxied aspect hooks).machine := by
  have named : IsDotted bell.text := ⟨"app", ["Bell"], by decide, by decide⟩
  have written : (bellProxy hooks).Stable :=
    weave_meets bell_stable stable (Identity.Suffixed.numbered bell 1).short woven named
  let m := ((bellSession aspect hooks).setWorkshop (bellSession aspect hooks).workshop).machine
  have there : m.class? bell = some bellClass := rfl
  have defined := Machine.define_one (written.reads 4) rfl rfl (bellProxy_called hooks) rfl (bellProxy_extends hooks) rfl
    there rfl
  rw [body] at defined
  have units : (bellSession aspect hooks).workshop.units.get bell = (.ok bellUnit, (bellSession aspect hooks).workshop.units) :=
    rfl
  have walked : Workshop.ancestors UnitStore.get bell bellUnit (bellSession aspect hooks).workshop =
      (.ok [], (bellSession aspect hooks).workshop) := rfl
  exact ⟨Workshop.proxyUnit_run units walked (Workshop.hookSet_of_known rfl) woven, rfl, rfl, defined,
    ClassName.beq_self _, rfl, rfl⟩

end Bell

def quiet : ClassName :=
  ⟨"Quiet", by decide⟩

theorem quiet_keptFloats : KeptFloats "trait Quiet { fn __before(c) {} fn __after(c, r) { return r; } }" := by
  refine keptFloats_of_read (by decide) quiet_read ?_
  refine List.forall_mem_singleton.mpr (List.forall_mem_cons.mpr ⟨?_, List.forall_mem_singleton.mpr ?_⟩)
  · exact ⟨List.forall_mem_singleton.mpr nofun, trivial⟩
  · exact ⟨List.forall_mem_cons.mpr ⟨nofun, List.forall_mem_singleton.mpr nofun⟩, trivial, trivial⟩

/-- With hooks that are not final a proxy of the proxy is made. -/
theorem generate_again_bell : ∃ p s₁ q s₂, (bellSession quiet quietHooks).generate UnitStore.get bell = (.ok p, s₁) ∧
    (s₁.giveSource p.identity.proxy p.source).generate UnitStore.get p.identity.proxy = (.ok q, s₂) ∧
      q.Extends p s₂.machine := by
  have finite := bell_finite quiet quiet_keptFloats quiet_read ofUnit_quietUnit
  have stable := HookSet.meets (SourceUnit.stable_of_keptFloats quiet_keptFloats quiet_read) ofUnit_quietUnit
  have made := Session.generateAs_ok.mpr ⟨_, _, bell_generated quiet stable rfl rfl⟩
  have again := (Session.generate_again (bell_reachable quiet) finite rfl (.numbered bell 1) made
    (fun captured => absurd captured.1 (by decide)) (fun captured => absurd captured.1 (by decide)) rfl
    (UnitStore.resolve_addSource rfl _ _) (.numbered bellIdentity.proxy 2) rfl rfl rfl).mpr
  obtain ⟨q, s₂, again, below⟩ := again (by decide)
  exact ⟨_, _, q, s₂, made, again, below⟩

/-- An aspect whose first hook is final. -/
def sealUnit : SourceUnit where
  declarations := [.trait ⟨"Seal",
    [.method ⟨{ isFinal := true }, beforeHook, [⟨"c", none, none⟩], none, []⟩,
     .method ⟨{}, afterHook, [⟨"c", none, none⟩, ⟨"r", none, none⟩], none, [.return (some (.var "r"))]⟩]⟩]

theorem seal_read :
    SourceUnit.ofString? "trait Seal { final fn __before(c) {} fn __after(c, r) { return r; } }" = .ok sealUnit :=
  SourceUnit.eq_ok_of_beq (by decide +kernel)

theorem seal_keptFloats : KeptFloats "trait Seal { final fn __before(c) {} fn __after(c, r) { return r; } }" := by
  refine keptFloats_of_read (by decide) seal_read ?_
  refine List.forall_mem_singleton.mpr (List.forall_mem_cons.mpr ⟨?_, List.forall_mem_singleton.mpr ?_⟩)
  · exact ⟨List.forall_mem_singleton.mpr nofun, trivial⟩
  · exact ⟨List.forall_mem_cons.mpr ⟨nofun, List.forall_mem_singleton.mpr nofun⟩, trivial, trivial⟩

def sealing : ClassName :=
  ⟨"Seal", by decide⟩

def sealHooks : HookSet where
  methods := sealUnit.methods
  distinct := by decide
  complete := by decide

theorem ofUnit_sealUnit : HookSet.ofUnit sealing sealUnit = .ok sealHooks :=
  rfl

/-- With a final hook a proxy of the class is made, but no proxy of the proxy. -/
theorem final_hook_ends_proxies :
    SourceUnit.ofString? "trait Seal { final fn __before(c) {} fn __after(c, r) { return r; } }" = .ok sealUnit ∧
      FiniteFloats "trait Seal { final fn __before(c) {} fn __after(c, r) { return r; } }" ∧
      HookSet.ofUnit sealing sealUnit = .ok sealHooks ∧ (bellSession sealing sealHooks).machine.Reachable ∧
      ∃ p s₁, (bellSession sealing sealHooks).generate UnitStore.get bell = (.ok p, s₁) ∧
        ∀ q s₂, (s₁.giveSource p.identity.proxy p.source).generate UnitStore.get p.identity.proxy ≠ (.ok q, s₂) := by
  have finite := bell_finite sealing seal_keptFloats seal_read ofUnit_sealUnit
  have stable := HookSet.meets (SourceUnit.stable_of_keptFloats seal_keptFloats seal_read) ofUnit_sealUnit
  have first := bell_generated sealing stable rfl rfl
  obtain ⟨hooks, v, w, b, outcome, known, attempt⟩ := first.attempt (.numbered bell 1) (.numbered bellIdentity.proxy 2) rfl
    (bell_reachable sealing) finite rfl (fun captured => absurd captured.1 (by decide))
    (fun captured => absurd captured.1 (by decide)) rfl (UnitStore.resolve_addSource rfl _ _) rfl
  obtain rfl : sealHooks = hooks := Option.some.inj known
  refine ⟨seal_read, seal_keptFloats.1, ofUnit_sealUnit, bell_reachable sealing, _, _,
    Session.generateAs_ok.mpr ⟨_, _, first⟩, fun q s₂ again => ?_⟩
  exact absurd (attempt.not_final again) (by decide)

end AspectProxy
