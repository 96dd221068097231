import AspectProxy.Proofs.ClassTable.Renamed
import AspectProxy.Proofs.Session.Ledger

/-!
Later proxies of a class. A session keeps all that it made a proxy from: the units of the class and of its ancestors, the
hooks, and the class that the proxy has as its parent. So it makes each later proxy of the class from the same, whatever it
was asked for in between, and its unit is the first but for the name of the class.
-/

namespace AspectProxy

open Machine

/-- The unit with its classes under another name. -/
def SourceUnit.renamed (u : SourceUnit) (name : String) : SourceUnit :=
  { u with declarations := u.declarations.map fun
    | .class d => .class { d with name }
    | .trait t => .trait t }

theorem SourceUnit.renamed_one {u : SourceUnit} {d : ClassDecl} (one : u.declarations = [.class d]) (name : String) :
    u.renamed name = { u with declarations := [.class { d with name }] } := by
  rw [renamed, one]
  rfl

/-- The names of a proxy matter to its unit only by its class and by its own short name. -/
theorem weave_renamed {i j : Identity} (same : j.base = i.base) (p : Policy) (hooks : HookSet) (u : SourceUnit)
    (inherited : List InheritedMethod) :
    weave p hooks j u inherited = (weave p hooks i u inherited).map (·.renamed j.proxy.short) := by
  unfold weave
  rw [same]
  cases u.proxyable i.base with
  | error e => rfl
  | ok d =>
    simp only [bind, Except.bind]
    cases forClass i.base (p.wrapped hooks d.methods) with
    | error e => rfl
    | ok methods => cases forClass i.base (p.checkInherited hooks (d.methods.map (·.name)) inherited) <;> rfl

namespace Workshop

variable {w w' v : Workshop} {i j : Identity} {proxy u : SourceUnit} {hooks : HookSet} {classes : List Ancestor}

/-- A workshop that has the units another made a proxy from, the same hooks and policy makes each other proxy of the class
without reading anything. -/
theorem Made.repeated (made : Made w w' i proxy hooks u classes)
    (kept : ∀ c u, w'.units.unit? c = some u → v.units.unit? c = some u) (bound : w'.units.bound ≤ v.units.bound)
    (policy : v.policy = w.policy) (known : v.hooks = some hooks) (same : j.base = i.base) :
    ∃ d, proxy.declarations = [.class d] ∧ proxyUnit UnitStore.get j v =
      (.ok { proxy with declarations := [.class { d with name := j.proxy.short }] }, v) := by
  obtain ⟨declared, wrapped, proxyable, -, unit⟩ := weave_ok made.woven
  have one : proxy.declarations = [.class (proxyDeclaration hooks i wrapped)] := by rw [unit]
  have woven := weave_renamed same w.policy hooks u (inheritedMethods classes.tail)
  rw [made.woven, Except.map, SourceUnit.renamed_one one] at woven
  refine ⟨_, one, ?_⟩
  have lineage := made.lineage
  generalize start : some i.base = first at lineage
  cases lineage with
  | root => cases start
  | @parent c x e next ancestors there called refers above =>
    obtain rfl := Option.some.inj start
    obtain rfl : u = x := Option.some.inj (made.unit.symm.trans there)
    have found := (classNamed_ok (proxyable_ok proxyable).1).symm.trans called
    obtain rfl : declared = e := by injection found with found; injection found
    obtain ⟨apart, distinct⟩ := List.pairwise_cons.mp made.distinct
    have short : ancestors.length ≤ v.units.bound := by
      have before := made.bounded
      rw [List.length_cons] at before
      omega
    have walked : Workshop.ancestors UnitStore.get i.base u v = (.ok ancestors, v) :=
      ancestors_of_lineage proxyable (refers _) (above.mono kept) apart distinct short
    rw [← same] at there walked
    rw [← policy] at woven
    exact proxyUnit_run (UnitStore.get_of_unit? (kept _ _ there)) walked (hookSet_of_known known) woven

end Workshop

/-- The parent of the class of a proxy: the class in the table that the name of the base class means there, which may be
extended. -/
theorem Machine.Stands.parent {m m' : Machine} {i : Identity} {proxy : SourceUnit} {c : LoadedClass}
    (stands : Stands m m' i proxy c) (ordered : OrderedTable m'.classes) : ∃ d resolved b,
      proxy.declarations = [.class d] ∧ d.parent = some i.base.text ∧ c ∈ m'.classes ∧
      bodyOf proxy.reread c.name (.class { d with members := d.members.map Member.reread }) (some b) = .ok c ∧
      parentName proxy.reread c.name i.base.text = .ok resolved ∧ c.parent? = some b ∧ (b.name == resolved) = true ∧
      b ∈ m'.classes ∧ ∀ name, checkParent name b = .ok () := by
  obtain ⟨⟨m, -, -, entered⟩, ⟨d, one, refers⟩, -⟩ := stands
  have listed : c ∈ m'.classes := by
    rw [entered.classes]
    exact List.mem_append_right _ List.mem_cons_self
  have declared : proxy.reread.declarations = [.class { d with members := d.members.map Member.reread }] := by
    rw [SourceUnit.reread, one]
    rfl
  have became := entered.became
  rw [declared] at became
  obtain ⟨-, as⟩ : Became proxy.reread (.class { d with members := d.members.map Member.reread }) c := by
    cases became
    assumption
  have parentOf := as.parentOf
  simp only [ParentOf, parentReference, refers] at parentOf
  obtain ⟨resolved, b, means, up, named⟩ := parentOf
  obtain ⟨-, mayExtend, -, -⟩ := ordered.lawful c listed
  rw [LoadedClass.parent?_chain up] at mayExtend
  obtain ⟨isClass, isOpen⟩ := mayExtend b.own rfl
  have above := ordered.parent_mem c listed b up
  refine ⟨d, resolved, b, one, refers, listed, up ▸ as.made, means, up, named, above, fun name => ?_⟩
  simp only [checkParent, isClass, isOpen, Bool.false_eq_true, if_false]

/-- Once a proxy stands in a table, the text of another of the class is defined in every table that has grown from it,
under the same parent. -/
theorem Machine.Stands.again {m₀ m₁ m : Machine} {i j : Identity} {proxy v u : SourceUnit} {c : LoadedClass}
    {d : ClassDecl} {w w' : Workshop} {hooks : HookSet} {classes : List Ancestor} (stands : Stands m₀ m₁ i proxy c)
    (before : OrderedTable m₁.classes) (grown : Grown m₁.classes m.classes) (one : proxy.declarations = [.class d])
    (renamed : v = { proxy with declarations := [.class { d with name := j.proxy.short }] })
    (made : Workshop.Made w w' j v hooks u classes) (ofTexts : w.OfTexts) (suffixed : j.Suffixed)
    (named : IsDotted j.base.text) (undefined : m.isDefined j.proxy = false) (width : Nat) : ∃ b y,
      define (v.print width) m = (.ok y.handle, m.addClass y) ∧ (y.name == j.proxy) = true ∧
        c.parent? = some b ∧ y.parent? = some b := by
  obtain ⟨e, resolved, b, one', refers, listed, body, means, up, isParent, there, allowed⟩ := stands.parent before
  obtain rfl : d = e := by
    rw [one] at one'
    injection one' with same
    injection same
  have read := made.ofString?_print ofTexts suffixed.short named width
  have readable := made.readable ofTexts suffixed.short named
  obtain ⟨n, qualified, isProxy⟩ := SourceUnit.qualified_short readable.package (suffixed.package?.symm ▸ made.package)
  have found : m.class? resolved = some b := (grown.ordered.class?_iff (grown.extends_.subset there) resolved).mpr isParent
  have other : (n == resolved) = false := by
    refine Bool.eq_false_iff.mpr fun met => ?_
    rw [← isDefined_congr isProxy, isDefined_congr met, isDefined, found] at undefined
    cases undefined
  -- Both units have the same package and imports, in which the reference to the parent is looked up.
  have package : v.reread.package = proxy.reread.package := by
    rw [renamed]
    rfl
  have imports : v.reread.imports = proxy.reread.imports := by
    rw [renamed]
    rfl
  have reference := parentName_congr package imports n i.base.text
  let e : ClassDecl := { d with name := j.proxy.short, members := d.members.map Member.reread }
  have declared : v.reread.declarations = [.class e] := by
    rw [renamed]
    rfl
  have refersTo : parentName v.reread n i.base.text = .ok resolved := by
    rw [reference, parentName_renamed c.name n, means]
    rfl
  have scope : v.reread.scope = proxy.reread.scope := by rw [SourceUnit.scope, SourceUnit.scope, package, imports]
  have builds : bodyOf v.reread n (.class e) (some b) = .ok (c.named n) := by
    have same := bodyOf_renamed c.name n (d := { d with members := d.members.map Member.reread }) (e := e) scope rfl rfl (some b)
    rw [same, body]
    rfl
  have defined := define_one read declared refers qualified ((isDefined_congr isProxy).trans undefined) refersTo other
    found (allowed n)
  rw [builds] at defined
  exact ⟨b, c.named n, defined, isProxy, up, (bodyOf_ok builds).parent_eq⟩

namespace Session

variable {s s₁ t : Session} {i j : Identity} {p : Proxy} {w : Workshop} {machine : Machine} {width : Nat}

/-- After a proxy, each other of the class is made in every session that keeps what the first was made from. -/
theorem Generated.repeated (made : Generated s s₁ i p w machine) (h : s.InOrder) (standard : s.printer = .standard width)
    (suffixed : i.Suffixed) (suffixed' : j.Suffixed) (same : j.base = i.base) (keeps : s₁.Keeps t) (ordered : t.InOrder)
    (undefined : t.machine.isDefined j.proxy = false) (new : t.ledger.contains j.proxy = false) (requesting : Bool) :
    ∃ d q t' x y b, p.unit.declarations = [.class d] ∧ ProxyRequest.run ⟨j, requesting⟩ t = (.ok q, t') ∧
      q.unit = { p.unit with declarations := [.class { d with name := j.proxy.short }] } ∧
      x ∈ t'.machine.classes ∧ (x.name == i.proxy) = true ∧ y ∈ t'.machine.classes ∧ (y.name == j.proxy) = true ∧
      x.parent? = some b ∧ y.parent? = some b := by
  obtain ⟨c, stands, -⟩ := made.stands h standard suffixed
  obtain ⟨hooks, u, classes, workshop⟩ := Workshop.proxyUnit_ok made.woven
  have advances := generateAs_advances i s
  rw [generateAs_ok.mpr ⟨w, machine, made⟩] at advances
  have text : ∀ v, t.printer.print v = v.print width := fun v => by
    rw [keeps.printer, advances.printer, standard]
    rfl
  have policy : t.workshop.policy = s.workshop.policy := keeps.policy.trans advances.workshop.policy
  have known : t.workshop.hooks = some hooks := keeps.hooks hooks (made.hooks_eq.trans (by rw [workshop.after]))
  have kept := fun c u (there : w.units.unit? c = some u) => keeps.unit c u (made.units_extended.unit? there)
  have bound := (Workshop.bound_mono made.units_extended).trans keeps.bound
  obtain ⟨d, one, woven⟩ := workshop.repeated kept bound policy known same
  obtain ⟨hooks', u', classes', workshop'⟩ := Workshop.proxyUnit_ok woven
  have named : IsDotted j.base.text := by
    obtain ⟨v, handles, read, -⟩ := Machine.define_ok made.defined
    rw [made.source, standard] at read
    exact same ▸ (workshop.ofString?_print_ok h.workshop suffixed.short read).1
  obtain ⟨units, own, unchanged⟩ := t.setWorkshop_eq t.workshop
  have classes : (t.setWorkshop t.workshop).machine.classes = t.machine.classes := by rw [unchanged]
  have grown : Grown s₁.machine.classes (t.setWorkshop t.workshop).machine.classes := by
    rw [classes]
    exact ⟨ordered.table, keeps.classes⟩
  have unused : (t.setWorkshop t.workshop).machine.isDefined j.proxy = false := by
    rw [unchanged]
    exact undefined
  obtain ⟨b, y, defined, isProxy, up, up'⟩ := stands.again (h.advances advances).table grown one rfl workshop'
    ordered.workshop suffixed' named unused width
  rw [← text] at defined
  have got : t.generateAs UnitStore.get j = (.ok ⟨j, _, _, y.handle⟩, _) :=
    generateAs_ok.mpr ⟨_, _, ⟨woven, rfl, rfl, defined, isProxy, new, rfl⟩⟩
  have again := (ProxyRequest.run_of_kept (r := ⟨j, requesting⟩) woven).trans got
  have listed : c ∈ t.machine.classes := keeps.classes.subset (by
    obtain ⟨⟨m, -, -, entered⟩, -, -⟩ := stands
    rw [entered.classes]
    exact List.mem_append_right _ List.mem_cons_self)
  refine ⟨d, _, _, c, y, b, one, again, rfl, ?_, stands.named, ?_, isProxy, up, up'⟩
  · exact List.mem_append_left _ (classes ▸ listed)
  · exact List.mem_append_right _ List.mem_cons_self

/-- Once a class has been proxied in a session, every later proxy of the class succeeds, whatever the session was asked
for in between and whatever sources it was given: the unit of the later proxy is that of the first but for the name of
its class, and both classes have the same parent. -/
theorem generate_repeated {settings : Settings} {roots : List SourceRoot} {text : Except ReadFault String}
    {before after : List Operation} {r q : ProxyRequest} (opened : open? settings roots text = .ok s)
    (suffixed : r.identity.Suffixed) (suffixed' : q.identity.Suffixed) (same : q.identity.base = r.identity.base)
    (made : r.run (s.performAll before) = (.ok p, s₁))
    (undefined : (s₁.performAll after).machine.isDefined q.identity.proxy = false)
    (new : (s₁.performAll after).ledger.contains q.identity.proxy = false) :
    ∃ d p' t, p.unit.declarations = [.class d] ∧ q.run (s₁.performAll after) = (.ok p', t) ∧
      p'.unit = { p.unit with declarations := [.class { d with name := q.identity.proxy.short }] } ∧
      ∃ x y b, t.machine.class? r.identity.proxy = some x ∧ t.machine.class? q.identity.proxy = some y ∧
        x.parent? = some b ∧ y.parent? = some b := by
  obtain ⟨start, -, standard, -⟩ := open?_ok opened
  obtain ⟨ordered, keeps⟩ := performAll_keeps start before
  have printer : (s.performAll before).printer = .standard 4 := keeps.printer.trans standard
  have advances := run_advances r (s.performAll before)
  rw [made] at advances
  obtain ⟨ordered', keeps'⟩ := performAll_keeps (ordered.advances advances) after
  obtain ⟨w, machine, generated⟩ := generateAs_ok.mp (ProxyRequest.run_eq_ok made)
  obtain ⟨d, p', t, x, y, b, one, ran, unit, hx, isFirst, hy, isLater, up, up'⟩ :=
    generated.repeated ordered printer suffixed suffixed' same keeps' ordered' undefined new q.requesting
  have table : OrderedTable t.machine.classes := by
    have advanced := run_advances q (s₁.performAll after)
    rw [ran] at advanced
    exact (ordered'.advances advanced).table
  exact ⟨d, p', t, one, ran, unit, x, y, b, (table.class?_iff hx _).mpr isFirst, (table.class?_iff hy _).mpr isLater,
    up, up'⟩

def quietSettings : Settings where
  aspect := "Quiet"

def quietText : String :=
  "trait Quiet { fn __before(c) {} fn __after(c, r) { return r; } }"

def bellText : String :=
  "package app; class Bell { fn ring() {} }"

def quietSources : List (ClassName × String) :=
  [(quiet, quietText), (bell, bellText)]

def quietUnits : List (ClassName × SourceUnit) :=
  [(bell, bellUnit), (quiet, quietUnit)]

def sourceOperations : List Operation :=
  [.addSource quiet quietText, .addSource bell bellText]

/-- Texts that are no sources come instead; another class is asked for, and an object of the class. -/
def laterOperations : List Operation :=
  [.addSource quiet "trait", .addSource bell "class", .generate gongRequest.identity, .instantiate bell []]

def laterBellRequest : ProxyRequest :=
  ⟨.numbered bell 2, true⟩

/-- A session with some sources in memory and with the units that were read from them. -/
def quietSession (sources : List (ClassName × String)) (units : List (ClassName × SourceUnit)) : Session where
  machine := { units := some { places := placesOf quietSettings sources [], units } }
  aspect := quiet

/-- The session that has made a proxy of the class. -/
def quietlyProxied : Session :=
  { quietSession quietSources quietUnits with
    machine := ((quietSession quietSources quietUnits).machine.addClass bellClass).addClass (bellProxyClass quietHooks)
    hooks := some quietHooks
    ledger := ⟨[⟨bellIdentity, (bellProxyClass quietHooks).handle⟩]⟩
    numbered := 1 }

theorem quiet_opened : open? quietSettings [] (.ok "") = .ok (quietSession [] []) :=
  rfl

theorem quiet_sourced : (quietSession [] []).performAll sourceOperations = quietSession quietSources [] := by
  have apart : (quiet == bell) = false := by decide
  have sources : setSource bell bellText (setSource quiet quietText []) = quietSources := by
    simp [setSource, apart, quietSources]
  show quietSession (setSource bell bellText (setSource quiet quietText [])) [] = _
  rw [sources]

theorem bell_woven : Workshop.proxyUnit UnitStore.get bellIdentity (quietSession quietSources []).workshop =
    (.ok (bellProxy quietHooks), { (quietSession quietSources quietUnits).workshop with hooks := some quietHooks }) := by
  have bellSource : (quietSession quietSources []).machineUnits.places.resolve bell = .ok ⟨bell, bellText, .memory⟩ := rfl
  have quietSource : (quietSession quietSources [(bell, bellUnit)]).machineUnits.places.resolve quiet =
      .ok ⟨quiet, quietText, .memory⟩ :=
    rfl
  have got := UnitStore.get_of_resolve rfl bellSource bell_read (by decide)
  have aspect := UnitStore.get_of_resolve rfl quietSource quiet_read (by decide)
  have looked : Workshop.hookSet (quietSession quietSources [(bell, bellUnit)]).workshop = _ :=
    Workshop.hookSet_of_get rfl aspect ofUnit_quietUnit
  have woven : weave {} quietHooks bellIdentity bellUnit [] = .ok (bellProxy quietHooks) :=
    SourceUnit.eq_ok_of_beq (by decide)
  exact Workshop.proxyUnit_run got rfl looked woven

theorem bell_defined : Machine.defineUnit (bellProxy quietHooks) (quietSession quietSources quietUnits).machine =
    (.ok [(bellProxyClass quietHooks).handle], quietlyProxied.machine) := by
  have loaded : load bell (quietSession quietSources quietUnits).machine =
      (.ok bellClass, (quietSession quietSources quietUnits).machine.addClass bellClass) :=
    rfl
  have body : Machine.bodyOf (bellProxy quietHooks) bellIdentity.proxy
      (.class (proxyDeclaration quietHooks bellIdentity [ringMethod])) (some bellClass) = .ok (bellProxyClass quietHooks) :=
    rfl
  have defined := Machine.defineWith_one (u := bellProxy quietHooks) rfl rfl (bellProxy_called quietHooks) rfl rfl
    (bellProxy_extends quietHooks) rfl loaded rfl
  rwa [body] at defined

theorem bell_made : bellRequest.run ((quietSession [] []).performAll sourceOperations) =
    (.ok (bellMade quietHooks), quietlyProxied) := by
  obtain ⟨start, -⟩ := open?_ok quiet_opened
  obtain ⟨ordered, -⟩ := performAll_keeps start sourceOperations
  rw [quiet_sourced] at ordered ⊢
  obtain ⟨_, _, _, made⟩ := Workshop.proxyUnit_ok bell_woven
  have named : IsDotted bell.text := ⟨"app", ["Bell"], by decide, by decide⟩
  have read : SourceUnit.ofString? ((bellProxy quietHooks).print 4) = .ok (bellProxy quietHooks) :=
    made.ofString?_print ordered.workshop (Identity.Suffixed.numbered bell 1).short named 4
  have defined := define_of_read read bell_defined rfl
  rw [ProxyRequest.run_eq rfl]
  exact generateAs_ok.mpr ⟨_, _, bell_woven, rfl, rfl, defined, ClassName.beq_self _, rfl, rfl⟩

/-- The class is proxied again after it and the aspect got texts that are no sources. -/
theorem generate_repeated_bell : ∃ s p s₁ d p' t, open? quietSettings [] (.ok "") = .ok s ∧
    bellRequest.run (s.performAll sourceOperations) = (.ok p, s₁) ∧ p.unit.declarations = [.class d] ∧
    laterBellRequest.run (s₁.performAll laterOperations) = (.ok p', t) ∧
    p'.unit = { p.unit with declarations := [.class { d with name := laterBellRequest.identity.proxy.short }] } ∧
    ∃ x y b, t.machine.class? bellIdentity.proxy = some x ∧ t.machine.class? laterBellRequest.identity.proxy = some y ∧
      x.parent? = some b ∧ y.parent? = some b := by
  have free : (quietlyProxied.performAll laterOperations).machine.isDefined laterBellRequest.identity.proxy = false ∧
      (quietlyProxied.performAll laterOperations).ledger.contains laterBellRequest.identity.proxy = false := by
    decide
  have first : bellRequest.identity.Suffixed := .numbered bell 1
  have second : laterBellRequest.identity.Suffixed := .numbered bell 2
  obtain ⟨d, p', t, one, ran, again, parents⟩ :=
    generate_repeated quiet_opened first second rfl bell_made free.1 free.2
  exact ⟨_, _, _, d, p', t, quiet_opened, bell_made, one, ran, again, parents⟩

end Session

end AspectProxy
