import AspectProxy.Proofs.Reading.ClassNames
import AspectProxy.Proofs.Session.Repeated

/-!
Proxies from requested units. As long as files can be read, a unit that is requested, whether a file is awaited for it or
not, is the one that is got, so a proxy is made in the same way; the name that is drawn for it matters to nothing but the
class of the proxy and the errors that are told of it.
-/

namespace AspectProxy

open Machine

namespace Workshop

variable {w w' : Workshop} {i j : Identity} {proxy u : SourceUnit} {hooks : HookSet} {classes : List Ancestor}

theorem bind_map {x : Work α} {f g : α → Work β} {image : β → β}
    (h : ∀ a w, g a w = ((f a w).1.map image, (f a w).2)) (w : Workshop) :
    (x >>= g) w = (((x >>= f) w).1.map image, ((x >>= f) w).2) := by
  rcases ran : x w with ⟨e | a, w'⟩
  · rw [run_bind_error ran, run_bind_error ran]
    rfl
  · rw [run_bind ran, run_bind ran]
    exact h a w'

/-- The check of a proxy that has been woven changes nothing. -/
theorem checked_run {p : Policy} {r : Except ProxyError SourceUnit}
    (passes : ∀ proxy, r = .ok proxy → checkProxy p hooks i u proxy = .ok ()) (w : Workshop) :
    (do let proxy ← ofExcept r; ofExcept (checkProxy p hooks i u proxy); return proxy : Work SourceUnit) w = (r, w) := by
  cases r with
  | error e => exact run_bind_error (x := ofExcept (.error e)) rfl
  | ok proxy =>
    refine (run_bind (x := ofExcept (.ok proxy)) rfl).trans ?_
    exact run_bind (ofExcept_run (passes proxy rfl))

/-- Under another name a workshop makes the same unit but for the name of its class, or fails with the same error. -/
theorem proxyUnit_renamed (same : j.base = i.base) (w : Workshop) : proxyUnit UnitStore.get j w =
    ((proxyUnit UnitStore.get i w).1.map (·.renamed j.proxy.short), (proxyUnit UnitStore.get i w).2) := by
  unfold proxyUnit
  rw [same]
  apply bind_map
  intro u w
  apply bind_map
  intro ancestors w
  apply bind_map
  intro hooks w
  apply bind_map
  intro v w
  rw [checked_run (fun _ => checkProxy_of_weave) w, checked_run (fun _ => checkProxy_of_weave) w]
  rw [weave_renamed same v.policy hooks u (inheritedMethods ancestors)]

theorem Made.renamed (made : Made w w' i proxy hooks u classes) (same : j.base = i.base) :
    Made w w' j (proxy.renamed j.proxy.short) hooks u classes where
  after := made.after
  grown := made.grown
  unit := same ▸ made.unit
  lineage := same ▸ made.lineage
  distinct := made.distinct
  bounded := made.bounded
  found := made.found
  woven := by
    rw [weave_renamed same, made.woven]
    rfl

end Workshop

/-- No class that is defined is called by a name, nor one that a unit declares which could be loaded. -/
structure Machine.Unused (m : Machine) (n : ClassName) : Prop where
  undefined : m.isDefined n = false
  undeclared : ∀ v, m.Supplies v → ∀ d ∈ v.declarations, ¬v.Names d n

theorem Machine.Unused.autoloads {m m' : Machine} {n : ClassName} (h : m.Unused n) (loads : m.Autoloads m') : m'.Unused n :=
  ⟨loads.isDefined h.undeclared h.undefined, fun v hv => h.undeclared v (loads.supplied v hv)⟩

theorem Identity.Suffixed.length_short {i : Identity} (h : i.Suffixed) :
    i.proxy.short.length = i.base.short.length + (1 + i.suffix.length) := by
  rw [proxyShort_eq h.parts h.text, String.length_append, String.length_append]
  rfl

/-- In a unit that does not import the proxy of a class, the full name of the class does not mean the proxy. -/
theorem Identity.Suffixed.parent_ne {i : Identity} (h : i.Suffixed) {u : SourceUnit} {n resolved : ClassName}
    (named : ∀ p ∈ u.package, IsDotted p) (imported : ∀ x ∈ u.imports, x.Sound)
    (package : asciiLower (u.package.getD "") = asciiLower (i.base.package?.getD ""))
    (unimported : ∀ x ∈ u.imports, asciiLower x.path ≠ i.proxy.key) (isProxy : (n == i.proxy) = true)
    (means : Machine.parentName u n i.base.text = .ok resolved) : (n == resolved) = false := by
  refine Bool.eq_false_iff.mpr fun met => ?_
  have key : resolved.key = i.proxy.key := (ClassName.beq_iff.mp met).symm.trans (ClassName.beq_iff.mp isProxy)
  by_cases captured : u.Captures i.base
  · obtain ⟨bare, self | ⟨x, found, -⟩⟩ := captured
    · rw [self, Machine.parentName, if_pos rfl] at means
      cases means
    · have listed := List.mem_of_find?_eq_some found
      have dot := i.base.package?_eq_none_iff.mp bare
      have resolves : u.resolve i.base.text = x.path := by rw [SourceUnit.resolve, if_neg (by simpa using dot), found]
      unfold Machine.parentName at means
      split at means
      · cases means
      · simp only [resolves, ClassName.parse_of_isDottedName (imported x listed).path.isDottedName] at means
        cases means
        exact unimported x listed key
  · obtain ⟨parent, again, isBase⟩ := (parentName_iff named imported package n).mpr captured
    obtain rfl : resolved = parent := Except.ok.inj (means.symm.trans again)
    have same : (i.proxy == i.base) = true := ClassName.beq_iff.mpr (key.symm.trans (ClassName.beq_iff.mp isBase))
    rw [h.ne_base] at same
    cases same

namespace Machine

variable {u : SourceUnit} {d : ClassDecl} {name : ClassName} {reference source : String} {m : Machine}

theorem classUnder_autoloads (u : SourceUnit) (d : ClassDecl) (name : ClassName) (reference : String) :
    Change.Keeps Autoloads (classUnder load u d name reference) := by
  have lifted : ∀ {α : Type} (r : Except DefinitionError α), Change.Keeps Autoloads (defineWith.liftExcept r) :=
    fun _ => RunOrder.refl
  refine .bind (lifted _) fun resolved => .bind ((load_autoloads resolved).mapError _) fun p => ?_
  exact .bind (lifted _) fun _ => lifted _

/-- The text of a unit with one class, whose name is not used, is defined as the class that is built under its parent. -/
theorem define_classUnder (read : SourceUnit.ofString? source = .ok u) (one : u.declarations = [.class d])
    (refers : d.parent = some reference) (qualified : u.qualified d.name = .ok name) (unused : m.Unused name)
    (other : ∀ resolved, parentName u name reference = .ok resolved → (name == resolved) = false) :
    define source m = match classUnder load u d name reference m with
      | (.ok c, m') => (.ok c.handle, m'.addClass c)
      | (.error e, m') => (.error e, m') := by
  have defined : defineUnit u m = _ := defineWith_classUnder refers other one qualified unused.undefined
  have loads := classUnder_autoloads u d name reference m
  rcases made : classUnder load u d name reference m with ⟨e | c, m'⟩ <;> rw [made] at defined loads
  · exact define_error_of_read read defined
  · have registered : defineUnit u m = (.ok [c.handle], m'.addClass c) :=
      defined.trans (register_one (classUnder_named made) (unused.autoloads loads).undefined)
    exact define_of_read read registered (by rw [firstClass_one one]; rfl)

theorem define_malformed {f : SourceFault} (read : SourceUnit.ofString? source = .error f) (m : Machine) :
    define source m = (.error (.invalidSource (.malformed f)), m) := by
  unfold define
  rw [read]
  rfl

/-- What is defined of two texts under two names: classes that differ by the name only, or nothing, for errors that differ by
the name only. -/
inductive DefinedAlike (first second : ClassName) :
    Except DefinitionError ClassHandle × Machine → Except DefinitionError ClassHandle × Machine → Prop
  | ok {c : LoadedClass} {name : ClassName} {m : Machine} : (c.name == first) = true → (name == second) = true →
      DefinedAlike first second (.ok c.handle, m.addClass c) (.ok (c.named name).handle, m.addClass (c.named name))
  | error {x y : DefinitionError} {name other : ClassName} {m : Machine} : (name == first) = true →
      (other == second) = true → x.Alike name.text other.text y → DefinedAlike first second (.error x, m) (.error y, m)

theorem Unused.congr {n k : ClassName} (h : m.Unused n) (same : (k == n) = true) : m.Unused k where
  undefined := (isDefined_congr same).trans h.undefined
  undeclared := fun v hv d hd names => h.undeclared v hv d hd (names.congr same)

/-- Texts of units with one class are defined alike if nothing but the name of the class tells the units apart. -/
theorem define_alike {v : SourceUnit} {e : ClassDecl} {other : String} {k first second : ClassName}
    (read : SourceUnit.ofString? source = .ok u) (read' : SourceUnit.ofString? other = .ok v)
    (one : u.declarations = [.class d]) (one' : v.declarations = [.class e]) (refers : d.parent = some reference)
    (refers' : e.parent = some reference) (package : v.package = u.package) (imports : v.imports = u.imports)
    (members : e.members = d.members) (isFinal : e.isFinal = d.isFinal) (qualified : u.qualified d.name = .ok name)
    (qualified' : v.qualified e.name = .ok k) (isFirst : (name == first) = true) (isSecond : (k == second) = true)
    (unused : m.Unused name) (unused' : m.Unused k)
    (outside : ∀ resolved, parentName u name reference = .ok resolved → (name == resolved) = false)
    (outside' : ∀ resolved, parentName v k reference = .ok resolved → (k == resolved) = false) :
    DefinedAlike first second (define source m) (define other m) := by
  have left := define_classUnder read one refers qualified unused outside
  have right := define_classUnder read' one' refers' qualified' unused' outside'
  have parallel : Parallel name k (fun c c' => c' = c.named k) (classUnder load u d name reference)
      (classUnder load v e k reference) :=
    classUnder_parallel load package imports members isFinal
  obtain ⟨outcomes, machine⟩ := parallel m
  rw [left, right]
  rcases made : classUnder load u d name reference m with ⟨r, m'⟩
  rcases made' : classUnder load v e k reference m with ⟨r', m''⟩
  rw [made, made'] at outcomes machine
  obtain rfl : m'' = m' := machine
  cases outcomes with
  | error alike => exact .error isFirst isSecond alike
  | @ok c c' renamed =>
    obtain rfl : c' = c.named k := renamed
    have called := classUnder_named made
    exact .ok (called ▸ isFirst) isSecond

end Machine

/-- What it takes for the name of a proxy to mean nothing else where the proxy is made of a unit. -/
structure Machine.FreeFor (m : Machine) (i : Identity) (u : SourceUnit) : Prop where
  unused : m.Unused i.proxy
  unimported : ∀ x ∈ u.imports, asciiLower x.path ≠ i.proxy.key

/-- The texts of two proxies that are made of the same are defined alike. -/
theorem Workshop.Made.define_alike {w w' : Workshop} {i j : Identity} {proxy u : SourceUnit} {hooks : HookSet}
    {classes : List Ancestor} {m : Machine} (made : Made w w' i proxy hooks u classes) (ofTexts : w.OfTexts)
    (suffixed : i.Suffixed) (suffixed' : j.Suffixed) (same : j.base = i.base)
    (length : j.suffix.length = i.suffix.length) (free : m.FreeFor i u) (free' : m.FreeFor j u) (width : Nat) :
    DefinedAlike i.proxy j.proxy (define (proxy.print width) m) (define ((proxy.renamed j.proxy.short).print width) m) := by
  have made' := made.renamed same
  have readUnit := made.unit_readable ofTexts
  obtain ⟨d, name, isOpen, refers, rfl, spelt, every⟩ :=
    weave_spelt readUnit (made.hooks_spelt ofTexts) suffixed.short made.woven
  by_cases named : IsDotted i.base.text
  · have read := made.ofString?_print ofTexts suffixed.short named width
    have read' := made'.ofString?_print ofTexts suffixed'.short (same ▸ named) width
    have package := made.package
    have package' := made'.package
    obtain ⟨n, qualified, isProxy⟩ := SourceUnit.qualified_short readUnit.package (suffixed.package?.symm ▸ package)
    obtain ⟨n', qualified', isProxy'⟩ := SourceUnit.qualified_short readUnit.package (suffixed'.package?.symm ▸ package')
    let e : ClassDecl := { d with members := d.members.map Member.reread }
    apply Machine.define_alike (d := e) (e := { e with name := j.proxy.short }) read read' rfl rfl refers refers rfl rfl rfl
      rfl (name ▸ qualified) qualified' isProxy isProxy' (free.unused.congr isProxy) (free'.unused.congr isProxy')
    · exact fun _ => suffixed.parent_ne readUnit.package readUnit.imports package free.unimported isProxy
    · exact fun _ => same ▸ suffixed'.parent_ne readUnit.package readUnit.imports package' free'.unimported isProxy'
  · obtain ⟨f, refused⟩ :=
      SourceUnit.exists_fault_of_not_isDotted readUnit.package readUnit.imports spelt every isOpen refers named width
    have length' : j.proxy.short.length = d.name.length := by
      rw [name, suffixed.length_short, suffixed'.length_short, same, length]
    have fault := refused d.name (name ▸ suffixed.short) rfl
    have fault' := refused j.proxy.short suffixed'.short length'
    rw [define_malformed fault m, SourceUnit.renamed_one rfl, define_malformed fault' m]
    exact .error (ClassName.beq_self _) (ClassName.beq_self _) (.inl rfl)

namespace Session

variable {s t : Session} {i j : Identity} {w : Workshop} {unit : SourceUnit} {width : Nat}

/-- The name of a proxy is used nowhere in a session, as one with a suffix that is drawn at random is not. -/
structure Fresh (s : Session) (i : Identity) : Prop where
  unused : s.machine.Unused i.proxy
  new : s.ledger.contains i.proxy = false
  unimported : ∀ u, s.workshop.units.Supplies u → ∀ x ∈ u.imports, asciiLower x.path ≠ i.proxy.key

/-- Outcomes of making a proxy under two names: units that are equal but for the name, in sessions that go on from the same
units and hooks; or errors that are equal but for the name, in the same session. -/
inductive Alike (i j : Identity) : Except ProxyError Proxy × Session → Except ProxyError Proxy × Session → Prop
  | made {p q : Proxy} {s t : Session} : p.identity = i → q.identity = j → q.unit = p.unit.renamed j.proxy.short →
      q.handle.methods = p.handle.methods → t.workshop = s.workshop → Alike i j (.ok p, s) (.ok q, t)
  | failed {e : ProxyError} {s : Session} : Alike i j (.error e, s) (.error e, s)
  | refused {x y : DefinitionError} {name other : ClassName} {s : Session} : (name == i.proxy) = true →
      (other == j.proxy) = true → x.Alike name.text other.text y →
      Alike i j (.error (.activation i.proxy.text x), s) (.error (.activation j.proxy.text y), s)

/-- What is made of texts that are defined alike. -/
theorem activate_alike {v : SourceUnit} (renamed : v = unit.renamed j.proxy.short) (new : s.ledger.contains i.proxy = false)
    (new' : s.ledger.contains j.proxy = false) (defined : Machine.DefinedAlike i.proxy j.proxy
      (Machine.define (s.printer.print unit) s.machine) (Machine.define (s.printer.print v) s.machine)) :
    Alike i j (activate i unit s) (activate j v s) := by
  generalize first : Machine.define (s.printer.print unit) s.machine = left at defined
  generalize second : Machine.define (s.printer.print v) s.machine = right at defined
  unfold activate define
  cases defined with
  | error isProxy isProxy' alike =>
    simp only [first, second, new, new', Bool.false_eq_true, if_false]
    exact .refused isProxy isProxy' alike
  | ok isProxy isProxy' =>
    rename_i c name m
    have recorded : s.ledger.record ⟨i, c.handle⟩ = .ok ⟨s.ledger.records ++ [⟨i, c.handle⟩]⟩ := record_new new
    have recorded' : s.ledger.record ⟨j, (c.named name).handle⟩ = _ := record_new new'
    have called : (c.handle.name == i.proxy) = true := isProxy
    have called' : ((c.named name).handle.name == j.proxy) = true := isProxy'
    simp only [first, second, new, new', called, called', recorded, recorded', Bool.false_eq_true, if_false, if_true]
    exact .made rfl rfl renamed rfl rfl

/-- Proxies of a class are made alike under two names that are used nowhere. -/
theorem generateAs_alike (h : s.InOrder) (standard : s.printer = .standard width) (suffixed : i.Suffixed)
    (suffixed' : j.Suffixed) (same : j.base = i.base) (length : j.suffix.length = i.suffix.length) (fresh : s.Fresh i)
    (fresh' : s.Fresh j) : Alike i j (s.generateAs UnitStore.get i) (s.generateAs UnitStore.get j) := by
  have grown := Workshop.proxyUnit_grows i s.workshop
  have renamed := Workshop.proxyUnit_renamed same s.workshop
  unfold generateAs work
  rcases ran : (Workshop.proxyUnit UnitStore.get i).run s.workshop with ⟨e | unit, w⟩
  all_goals
    have ran' : Workshop.proxyUnit UnitStore.get i s.workshop = _ := ran
    rw [ran'] at renamed grown
    rw [show (Workshop.proxyUnit UnitStore.get j).run s.workshop = _ from renamed]
  · exact .failed
  · obtain ⟨hooks, u, classes, made⟩ := Workshop.proxyUnit_ok ran'
    obtain ⟨units, own, after⟩ := s.setWorkshop_eq w
    have loads := autoloads_setWorkshop grown
    have supplied : s.workshop.units.Supplies u :=
      .of_extended made.grown ⟨i.base, by rw [UnitStore.get_of_unit? made.unit]⟩
    have free : ∀ k : Identity, s.Fresh k → (s.setWorkshop w).machine.FreeFor k u :=
      fun k fresh => ⟨fresh.unused.autoloads loads, fresh.unimported u supplied⟩
    have text : ∀ v, (s.setWorkshop w).printer.print v = v.print width := by
      intro v
      rw [after, standard]
      rfl
    have ledger : (s.setWorkshop w).ledger = s.ledger := by rw [after]
    refine activate_alike rfl (ledger ▸ fresh.new) (ledger ▸ fresh'.new) ?_
    rw [text, text]
    exact made.define_alike h.workshop suffixed suffixed' same length (free i fresh) (free j fresh') width

/-- Where files can be read, a unit that is requested is the one that is got, or fails with the same error, and leaves the
same store: what is located for a class is the file that its source is from. So a proxy of given names is the same from
requested units, and so are the errors. Requests for a class under names that are used nowhere come out alike in a session in
order, whichever of them awaits files. -/
theorem request_agrees :
    (∀ chain : SourceChain, chain.Readable → ∀ (c : ClassName) (path text : String),
      chain.locate? c = some (path, .ok text) ↔ chain.resolve c = .ok ⟨c, text, .file path⟩) ∧
    (∀ units : UnitStore, units.places.Readable → ∀ c : ClassName, units.request c = units.get c) ∧
    (∀ s : Session, s.workshop.units.places.Readable →
      ∀ i : Identity, s.generateAs UnitStore.request i = s.generateAs UnitStore.get i) ∧
    ∀ (s : Session) (width : Nat) (r q : ProxyRequest), s.InOrder → s.workshop.units.places.Readable →
      s.printer = .standard width → r.WellNamed → q.WellNamed → q.identity.base = r.identity.base →
        s.Fresh r.identity → s.Fresh q.identity → Alike r.identity q.identity (r.run s) (q.run s) := by
  refine ⟨fun chain readable c path text => ?_, fun units readable c => ?_, fun s readable i => ?_, ?_⟩
  · constructor
    · intro located
      exact SourceChain.resolve_eq_ok.mpr ⟨text, _, UnitStore.resolveFrom_of_locate? located [], rfl⟩
    · intro resolved
      obtain ⟨_, _, found, same⟩ := SourceChain.resolve_eq_ok.mp resolved
      cases same
      exact UnitStore.locate?_of_resolveFrom (readable c) found
  · rcases units.request_cases c with same | ⟨path, fault, located, -⟩
    · exact same
    · exact absurd located (readable c path fault)
  · rcases s.generateAs_request i with same | ⟨unreadable, -⟩
    · exact same
    · exact absurd readable unreadable
  · intro s width r q h readable standard named named' same fresh fresh'
    have direct : ∀ r : ProxyRequest, r.run s = s.generateAs UnitStore.get r.identity := fun r =>
      (r.run_cases s).resolve_right fun unread => unread.1 readable
    rw [direct, direct]
    exact generateAs_alike h standard named.suffixed named'.suffixed same (named'.length.trans named.length.symm) fresh
      fresh'

theorem bell_unused {n : ClassName} (undefined : (bellSession quiet quietHooks).machine.isDefined n = false)
    (other : (bell == n) = false) : (bellSession quiet quietHooks).machine.Unused n := by
  refine ⟨undefined, fun v hv d hd => ?_⟩
  obtain rfl := eq_bellUnit hv
  obtain rfl := List.mem_singleton.mp hd
  rintro ⟨k, qualified, named⟩
  have called : bellUnit.qualified "Bell" = .ok bell := rfl
  obtain rfl : bell = k := Except.ok.inj (called.symm.trans qualified)
  rw [other] at named
  cases named

theorem bell_fresh {i : Identity} (undefined : (bellSession quiet quietHooks).machine.isDefined i.proxy = false)
    (other : (bell == i.proxy) = false) : (bellSession quiet quietHooks).Fresh i where
  unused := bell_unused undefined other
  new := rfl
  unimported := by
    intro u supplied
    obtain rfl : u = bellUnit := eq_bellUnit ⟨_, rfl, supplied⟩
    exact nofun

/-- The second request awaits files and the first does not. -/
theorem request_agrees_bell : ∃ p q s t, bellRequest.run (bellSession quiet quietHooks) = (.ok p, s) ∧
    laterBellRequest.run (bellSession quiet quietHooks) = (.ok q, t) ∧
    q.unit = p.unit.renamed laterBellRequest.identity.proxy.short ∧ t.workshop = s.workshop := by
  have alike := request_agrees.2.2.2 (bellSession quiet quietHooks) 4 bellRequest laterBellRequest bell_inOrder nofun rfl
    (numbered_wellNamed bell (by decide) _) (numbered_wellNamed bell (by decide) _) rfl (bell_fresh rfl (by decide))
    (bell_fresh rfl (by decide))
  have first : bellRequest.run (bellSession quiet quietHooks) = _ := (ProxyRequest.run_eq rfl _).trans bell_generates
  rw [first] at alike ⊢
  generalize laterBellRequest.run (bellSession quiet quietHooks) = later at alike
  cases alike with
  | made _ _ renamed _ units => exact ⟨_, _, _, _, rfl, rfl, renamed, units⟩

end Session

end AspectProxy
