import AspectProxy.Proofs.ClassTable.Atomic
import AspectProxy.Proofs.Session.Operations
import AspectProxy.Proofs.Session.ProxyOfProxy

/-!
The ledger over whole runs. A request for a proxy either defines the class of the proxy and enters it, or it enters
nothing and leaves in the class table no more than the classes that were loaded for it: once the class is defined, no check
is left that can fail.
-/

namespace AspectProxy

open Machine

/-- The class that the text of a proxy is defined as: it stands last in the table, under the name of the proxy. -/
structure Machine.Stands (before after : Machine) (i : Identity) (proxy : SourceUnit) (c : LoadedClass) : Prop where
  entered : ∃ m, Autoloads before m ∧ after.units = m.units ∧ Entered proxy.reread m after [c]
  declares : ∃ d, proxy.declarations = [.class d] ∧ d.parent = some i.base.text
  named : (c.name == i.proxy) = true

theorem Workshop.Made.define_ends {w w' : Workshop} {i : Identity} {proxy u : SourceUnit} {hooks : HookSet}
    {classes : List Ancestor} (made : Made w w' i proxy hooks u classes) (ofTexts : w.OfTexts) (suffixed : i.Suffixed)
    (width : Nat) (m : Machine) :
    (define (proxy.print width)).Ends m (fun handle m' => ∃ c, Stands m m' i proxy c ∧ handle = c.handle)
      fun m' => Autoloads m m' := by
  refine (define_entered (proxy.print width) m).mono ?_ fun _ h => h
  rintro handle m' ⟨v, m₁, added, read, loads, units, entered, first⟩
  obtain ⟨base, rfl⟩ := made.ofString?_print_ok ofTexts suffixed.short read
  have readable := made.readable ofTexts suffixed.short base
  obtain ⟨n, qualified, named⟩ := SourceUnit.qualified_short readable.package (suffixed.package?.symm ▸ made.package)
  obtain ⟨d, wrapped, -, -, rfl⟩ := weave_ok made.woven
  obtain ⟨c, rest, became, none, rfl⟩ := List.forall₂_cons_left_iff.mp entered.became
  obtain rfl := List.forall₂_nil_left_iff.mp none
  obtain rfl : n = c.name := Except.ok.inj (qualified.symm.trans became.qualified)
  exact ⟨c, ⟨⟨m₁, loads, units, entered⟩, ⟨_, rfl, rfl⟩, named⟩, (Option.some.inj first).symm⟩

/-- A class that is there after loading was there before, or came of a unit that could be loaded. -/
theorem Machine.Autoloads.mem_classes {m m' : Machine} (loads : m.Autoloads m') {c : LoadedClass} (hc : c ∈ m'.classes) :
    c ∈ m.classes ∨ m.Brings c := by
  obtain ⟨loaded, classes, brought⟩ := loads.grown
  rw [classes] at hc
  exact (List.mem_append.mp hc).imp_right (brought c)

namespace Session

variable {s t s₁ : Session} {i : Identity} {p : Proxy} {w : Workshop} {machine : Machine} {width : Nat}

/-- Work in the workshop makes no unit available that was not. -/
theorem autoloads_setWorkshop (grown : s.workshop.Grown w) : s.machine.Autoloads (s.setWorkshop w).machine := by
  have continues := (advances_setWorkshop grown).machine.units
  refine .of_classes ?_ fun v hv => ?_
  · obtain ⟨units, own, same⟩ := s.setWorkshop_eq w
    rw [same]
  · rw [supplies_iff_store] at hv ⊢
    exact hv.of_extended continues

/-- The class of a proxy that was made. -/
theorem Generated.stands (made : Generated s s₁ i p w machine) (h : s.InOrder) (standard : s.printer = .standard width)
    (suffixed : i.Suffixed) : ∃ c, Stands s.machine s₁.machine i p.unit c ∧ p.handle = c.handle := by
  obtain ⟨hooks, u, classes, workshop⟩ := Workshop.proxyUnit_ok made.woven
  have grown : s.workshop.Grown w := by
    have grown := Workshop.proxyUnit_grows i s.workshop
    rwa [made.woven] at grown
  have text : p.source = p.unit.print width := by rw [made.source, standard]; rfl
  have ends := workshop.define_ends h.workshop suffixed width (s.setWorkshop w).machine
  rw [← text, Change.Ends, made.defined] at ends
  obtain ⟨c, ⟨⟨m, loads, units, entered⟩, declares, named⟩, handle⟩ := ends
  rw [made.after]
  exact ⟨c, ⟨⟨m, RunOrder.trans (autoloads_setWorkshop grown) loads, units, entered⟩, declares, named⟩, handle⟩

/-- A request that fails enters nothing, and leaves only what was loaded for it. -/
theorem generateAs_error {e : ProxyError} (h : s.InOrder) (standard : s.printer = .standard width) (suffixed : i.Suffixed)
    (failed : s.generateAs UnitStore.get i = (.error e, t)) : t.ledger = s.ledger ∧ s.machine.Autoloads t.machine := by
  have grown := Workshop.proxyUnit_grows i s.workshop
  unfold generateAs work at failed
  rcases ran : (Workshop.proxyUnit UnitStore.get i).run s.workshop with ⟨problem | unit, w⟩
  all_goals
    rw [ran] at failed
    rw [show Workshop.proxyUnit UnitStore.get i s.workshop = _ from ran] at grown
    have worked := autoloads_setWorkshop grown
    obtain ⟨units, own, same⟩ := s.setWorkshop_eq w
  · cases failed
    exact ⟨by rw [same], worked⟩
  · obtain ⟨hooks, u, classes, workshop⟩ := Workshop.proxyUnit_ok ran
    have ends := workshop.define_ends h.workshop suffixed width (s.setWorkshop w).machine
    have text : (s.setWorkshop w).printer.print unit = unit.print width := by rw [same, standard]; rfl
    have ledger : (s.setWorkshop w).ledger = s.ledger := by rw [same]
    unfold Change.Ends at ends
    unfold activate define at failed
    simp only [text] at failed
    cases taken : (s.setWorkshop w).ledger.contains i.proxy with
    | true =>
      simp only [taken, if_true] at failed
      cases failed
      exact ⟨ledger, worked⟩
    | false =>
      rcases defined : Machine.define (unit.print width) (s.setWorkshop w).machine with ⟨problem | handle, m⟩ <;>
        rw [defined] at ends <;> simp only [taken, defined, Bool.false_eq_true, if_false] at failed
      · cases failed
        exact ⟨ledger, RunOrder.trans worked ends⟩
      · -- The class has the name of the proxy, and the name is new to the ledger.
        obtain ⟨c, stands, rfl⟩ := ends
        have named : (c.handle.name == i.proxy) = true := stands.named
        have recorded : (s.setWorkshop w).ledger.record ⟨i, c.handle⟩ =
            .ok ⟨(s.setWorkshop w).ledger.records ++ [⟨i, c.handle⟩]⟩ := record_new taken
        simp only [named, if_true, recorded] at failed
        cases failed

/-- A proxy whose text is not defined is not made. -/
theorem generateAs_refused {unit : SourceUnit} {e : DefinitionError}
    (woven : Workshop.proxyUnit UnitStore.get i s.workshop = (.ok unit, w))
    (new : s.ledger.contains i.proxy = false)
    (refused : Machine.define (s.printer.print unit) (s.setWorkshop w).machine = (.error e, machine)) :
    s.generateAs UnitStore.get i =
      (.error (.activation i.proxy.text e), { s.setWorkshop w with numbered := s.numbered + 1, machine }) := by
  have woven : (Workshop.proxyUnit UnitStore.get i).run s.workshop = (.ok unit, w) := woven
  obtain ⟨units, own, same⟩ := s.setWorkshop_eq w
  rw [same] at refused ⊢
  unfold generateAs work
  rw [woven]
  dsimp only
  unfold activate define
  rw [same]
  simp only [new, Bool.false_eq_true, if_false, refused]

end Session

/-- A request for a proxy of some names; the units that it takes may be requested where a host would otherwise wait for
files. -/
structure ProxyRequest where
  identity : Identity
  requesting : Bool := false

namespace ProxyRequest

def access (r : ProxyRequest) : UnitAccess :=
  if r.requesting then UnitStore.request else UnitStore.get

/-- The outcome of a request in a session. -/
def run (r : ProxyRequest) (s : Session) : Except ProxyError Proxy × Session :=
  s.generateAs r.access r.identity

theorem run_eq {r : ProxyRequest} (direct : r.requesting = false) (s : Session) :
    r.run s = s.generateAs UnitStore.get r.identity := by
  rw [run, access, direct]
  rfl

/-- A request makes the proxy that is made from units that are got, unless there are files that cannot be read. -/
theorem run_cases (r : ProxyRequest) (s : Session) : r.run s = s.generateAs UnitStore.get r.identity ∨
    ¬s.workshop.units.places.Readable ∧ ∃ e w, s.workshop.Grown w ∧ r.run s = (.error e, s.setWorkshop w) := by
  cases direct : r.requesting with
  | false => exact .inl (run_eq direct s)
  | true =>
    rw [run, access, direct]
    exact s.generateAs_request r.identity

/-- A request for which no unit is read awaits no file. -/
theorem run_of_kept {r : ProxyRequest} {s : Session} {unit : SourceUnit}
    (woven : Workshop.proxyUnit UnitStore.get r.identity s.workshop = (.ok unit, s.workshop)) :
    r.run s = s.generateAs UnitStore.get r.identity := by
  cases direct : r.requesting with
  | false => exact run_eq direct s
  | true =>
    rw [run, access, direct]
    exact s.generateAs_congr ((Workshop.proxyUnit_request_of_get woven).trans woven.symm)

theorem run_eq_ok {r : ProxyRequest} {s t : Session} {p : Proxy} (ran : r.run s = (.ok p, t)) :
    s.generateAs UnitStore.get r.identity = (.ok p, t) := by
  rcases r.run_cases s with same | ⟨-, e, w, -, failed⟩
  · exact same.symm.trans ran
  · rw [failed] at ran
    cases ran

def hexDigits : List Char :=
  ['0', '1', '2', '3', '4', '5', '6', '7', '8', '9', 'a', 'b', 'c', 'd', 'e', 'f']

/-- The proxy of a request is called as its class is, with a suffix of thirty-two hexadecimal digits. -/
structure WellNamed (r : ProxyRequest) : Prop where
  made : Identity.withSuffix r.identity.base r.identity.suffix = .ok r.identity
  length : r.identity.suffix.length = 32
  digits : ∀ c ∈ r.identity.suffix.toList, c ∈ hexDigits

namespace WellNamed

variable {r q : ProxyRequest}

theorem suffixed (h : r.WellNamed) : r.identity.Suffixed := by
  refine .of_withSuffix (List.all_eq_true.mpr fun c hc => ?_) h.made
  have parts : hexDigits.all isNamePart = true := by decide
  exact List.all_eq_true.mp parts c (h.digits c hc)

theorem lower (h : r.WellNamed) : asciiLower r.identity.suffix = r.identity.suffix := by
  have lower : hexDigits.all (fun c => c.toLower = c) = true := by decide
  have kept : ∀ c ∈ r.identity.suffix.toList, c.toLower = c := fun c hc => by
    simpa using List.all_eq_true.mp lower c (h.digits c hc)
  refine String.toList_inj.mp ?_
  rw [toList_asciiLower, List.map_congr_left kept, List.map_id']

/-- Proxies of different suffixes have different names, whatever they are proxies of. -/
theorem proxy_ne (h : r.WellNamed) (h' : q.WellNamed) (other : r.identity.suffix ≠ q.identity.suffix) :
    (r.identity.proxy == q.identity.proxy) = false := by
  refine Bool.eq_false_iff.mpr fun same => other ?_
  have keys : asciiLower r.identity.proxy.text = asciiLower q.identity.proxy.text := ClassName.beq_iff.mp same
  simp only [h.suffixed.text, h'.suffixed.text, Identity.proxyText, asciiLower_append, h.lower, h'.lower] at keys
  have texts := congrArg String.toList keys
  simp only [String.toList_append] at texts
  have lengths : r.identity.suffix.toList.length = q.identity.suffix.toList.length := by
    rw [String.length_toList, String.length_toList, h.length, h'.length]
  exact String.toList_inj.mp (List.append_inj_right' texts lengths)

end WellNamed

end ProxyRequest

namespace Session

variable {s t s' : Session} {width : Nat} {r : ProxyRequest} {p : Proxy}

/-- Runs requests one behind the other, and gives each with its outcome. -/
def serve : List ProxyRequest → Session → List (ProxyRequest × Except ProxyError Proxy) × Session
  | [], s => ([], s)
  | r :: rest, s =>
    let (outcome, s) := r.run s
    let (served, s) := serve rest s
    ((r, outcome) :: served, s)

theorem serve_cons {r : ProxyRequest} {rest : List ProxyRequest} {s s' t : Session} {outcome : Except ProxyError Proxy}
    {served : List (ProxyRequest × Except ProxyError Proxy)} (first : r.run s = (outcome, s'))
    (behind : serve rest s' = (served, t)) : serve (r :: rest) s = ((r, outcome) :: served, t) := by
  rw [serve, first]
  dsimp only
  rw [behind]

/-- The entry that a request leaves in the ledger, if it succeeds. -/
def recordOf : ProxyRequest × Except ProxyError Proxy → Option ProxyRecord
  | (r, .ok p) => some ⟨r.identity, p.handle⟩
  | (_, .error _) => none

theorem run_advances (r : ProxyRequest) (s : Session) : s.Advances (r.run s).2 := by
  rcases r.run_cases s with same | ⟨-, e, w, grown, failed⟩
  · rw [same]
    exact generateAs_advances r.identity s
  · rw [failed]
    exact advances_setWorkshop grown

/-- What a request that succeeds leaves. -/
theorem run_ok (h : s.InOrder) (standard : s.printer = .standard width) (named : r.WellNamed)
    (ran : r.run s = (.ok p, s')) : ∃ c, Stands s.machine s'.machine r.identity p.unit c ∧ p.handle = c.handle ∧
      s.ledger.contains r.identity.proxy = false ∧ s'.ledger.records = s.ledger.records ++ [⟨r.identity, p.handle⟩] := by
  obtain ⟨w, machine, made⟩ := generateAs_ok.mp (r.run_eq_ok ran)
  obtain ⟨c, stands, handle⟩ := made.stands h standard named.suffixed
  refine ⟨c, stands, handle, made.new, ?_⟩
  rw [made.after]

theorem run_error {e : ProxyError} (h : s.InOrder) (standard : s.printer = .standard width) (named : r.WellNamed)
    (ran : r.run s = (.error e, s')) : s'.ledger = s.ledger ∧ s.machine.Autoloads s'.machine := by
  rcases r.run_cases s with same | ⟨-, problem, w, grown, failed⟩
  · exact generateAs_error h standard named.suffixed (same.symm.trans ran)
  · rw [failed] at ran
    cases ran
    obtain ⟨units, own, after⟩ := s.setWorkshop_eq w
    exact ⟨by rw [after], autoloads_setWorkshop grown⟩

/-- What a run of requests leaves: an entry for each that succeeded, with the class that its proxy has, and no other classes
but those that were there and what was loaded. -/
structure Served (before after : Session) (served : List (ProxyRequest × Except ProxyError Proxy)) : Prop where
  advances : before.Advances after
  records : after.ledger.records = before.ledger.records ++ served.filterMap recordOf
  made : ∀ r p, (r, .ok p) ∈ served → after.ledger.get? r.identity.proxy = some ⟨r.identity, p.handle⟩ ∧
    ∃ c, after.machine.class? r.identity.proxy = some c ∧ p.handle = c.handle
  classes : ∀ c ∈ after.machine.classes, c ∈ before.machine.classes ∨ before.machine.Brings c ∨
    ∃ x ∈ served.filterMap recordOf, (c.name == x.proxy) = true
  supplied : ∀ v, after.machine.Supplies v → before.machine.Supplies v

theorem get?_of_records {l l' : Ledger} {added : List ProxyRecord} (records : l'.records = l.records ++ added)
    {n : ClassName} {x : ProxyRecord} (found : l.get? n = some x) : l'.get? n = some x := by
  rw [Ledger.get?, records, List.find?_append, show l.records.find? _ = some x from found]
  rfl

theorem get?_record {l l' : Ledger} {x : ProxyRecord} (records : l'.records = l.records ++ [x])
    (new : l.contains x.proxy = false) : l'.get? x.proxy = some x := by
  have none : l.records.find? (fun r => r.proxy == x.proxy) = none := by simpa [Ledger.contains, Ledger.get?] using new
  rw [Ledger.get?, records, List.find?_append, none]
  simp

/-- A run behind another, which keeps the entries and the classes of the first. -/
theorem Served.append {t' : Session} {first later : List (ProxyRequest × Except ProxyError Proxy)} (ordered : t.InOrder)
    (before : Served s t first) (behind : Served t t' later) : Served s t' (first ++ later) where
  advances := before.advances.trans behind.advances
  records := by rw [behind.records, before.records, List.filterMap_append, List.append_assoc]
  made := by
    intro r p hr
    rcases List.mem_append.mp hr with hr | hr
    · obtain ⟨entry, c, found, handle⟩ := before.made r p hr
      obtain ⟨more, classes⟩ := (behind.advances.keeps ordered.table).classes
      exact ⟨get?_of_records behind.records entry, c, class?_of_append classes.symm found, handle⟩
    · exact behind.made r p hr
  classes := by
    intro c hc
    rw [List.filterMap_append]
    rcases behind.classes c hc with hc | ⟨v, hv, became⟩ | ⟨x, hx, named⟩
    · refine (before.classes c hc).imp_right (Or.imp_right ?_)
      exact fun ⟨x, hx, named⟩ => ⟨x, List.mem_append_left _ hx, named⟩
    · exact .inr (.inl ⟨v, before.supplied v hv, became⟩)
    · exact .inr (.inr ⟨x, List.mem_append_right _ hx, named⟩)
  supplied := fun v hv => before.supplied v (behind.supplied v hv)

/-- What one request leaves. -/
theorem run_served (h : s.InOrder) (standard : s.printer = .standard width) (named : r.WellNamed) :
    Served s (r.run s).2 [(r, (r.run s).1)] := by
  have advances := run_advances r s
  rcases ran : r.run s with ⟨e | p, s'⟩ <;> rw [ran] at advances
  · obtain ⟨ledger, loads⟩ := run_error h standard named ran
    refine ⟨advances, by simp [ledger, recordOf], ?_, fun c hc => (loads.mem_classes hc).imp_right .inl, loads.supplied⟩
    intro q p hq
    cases List.mem_singleton.mp hq
  · obtain ⟨c, ⟨⟨m, loads, units, entered⟩, -, isProxy⟩, handle, new, records⟩ := run_ok h standard named ran
    have entry : List.filterMap recordOf [(r, .ok p)] = [⟨r.identity, p.handle⟩] := rfl
    refine ⟨advances, entry ▸ records, ?_, fun d hd => ?_, fun v hv => loads.supplied v (hv.of_units units)⟩
    · intro q x hq
      cases List.mem_singleton.mp hq
      have found : s'.machine.class? r.identity.proxy = some c :=
        (class?_congr isProxy).symm.trans (entered.found c List.mem_cons_self)
      exact ⟨get?_record (x := ⟨r.identity, p.handle⟩) records new, c, found, handle⟩
    · rw [entered.classes] at hd
      rcases List.mem_append.mp hd with hd | hd
      · exact (loads.mem_classes hd).imp_right .inl
      · obtain rfl := List.mem_singleton.mp hd
        rw [entry]
        exact .inr (.inr ⟨_, List.mem_singleton_self _, isProxy⟩)

theorem serve_served {requests : List ProxyRequest} (h : s.InOrder) (standard : s.printer = .standard width)
    (named : ∀ r ∈ requests, r.WellNamed) : Served s (serve requests s).2 (serve requests s).1 := by
  induction requests generalizing s with
  | nil => exact ⟨.refl s, by simp [serve], nofun, fun _ => .inl, fun _ => id⟩
  | cons r rest ih =>
    obtain ⟨here, later⟩ := List.forall_mem_cons.mp named
    have first := run_served h standard here
    have ordered := h.advances first.advances
    exact first.append ordered (ih ordered (first.advances.printer.trans standard) later)

theorem serve_fst (requests : List ProxyRequest) (s : Session) : (serve requests s).1.map (·.1) = requests := by
  induction requests generalizing s with
  | nil => rfl
  | cons r rest ih => exact congrArg (r :: ·) (ih (r.run s).2)

/-- A request that failed shares the name of its proxy with none that succeeded. -/
theorem recordOf_apart {served : List (ProxyRequest × Except ProxyError Proxy)} (named : ∀ x ∈ served, x.1.WellNamed)
    (distinct : (served.map (·.1.identity.suffix)).Nodup) {e : ProxyError} (failed : (r, .error e) ∈ served) :
    ∀ x ∈ served.filterMap recordOf, (x.proxy == r.identity.proxy) = false := by
  intro x hx
  obtain ⟨⟨q, outcome⟩, hq, entry⟩ := List.mem_filterMap.mp hx
  cases outcome with
  | error problem => cases entry
  | ok p =>
    cases entry
    refine (named _ hq).proxy_ne (named _ failed) fun same => ?_
    cases List.inj_on_of_nodup_map distinct hq failed same

/-- At every point of a run of requests, from a session whose ledger is empty: the ledger has one entry for each request
that succeeded, in order, which is found by the name of the proxy and tells the class that the request was for; the class
of the proxy is defined, and its handle lists its methods. A request that failed has no entry, and the name of its proxy is
not defined, but for a class that was there before or was loaded from a unit that declares it. Whatever request comes next,
no class and no unit is replaced, and if it fails, the ledger stays and no class enters but by loading. -/
theorem serve_ledger {requests : List ProxyRequest} {served : List (ProxyRequest × Except ProxyError Proxy)}
    (h : s.InOrder) (standard : s.printer = .standard width) (empty : s.ledger.records = [])
    (named : ∀ r ∈ requests, r.WellNamed) (distinct : (requests.map (·.identity.suffix)).Nodup)
    (ran : serve requests s = (served, t)) :
    served.map (·.1) = requests ∧ t.ledger.records = served.filterMap recordOf ∧
    (∀ r p, (r, .ok p) ∈ served →
      t.ledger.get? r.identity.proxy = some ⟨r.identity, p.handle⟩ ∧
        t.ledger.origin? r.identity.proxy = some r.identity.base ∧
        ∃ c, t.machine.class? r.identity.proxy = some c ∧ p.handle = ⟨c.name, c.own.methods.map (·.name)⟩) ∧
    (∀ r e, (r, .error e) ∈ served →
      t.ledger.contains r.identity.proxy = false ∧
        ∀ c, t.machine.class? r.identity.proxy = some c → c ∈ s.machine.classes ∨ s.machine.Brings c) ∧
    ∀ r : ProxyRequest, r.WellNamed → ∀ outcome t', r.run t = (outcome, t') →
      (∀ n c, t.machine.class? n = some c → t'.machine.class? n = some c) ∧
        (∀ n u, t.workshop.units.unit? n = some u → t'.workshop.units.unit? n = some u) ∧
        ∀ e, outcome = .error e → t'.ledger = t.ledger ∧ t.machine.Autoloads t'.machine := by
  have all := serve_served h standard named
  have requested := serve_fst requests s
  rw [ran] at all requested
  have records : t.ledger.records = served.filterMap recordOf := by rw [all.records, empty, List.nil_append]
  have ordered := h.advances all.advances
  refine ⟨requested, records, fun r p hr => ?_, fun r e hr => ?_, fun r hr outcome t' next => ?_⟩
  · obtain ⟨entry, c, found, handle⟩ := all.made r p hr
    exact ⟨entry, by rw [Ledger.origin?, entry]; rfl, c, found, handle⟩
  · have wellNamed : ∀ x ∈ served, x.1.WellNamed := fun x hx => named _ (requested ▸ List.mem_map_of_mem hx)
    have suffixes : (served.map (·.1.identity.suffix)).Nodup := by
      rw [← requested, List.map_map] at distinct
      exact distinct
    have apart := recordOf_apart wellNamed suffixes hr
    refine ⟨?_, fun c found => ?_⟩
    rotate_left
    · rcases all.classes c (List.mem_of_find?_eq_some found) with before | loaded | ⟨x, hx, named⟩
      · exact .inl before
      · exact .inr loaded
      · have isProxy : (c.name == r.identity.proxy) = true := by simpa using List.find?_some found
        rw [ClassName.beq_congr_left named, apart x hx] at isProxy
        cases isProxy
    have none : t.ledger.records.find? (fun x => x.proxy == r.identity.proxy) = none :=
      List.find?_eq_none.mpr fun x hx => by simp [apart x (records ▸ hx)]
    rw [Ledger.contains, Ledger.get?, none]
    rfl
  · have advanced := run_advances r t
    rw [next] at advanced
    obtain ⟨more, classes⟩ := (advanced.keeps ordered.table).classes
    refine ⟨fun n c => class?_of_append classes.symm, fun n u => advanced.workshop.units.unit?, ?_⟩
    rintro e rfl
    exact run_error ordered (all.advances.printer.trans standard) hr next

theorem bell_inOrder : (bellSession quiet quietHooks).InOrder := by
  have units : UnitStore.OfTexts { places := [.memory []], units := [(bell, bellUnit)] } :=
    List.forall_mem_singleton.mpr ⟨_, bell_read⟩
  refine ⟨(bell_reachable quiet).ordered, units, units, ?_⟩
  rintro _ ⟨⟩
  exact ⟨_, _, quiet_read, ofUnit_quietUnit⟩

def bellRequest : ProxyRequest :=
  ⟨bellIdentity, false⟩

/-- A request for a proxy of a class that has no source. -/
def gongRequest : ProxyRequest :=
  ⟨.numbered ⟨"app.Gong", by decide⟩ 2, true⟩

theorem gong_fails : ∃ e t, gongRequest.run (bellProxied quiet quietHooks) = (.error e, t) :=
  ⟨_, _, rfl⟩

theorem numbered_wellNamed (c : ClassName) {n : Nat} (low : n ∈ [1, 2]) (requesting : Bool) :
    (⟨.numbered c n, requesting⟩ : ProxyRequest).WellNamed := by
  have digits : ∀ n ∈ [1, 2], ∀ c ∈ (Identity.serialSuffix n).toList, c ∈ ProxyRequest.hexDigits := by
    have all : [1, 2].all (fun n => (Identity.serialSuffix n).toList.all (· ∈ ProxyRequest.hexDigits)) = true := by decide
    simpa only [List.all_eq_true, decide_eq_true_eq] using all
  have lengths : ∀ n ∈ [1, 2], (Identity.serialSuffix n).length = 32 := by decide
  exact ⟨Identity.withSuffix_serialSuffix _ n, lengths n low, digits n low⟩

theorem bell_wellNamed : ∀ r ∈ [bellRequest, gongRequest], r.WellNamed :=
  List.forall_mem_cons.mpr ⟨numbered_wellNamed _ (by decide) _,
    List.forall_mem_singleton.mpr (numbered_wellNamed _ (by decide) _)⟩

theorem eq_bellUnit {v : SourceUnit} (h : (bellSession quiet quietHooks).machine.Supplies v) : v = bellUnit := by
  obtain ⟨_, ⟨⟩, given⟩ := h
  obtain ⟨e, there, rfl⟩ := given.mem_units fun c => ⟨_, rfl⟩
  rw [List.mem_singleton.mp there]

/-- No other class is there or can be loaded. -/
theorem bell_name {c : LoadedClass}
    (h : c ∈ (bellSession quiet quietHooks).machine.classes ∨ (bellSession quiet quietHooks).machine.Brings c) :
    c.name = bell := by
  rcases h with listed | ⟨v, hv, d, hd, became⟩
  · have listed : c ∈ [bellClass] := listed
    rw [List.mem_singleton.mp listed]
    rfl
  · obtain rfl := eq_bellUnit hv
    obtain rfl := List.mem_singleton.mp hd
    have called : bellUnit.qualified "Bell" = .ok bell := rfl
    exact Except.ok.inj (became.qualified.symm.trans called)

theorem bell_generates : (bellSession quiet quietHooks).generateAs UnitStore.get bellIdentity =
    (.ok (bellMade quietHooks), bellProxied quiet quietHooks) := by
  have stable := HookSet.meets (SourceUnit.stable_of_keptFloats quiet_keptFloats quiet_read) ofUnit_quietUnit
  exact generateAs_ok.mpr ⟨_, _, bell_generated quiet stable rfl rfl⟩

/-- The class is proxied and has an entry; the class without a source has none, and its proxy is not defined. -/
theorem serve_ledger_bell : ∃ p e t,
    serve [bellRequest, gongRequest] (bellSession quiet quietHooks) =
      ([(bellRequest, .ok p), (gongRequest, .error e)], t) ∧
    t.ledger.records = [⟨bellIdentity, p.handle⟩] ∧ t.ledger.origin? bellIdentity.proxy = some bell ∧
    t.ledger.contains gongRequest.identity.proxy = false ∧ t.machine.isDefined gongRequest.identity.proxy = false := by
  obtain ⟨e, t, failed⟩ := gong_fails
  have ran : serve [bellRequest, gongRequest] (bellSession quiet quietHooks) =
      ([(bellRequest, .ok (bellMade quietHooks)), (gongRequest, .error e)], t) := by
    have first : bellRequest.run (bellSession quiet quietHooks) = _ := (ProxyRequest.run_eq rfl _).trans bell_generates
    exact serve_cons first (serve_cons failed rfl)
  obtain ⟨-, records, entries, failures, -⟩ :=
    serve_ledger bell_inOrder rfl rfl bell_wellNamed (by decide) ran
  obtain ⟨-, origin, -⟩ := entries bellRequest _ List.mem_cons_self
  obtain ⟨absent, others⟩ := failures gongRequest e (List.mem_cons_of_mem _ List.mem_cons_self)
  refine ⟨_, e, t, ran, records, origin, absent, ?_⟩
  cases found : t.machine.class? gongRequest.identity.proxy with
  | none => simp [Machine.isDefined, found]
  | some c =>
    have named : (c.name == gongRequest.identity.proxy) = true := by simpa using List.find?_some found
    rw [bell_name (others c found)] at named
    exact absurd named (by decide)

def whale : ClassName :=
  ⟨"app.Whale", by decide⟩

def whaleRequest : ProxyRequest :=
  ⟨.numbered whale 1, false⟩

/-- A class, and a helper that has the name of the proxy. -/
def whaleUnit : SourceUnit where
  package := some "app"
  declarations := [.class ⟨"Whale", false, none, [.method ringMethod]⟩,
    .class ⟨"Whale_00000000000000000000000000000001", false, none, []⟩]

theorem whale_read : SourceUnit.ofString?
    "package app; class Whale { fn ring() {} } class Whale_00000000000000000000000000000001 {}" = .ok whaleUnit :=
  SourceUnit.eq_ok_of_beq (by decide +kernel)

/-- A session that has read the unit, but has not loaded its classes. -/
def whaleSession : Session where
  machine := { units := some { places := [.memory []], units := [(whale, whaleUnit)] } }
  aspect := quiet
  hooks := some quietHooks

def whaleProxy : SourceUnit where
  package := some "app"
  declarations := [.class (proxyDeclaration quietHooks whaleRequest.identity [ringMethod])]

theorem whale_inOrder : whaleSession.InOrder := by
  have units : UnitStore.OfTexts { places := [.memory []], units := [(whale, whaleUnit)] } :=
    List.forall_mem_singleton.mpr ⟨_, whale_read⟩
  refine ⟨.empty, units, units, ?_⟩
  rintro _ ⟨⟩
  exact ⟨_, _, quiet_read, ofUnit_quietUnit⟩

theorem whale_woven : Workshop.proxyUnit UnitStore.get whaleRequest.identity whaleSession.workshop =
    (.ok whaleProxy, whaleSession.workshop) := by
  have woven : weave {} quietHooks whaleRequest.identity whaleUnit [] = .ok whaleProxy :=
    SourceUnit.eq_ok_of_beq (by decide)
  exact Workshop.proxyUnit_run rfl rfl (Workshop.hookSet_of_known rfl) woven

/-- The proxy stands below the class, and with the class its helper is loaded. -/
theorem whale_stops : (Machine.defineUnit whaleProxy whaleSession.machine).1.toOption.isSome = false ∧
    (Machine.defineUnit whaleProxy whaleSession.machine).2.isDefined whaleRequest.identity.proxy = true := by
  decide

/-- A request that fails as its class is loaded together with a helper that has the name of the proxy, which stays. -/
theorem helper_takes_name : whaleSession.InOrder ∧ whaleSession.printer = .standard 4 ∧ whaleSession.ledger.records = [] ∧
    whaleRequest.WellNamed ∧ whaleSession.machine.isDefined whaleRequest.identity.proxy = false ∧
    ∃ e t, serve [whaleRequest] whaleSession = ([(whaleRequest, .error e)], t) ∧
      t.machine.isDefined whaleRequest.identity.proxy = true := by
  refine ⟨whale_inOrder, rfl, rfl, numbered_wellNamed _ (by decide) _, rfl, ?_⟩
  obtain ⟨_, _, _, made⟩ := Workshop.proxyUnit_ok whale_woven
  have named : IsDotted whale.text := ⟨"app", ["Whale"], by decide, by decide⟩
  have read : SourceUnit.ofString? (whaleSession.printer.print whaleProxy) = .ok whaleProxy :=
    made.ofString?_print whale_inOrder.workshop (Identity.Suffixed.numbered whale 1).short named 4
  obtain ⟨fails, stays⟩ := whale_stops
  rcases defined : Machine.defineUnit whaleProxy whaleSession.machine with ⟨e | handles, m⟩ <;> rw [defined] at fails stays
  · have refused : Machine.define (whaleSession.printer.print whaleProxy)
        (whaleSession.setWorkshop whaleSession.workshop).machine = (.error e, m) :=
      define_error_of_read read defined
    have ran := generateAs_refused whale_woven rfl refused
    rw [← ProxyRequest.run_eq (r := whaleRequest) rfl] at ran
    exact ⟨_, _, serve_cons ran rfl, stays⟩
  · cases fails

end Session

end AspectProxy
