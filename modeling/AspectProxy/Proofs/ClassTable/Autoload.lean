import AspectProxy.Proofs.ClassTable.Failures
import AspectProxy.Proofs.ClassTable.Reachable
import AspectProxy.Proofs.Sources.Bounds
import AspectProxy.Proofs.Sources.Layouts

/-!
Loading a class from sources whose inheritance is lawful. The units that its unit needs are loaded first, and theirs before
them; so the class is loaded exactly if this comes to an end. Where units need each other in a circle, a cycle of inheritance
is reported though there is none.
-/

namespace AspectProxy

namespace Machine

variable {places : SourceChain} {n name : ClassName} {u : SourceUnit} {m m' : Machine}

theorem UnitsEnter.origin {avoid : List ClassName} {before after : List LoadedClass}
    (h : UnitsEnter places avoid before after) : ∀ c ∈ after, c ∈ before ∨
      ∃ k v e, places.Declares k v e c.name ∧ avoid.any (· == k) = false := by
  induction h with
  | refl => exact fun c hc => .inl hc
  | tail _ step ih =>
    obtain ⟨held, other, -, -, -, became⟩ := step
    refine List.forall_mem_append.mpr ⟨ih, fun c hc => ?_⟩
    obtain ⟨d, hd, became⟩ := became c hc
    exact .inr ⟨_, _, d, ⟨held, hd, became.names⟩, other⟩

/-- No class of a unit is defined before the class that the unit is asked for by. -/
theorem InOrder.undefined (inOrder : InOrder places m) (arranged : places.Arranged) (held : places.Holds n u)
    (absent : m.class? n = none) {d : Declaration} (hd : d ∈ u.declarations) {c : ClassName} (named : u.Names d c) :
    m.isDefined c = false := by
  cases found : m.class? c with
  | none => rw [isDefined, found]; rfl
  | some x =>
    obtain ⟨hx, same⟩ := mem_of_class? found
    obtain ⟨k, v, e, held', -, he, became, others⟩ := inOrder.whole x hx
    have here : places.Declares n u d c := ⟨held, hd, named⟩
    have there : places.Declares k v e c := ⟨held', he, became.names.congr same⟩
    obtain ⟨rfl, -⟩ := arranged.declares_unique here there
    obtain ⟨e, he, main⟩ := arranged.main n u held
    obtain ⟨y, hy, became⟩ := others e he
    exact absurd (became.names.unique main) (by simpa using List.find?_eq_none.mp absent y hy)

/-- Nor is one after others were loaded meanwhile, while the unit is being loaded. -/
theorem Advanced.undefined {avoid : List ClassName} {c : ClassName} (advanced : Advanced places avoid m m')
    (inOrder : InOrder places m) (arranged : places.Arranged) (held : places.Holds n u) (absent : m.class? n = none)
    (begun : n ∈ avoid) {d : Declaration} (hd : d ∈ u.declarations) (named : u.Names d c) : m'.isDefined c = false := by
  have before := inOrder.undefined arranged held absent hd named
  cases found : m'.class? c with
  | none => rw [isDefined, found]; rfl
  | some x =>
    obtain ⟨hx, same⟩ := mem_of_class? found
    rcases advanced.entered.origin x hx with old | ⟨k, v, e, declares, other⟩
    · exact absurd same (by simpa using class?_eq_none before x old)
    · have unit := arranged.oneUnit ⟨held, hd, named⟩ (declares.congr same)
      exact absurd unit (List.any_eq_false.mp other n begun)

section Define

variable {load : ClassName → Change LoadError LoadedClass} {bad : DefinitionError → Prop}

/-- Defining a unit that is arranged with others fails only as a load does that it needs. -/
theorem defineWith_onlyFails (arranged : places.Arranged) (lawful : places.LawfulInheritance)
    (held : places.Holds n u) (inOrder : InOrder places m) (absent : m.class? n = none) (begun : n ∈ m.loading)
    (loads : Loads load) (keeps : ∀ k, Change.Keeps (Advances places) (load k))
    (below : ∀ k v m', places.Needs n k → places.Holds k v → InOrder places m' → m'.loading = m.loading →
      (load k).OnlyFails m' (Unloadable bad)) :
    (defineWith load u).OnlyFails m bad := by
  obtain ⟨main, hmain, -⟩ := arranged.main n u held
  obtain ⟨source, -, read⟩ := id held
  obtain ⟨names, found⟩ : ∃ names, declaredNames u m u.declarations [] = .ok names := by
    refine declaredNames_total (fun d hd => ?_) (arranged.apart n u held) nofun
    obtain ⟨k, qualified, -⟩ := SourceUnit.qualified_of_ofString? read hd
    exact ⟨k, qualified, inOrder.undefined arranged held absent hd (SourceUnit.names_of_qualified qualified)⟩
  have outcome := defineWith_defining load u m
  intro e m' failed
  rw [failed] at outcome
  cases outcome with
  | refused why =>
    rcases why with empty | taken
    · exact absurd empty (List.ne_nil_of_mem hmain)
    · cases found.symm.trans taken
  | unbuilt entries unit ran =>
    have standing : Standing places u entries m.loading ([], m) := ⟨inOrder, rfl, .empty⟩
    exact buildAll_onlyFails arranged lawful held unit loads keeps below (List.Subset.refl entries) standing _ _ ran
  | taken entries unit ran registered =>
    have advanced := buildAll_keeps keeps u entries entries [] m inOrder.ordered inOrder.supplied
    rw [ran] at advanced
    have free : ∀ k ∈ entries.map (·.1), m'.isDefined k = false := by
      intro k hk
      obtain ⟨⟨k, d⟩, listed, rfl⟩ := List.mem_map.mp hk
      exact advanced.undefined inOrder arranged held absent begun (unit.mem_declarations listed) (unit.names listed)
    obtain ⟨handles, m₂, entered⟩ := register_total free
    cases entered.symm.trans registered

end Define

/-- A cycle of inheritance is reported. -/
def CycleReported (e : DefinitionError) : Prop :=
  ∃ k, e = .invalidSource (.inheritanceCycle k)

/-- The loads under way, when a class is needed by each of them: units that are there, no more of them than the fuel
that is used up. -/
structure Awaited (places : SourceChain) (fuel : Nat) (n : ClassName) (m : Machine) : Prop where
  apart : Apart m.loading
  held : ∀ l ∈ m.loading, ∃ u, places.Holds l u
  needed : ∀ l ∈ m.loading, Relation.TransGen places.Needs l n
  enough : places.size < fuel + m.loading.length

/-- While a unit is being loaded, what it needs is awaited. -/
theorem Awaited.below {fuel : Nat} {k : ClassName} (awaited : Awaited places (fuel + 1) n m) (held : places.Holds n u)
    (idle : m.loading.any (· == n) = false) (needs : places.Needs n k) (begun : m'.loading = n :: m.loading) :
    Awaited places fuel k m' where
  apart := by
    rw [begun]
    exact awaited.apart.cons idle
  held := by
    rw [begun]
    exact List.forall_mem_cons.mpr ⟨⟨u, held⟩, awaited.held⟩
  needed := by
    rw [begun]
    exact List.forall_mem_cons.mpr ⟨.single needs, fun l hl => (awaited.needed l hl).tail needs⟩
  enough := by
    have := awaited.enough
    rw [begun, List.length_cons]
    omega

/-- The unit of a class that is to be loaded is there. -/
theorem InOrder.fetch (inOrder : InOrder places m) (arranged : places.Arranged) (held : places.Holds n u)
    {store : UnitStore} (units : m.units = some store) {r : Except LoadError SourceUnit} {begun : Machine}
    (fetched : fetchUnit store n (m.beginLoading n) = (r, begun)) :
    r = .ok u ∧ InOrder places begun ∧ begun.classes = m.classes ∧ begun.loading = n :: m.loading := by
  obtain ⟨store, units', read⟩ := inOrder.supplied
  obtain rfl := Option.some.inj (units'.symm.trans units)
  obtain ⟨main, hmain, -⟩ := arranged.main n u held
  obtain ⟨after, got⟩ := read.get_of_holds arranged.memory held (List.ne_nil_of_mem hmain)
  have grown := store.get_extended n
  rw [got] at grown
  simp only [fetchUnit, got] at fetched
  cases fetched
  exact ⟨rfl, ⟨inOrder.ordered, ⟨after, rfl, read.extended grown⟩, inOrder.whole⟩, rfl, rfl⟩

/-- A unit that was defined has brought about the class that it is asked for by. -/
theorem class?_of_definedIn (arranged : places.Arranged) (held : places.Holds n u) (defined : DefinedIn u m) :
    m.class? n ≠ none := by
  obtain ⟨main, hmain, named⟩ := arranged.main n u held
  obtain ⟨c, hc, qualified, -⟩ := defined main hmain
  have same : (c.name == n) = true := (SourceUnit.names_of_qualified qualified).unique named
  intro absent
  exact absurd same (by simpa using List.find?_eq_none.mp absent c hc)

/-- Loading a class of which the unit is there fails only with a cycle, and only if the unit leads to units that need each
other. The induction is on the fuel; that it is never used up follows from the units on the way being different ones. -/
theorem loadWithin_onlyFails (arranged : places.Arranged) (lawful : places.LawfulInheritance) (fuel : Nat)
    (held : places.Holds n u) (inOrder : InOrder places m) (awaited : Awaited places fuel n m) :
    (loadWithin fuel n).OnlyFails m (Unloadable fun e => CycleReported e ∧ places.Entangled n) := by
  induction fuel generalizing n u m with
  | zero =>
    have := places.length_le_size awaited.apart awaited.held
    have := awaited.enough
    omega
  | succ fuel ih =>
    intro e m' failed
    have outcome := loadWith_loading (loadWithin fuel) n m
    rw [← loadWithin_succ, failed] at outcome
    cases outcome with
    | unsupplied _ units =>
      obtain ⟨store, supplied, -⟩ := inOrder.supplied
      cases units.symm.trans supplied
    | busy _ _ busy =>
      obtain ⟨l, hl, same⟩ := List.any_eq_true.mp busy
      exact ⟨⟨_, rfl⟩, n, .refl, SourceChain.Needs.chain_congr arranged.memory (awaited.needed l hl) same⟩
    | unfetched starts fetched => cases (inOrder.fetch arranged held starts.units fetched).1
    | @undefined _ _ begun _ _ starts fetched defined =>
      obtain ⟨⟨⟩, inOrder, classes, loading⟩ := inOrder.fetch arranged held starts.units fetched
      have below : ∀ k v m', places.Needs n k → places.Holds k v → InOrder places m' → m'.loading = begun.loading →
          (loadWithin fuel k).OnlyFails m' (Unloadable fun e => CycleReported e ∧ places.Entangled n) := by
        intro k v m' needs held' inOrder' same e m'' failed
        have unloadable := ih held' inOrder' (awaited.below held starts.idle needs (same.trans loading)) e m'' failed
        cases e with
        | missing => cases unloadable
        | invalid e => exact ⟨unloadable.1, .of_needs needs unloadable.2⟩
      have absent : begun.class? n = none := by rw [class?, classes, ← class?, starts.absent]
      exact defineWith_onlyFails arranged lawful held inOrder absent (loading ▸ List.mem_cons_self) (loadWithin_loads fuel)
        (loadWithin_advances arranged.memory fuel) below _ _ defined
    | undeclared starts fetched defined absent =>
      obtain ⟨⟨⟩, inOrder, -⟩ := inOrder.fetch arranged held starts.units fetched
      have ends := defineWith_ends (loadWithin_loads fuel) u inOrder.ordered
      simp only [Change.Ends, defined] at ends
      exact absurd absent (class?_of_definedIn arranged held ends.2)

/-- The parent of a class is what the reference of its declaration means. -/
theorem DeclaredAs.parent_of_means {d : Declaration} {c : LoadedClass} {reference : String} {p : ClassName}
    (as : DeclaredAs u d c) (refers : parentReference d = some reference) (means : u.Means reference p) :
    ∃ x, c.parent? = some x ∧ (x.name == p) = true := by
  have parentOf := as.parentOf
  rw [ParentOf, refers] at parentOf
  obtain ⟨resolved, x, parentName, up, named⟩ := parentOf
  exact ⟨x, up, ClassName.beq_trans named ((SourceUnit.means_of_parentName parentName).unique means)⟩

/-- Classes of units that are grounded. -/
def AllGrounded (places : SourceChain) (classes : List LoadedClass) : Prop :=
  ∀ c ∈ classes, ∃ n u d, places.Declares n u d c.name ∧ places.Grounded n

theorem UnitEnters.grounded {avoid : List ClassName} {before after : List LoadedClass} (arranged : places.Arranged)
    (h : UnitEnters places avoid before after) (grounded : AllGrounded places before) : AllGrounded places after := by
  obtain ⟨held, -, -, ordered, declared, became⟩ := h
  rename_i n u added
  have here : places.Grounded n := by
    refine .intro n fun k needs => ?_
    obtain ⟨v, d, reference, held', hd, refers, means, outside⟩ := needs
    obtain rfl := held.unique held'
    obtain ⟨c, hc, became'⟩ := declared d hd
    obtain ⟨p, up, named⟩ := became'.as.parent_of_means refers means
    rcases List.mem_append.mp (ordered.parent_mem c (List.mem_append_right _ hc) p up) with old | new
    · obtain ⟨l, w, e, declares, below⟩ := grounded p old
      rcases arranged.declared_or_needs held hd refers means with ⟨e, he, inside⟩ | ⟨-, w, held'⟩
      · exact absurd inside (outside e he)
      · obtain ⟨main, hmain, asked⟩ := arranged.main k w held'
        exact below.congr arranged.memory (arranged.oneUnit (declares.congr named) ⟨held', hmain, asked⟩)
    · obtain ⟨e, he, became'⟩ := became p new
      exact absurd (became'.names.congr named) (outside e he)
  refine List.forall_mem_append.mpr ⟨grounded, fun c hc => ?_⟩
  obtain ⟨d, hd, became⟩ := became c hc
  exact ⟨n, u, d, ⟨held, hd, became.names⟩, here⟩

theorem UnitsEnter.grounded {avoid : List ClassName} {before after : List LoadedClass} (arranged : places.Arranged)
    (h : UnitsEnter places avoid before after) (grounded : AllGrounded places before) : AllGrounded places after := by
  induction h with
  | refl => exact grounded
  | tail _ step ih => exact step.grounded arranged ih

theorem Fresh.inOrder (fresh : Fresh places m) : InOrder places m :=
  ⟨fresh.ordered, fresh.supplied, fresh.fromUnits⟩

theorem load_onlyFails (arranged : places.Arranged) (lawful : places.LawfulInheritance) (fresh : Fresh places m)
    (held : places.Holds name u) :
    (load name).OnlyFails m (Unloadable fun e => CycleReported e ∧ places.Entangled name) := by
  obtain ⟨store, units, read⟩ := fresh.supplied
  refine loadWithin_onlyFails arranged lawful m.loadBound held fresh.inOrder ?_
  refine ⟨fresh.loading ▸ .nil, fresh.loading ▸ nofun, fresh.loading ▸ nofun, ?_⟩
  simp only [loadBound, units, read.places_eq]
  omega

/-- A class that was loaded is grounded. -/
theorem grounded_of_load (arranged : places.Arranged) (fresh : Fresh places m) (held : places.Holds name u)
    {c : LoadedClass} (h : load name m = (.ok c, m')) : places.Grounded name := by
  have loaded := load_ok arranged.memory fresh h
  have advanced := loadWithin_advances arranged.memory m.loadBound name m fresh.ordered fresh.supplied
  rw [show loadWithin m.loadBound name m = (.ok c, m') from h] at advanced
  have none : AllGrounded places m.classes := by
    rw [fresh.classes]
    exact List.forall_mem_nil _
  have grounded := advanced.entered.grounded arranged none
  obtain ⟨n, v, d, declares, grounded⟩ := grounded c loaded.mem
  obtain ⟨main, hmain, asked⟩ := arranged.main name u held
  exact grounded.congr arranged.memory (arranged.oneUnit (declares.congr loaded.named) ⟨held, hmain, asked⟩)

/-- From units that are arranged and inherit lawfully, a class of which the unit is there is loaded exactly if its unit does
not lead to units that need each other in a circle; so it is loaded where each unit declares one class. In a circle a cycle
of inheritance is reported, though there is none. -/
theorem load_ok_iff_not_entangled (arranged : places.Arranged) (lawful : places.LawfulInheritance)
    (fresh : Fresh places m) (held : places.Holds name u) :
    ((∃ c m', load name m = (.ok c, m') ∧ (c.name == name) = true) ↔ ¬places.Entangled name) ∧
      ((∀ n v, places.Holds n v → ∀ d ∈ v.declarations, v.Names d n) → ¬places.Entangled name) ∧
      (places.Entangled name →
        ∃ k m', load name m = (.error (.invalid (.invalidSource (.inheritanceCycle k))), m')) := by
  have fails := load_onlyFails arranged lawful fresh held
  have single := fun single => lawful.not_entangled_of_single single name
  rcases ran : load name m with ⟨e | c, m'⟩
  · have unloadable := fails e m' ran
    cases e with
    | missing => cases unloadable
    | invalid e =>
      obtain ⟨⟨k, rfl⟩, entangled⟩ := unloadable
      refine ⟨⟨?_, fun no => absurd entangled no⟩, single, fun _ => ⟨k, m', rfl⟩⟩
      rintro ⟨c, m'', loaded, -⟩
      cases loaded
  · have no := (grounded_of_load arranged fresh held ran).not_entangled
    have named := (load_ok arranged.memory fresh ran).named
    exact ⟨⟨fun _ => no, fun _ => ⟨c, m', rfl, named⟩⟩, single, fun h => absurd h no⟩

def shapeName : ClassName := ⟨"Shape", by decide⟩

def squareName : ClassName := ⟨"Square", by decide⟩

def circleName : ClassName := ⟨"Circle", by decide⟩

def curveName : ClassName := ⟨"Curve", by decide⟩

/-- A unit with a class and behind it one that extends a class of another unit, which extends the first class; and two more
units, of which one needs the other. -/
def shapePlaces : SourceChain := [.memory [
  (shapeName, "class Shape {} class Tile extends Square {}"),
  (squareName, "class Square extends Shape {}"),
  (circleName, "class Circle extends Curve { fn area() {} }"),
  (curveName, "class Curve { final fn id() {} }")]]

def shapeUnit : SourceUnit where
  declarations := [.class ⟨"Shape", false, none, []⟩, .class ⟨"Tile", false, some "Square", []⟩]

def squareUnit : SourceUnit where
  declarations := [.class ⟨"Square", false, some "Shape", []⟩]

def circleUnit : SourceUnit where
  declarations := [.class ⟨"Circle", false, some "Curve", [bareMethod "area" false]⟩]

def curveUnit : SourceUnit where
  declarations := [.class ⟨"Curve", false, none, [bareMethod "id" true]⟩]

def shapeUnits : List (ClassName × SourceUnit) :=
  [(shapeName, shapeUnit), (squareName, squareUnit), (circleName, circleUnit), (curveName, curveUnit)]

theorem shapes_listed : shapePlaces.Lists shapeUnits where
  memory := List.forall_mem_singleton.mpr trivial
  held := by
    simp only [shapeUnits, List.forall_mem_cons, List.not_mem_nil, false_implies, implies_true, and_true]
    exact ⟨SourceChain.holds_memory (n := shapeName) (SourceUnit.eq_ok_of_beq (by decide +kernel)) rfl,
      SourceChain.holds_memory (n := squareName) (SourceUnit.eq_ok_of_beq (by decide +kernel)) rfl,
      SourceChain.holds_memory (n := circleName) (SourceUnit.eq_ok_of_beq (by decide +kernel)) rfl,
      SourceChain.holds_memory (n := curveName) (SourceUnit.eq_ok_of_beq (by decide +kernel)) rfl⟩
  complete := by decide

theorem shapes_arranged : shapePlaces.Arranged :=
  shapes_listed.arranged (by decide) (by decide) (by decide) (by decide)

/-- A rank that falls from the classes of the layout to those that they extend. -/
def shapeRank (key : String) : Nat :=
  if key = "tile" then 2 else if key = "square" ∨ key = "circle" then 1 else 0

theorem shapes_lawful : shapePlaces.LawfulInheritance :=
  shapes_listed.lawfulInheritance shapeRank (by decide) (by decide) (by decide) (by decide)

theorem shapes_hold_shape : shapePlaces.Holds shapeName shapeUnit :=
  shapes_listed.held (shapeName, shapeUnit) (by simp [shapeUnits])

theorem shape_entangled : shapePlaces.Entangled shapeName := by
  have there : shapePlaces.Needs shapeName squareName := shapes_listed.needs_iff.mpr (by decide)
  have back : shapePlaces.Needs squareName shapeName := shapes_listed.needs_iff.mpr (by decide)
  exact ⟨shapeName, .refl, .tail (.single there) back⟩

theorem circle_grounded : shapePlaces.Grounded circleName := by
  refine .intro _ fun k needs => .intro _ fun l needs' => ?_
  obtain ⟨e, he, key, d, hd, parent, -⟩ := shapes_listed.needs_iff.mp needs
  obtain ⟨f, hf, key', g, hg, parent', -⟩ := shapes_listed.needs_iff.mp needs'
  have none : ∀ e ∈ shapeUnits, e.1.key = circleName.key → ∀ d ∈ e.2.declarations, ∀ f ∈ shapeUnits,
      e.2.parentKey? d = some f.1.key → ∀ g ∈ f.2.declarations, f.2.parentKey? g = none := by
    decide
  rw [none e he key d hd f hf (key' ▸ parent) g hg] at parent'
  cases parent'

theorem load_shapes : (∃ c m', load circleName (machineOn shapePlaces) = (.ok c, m') ∧ (c.name == circleName) = true) ∧
    ∃ k m', load shapeName (machineOn shapePlaces) = (.error (.invalid (.invalidSource (.inheritanceCycle k))), m') := by
  have circle := load_ok_iff_not_entangled shapes_arranged shapes_lawful (fresh_machineOn shapePlaces)
    (shapes_listed.held (circleName, circleUnit) (by simp [shapeUnits]))
  have shape := load_ok_iff_not_entangled shapes_arranged shapes_lawful (fresh_machineOn shapePlaces) shapes_hold_shape
  exact ⟨circle.1.mpr circle_grounded.not_entangled, shape.2.2 shape_entangled⟩

/-- The class that is said to be in a cycle extends nothing. -/
theorem load_shape_reports_cycle : shapePlaces.Arranged ∧ shapePlaces.LawfulInheritance ∧
    (∃ u, shapePlaces.Holds shapeName u) ∧ (∀ c, ¬shapePlaces.Extends shapeName c) ∧
      ∃ m', load shapeName (machineOn shapePlaces) = (.error (.invalid (.invalidSource (.inheritanceCycle "Shape"))), m') := by
  have rootless : ∀ e ∈ shapeUnits, ∀ d ∈ e.2.declarations, e.2.keyOf? d = some shapeName.key → e.2.parentKey? d = none := by
    decide
  have reported : (load shapeName (machineOn shapePlaces)).1.map (·.name.text) =
      .error (.invalid (.invalidSource (.inheritanceCycle "Shape"))) := by
    decide +kernel
  refine ⟨shapes_arranged, shapes_lawful, ⟨_, shapes_hold_shape⟩, fun c up => ?_, ?_⟩
  · obtain ⟨e, he, d, hd, named, parent⟩ := shapes_listed.exists_extends up
    rw [rootless e he d hd named] at parent
    cases parent
  · rcases ran : load shapeName (machineOn shapePlaces) with ⟨e | c, m'⟩ <;> rw [ran] at reported <;> cases reported
    exact ⟨m', rfl⟩

end Machine

end AspectProxy
