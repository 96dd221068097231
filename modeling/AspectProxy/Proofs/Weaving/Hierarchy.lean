import AspectProxy.Proofs.ClassTable.Chains
import AspectProxy.Proofs.ClassTable.OneClass
import AspectProxy.Proofs.ClassTable.WholeUnits
import AspectProxy.Proofs.Sources.Bounds
import AspectProxy.Proofs.Weaving.Workshop

/-!
The walk to the ancestors of a class beside the ancestors that the class has when it is loaded. The walk asks for a unit
of the name of each ancestor; loading takes an ancestor from wherever it was declared. So the two agree exactly where each
class of the hierarchy is at home: the unit of its own name declares it.
-/

namespace AspectProxy

variable {places : SourceChain} {c : LoadedClass} {m m' : Machine} {w w' : Workshop} {name : ClassName}

/-- The ancestors from a parent on, as the units that places hold under their names declare them. -/
inductive DeclaredLine (places : SourceChain) : Option ClassName → List Ancestor → Prop
  | root : DeclaredLine places none []
  | parent {c : ClassName} {u : SourceUnit} {d : ClassDecl} {next : Option ClassName} {rest : List Ancestor} :
    places.Holds c u → u.declaration? c.short = some (.class d) → (∀ origin, u.parentOf origin d = .ok next) →
    DeclaredLine places next rest → DeclaredLine places (some c) (⟨c, d⟩ :: rest)

theorem Lineage.declaredLine {s : UnitStore} (read : s.ReadFrom places) (memory : places.InMemory)
    {parent : Option ClassName} {ancestors : List Ancestor} (lineage : Lineage s parent ancestors) :
    DeclaredLine places parent ancestors := by
  induction lineage with
  | root => exact .root
  | parent kept declared refers _ ih => exact .parent (read.holds_of_unit? memory kept) declared refers ih

theorem DeclaredLine.holds {parent : Option ClassName} {ancestors : List Ancestor}
    (line : DeclaredLine places parent ancestors) : ∀ a ∈ ancestors, ∃ u, places.Holds a.name u := by
  induction line with
  | root => nofun
  | parent held _ _ _ ih => exact List.forall_mem_cons.mpr ⟨⟨_, held⟩, ih⟩

theorem ne_nil_of_declaration? {u : SourceUnit} {short : String} {d : Declaration}
    (h : u.declaration? short = some d) : u.declarations ≠ [] :=
  List.ne_nil_of_mem (List.mem_of_find?_eq_some h)

/-- The unit that the places hold for a class is fetched. -/
theorem fetch_of_holds (read : w.units.ReadFrom places) (memory : places.InMemory) {u : SourceUnit}
    (held : places.Holds name u) (declares : u.declarations ≠ []) : ∃ units : UnitStore, units.ReadFrom places ∧
      w.units.Extended units ∧ Workshop.fetch UnitStore.get name w = (.ok u, { w with units }) := by
  obtain ⟨units, got⟩ := read.get_of_holds memory held declares
  have grown := w.units.get_extended name
  rw [got] at grown
  refine ⟨units, read.extended grown, grown, ?_⟩
  rw [Workshop.fetch, got]
  rfl

/-- A walk along units that the places hold, whether they were read before or are read now. -/
theorem ancestorsWithin_of_line (memory : places.InMemory) {origin : ClassName} {parent : Option ClassName}
    {ancestors : List Ancestor} (line : DeclaredLine places parent ancestors) (read : w.units.ReadFrom places)
    {steps : Nat} (enough : ancestors.length ≤ steps) {seen : List ClassName}
    (apart : ∀ a ∈ ancestors, ∀ c ∈ seen, (c == a.name) = false) (distinct : Distinct ancestors) :
    ∃ w', ancestorsWithin (Workshop.fetch UnitStore.get) origin steps seen parent w = (.ok ancestors, w') := by
  induction line generalizing steps seen w with
  | root => cases steps <;> exact ⟨w, rfl⟩
  | @parent c u d next rest held declared refers _ ih =>
    obtain ⟨steps, rfl⟩ : ∃ k, steps = k + 1 := ⟨steps - 1, by rw [List.length_cons] at enough; omega⟩
    obtain ⟨here, apart⟩ := List.forall_mem_cons.mp apart
    obtain ⟨below, distinct⟩ := List.pairwise_cons.mp distinct
    have unseen : ¬seen.any (· == c) = true := by simpa using here
    have more : ∀ a ∈ rest, ∀ x ∈ c :: seen, (x == a.name) = false :=
      fun a ha => List.forall_mem_cons.mpr ⟨below a ha, apart a ha⟩
    have found : u.ancestor origin c = .ok ⟨c, d⟩ := by simp only [SourceUnit.ancestor, declared]
    obtain ⟨units, read, -, fetched⟩ := fetch_of_holds read memory held (ne_nil_of_declaration? declared)
    obtain ⟨w', walked⟩ := ih (w := { w with units }) read (Nat.le_of_succ_le_succ enough) more distinct
    refine ⟨w', ?_⟩
    rw [ancestorsWithin, run_bind fetched, if_neg unseen]
    refine (run_bind (liftExcept_run found)).trans ?_
    refine (run_bind (liftExcept_run (refers origin))).trans ?_
    exact run_bind walked

/-- The ancestors of a class, beginning with its own unit. -/
def Workshop.ancestry (c : ClassName) : Work (List Ancestor) := do
  let u ← fetch UnitStore.get c
  ancestors UnitStore.get c u

/-- An ancestor of the walk is an ancestor that was loaded: it has its name and its methods in order. -/
def Ancestor.Matches (a : Ancestor) (b : ClassBody) : Prop :=
  (a.name == b.name) = true ∧ a.declaration.methods = b.methods

/-- The walk from a class ends, and has visited the ancestors that the class was loaded with, nearest first. -/
def Workshop.Visits (w : Workshop) (name : ClassName) (c : LoadedClass) : Prop :=
  ∃ ancestors w', ancestry name w = (.ok ancestors, w') ∧ List.Forall₂ Ancestor.Matches ancestors c.ancestors

/-- The names of a class, or no class twice. -/
abbrev SameParent : Option ClassName → Option ClassName → Prop :=
  Option.Rel fun a b => (a == b) = true

/-- The unit of a class declares it. -/
def SourceChain.DeclaresOwn (places : SourceChain) (name : ClassName) : Prop :=
  ∃ u d, places.Holds name u ∧ d ∈ u.declarations ∧ u.Names d name

namespace LoadedClass

/-- The unit of its own name declares a class with its methods and its parent. -/
def AtHome (places : SourceChain) (c : LoadedClass) : Prop :=
  ∃ u d next, places.Holds c.name u ∧ u.declaration? c.name.short = some (.class d) ∧ d.methods = c.own.methods ∧
    (∀ origin, u.parentOf origin d = .ok next) ∧ SameParent next (c.parent?.map LoadedClass.name)

/-- No unit but that of its own name declares a class of its name. -/
def OnlyAtHome (places : SourceChain) (c : LoadedClass) : Prop :=
  ∀ n u d, places.Holds n u → d ∈ u.declarations → u.Names d c.name → (n == c.name) = true

end LoadedClass

/-- Where each unit declares only what it is asked for by, no class is declared anywhere but at home. -/
theorem LoadedClass.onlyAtHome_of_single
    (single : ∀ n u, places.Holds n u → ∀ d ∈ u.declarations, u.Names d n) (c : LoadedClass) : c.OnlyAtHome places :=
  fun n u d held hd named => (single n u held d hd).unique named

/-- Classes that a line visits are at home. -/
theorem DeclaredLine.atHome (memory : places.InMemory) {parent : Option ClassName} {ancestors : List Ancestor}
    (line : DeclaredLine places parent ancestors) {bodies : List ClassBody}
    (same : List.Forall₂ Ancestor.Matches ancestors bodies) :
    SameParent parent (bodies.head?.map ClassBody.name) ∧ ∀ x ∈ LoadedClass.rootFirst bodies, x.AtHome places := by
  induction line generalizing bodies with
  | root =>
    cases same
    exact ⟨.none, nofun⟩
  | @parent k u d next rest held declared refers _ ih =>
    cases same with
    | @cons _ b _ bodies here more =>
      obtain ⟨named, methods⟩ := here
      obtain ⟨above, home⟩ := ih more
      refine ⟨.some named, LoadedClass.forall_rootFirst_cons.mpr ⟨?_, home⟩⟩
      refine ⟨u, d, next, held.congr memory named, ?_, methods, refers, ?_⟩
      · rw [← declared]
        exact (SourceUnit.declaration?_congr named u).symm
      · rwa [LoadedClass.parent?_map_name]

/-- A line leads along classes that are at home. -/
theorem exists_line_of_atHome (memory : places.InMemory) {parent : Option ClassName} {bodies : List ClassBody}
    (first : SameParent parent (bodies.head?.map ClassBody.name))
    (home : ∀ x ∈ LoadedClass.rootFirst bodies, x.AtHome places) :
    ∃ ancestors, DeclaredLine places parent ancestors ∧ List.Forall₂ Ancestor.Matches ancestors bodies := by
  induction bodies generalizing parent with
  | nil =>
    cases first
    exact ⟨[], .root, .nil⟩
  | cons b rest ih =>
    obtain ⟨⟨u, d, next, held, declared, methods, refers, above⟩, home⟩ := LoadedClass.forall_rootFirst_cons.mp home
    cases first with
    | @some k _ named =>
      rw [LoadedClass.parent?_map_name] at above
      obtain ⟨ancestors, line, same⟩ := ih above home
      have back : (b.name == k) = true := ClassName.beq_comm k b.name ▸ named
      refine ⟨⟨k, d⟩ :: ancestors, .parent (held.congr memory back) ?_ refers line, .cons ⟨named, methods⟩ same⟩
      rw [← declared]
      exact SourceUnit.declaration?_congr named u

namespace Machine

theorem parentOf_of_declaredAs {u : SourceUnit} {d : ClassDecl} (as : DeclaredAs u (.class d) c) :
    ∃ next, (∀ origin, u.parentOf origin d = .ok next) ∧ SameParent next (c.parent?.map LoadedClass.name) := by
  have parentOf := as.parentOf
  unfold ParentOf at parentOf
  split at parentOf
  case h_1 root =>
    refine ⟨none, fun origin => ?_, ?_⟩
    · simp only [SourceUnit.parentOf, show d.parent = none from root]
    · rw [parentOf]
      exact .none
  case h_2 reference refers =>
    obtain ⟨resolved, p, means, up, named⟩ := parentOf
    refine ⟨some resolved, fun origin => Workshop.parentOf_of_parentName refers means, ?_⟩
    rw [up]
    exact .some (ClassName.beq_comm p.name resolved ▸ named)

namespace LoadedFrom

variable (loaded : LoadedFrom places name c m)
include loaded

/-- A declaration of the name of the class in its own unit is what the class was made of. -/
theorem declaredAs {u : SourceUnit} {d : Declaration} (held : places.Holds name u) (hd : d ∈ u.declarations)
    (named : u.Names d name) : Became u d c := by
  obtain ⟨v, held', -, defined⟩ := loaded.unit
  obtain rfl := held.unique held'
  obtain ⟨x, hx, qualified, as⟩ := defined d hd
  have same : (x.name == c.name) = true := by
    have first := (SourceUnit.names_of_qualified qualified).unique named
    exact ClassName.beq_trans first (ClassName.beq_symm loaded.named)
  obtain rfl := loaded.ordered.eq_of_beq loaded.mem hx same
  exact ⟨qualified, as⟩

end LoadedFrom

end Machine

theorem distinct_of_matches {ancestors : List Ancestor} {bodies : List ClassBody}
    (same : List.Forall₂ Ancestor.Matches ancestors bodies)
    (apart : bodies.Pairwise fun a b => (a.name == b.name) = false) : Distinct ancestors := by
  have matched : ∀ {as : List Ancestor} {bs : List ClassBody}, List.Forall₂ Ancestor.Matches as bs →
      ∀ a ∈ as, ∃ b ∈ bs, (a.name == b.name) = true := by
    intro as bs same
    induction same with
    | nil => nofun
    | cons here _ ih =>
      refine List.forall_mem_cons.mpr ⟨⟨_, List.mem_cons_self, here.1⟩, fun a ha => ?_⟩
      obtain ⟨b, hb, named⟩ := ih a ha
      exact ⟨b, List.mem_cons_of_mem _ hb, named⟩
  induction same with
  | nil => exact .nil
  | @cons a b as bs here more ih =>
    obtain ⟨first, apart⟩ := List.pairwise_cons.mp apart
    refine List.pairwise_cons.mpr ⟨fun x hx => ?_, ih apart⟩
    obtain ⟨y, hy, named⟩ := matched more x hx
    rw [ClassName.beq_congr_left here.1, ClassName.beq_congr_right named]
    exact first y hy

/-- A walk that visits the ancestors of a class began in a unit that declares it, and all above it are at home. -/
theorem Workshop.Visits.atHome (h : w.Visits name c) (memory : places.InMemory) (read : w.units.ReadFrom places) :
    places.DeclaresOwn name ∧ ∀ x ∈ c.above, x.AtHome places := by
  obtain ⟨ancestors, w', walked, same⟩ := h
  obtain ⟨u, w₁, fetched, walked⟩ := of_run_bind walked
  obtain ⟨units, got, rfl⟩ := fetch_ok fetched
  have readNow : units.ReadFrom places := by
    have grown := w.units.get_extended name
    rw [got] at grown
    exact read.extended grown
  obtain ⟨d, units', rfl, grown, proxyable, lineage, -, -⟩ := Workshop.ancestors_ok (UnitStore.unit?_get got) walked
  obtain ⟨classNamed, package⟩ := proxyable_ok proxyable
  have held := readNow.holds_of_unit? memory (UnitStore.unit?_get got)
  have declared : u.declaration? name.short = some (.class d) := classNamed_ok classNamed
  obtain ⟨source, -, text⟩ := id held
  refine ⟨⟨u, _, held, List.mem_of_find?_eq_some declared, ?_⟩, ?_⟩
  · exact SourceUnit.names_of_declaration? text declared package
  · cases lineage.declaredLine (readNow.extended grown) memory with
    | parent _ _ _ rest => exact (rest.atHome memory same).2

theorem asciiLower_getD (package : Option String) : (package.map asciiLower).getD "" = asciiLower (package.getD "") := by
  cases package <;> rfl

namespace Machine.LoadedFrom

variable (loaded : LoadedFrom places name c m)
include loaded

/-- A class that its own unit declares can be proxied under its name, if it is not final. -/
theorem proxyable {u : SourceUnit} {d : ClassDecl} (held : places.Holds name u) (hd : .class d ∈ u.declarations)
    (named : u.Names (.class d) name) (open_ : c.own.isFinal = false) : u.proxyable name = .ok d := by
  have became := loaded.declaredAs held hd named
  obtain ⟨v, held', once, -⟩ := loaded.unit
  obtain rfl := held.unique held'
  obtain ⟨source, -, read⟩ := held
  have declared : u.declaration? name.short = some (.class d) :=
    SourceUnit.declaration?_of_names read hd named fun e he named' => once name e he _ hd named' named
  have package : asciiLower (u.package.getD "") = asciiLower (name.package?.getD "") := by
    obtain ⟨n, qualified, -, package⟩ := SourceUnit.qualified_of_ofString? read hd
    have same : (n == name) = true := (SourceUnit.names_of_qualified qualified).unique named
    rw [← package, ← asciiLower_getD, ClassName.package?_congr same, asciiLower_getD]
  have final : d.isFinal = false := (isFinal_of_bodyOf became.as.made).symm.trans open_
  have classNamed : u.classNamed name = .ok d := by simp only [SourceUnit.classNamed, declared]
  refine (bind_of_eq_ok classNamed).trans ?_
  simp [final, package]

/-- The walk from a class that its unit declares, with all above it at home. -/
theorem visits (memory : places.InMemory) (isClass : c.own.isTrait = false) (open_ : c.own.isFinal = false)
    (read : w.units.ReadFrom places) (own : places.DeclaresOwn name) (home : ∀ x ∈ c.above, x.AtHome places) :
    w.Visits name c := by
  obtain ⟨u, d, held, hd, named⟩ := own
  have became := loaded.declaredAs held hd named
  cases d with
  | trait t =>
    rw [became.as.body.isTrait] at isClass
    cases isClass
  | «class» d =>
    have proxyable := loaded.proxyable held hd named open_
    obtain ⟨next, refers, parent⟩ := parentOf_of_declaredAs became.as
    obtain ⟨own, bodies⟩ := c
    rw [LoadedClass.parent?_map_name] at parent
    obtain ⟨ancestors, line, same⟩ := exists_line_of_atHome memory parent home
    have matched : List.Forall₂ Ancestor.Matches (⟨name, d⟩ :: ancestors) (own :: bodies) :=
      .cons ⟨ClassName.beq_comm own.name name ▸ loaded.named, became.as.body.methods.symm⟩ same
    obtain ⟨first, distinct⟩ := List.pairwise_cons.mp (distinct_of_matches matched (loaded.ordered.chain_apart loaded.mem))
    obtain ⟨units, readNow, grown, fetched⟩ := fetch_of_holds read memory held (List.ne_nil_of_mem hd)
    have bounded : ancestors.length ≤ units.bound := by
      have names : (ancestors.map Ancestor.name).length ≤ places.size := by
        refine places.length_le_size (List.pairwise_map.mpr distinct) fun k hk => ?_
        obtain ⟨a, ha, rfl⟩ := List.mem_map.mp hk
        exact line.holds a ha
      rw [List.length_map] at names
      rw [UnitStore.bound, readNow.places_eq]
      omega
    have apart : ∀ a ∈ ancestors, ∀ x ∈ [name], (x == a.name) = false :=
      fun a ha => List.forall_mem_singleton.mpr (first a ha)
    obtain ⟨w', walked⟩ : ∃ w', ancestorsWithin (Workshop.fetch UnitStore.get) name units.bound [name] next
        { w with units } = (.ok ancestors, w') :=
      ancestorsWithin_of_line memory line readNow bounded apart distinct
    refine ⟨ancestors, w', ?_, same⟩
    refine (run_bind fetched).trans ?_
    refine (run_bind (x := get) rfl).trans ((run_bind (liftExcept_run proxyable)).trans ?_)
    exact (run_bind (liftExcept_run (refers name))).trans walked

/-- A class that only its own unit declares is at home. -/
theorem atHome_of_only (memory : places.InMemory) {x : LoadedClass} (hx : x ∈ m.classes) (isClass : x.own.isTrait = false)
    (only : x.OnlyAtHome places) : x.AtHome places := by
  obtain ⟨n, u, d, held, once, hd, became, -⟩ := loaded.whole x hx
  have held : places.Holds x.name u := held.congr memory (only n u d held hd became.names)
  cases d with
  | trait t =>
    rw [became.as.body.isTrait] at isClass
    cases isClass
  | «class» d =>
    obtain ⟨source, -, read⟩ := id held
    obtain ⟨next, refers, parent⟩ := parentOf_of_declaredAs became.as
    refine ⟨u, d, next, held, ?_, became.as.body.methods.symm, refers, parent⟩
    exact SourceUnit.declaration?_of_names read hd became.names fun e he named => once x.name e he _ hd named became.names

/-- A class that only its own unit declares is declared there. -/
theorem declaresOwn_of_only (memory : places.InMemory) (only : c.OnlyAtHome places) : places.DeclaresOwn name := by
  obtain ⟨n, u, d, held, -, hd, became, -⟩ := loaded.whole c loaded.mem
  have same : (n == c.name) = true := only n u d held hd became.names
  exact ⟨u, d, (held.congr memory same).congr memory loaded.named, hd, became.names.congr loaded.named⟩

end Machine.LoadedFrom

namespace Machine

/-- The walk to the ancestors of a class that was loaded from memory visits the ancestors that it has there exactly if its
own unit declares it and each ancestor is at home. So it does where no unit but its own declares a class of the hierarchy. -/
theorem ancestry_visits_iff_atHome (memory : places.InMemory) (fresh : Fresh places m) (loaded : load name m = (.ok c, m'))
    (isClass : c.own.isTrait = false) (open_ : c.own.isFinal = false) (read : w.units.ReadFrom places) :
    (w.Visits name c ↔ places.DeclaresOwn name ∧ ∀ x ∈ c.above, x.AtHome places) ∧
      ((∀ x ∈ c.lineage, x.OnlyAtHome places) → w.Visits name c) := by
  have loaded := load_ok memory fresh loaded
  have visits := loaded.visits memory isClass open_ read
  refine ⟨⟨fun h => h.atHome memory read, fun h => visits h.1 h.2⟩, fun only => ?_⟩
  have only : ∀ x ∈ c.above ++ [c], x.OnlyAtHome places := only
  obtain ⟨above, own⟩ := List.forall_mem_append.mp only
  refine visits (loaded.declaresOwn_of_only memory (List.forall_mem_singleton.mp own)) fun x hx => ?_
  exact loaded.atHome_of_only memory (loaded.ordered.mem_of_above loaded.mem x hx)
    (loaded.ordered.open_of_above loaded.mem x hx).1 (above x hx)

def pageName : ClassName := ⟨"Page", by decide⟩

def baseName : ClassName := ⟨"app.Base", by decide⟩

/-- A class, and in another package the class that it extends under the name of an import. -/
def pageSources : List (ClassName × String) := [
  (pageName, "import app.Base as Root; class Page extends Root { fn open() {} }"),
  (baseName, "package app; class Base { fn close() {} }")]

def pagePlaces : SourceChain := [.memory pageSources]

def pageUnit : SourceUnit where
  imports := [⟨"app.Base", some "Root"⟩]
  declarations := [.class ⟨"Page", false, some "Root", [bareMethod "open" false]⟩]

def baseUnit : SourceUnit where
  package := some "app"
  declarations := [.class ⟨"Base", false, none, [bareMethod "close" false]⟩]

theorem page_read : SourceUnit.ofString? "import app.Base as Root; class Page extends Root { fn open() {} }" = .ok pageUnit :=
  SourceUnit.eq_ok_of_beq (by decide +kernel)

theorem base_read : SourceUnit.ofString? "package app; class Base { fn close() {} }" = .ok baseUnit :=
  SourceUnit.eq_ok_of_beq (by decide +kernel)

theorem pages_inMemory : pagePlaces.InMemory :=
  List.forall_mem_singleton.mpr trivial

theorem pages_hold_page : pagePlaces.Holds pageName pageUnit :=
  SourceChain.holds_memory (n := pageName) page_read rfl

theorem pages_hold_base : pagePlaces.Holds baseName baseUnit :=
  SourceChain.holds_memory (n := baseName) base_read rfl

theorem pages_single (n : ClassName) (u : SourceUnit) (held : pagePlaces.Holds n u) :
    ∀ d ∈ u.declarations, u.Names d n := by
  obtain ⟨k, hk, same⟩ := held.mem_names pages_inMemory
  have kept : pagePlaces.Holds k u := held.congr pages_inMemory (ClassName.beq_comm k n ▸ same)
  have which : k = pageName ∨ k = baseName := by simpa [pagePlaces, SourceChain.names, SourcePlace.names, pageSources] using hk
  rcases which with rfl | rfl
  · obtain rfl := pages_hold_page.unique kept
    exact List.forall_mem_singleton.mpr ⟨pageName, rfl, same⟩
  · obtain rfl := pages_hold_base.unique kept
    exact List.forall_mem_singleton.mpr ⟨baseName, rfl, same⟩

/-- A workshop that has read nothing. -/
def workshopOn (places : SourceChain) : Workshop := { units := { places }, aspect := builtinAspect }

theorem ancestry_visits_page : ∃ c m', load pageName (machineOn pagePlaces) = (.ok c, m') ∧
    c.ancestors.map (·.name.text) = ["app.Base"] ∧ (workshopOn pagePlaces).Visits pageName c := by
  have runs : (load pageName (machineOn pagePlaces)).1.toOption.map
      (fun c => (c.own.isTrait, c.own.isFinal, c.ancestors.map (·.name.text))) = some (false, false, ["app.Base"]) := by
    decide +kernel
  rcases ran : load pageName (machineOn pagePlaces) with ⟨_ | c, m'⟩
  · rw [ran] at runs
    cases runs
  · rw [ran] at runs
    obtain ⟨isClass, rest⟩ := Prod.mk.inj (Option.some.inj runs)
    obtain ⟨open_, above⟩ := Prod.mk.inj rest
    have agrees := ancestry_visits_iff_atHome (w := workshopOn pagePlaces) pages_inMemory (fresh_machineOn pagePlaces) ran
      isClass open_ (.fresh pagePlaces)
    exact ⟨c, m', rfl, above, agrees.2 fun x _ => x.onlyAtHome_of_single pages_single⟩

/-- A class, and behind it in the same unit the class that it extends. -/
def pairPlaces : SourceChain :=
  [.memory [(⟨"Main", by decide⟩, "class Main extends Helper {} class Helper { fn b() {} }")]]

/-- A class whose parent its own unit declares is loaded, but the walk asks for a unit of the parent, and there is none. -/
theorem ancestry_misses_helper : ∃ c m', load ⟨"Main", by decide⟩ (machineOn pairPlaces) = (.ok c, m') ∧
    c.own.isTrait = false ∧ c.own.isFinal = false ∧ c.ancestors.map (·.name.text) = ["Helper"] ∧
      ¬(workshopOn pairPlaces).Visits ⟨"Main", by decide⟩ c := by
  have runs : (load ⟨"Main", by decide⟩ (machineOn pairPlaces)).1.toOption.map
      (fun c => (c.own.isTrait, c.own.isFinal, c.ancestors.map (·.name.text))) = some (false, false, ["Helper"]) := by
    decide +kernel
  have walks : (Workshop.ancestry ⟨"Main", by decide⟩ (workshopOn pairPlaces)).1.toOption.isNone = true := by
    decide +kernel
  rcases ran : load ⟨"Main", by decide⟩ (machineOn pairPlaces) with ⟨_ | c, m'⟩
  · rw [ran] at runs
    cases runs
  · rw [ran] at runs
    obtain ⟨isClass, rest⟩ := Prod.mk.inj (Option.some.inj runs)
    obtain ⟨open_, above⟩ := Prod.mk.inj rest
    refine ⟨c, m', rfl, isClass, open_, above, ?_⟩
    rintro ⟨ancestors, w', walked, -⟩
    rw [walked] at walks
    cases walks

end Machine

end AspectProxy
