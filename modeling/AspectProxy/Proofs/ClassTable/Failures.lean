import AspectProxy.Proofs.ClassTable.Chains
import AspectProxy.Proofs.ClassTable.OneClass
import AspectProxy.Proofs.ClassTable.WholeUnits
import AspectProxy.Proofs.Sources.Inheritance

/-!
How defining a unit can fail where inheritance is lawful: nothing in the unit itself is refused, so it fails only as
loading a unit fails that it needs.
-/

namespace AspectProxy

/-- A step fails on a machine in no other way. -/
def Change.OnlyFails (step : Change ε α) (m : Machine) (bad : ε → Prop) : Prop :=
  ∀ e m', step m = (.error e, m') → bad e

namespace Change.OnlyFails

variable {m m' : Machine} {bad : ε → Prop}

theorem of_ok {x : Change ε α} {a : α} (h : x m = (.ok a, m')) : x.OnlyFails m bad := by
  intro e m'' failed
  rw [h] at failed
  cases failed

theorem bind {x : Change ε α} {f : α → Change ε β} (first : x.OnlyFails m bad)
    (rest : ∀ a m', x m = (.ok a, m') → (f a).OnlyFails m' bad) : (x >>= f).OnlyFails m bad := by
  intro e m' failed
  rcases ran : x m with ⟨e' | a, m₁⟩
  · rw [run_bind_error ran] at failed
    cases failed
    exact first _ _ ran
  · rw [run_bind ran] at failed
    exact rest a m₁ ran e m' failed

theorem mapError {x : Change ε α} {f : ε → δ} {bad' : δ → Prop} (h : x.OnlyFails m bad) (maps : ∀ e, bad e → bad' (f e)) :
    (Machine.mapError f x).OnlyFails m bad' := by
  intro e m' failed
  unfold Machine.mapError at failed
  rcases ran : x m with ⟨_ | _, _⟩ <;> rw [ran] at failed <;> cases failed
  exact maps _ (h _ _ ran)

end Change.OnlyFails

namespace Machine

/-- A step of a build fails in no other way. -/
def Build.OnlyFails (step : Build α) (s : List LoadedClass × Machine) (bad : DefinitionError → Prop) : Prop :=
  (step s.1).OnlyFails s.2 bad

namespace Build.OnlyFails

variable {s t : List LoadedClass × Machine} {bad : DefinitionError → Prop}

theorem bind {x : Build α} {f : α → Build β} (first : OnlyFails x s bad)
    (rest : ∀ a t, x s.1 s.2 = (.ok (a, t.1), t.2) → OnlyFails (f a) t bad) : OnlyFails (x >>= f) s bad :=
  Change.OnlyFails.bind first fun r m' ran => rest r.1 (r.2, m') ran

theorem bind_get {f : List LoadedClass → Build α} (rest : OnlyFails (f s.1) s bad) : OnlyFails (get >>= f) s bad :=
  rest

theorem bind_ok {r : Except DefinitionError α} {a : α} {f : α → Build β} (h : r = .ok a) (rest : OnlyFails (f a) s bad) :
    OnlyFails (Build.lift r >>= f) s bad := by
  subst h
  exact rest

theorem liftChange {x : Change DefinitionError α} (h : x.OnlyFails s.2 bad) : OnlyFails (StateT.lift x) s bad :=
  Change.OnlyFails.bind h fun _ _ _ => .of_ok rfl

end Build.OnlyFails

theorem Build.of_liftChange {x : Change DefinitionError α} {a : α} {built built' : List LoadedClass} {m m' : Machine}
    (h : StateT.lift x built m = (.ok (a, built'), m')) : x m = (.ok a, m') ∧ built' = built := by
  obtain ⟨b, m₁, ran, rest⟩ := AspectProxy.of_run_bind h
  cases rest
  exact ⟨ran, rfl⟩

theorem outsideParent_ok {load : ClassName → Change LoadError LoadedClass} {name parent : ClassName} {p : LoadedClass}
    {m m' : Machine} (h : outsideParent load name parent m = (.ok p, m')) : load parent m = (.ok p, m') := by
  unfold outsideParent mapError at h
  rcases ran : load parent m with ⟨_ | _, _⟩ <;> rw [ran] at h <;> cases h
  rfl

variable {places : SourceChain} {n name resolved : ClassName} {u : SourceUnit} {d : Declaration} {m m' : Machine}

/-- Declarations with names of their own that are free get these names. -/
theorem declaredNames_total {ds : List Declaration} {names : List ClassName}
    (free : ∀ d ∈ ds, ∃ n, u.qualified d.name = .ok n ∧ m.isDefined n = false)
    (apart : ds.Pairwise fun d e => ∀ c, u.Names d c → ¬u.Names e c) (fresh : ∀ d ∈ ds, ∀ c ∈ names, ¬u.Names d c) :
    ∃ names', declaredNames u m ds names = .ok names' := by
  induction ds generalizing names with
  | nil => exact ⟨names, rfl⟩
  | cons d rest ih =>
    obtain ⟨⟨n, qualified, undefined⟩, free⟩ := List.forall_mem_cons.mp free
    obtain ⟨here, apart⟩ := List.pairwise_cons.mp apart
    obtain ⟨own, fresh⟩ := List.forall_mem_cons.mp fresh
    have unused : names.any (· == n) = false := by
      rw [List.any_eq_false]
      exact fun c hc same => own c hc ⟨n, qualified, ClassName.beq_symm same⟩
    have more : ∀ e ∈ rest, ∀ c ∈ names ++ [n], ¬u.Names e c := by
      intro e he
      refine List.forall_mem_append.mpr ⟨fresh e he, List.forall_mem_singleton.mpr ?_⟩
      exact here e he n (SourceUnit.names_of_qualified qualified)
    rw [declaredNames, qualified]
    simp only [unused, undefined, Bool.or_self, Bool.false_eq_true, if_false]
    exact ih free apart more

/-- Members with names of their own are collected, if none of them is final above. -/
theorem collectMembers_total {parent : Option LoadedClass} {members : List Member} {methods : List Method}
    {properties : List Property} (allowed : ∀ f ∈ Member.methods members, overridesFinal parent f.name = false)
    (ms : ((methods ++ Member.methods members).map (·.name)).Nodup)
    (ps : ((properties ++ Member.properties members).map (·.name)).Nodup) :
    ∃ r, collectMembers name parent members methods properties = .ok r := by
  induction members generalizing methods properties with
  | nil => exact ⟨_, rfl⟩
  | cons member rest ih =>
    cases member with
    | method f =>
      obtain ⟨here, allowed⟩ := List.forall_mem_cons.mp allowed
      have fresh : methods.any (fun g => decide (g.name = f.name)) = false := by
        simp only [Member.methods_cons_method, List.map_append, List.map_cons] at ms
        simp only [List.any_eq_false, decide_eq_true_eq]
        intro g hg same
        exact (List.nodup_append.mp ms).2.2 _ (List.mem_map_of_mem hg) _ List.mem_cons_self same
      simp only [collectMembers, here, fresh, Bool.false_eq_true, if_false]
      exact ih allowed (by simpa using ms) ps
    | property p =>
      have fresh : properties.any (fun q => decide (q.name = p.name)) = false := by
        simp only [Member.properties_cons_property, List.map_append, List.map_cons] at ps
        simp only [List.any_eq_false, decide_eq_true_eq]
        intro q hq same
        exact (List.nodup_append.mp ps).2.2 _ (List.mem_map_of_mem hq) _ List.mem_cons_self same
      simp only [collectMembers, fresh, Bool.false_eq_true, if_false]
      exact ih allowed ms (by simpa using ps)

theorem bodyOf_total {parent : Option LoadedClass}
    (allowed : ∀ f ∈ Member.methods d.members, overridesFinal parent f.name = false)
    (ms : ((Member.methods d.members).map (·.name)).Nodup) (ps : ((Member.properties d.members).map (·.name)).Nodup) :
    ∃ c, bodyOf u name d parent = .ok c := by
  obtain ⟨⟨methods, properties⟩, collected⟩ : ∃ r, collectMembers name parent d.members [] [] = .ok r :=
    collectMembers_total allowed ms ps
  unfold bodyOf
  rw [collected]
  exact ⟨_, rfl⟩

theorem register_total {names : List ClassName} {built : List LoadedClass} (free : ∀ n ∈ names, m.isDefined n = false) :
    ∃ handles m', register names built m = (.ok handles, m') := by
  have none : names.find? m.isDefined = none := by simpa using free
  simp only [register, none]
  exact ⟨_, _, rfl⟩

/-- A class is what a declaration of its name in the sources has become. -/
def Stems (places : SourceChain) (c : LoadedClass) : Prop :=
  ∃ n u d, places.Declares n u d c.name ∧ DeclaredAs u d c

theorem FromUnits.stems {classes : List LoadedClass} (whole : FromUnits places classes) :
    ∀ c ∈ classes, Stems places c := by
  intro c hc
  obtain ⟨n, u, d, held, -, hd, became, -⟩ := whole c hc
  exact ⟨n, u, d, ⟨held, hd, became.names⟩, became.as⟩

/-- The parent of a class is the class that it extends in the sources. -/
theorem Stems.extends {c p : LoadedClass} (stems : Stems places c) (up : c.parent? = some p) :
    places.Extends c.name p.name := by
  obtain ⟨n, u, d, declares, as⟩ := stems
  have parentOf := as.parentOf
  unfold ParentOf at parentOf
  split at parentOf
  case h_1 => rw [up] at parentOf; cases parentOf
  case h_2 reference refers =>
    obtain ⟨resolved, q, means, there, named⟩ := parentOf
    obtain rfl : p = q := Option.some.inj (up.symm.trans there)
    exact ⟨n, u, d, reference, declares, refers,
      (SourceUnit.means_of_parentName means).congr (ClassName.beq_symm named)⟩

/-- Classes that come from the sources, with the parent of each. -/
structure Rooted (places : SourceChain) (known : List LoadedClass) : Prop where
  stems : ∀ c ∈ known, Stems places c
  parent_mem : ∀ c ∈ known, ∀ p, c.parent? = some p → p ∈ known

/-- All that a class inherits from is known with it, and what extends the class extends that too. -/
theorem Rooted.extends_lineage {known : List LoadedClass} (rooted : Rooted places known) {p x : LoadedClass}
    (hp : p ∈ known) (way : Relation.TransGen places.Extends name p.name) (hx : x ∈ p.lineage) :
    x ∈ known ∧ Relation.TransGen places.Extends name x.name := by
  obtain ⟨own, ancestors⟩ := p
  induction ancestors generalizing own with
  | nil =>
    obtain rfl : x = ⟨own, []⟩ := List.mem_singleton.mp hx
    exact ⟨hp, way⟩
  | cons b rest ih =>
    rcases List.mem_append.mp hx with above | here
    · exact ih b (rooted.parent_mem _ hp _ rfl) (way.tail ((rooted.stems _ hp).extends rfl)) above
    · obtain rfl : x = ⟨own, b :: rest⟩ := List.mem_singleton.mp here
      exact ⟨hp, way⟩

/-- A declaration may have the parent that it extends, and declares nothing that is final above. -/
theorem Rooted.allowed {known : List LoadedClass} (rooted : Rooted places known) (lawful : places.LawfulInheritance)
    {p : LoadedClass} (hp : p ∈ known) (declares : places.Declares n u d name) (up : places.Extends name p.name) :
    checkParent name p = .ok () ∧ ∀ f ∈ Member.methods d.members, overridesFinal (some p) f.name = false := by
  constructor
  · obtain ⟨k, v, e, declared, as⟩ := rooted.stems p hp
    obtain ⟨e, rfl, open_⟩ := lawful.mayExtend up declared
    have isClass : p.own.isTrait = false := as.body.isTrait
    have notFinal : p.own.isFinal = false := (isFinal_of_bodyOf as.made).trans open_
    simp [checkParent, isClass, notFinal]
  · intro f hf
    cases found : p.findMethod f.name with
    | none => simp [overridesFinal, found]
    | some inherited =>
      obtain ⟨owner, g⟩ := inherited
      obtain ⟨within, hg, named⟩ := LoadedClass.mem_lineage_of_findMethod found
      obtain ⟨known, way⟩ := rooted.extends_lineage hp (.single up) within
      obtain ⟨k, v, e, declared, as⟩ := rooted.stems owner known
      simpa [overridesFinal, found] using lawful.finals way declares declared f hf g (as.body.methods ▸ hg) named

/-- A machine whose classes come from whole units of places, from where it loads others. -/
structure InOrder (places : SourceChain) (m : Machine) : Prop where
  ordered : OrderedTable m.classes
  supplied : m.LoadsFrom places
  whole : FromUnits places m.classes

theorem Advanced.inOrder {avoid : List ClassName} (h : Advanced places avoid m m') (before : InOrder places m) :
    InOrder places m' :=
  ⟨h.ordered, h.supplied, h.entered.fromUnits before.whole⟩

/-- Where a build of a unit stands, amid some loads. -/
structure Standing (places : SourceChain) (u : SourceUnit) (entries : List (ClassName × Declaration))
    (loading : List ClassName) (s : List LoadedClass × Machine) : Prop where
  machine : InOrder places s.2
  loading_eq : s.2.loading = loading
  unfinished : Unfinished u entries s.2.classes s.1

/-- Loading fails with a class that cannot be defined, not with one that is missing. -/
def Unloadable (bad : DefinitionError → Prop) : LoadError → Prop
  | .missing _ => False
  | .invalid e => bad e

section Building

variable {entries : List (ClassName × Declaration)} {loading : List ClassName} {s t : List LoadedClass × Machine}
  {load : ClassName → Change LoadError LoadedClass} {bad : DefinitionError → Prop}

theorem Standing.rooted (standing : Standing places u entries loading s) (held : places.Holds n u)
    (of : EntriesOf u entries) : Rooted places (s.1 ++ s.2.classes) where
  stems := by
    refine List.forall_mem_append.mpr ⟨fun c hc => ?_, standing.machine.whole.stems⟩
    obtain ⟨d, listed, as⟩ := standing.unfinished.declared c hc
    exact ⟨n, u, d, ⟨held, of.mem_declarations listed, of.names listed⟩, as⟩
  parent_mem := by
    refine List.forall_mem_append.mpr ⟨fun c hc p up => ?_, fun c hc p up => ?_⟩
    · exact List.mem_append.mpr (standing.unfinished.parent_mem c hc p up)
    · exact List.mem_append_right _ (standing.machine.ordered.parent_mem c hc p up)

/-- A declaration that was built leaves its class. -/
theorem Standing.after_build (standing : Standing places u entries loading s) (loads : Loads load)
    (keeps : ∀ k, Change.Keeps (Advances places) (load k)) {fuel : Nat} {path : List ClassName} {c : LoadedClass}
    (listed : (name, d) ∈ entries) (ran : build load u entries fuel path name d s.1 s.2 = (.ok (c, t.1), t.2)) :
    Standing places u entries loading t ∧ c ∈ t.1 ∧ (c.name == name) = true := by
  have ends : (build load u entries fuel path name d).Ends s _ _ :=
    build_ends loads fuel listed standing.machine.ordered standing.unfinished
  have advanced := build_keeps keeps u entries fuel path name d s.1 s.2 standing.machine.ordered standing.machine.supplied
  simp only [Build.Ends, Change.Ends, ran] at ends advanced
  obtain ⟨on, hc, named⟩ := ends
  exact ⟨⟨advanced.inOrder standing.machine, advanced.loading.trans standing.loading_eq, on.unfinished⟩, hc, named⟩

theorem Standing.after_load (standing : Standing places u entries loading s) (loads : Loads load)
    (keeps : ∀ k, Change.Keeps (Advances places) (load k)) {c : LoadedClass} {m : Machine}
    (ran : load name s.2 = (.ok c, m)) :
    Standing places u entries loading (s.1, m) ∧ c ∈ m.classes ∧ (c.name == name) = true := by
  have ends := loads name s.2 standing.machine.ordered
  have advanced := keeps name s.2 standing.machine.ordered standing.machine.supplied
  simp only [Change.Ends, ran] at ends advanced
  obtain ⟨grown, hc, named⟩ := ends
  exact ⟨⟨advanced.inOrder standing.machine, advanced.loading.trans standing.loading_eq,
    standing.unfinished.grow grown⟩, hc, named⟩

/-- The declarations being built, when a class is asked for by the last of them: different ones of a unit, each of which
extends the class, and no more of them than the fuel that is used up. -/
structure Underway (places : SourceChain) (entries : List (ClassName × Declaration)) (fuel : Nat) (path : List ClassName)
    (name : ClassName) : Prop where
  apart : Apart path
  listed : ∀ q ∈ path, q ∈ entries.map (·.1)
  extending : ∀ q ∈ path, Relation.TransGen places.Extends q name
  enough : entries.length < fuel + path.length

namespace Underway

variable {fuel : Nat} {path : List ClassName} {parent : ClassName}

theorem empty : Underway places entries (entries.length + 1) [] name :=
  ⟨.nil, nofun, nofun, Nat.lt_succ_self _⟩

theorem fuel_ne_zero (underway : Underway places entries fuel path name) : fuel ≠ 0 := by
  have short := length_path_le underway.apart underway.listed
  have enough := underway.enough
  omega

/-- What is lawful does not come back to a class that is being built. -/
theorem off (underway : Underway places entries fuel path name) (lawful : places.LawfulInheritance) :
    path.any (· == name) = false := by
  rw [List.any_eq_false]
  intro q hq same
  exact lawful.acyclic name (SourceChain.Extends.chain_congr (underway.extending q hq) same)

theorem above (underway : Underway places entries (fuel + 1) path name) (off : path.any (· == name) = false)
    (listed : (name, d) ∈ entries) (up : places.Extends name parent) :
    Underway places entries fuel (name :: path) parent where
  apart := underway.apart.cons off
  listed := List.forall_mem_cons.mpr ⟨List.mem_map_of_mem (f := (·.1)) listed, underway.listed⟩
  extending := List.forall_mem_cons.mpr ⟨.single up, fun q hq => (underway.extending q hq).tail up⟩
  enough := by
    have := underway.enough
    rw [List.length_cons]
    omega

end Underway

section Lawful

variable (arranged : places.Arranged) (lawful : places.LawfulInheritance) (held : places.Holds n u)
  (of : EntriesOf u entries) (loads : Loads load) (keeps : ∀ k, Change.Keeps (Advances places) (load k))
  (below : ∀ k v m, places.Needs n k → places.Holds k v → InOrder places m → m.loading = loading →
    (load k).OnlyFails m (Unloadable bad))

/-- The last steps of building a declaration do not fail. -/
theorem finish_onlyFails {parent : Option LoadedClass} (declares : places.Declares n u d name)
    (lawful : places.LawfulInheritance)
    (allowed : ∀ f ∈ Member.methods d.members, overridesFinal parent f.name = false) :
    Build.OnlyFails (do
        let c ← Build.lift (bodyOf u name d parent)
        modify (· ++ [c])
        return c) s bad := by
  obtain ⟨methods, properties⟩ := lawful.members declares
  obtain ⟨c, made⟩ : ∃ c, bodyOf u name d parent = .ok c := bodyOf_total allowed methods properties
  exact .bind_ok made (Change.OnlyFails.of_ok rfl)

/-- Neither do the steps behind finding its parent. -/
theorem under_onlyFails {p : LoadedClass} {known : List LoadedClass} (rooted : Rooted places known) (hp : p ∈ known)
    (declares : places.Declares n u d name) (lawful : places.LawfulInheritance) (up : places.Extends name p.name) :
    Build.OnlyFails (do
        Build.lift (checkParent name p)
        let parent ← pure (some p)
        let c ← Build.lift (bodyOf u name d parent)
        modify (· ++ [c])
        return c) s bad := by
  obtain ⟨mayExtend, allowed⟩ := rooted.allowed lawful hp declares up
  exact .bind_ok mayExtend (finish_onlyFails declares lawful allowed)

include arranged held of below

/-- Nor does asking for a parent that another unit declares, but for loading it. -/
theorem outsideParent_onlyFails (declares : places.Declares n u d name) {reference : String}
    (refers : parentReference d = some reference) (means : u.Means reference resolved)
    (missing : entries.find? (fun e => e.1 == resolved) = none) (standing : Standing places u entries loading s) :
    (outsideParent load name resolved).OnlyFails s.2 bad := by
  obtain ⟨needs, v, elsewhere⟩ : places.Needs n resolved ∧ ∃ v, places.Holds resolved v := by
    refine (arranged.declared_or_needs held declares.mem refers means).resolve_left ?_
    rintro ⟨e, he, named⟩
    exact of.not_names_of_find? missing e he named
  have loaded := below resolved v s.2 needs elsewhere standing.machine standing.loading_eq
  refine loaded.mapError ?_
  rintro (_ | e) unloadable
  · cases unloadable
  · exact unloadable

include lawful loads keeps

/-- Building a declaration fails only as a load does that the unit needs. The induction is on the fuel, which the
declarations under way do not use up. -/
theorem build_onlyFails (fuel : Nat) {path : List ClassName} (listed : (name, d) ∈ entries)
    (standing : Standing places u entries loading s) (underway : Underway places entries fuel path name) :
    Build.OnlyFails (build load u entries fuel path name d) s bad := by
  induction fuel generalizing path name d s with
  | zero => exact absurd rfl underway.fuel_ne_zero
  | succ fuel ih =>
    have declares : places.Declares n u d name := ⟨held, of.mem_declarations listed, of.names listed⟩
    rw [build]
    refine .bind_get ?_
    dsimp only
    split
    case h_1 c found => exact Change.OnlyFails.of_ok rfl
    case h_2 absent =>
      have off := underway.off lawful
      simp only [off, Bool.false_eq_true, if_false]
      cases refers : parentReference d with
      | none =>
        have allowed : ∀ f ∈ Member.methods d.members, overridesFinal none f.name = false := fun _ _ => rfl
        exact finish_onlyFails declares lawful allowed
      | some reference =>
        obtain ⟨q, means, -⟩ := arranged.parents n u held d declares.mem reference refers
        obtain ⟨resolved, parentName, means⟩ := means.parentName name
        have up : places.Extends name resolved := ⟨n, u, d, reference, declares, refers, means⟩
        refine .bind_ok parentName ?_
        split
        case h_1 k e declared =>
          have entered : (k, e) ∈ entries := List.mem_of_find?_eq_some declared
          have same : (k == resolved) = true := by simpa using List.find?_some declared
          have up := up.congr_right (ClassName.beq_symm same)
          refine .bind (ih entered standing (underway.above off listed up)) ?_
          intro p t ran
          obtain ⟨standing, hp, named⟩ := standing.after_build loads keeps entered ran
          exact under_onlyFails (standing.rooted held of) (List.mem_append_left _ hp) declares lawful
            (up.congr_right (ClassName.beq_symm named))
        case h_2 missing =>
          have outside := outsideParent_onlyFails arranged held of below declares refers means missing standing
          refine .bind (.liftChange outside) ?_
          intro p t ran
          obtain ⟨ran, kept⟩ := Build.of_liftChange ran
          obtain ⟨standing, hp, named⟩ := standing.after_load loads keeps (outsideParent_ok ran)
          exact under_onlyFails (standing.rooted held of) (List.mem_append_right _ hp) declares lawful
            (up.congr_right (ClassName.beq_symm named))

theorem buildAll_onlyFails {todo : List (ClassName × Declaration)} (listed : todo ⊆ entries)
    (standing : Standing places u entries loading s) : Build.OnlyFails (buildAll load u entries todo) s bad := by
  induction todo generalizing s with
  | nil => exact Change.OnlyFails.of_ok rfl
  | cons e rest ih =>
    obtain ⟨name, d⟩ := e
    obtain ⟨here, later⟩ := List.cons_subset.mp listed
    have first : Build.OnlyFails (build load u entries (entries.length + 1) [] name d) s bad :=
      build_onlyFails arranged lawful held of loads keeps below _ here standing .empty
    refine .bind first ?_
    intro c t ran
    exact ih later (standing.after_build loads keeps here ran).1

end Lawful

end Building

end Machine

end AspectProxy
