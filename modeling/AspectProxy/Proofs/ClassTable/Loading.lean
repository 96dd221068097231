import AspectProxy.Proofs.ClassTable.Lawful
import AspectProxy.Proofs.Machine.Loads
import Mathlib.Data.List.Forall2

/-!
Defining and loading classes keeps the class table in order. What is built of a unit is lawful above the table at
every moment, also when a load inside the build adds classes half way; it enters the table as a whole, parents
included.
-/

namespace AspectProxy

/-- A table of lawful classes, each name once, with the parent of each. -/
structure OrderedTable (classes : List LoadedClass) : Prop where
  distinct : classes.Pairwise fun a b => (a.name == b.name) = false
  lawful : ∀ c ∈ classes, c.Lawful
  parent_mem : ∀ c ∈ classes, ∀ p, c.parent? = some p → p ∈ classes

/-- A table in order that begins with the classes of another. -/
structure Grown (before after : List LoadedClass) : Prop where
  ordered : OrderedTable after
  extends_ : before <+: after

theorem OrderedTable.empty : OrderedTable [] where
  distinct := .nil
  lawful := by simp
  parent_mem := by simp

theorem OrderedTable.grown {classes : List LoadedClass} (h : OrderedTable classes) : Grown classes classes :=
  ⟨h, List.prefix_rfl⟩

theorem Grown.trans {a b c : List LoadedClass} (first : Grown a b) (second : Grown b c) : Grown a c :=
  ⟨second.ordered, first.extends_.trans second.extends_⟩

/-- Among classes of distinct names, each is what its name finds. -/
theorem find?_name_of_distinct {classes : List LoadedClass} {c : LoadedClass}
    (distinct : classes.Pairwise fun a b => (a.name == b.name) = false) (hc : c ∈ classes) :
    classes.find? (fun x => x.name == c.name) = some c := by
  induction classes with
  | nil => cases hc
  | cons x rest ih =>
    obtain ⟨apart, distinct⟩ := List.pairwise_cons.mp distinct
    rcases List.mem_cons.mp hc with rfl | hc
    · simp
    · rw [List.find?_cons_of_neg (by simp [apart c hc])]
      exact ih distinct hc

/-- Where a step ends, as it succeeds or fails. -/
def Change.Ends (step : Change ε α) (m : Machine) (good : α → Machine → Prop) (bad : Machine → Prop) : Prop :=
  match step m with
  | (.ok a, m') => good a m'
  | (.error _, m') => bad m'

namespace Change.Ends

variable {m : Machine} {bad : Machine → Prop}

theorem bind {x : Change ε α} {f : α → Change ε β} {good : α → Machine → Prop} {good' : β → Machine → Prop}
    (first : Ends x m good bad) (rest : ∀ a m', good a m' → Ends (f a) m' good' bad) :
    Ends (x >>= f) m good' bad := by
  simp only [Ends, Bind.bind, ExceptT.bind, ExceptT.mk, StateT.bind] at first ⊢
  rcases h : x m with ⟨_ | a, m'⟩ <;> simp only [h] at first ⊢
  · exact first
  · exact rest a m' first

theorem bind_ok {x : Change ε α} {f : α → Change ε β} {good : β → Machine → Prop} {a : α} {m' : Machine}
    (first : x m = (.ok a, m')) (rest : Ends (f a) m' good bad) : Ends (x >>= f) m good bad := by
  simp only [Ends, Bind.bind, ExceptT.bind, ExceptT.mk, StateT.bind, first]
  exact rest

theorem mono {x : Change ε α} {good good' : α → Machine → Prop} {bad' : Machine → Prop} (h : Ends x m good bad)
    (onOk : ∀ a m', good a m' → good' a m') (onError : ∀ m', bad m' → bad' m') : Ends x m good' bad' := by
  simp only [Ends] at h ⊢
  rcases hx : x m with ⟨_ | a, m'⟩ <;> simp only [hx] at h ⊢
  · exact onError m' h
  · exact onOk a m' h

theorem mapError {x : Change ε α} {good : α → Machine → Prop} (h : Ends x m good bad) (f : ε → δ) :
    Ends (Machine.mapError f x) m good bad := by
  simp only [Ends, Machine.mapError] at h ⊢
  rcases hx : x m with ⟨_ | a, m'⟩ <;> simpa only [hx] using h

theorem result {x : Change ε α} {good : α → Machine → Prop} (h : Ends x m good bad) {P : Machine → Prop}
    (onOk : ∀ a m', good a m' → P m') (onError : ∀ m', bad m' → P m') : P (x m).2 := by
  simp only [Ends] at h
  rcases hx : x m with ⟨_ | a, m'⟩ <;> simp only [hx] at h
  · exact onError m' h
  · exact onOk a m' h

end Change.Ends

namespace Machine

/-- A way to load classes that keeps a table in order and gives classes of the table, by their names. -/
def Loads (load : ClassName → Change LoadError LoadedClass) : Prop :=
  ∀ name m, OrderedTable m.classes →
    (load name).Ends m (fun c m' => Grown m.classes m'.classes ∧ c ∈ m'.classes ∧ (c.name == name) = true)
      fun m' => Grown m.classes m'.classes

/-- The parent that the reference of a declaration means. -/
def ParentOf (u : SourceUnit) (name : ClassName) (d : Declaration) (parent : Option LoadedClass) : Prop :=
  match parentReference d with
  | none => parent = none
  | some reference =>
    ∃ resolved p, parentName u name reference = .ok resolved ∧ parent = some p ∧ (p.name == resolved) = true

/-- A class that a declaration of a unit has become. -/
structure DeclaredAs (u : SourceUnit) (d : Declaration) (c : LoadedClass) : Prop where
  made : bodyOf u c.name d c.parent? = .ok c
  parentOf : ParentOf u c.name d c.parent?

theorem DeclaredAs.body {u : SourceUnit} {d : Declaration} {c : LoadedClass} (h : DeclaredAs u d c) :
    BodyOf u c.name d c.parent? c :=
  bodyOf_ok h.made

/-- Classes of a unit that is being defined above a table. -/
structure Unfinished (u : SourceUnit) (entries : List (ClassName × Declaration)) (classes : List LoadedClass)
    (built : List LoadedClass) : Prop where
  distinct : built.Pairwise fun a b => (a.name == b.name) = false
  lawful : ∀ c ∈ built, c.Lawful
  parent_mem : ∀ c ∈ built, ∀ p, c.parent? = some p → p ∈ built ∨ p ∈ classes
  declared : ∀ c ∈ built, ∃ d, (c.name, d) ∈ entries ∧ DeclaredAs u d c

section Building

variable {u : SourceUnit} {entries : List (ClassName × Declaration)} {classes built : List LoadedClass}

theorem Unfinished.empty : Unfinished u entries classes [] where
  distinct := .nil
  lawful := by simp
  parent_mem := by simp
  declared := by simp

theorem Unfinished.grow {classes' : List LoadedClass} (h : Unfinished u entries classes built)
    (grown : Grown classes classes') : Unfinished u entries classes' built :=
  { h with parent_mem := fun c hc p up => (h.parent_mem c hc p up).imp_right fun hp => grown.extends_.subset hp }

/-- A class that is built under a parent which may be extended joins the others. -/
theorem Unfinished.add {d : Declaration} {c : LoadedClass} (h : Unfinished u entries classes built)
    (listed : (c.name, d) ∈ entries) (declared : DeclaredAs u d c)
    (fresh : ∀ x ∈ built, (x.name == c.name) = false)
    (above : ∀ p, c.parent? = some p →
      (p ∈ built ∨ p ∈ classes) ∧ p.Lawful ∧ p.own.isTrait = false ∧ p.own.isFinal = false) :
    Unfinished u entries classes (built ++ [c]) where
  distinct := by
    refine List.pairwise_append.mpr ⟨h.distinct, List.pairwise_singleton _ _, ?_⟩
    intro x hx y hy
    rw [List.mem_singleton.mp hy]
    exact fresh x hx
  lawful := by
    intro x hx
    rcases List.mem_append.mp hx with hx | hx
    · exact h.lawful x hx
    · rw [List.mem_singleton.mp hx]
      exact declared.body.lawful fun p hp => (above p hp).2
  parent_mem := by
    intro x hx p up
    rcases List.mem_append.mp hx with hx | hx
    · exact (h.parent_mem x hx p up).imp_left (List.mem_append_left _)
    · rw [List.mem_singleton.mp hx] at up
      exact (above p up).1.imp_left (List.mem_append_left _)
  declared := by
    intro x hx
    rcases List.mem_append.mp hx with hx | hx
    · exact h.declared x hx
    · rw [List.mem_singleton.mp hx]
      exact ⟨d, listed, declared⟩

/-- What building a part of a unit comes to: more classes, of which no new one has a name on the path. -/
structure BuiltOn (u : SourceUnit) (entries : List (ClassName × Declaration)) (path : List ClassName)
    (before : List LoadedClass × Machine) (after : List LoadedClass × Machine) : Prop where
  grown : Grown before.2.classes after.2.classes
  kept : before.1 <+: after.1
  unfinished : Unfinished u entries after.2.classes after.1
  off_path : ∀ c ∈ after.1, c ∈ before.1 ∨ path.any (· == c.name) = false

/-- Where a step of a build ends, with the classes built then. -/
def Build.Ends (step : Build α) (s : List LoadedClass × Machine) (good : α → List LoadedClass × Machine → Prop)
    (bad : Machine → Prop) : Prop :=
  (step s.1).Ends s.2 (fun r m' => good r.1 (r.2, m')) bad

namespace Build.Ends

variable {s : List LoadedClass × Machine} {bad : Machine → Prop}

theorem bind {x : Build α} {f : α → Build β} {good : α → List LoadedClass × Machine → Prop}
    {good' : β → List LoadedClass × Machine → Prop} (first : Ends x s good bad)
    (rest : ∀ a t, good a t → Ends (f a) t good' bad) : Ends (x >>= f) s good' bad :=
  Change.Ends.bind first fun r m' h => rest r.1 (r.2, m') h

theorem bind_get {f : List LoadedClass → Build β} {good : β → List LoadedClass × Machine → Prop}
    (rest : Ends (f s.1) s good bad) : Ends (get >>= f) s good bad :=
  rest

theorem bind_lift {r : Except DefinitionError α} {f : α → Build β} {good : β → List LoadedClass × Machine → Prop}
    (onError : bad s.2) (rest : ∀ a, r = .ok a → Ends (f a) s good bad) :
    Ends (Build.lift r >>= f) s good bad := by
  cases r with
  | error e => exact onError
  | ok a => exact rest a rfl

theorem liftChange {x : Change DefinitionError α} {good : α → Machine → Prop} (h : x.Ends s.2 good bad) :
    Ends (StateT.lift x) s (fun a t => t.1 = s.1 ∧ good a t.2) bad :=
  Change.Ends.bind h fun _ _ ha => ⟨rfl, ha⟩

end Build.Ends

variable {load : ClassName → Change LoadError LoadedClass}

/-- The last steps of building a declaration, once its parent is there. -/
theorem finish_ends {path : List ClassName} {name : ClassName} {d : Declaration} {parent : Option LoadedClass}
    {s t : List LoadedClass × Machine} (listed : (name, d) ∈ entries) (on : BuiltOn u entries (name :: path) s t)
    (fresh : ∀ c ∈ s.1, (c.name == name) = false) (offPath : path.any (· == name) = false)
    (parentOf : ParentOf u name d parent)
    (above : ∀ p, parent = some p →
      (p ∈ t.1 ∨ p ∈ t.2.classes) ∧ p.Lawful ∧ p.own.isTrait = false ∧ p.own.isFinal = false) :
    Build.Ends (do
        let c ← Build.lift (bodyOf u name d parent)
        modify (· ++ [c])
        return c)
      t (fun c r => BuiltOn u entries path s r ∧ c ∈ r.1 ∧ (c.name == name) = true)
      (fun m' => Grown s.2.classes m'.classes) := by
  refine .bind_lift on.grown fun c made => ?_
  have body := bodyOf_ok made
  obtain rfl : c.name = name := body.name_eq
  obtain rfl : c.parent? = parent := body.parent_eq
  have freshHere : ∀ x ∈ t.1, (x.name == c.name) = false := by
    intro x hx
    rcases on.off_path x hx with old | off
    · exact fresh x old
    · rw [List.any_cons, Bool.or_eq_false_iff] at off
      rw [ClassName.beq_comm]
      exact off.1
  have built : BuiltOn u entries path s (t.1 ++ [c], t.2) := {
    grown := on.grown
    kept := on.kept.trans (List.prefix_append _ _)
    unfinished := on.unfinished.add listed ⟨made, parentOf⟩ freshHere above
    off_path := by
      intro x hx
      rcases List.mem_append.mp hx with hx | hx
      · refine (on.off_path x hx).imp_right fun off => ?_
        rw [List.any_cons, Bool.or_eq_false_iff] at off
        exact off.2
      · rw [List.mem_singleton.mp hx]
        exact .inr offPath }
  exact ⟨built, List.mem_append_right _ (List.mem_singleton.mpr rfl), ClassName.beq_self _⟩

theorem BuiltOn.refl {path : List ClassName} {s : List LoadedClass × Machine} (ordered : OrderedTable s.2.classes)
    (unfinished : Unfinished u entries s.2.classes s.1) : BuiltOn u entries path s s where
  grown := ordered.grown
  kept := List.prefix_rfl
  unfinished := unfinished
  off_path := fun _ hc => .inl hc

/-- A class among those built, or in the table, is lawful. -/
theorem BuiltOn.lawful {path : List ClassName} {s t : List LoadedClass × Machine} (on : BuiltOn u entries path s t)
    {p : LoadedClass} (hp : p ∈ t.1 ∨ p ∈ t.2.classes) : p.Lawful :=
  hp.elim (on.unfinished.lawful p) (on.grown.ordered.lawful p)

/-- The steps of building a declaration behind finding its parent. -/
theorem under_ends {path : List ClassName} {name resolved : ClassName} {d : Declaration} {reference : String}
    {p : LoadedClass} {s t : List LoadedClass × Machine} (listed : (name, d) ∈ entries)
    (on : BuiltOn u entries (name :: path) s t) (fresh : ∀ c ∈ s.1, (c.name == name) = false)
    (offPath : path.any (· == name) = false) (refers : parentReference d = some reference)
    (means : parentName u name reference = .ok resolved) (hp : p ∈ t.1 ∨ p ∈ t.2.classes)
    (named : (p.name == resolved) = true) :
    Build.Ends (do
        Build.lift (checkParent name p)
        let parent ← pure (some p)
        let c ← Build.lift (bodyOf u name d parent)
        modify (· ++ [c])
        return c)
      t (fun c r => BuiltOn u entries path s r ∧ c ∈ r.1 ∧ (c.name == name) = true)
      (fun m' => Grown s.2.classes m'.classes) := by
  refine .bind_lift on.grown fun _ allowed => ?_
  refine finish_ends listed on fresh offPath ?_ ?_
  · rw [ParentOf, refers]
    exact ⟨resolved, p, means, rfl, named⟩
  · intro q hq
    obtain rfl := Option.some.inj hq
    exact ⟨hp, on.lawful hp, checkParent_ok allowed⟩

theorem outsideParent_ends (loads : Loads load) (name parent : ClassName) {m : Machine}
    (ordered : OrderedTable m.classes) :
    (outsideParent load name parent).Ends m
      (fun c m' => Grown m.classes m'.classes ∧ c ∈ m'.classes ∧ (c.name == parent) = true)
      fun m' => Grown m.classes m'.classes :=
  (loads parent m ordered).mapError _

theorem build_ends (loads : Loads load) (fuel : Nat) {path : List ClassName} {name : ClassName} {d : Declaration}
    {s : List LoadedClass × Machine} (listed : (name, d) ∈ entries) (ordered : OrderedTable s.2.classes)
    (unfinished : Unfinished u entries s.2.classes s.1) :
    (build load u entries fuel path name d).Ends s
      (fun c t => BuiltOn u entries path s t ∧ c ∈ t.1 ∧ (c.name == name) = true)
      (fun m' => Grown s.2.classes m'.classes) := by
  induction fuel generalizing path name d s with
  | zero => exact ordered.grown
  | succ fuel ih =>
    rw [build]
    refine .bind_get ?_
    have start : BuiltOn u entries path s s := .refl ordered unfinished
    dsimp only
    split
    case h_1 c found =>
      have named := List.find?_some found
      exact ⟨start, List.mem_of_find?_eq_some found, named⟩
    case h_2 absent =>
      have fresh : ∀ c ∈ s.1, (c.name == name) = false := by simpa using absent
      split
      case isTrue =>
        exact .bind_lift ordered.grown nofun
      case isFalse offPath =>
        have offPath : path.any (· == name) = false := by simpa using offPath
        have startBelow : BuiltOn u entries (name :: path) s s := .refl ordered unfinished
        cases refers : parentReference d with
        | none =>
          refine finish_ends listed startBelow fresh offPath ?_ nofun
          rw [ParentOf, refers]
        | some reference =>
          refine .bind_lift ordered.grown fun resolved means => ?_
          split
          case h_1 n e declared =>
            have entered : (n, e) ∈ entries := List.mem_of_find?_eq_some declared
            have same := List.find?_some declared
            refine .bind (ih entered ordered unfinished) ?_
            rintro p t ⟨on, hp, named⟩
            have named : (p.name == resolved) = true := ClassName.beq_trans named same
            exact under_ends listed on fresh offPath refers means (.inl hp) named
          case h_2 =>
            refine .bind (.liftChange (outsideParent_ends loads name resolved ordered)) ?_
            rintro p t ⟨kept, grown, hp, named⟩
            have on : BuiltOn u entries (name :: path) s t := {
              grown := grown
              kept := kept ▸ List.prefix_rfl
              unfinished := kept ▸ unfinished.grow grown
              off_path := fun c hc => .inl (kept ▸ hc) }
            exact under_ends listed on fresh offPath refers means (.inr hp) named

theorem BuiltOn.andThen {s t r : List LoadedClass × Machine} (first : BuiltOn u entries [] s t)
    (second : BuiltOn u entries [] t r) : BuiltOn u entries [] s r where
  grown := first.grown.trans second.grown
  kept := first.kept.trans second.kept
  unfinished := second.unfinished
  off_path := fun _ _ => .inr rfl

theorem buildAll_ends (loads : Loads load) {todo : List (ClassName × Declaration)}
    {s : List LoadedClass × Machine} (listed : todo ⊆ entries) (ordered : OrderedTable s.2.classes)
    (unfinished : Unfinished u entries s.2.classes s.1) :
    (buildAll load u entries todo).Ends s
      (fun _ t => BuiltOn u entries [] s t ∧ ∀ e ∈ todo, ∃ c ∈ t.1, (c.name == e.1) = true)
      (fun m' => Grown s.2.classes m'.classes) := by
  induction todo generalizing s with
  | nil => exact ⟨.refl ordered unfinished, nofun⟩
  | cons e rest ih =>
    obtain ⟨name, d⟩ := e
    obtain ⟨here, later⟩ := List.cons_subset.mp listed
    refine .bind (build_ends loads _ here ordered unfinished) ?_
    rintro c t ⟨on, hc, named⟩
    refine (ih later on.grown.ordered on.unfinished).mono ?_ fun m' h => on.grown.trans h
    rintro ⟨⟨⟩, built⟩ m' ⟨onRest, made⟩
    refine ⟨on.andThen onRest, ?_⟩
    intro e he
    rcases List.mem_cons.mp he with rfl | he
    · exact ⟨c, onRest.kept.subset hc, named⟩
    · exact made e he

end Building

/-- Names of which no two name the same class. -/
def Apart (names : List ClassName) : Prop :=
  names.Pairwise fun a b => (a == b) = false

theorem Apart.cons {names : List ClassName} {name : ClassName} (apart : Apart names)
    (new : names.any (· == name) = false) : Apart (name :: names) := by
  refine List.pairwise_cons.mpr ⟨fun n hn => ?_, apart⟩
  simpa [ClassName.beq_comm] using List.any_eq_false.mp new n hn

/-- The names of the declarations of a unit: each is the name of its declaration outside the unit, and no two are
the same. -/
theorem declaredNames_ok {u : SourceUnit} {m : Machine} {ds : List Declaration} {names names' : List ClassName}
    (h : declaredNames u m ds names = .ok names') (apart : Apart names) :
    Apart names' ∧ ∃ added, names' = names ++ added ∧ List.Forall₂ (fun n d => u.qualified d.name = .ok n) added ds := by
  induction ds generalizing names with
  | nil =>
    cases h
    exact ⟨apart, [], (List.append_nil _).symm, .nil⟩
  | cons d rest ih =>
    rw [declaredNames] at h
    cases qualified : u.qualified d.name with
    | error e => simp [qualified] at h
    | ok name =>
      simp only [qualified] at h
      split at h
      · cases h
      · rename_i free
        simp only [Bool.or_eq_true, not_or, List.any_eq_true, not_exists, not_and, Bool.not_eq_true] at free
        have next : Apart (names ++ [name]) :=
          List.pairwise_append.mpr ⟨apart, List.pairwise_singleton _ _, fun a ha b hb =>
            List.mem_singleton.mp hb ▸ free.1 a ha⟩
        obtain ⟨distinct, added, rfl, named⟩ := ih h next
        exact ⟨distinct, name :: added, by simp, .cons qualified named⟩

theorem foldl_addClass_eq (classes : List LoadedClass) (m : Machine) :
    classes.foldl addClass m = { m with classes := m.classes ++ classes } := by
  induction classes generalizing m with
  | nil => rw [List.append_nil]; rfl
  | cons c rest ih => rw [List.foldl_cons, ih, addClass, List.append_assoc, List.singleton_append]

theorem foldl_addClass (classes : List LoadedClass) (m : Machine) :
    (classes.foldl addClass m).classes = m.classes ++ classes := by
  rw [foldl_addClass_eq]

theorem class?_eq_none {m : Machine} {name : ClassName} (h : m.isDefined name = false) :
    ∀ c ∈ m.classes, (c.name == name) = false := by
  simpa [isDefined, class?] using h

section Entering

variable {u : SourceUnit} {names : List ClassName} {entries : List (ClassName × Declaration)}
  {classes built : List LoadedClass}

/-- Classes that are found by the names of different ones have different names. -/
theorem distinct_filterMap_find? (apart : Apart names) :
    (names.filterMap fun n => built.find? fun c => c.name == n).Pairwise
    fun a b => (a.name == b.name) = false := by
  refine List.pairwise_filterMap.mpr (apart.imp ?_)
  intro n n' different c found c' found'
  have named : (c.name == n) = true := by simpa using List.find?_some found
  have named' : (c'.name == n') = true := by simpa using List.find?_some found'
  refine Bool.eq_false_iff.mpr fun same => ?_
  rw [ClassName.beq_trans (ClassName.beq_symm named) (ClassName.beq_trans same named')] at different
  cases different

theorem Unfinished.mem_filterMap_find? (unfinished : Unfinished u entries classes built)
    (named : ∀ c ∈ built, c.name ∈ names) {c : LoadedClass} :
    c ∈ (names.filterMap fun n => built.find? fun c => c.name == n) ↔ c ∈ built := by
  constructor
  · intro hc
    obtain ⟨n, -, found⟩ := List.mem_filterMap.mp hc
    exact List.mem_of_find?_eq_some found
  · intro hc
    exact List.mem_filterMap.mpr ⟨c.name, named c hc, find?_name_of_distinct unfinished.distinct hc⟩

/-- The classes that are built of a unit enter a table in any order. -/
theorem Unfinished.enter {added : List LoadedClass} (unfinished : Unfinished u entries classes built)
    (ordered : OrderedTable classes) (same : ∀ {c}, c ∈ added ↔ c ∈ built)
    (distinct : added.Pairwise fun a b => (a.name == b.name) = false)
    (free : ∀ a ∈ classes, ∀ b ∈ built, (a.name == b.name) = false) : Grown classes (classes ++ added) := by
  refine ⟨⟨?_, ?_, ?_⟩, List.prefix_append _ _⟩
  · exact List.pairwise_append.mpr ⟨ordered.distinct, distinct, fun a ha b hb => free a ha b (same.mp hb)⟩
  · exact List.forall_mem_append.mpr ⟨ordered.lawful, fun c hc => unfinished.lawful c (same.mp hc)⟩
  · refine List.forall_mem_append.mpr ⟨fun c hc p up => ?_, fun c hc p up => ?_⟩
    · exact List.mem_append_left _ (ordered.parent_mem c hc p up)
    · rcases unfinished.parent_mem c (same.mp hc) p up with hp | hp
      · exact List.mem_append_right _ (same.mpr hp)
      · exact List.mem_append_left _ hp

theorem register_ends {m : Machine} (ordered : OrderedTable m.classes) (apart : Apart names)
    (unfinished : Unfinished u entries m.classes built) (named : ∀ c ∈ built, c.name ∈ names) :
    (register names built).Ends m (fun _ m' => Grown m.classes m'.classes ∧ built ⊆ m'.classes)
      fun m' => Grown m.classes m'.classes := by
  unfold Change.Ends register
  cases taken : names.find? m.isDefined with
  | some name => exact ordered.grown
  | none =>
    have free : ∀ a ∈ m.classes, ∀ b ∈ built, (a.name == b.name) = false := by
      intro a ha b hb
      exact class?_eq_none (by simpa using List.find?_eq_none.mp taken b.name (named b hb)) a ha
    dsimp only
    rw [foldl_addClass]
    refine ⟨unfinished.enter ordered (unfinished.mem_filterMap_find? named) (distinct_filterMap_find? apart) free, ?_⟩
    exact fun c hc => List.mem_append_right _ ((unfinished.mem_filterMap_find? named).mpr hc)

/-- Entries of which no two have the same name: a name finds one. -/
theorem eq_of_name_beq {a b : ClassName × Declaration} (apart : Apart (entries.map (·.1))) (ha : a ∈ entries)
    (hb : b ∈ entries) (same : (a.1 == b.1) = true) : a = b := by
  have apart : entries.Pairwise fun a b => (a.1 == b.1) = false := List.pairwise_map.mp apart
  refine List.Pairwise.forall_of_forall_of_flip (R := fun a b => (a.1 == b.1) = true → a = b) (fun _ _ _ => rfl)
    (apart.imp fun different same => ?_) (apart.imp fun different same => ?_) ha hb same
  · simp [different] at same
  · rw [ClassName.beq_comm] at different
    simp [different] at same

/-- The steps of defining a unit, once its declarations have names. -/
theorem enter_ends (u : SourceUnit) (entries : List (ClassName × Declaration))
    {load : ClassName → Change LoadError LoadedClass} (loads : Loads load) {m : Machine}
    (ordered : OrderedTable m.classes) (apart : Apart (entries.map (·.1))) :
    Change.Ends (do
        let ((), built) ← (buildAll load u entries entries).run []
        register (entries.map (·.1)) built)
      m (fun _ m' => Grown m.classes m'.classes ∧ ∀ e ∈ entries, ∃ c ∈ m'.classes, c.name = e.1 ∧ DeclaredAs u e.2 c)
      fun m' => Grown m.classes m'.classes := by
  have start : Unfinished u entries m.classes [] := .empty
  refine .bind (buildAll_ends loads (s := ([], m)) (List.Subset.refl _) ordered start) ?_
  rintro ⟨⟨⟩, built⟩ m' ⟨on, made⟩
  have named : ∀ c ∈ built, c.name ∈ entries.map (·.1) := by
    intro c hc
    obtain ⟨d, listed, -⟩ := on.unfinished.declared c hc
    exact List.mem_map_of_mem listed
  refine (register_ends on.grown.ordered apart on.unfinished named).mono ?_ fun m'' h => on.grown.trans h
  rintro handles m'' ⟨grown, entered⟩
  refine ⟨on.grown.trans grown, ?_⟩
  intro e he
  obtain ⟨c, hc, same⟩ := made e he
  obtain ⟨d, listed, as⟩ := on.unfinished.declared c hc
  obtain rfl : (c.name, d) = e := eq_of_name_beq apart listed he same
  exact ⟨c, entered hc, rfl, as⟩

end Entering

/-- What a unit has become that is defined: a class in the table for each declaration. -/
def DefinedIn (u : SourceUnit) (m : Machine) : Prop :=
  ∀ d ∈ u.declarations, ∃ c ∈ m.classes, u.qualified d.name = .ok c.name ∧ DeclaredAs u d c

theorem defineWith_ends {load : ClassName → Change LoadError LoadedClass} (loads : Loads load) (u : SourceUnit)
    {m : Machine} (ordered : OrderedTable m.classes) :
    (defineWith load u).Ends m (fun _ m' => Grown m.classes m'.classes ∧ DefinedIn u m')
      fun m' => Grown m.classes m'.classes := by
  unfold defineWith
  split
  · exact ordered.grown
  · refine .bind_ok rfl ?_
    cases h : declaredNames u m u.declarations [] with
    | error e => exact ordered.grown
    | ok names =>
      obtain ⟨apart, _, rfl, qualified⟩ := declaredNames_ok h List.Pairwise.nil
      have length : names.length = u.declarations.length := qualified.length_eq
      have named : (names.zip u.declarations).map (·.1) = names := List.map_fst_zip (Nat.le_of_eq length)
      have declared : (names.zip u.declarations).map (·.2) = u.declarations :=
        List.map_snd_zip (Nat.le_of_eq length.symm)
      refine .bind_ok rfl ?_
      have entered := enter_ends u (names.zip u.declarations) loads ordered (named.symm ▸ apart)
      rw [named] at entered
      refine entered.mono ?_ fun m' h => h
      rintro handles m' ⟨grown, defined⟩
      refine ⟨grown, fun d hd => ?_⟩
      obtain ⟨⟨n, d⟩, listed, rfl⟩ := List.mem_map.mp (declared.symm ▸ hd)
      obtain ⟨c, hc, rfl, as⟩ := defined _ listed
      exact ⟨c, hc, List.forall₂_zip qualified listed, as⟩

theorem mem_of_class? {m : Machine} {name : ClassName} {c : LoadedClass} (h : m.class? name = some c) :
    c ∈ m.classes ∧ (c.name == name) = true := by
  have named := List.find?_some h
  exact ⟨List.mem_of_find?_eq_some h, named⟩

/-- A class is found as before when others enter behind it. -/
theorem class?_of_append {m m' : Machine} {name : ClassName} {c : LoadedClass} {added : List LoadedClass}
    (classes : m'.classes = m.classes ++ added) (found : m.class? name = some c) : m'.class? name = some c := by
  rw [class?, classes, List.find?_append, show m.classes.find? _ = some c from found]
  rfl

/-- The names of a class find the same. -/
theorem class?_congr {m : Machine} {c d : ClassName} (same : (c == d) = true) : m.class? c = m.class? d := by
  unfold class?
  congr 1
  funext e
  exact ClassName.beq_congr_right same e.name

theorem isDefined_congr {m : Machine} {c d : ClassName} (same : (c == d) = true) : m.isDefined c = m.isDefined d := by
  rw [isDefined, isDefined, class?_congr same]

/-- Loading keeps the table in order however deeply loads nest: a load inside a definition adds its classes to the
same table. -/
theorem loadWithin_loads (fuel : Nat) : Loads (loadWithin fuel) := by
  induction fuel with
  | zero => exact fun name m ordered => ordered.grown
  | succ fuel ih =>
    intro name m ordered
    have defines {store u begun r after} (fetched : fetchUnit store name (m.beginLoading name) = (.ok u, begun))
        (defined : defineWith (loadWithin fuel) u begun = (r, after)) : Grown m.classes (after.endLoading name).classes := by
      have classes : begun.classes = m.classes := by rw [fetchUnit_eq fetched]; rfl
      have ends := (defineWith_ends ih u (classes ▸ ordered)).result (P := fun m' => Grown begun.classes m'.classes)
        (fun _ _ grown => grown.1) fun _ grown => grown
      rwa [defined, classes] at ends
    have outcome := loadWith_loading (loadWithin fuel) name m
    unfold Change.Ends
    rw [loadWithin_succ]
    generalize loadWith (loadWithin fuel) name m = result at outcome
    cases outcome with
    | present found => exact ⟨ordered.grown, mem_of_class? found⟩
    | unsupplied | busy => exact ordered.grown
    | unfetched _ fetched =>
      obtain rfl := fetchUnit_eq fetched
      exact ordered.grown
    | undefined _ fetched defined | undeclared _ fetched defined => exact defines fetched defined
    | loaded _ fetched defined found => exact ⟨defines fetched defined, mem_of_class? found⟩

end Machine

end AspectProxy
