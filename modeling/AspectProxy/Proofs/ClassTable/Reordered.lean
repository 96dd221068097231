import AspectProxy.Proofs.ClassTable.Failures
import AspectProxy.Proofs.ClassTable.Nesting

/-!
Units with their declarations in another order. What class a declaration becomes depends on the declarations of its unit
and on the table alone, not on what is built before it; so a unit can be defined in one order if it can in any, and the
classes are the same.
-/

namespace AspectProxy

/-- A unit with other declarations. -/
def SourceUnit.declaring (u : SourceUnit) (ds : List Declaration) : SourceUnit :=
  { u with declarations := ds }

namespace Machine

/-- The class that a declaration of a unit becomes above a table: its parent is a class of the unit, or one of the table. -/
inductive Builds (u : SourceUnit) (m : Machine) : Declaration → LoadedClass → Prop where
  | root {d n c} (top : parentReference d = none) (qualified : u.qualified d.name = .ok n)
    (made : bodyOf u n d none = .ok c) : Builds u m d c
  | inside {d e n reference k p c} (refers : parentReference d = some reference) (qualified : u.qualified d.name = .ok n)
    (means : parentName u n reference = .ok k) (declared : e ∈ u.declarations) (named : u.Names e k)
    (above : Builds u m e p) (allowed : checkParent n p = .ok ()) (made : bodyOf u n d (some p) = .ok c) : Builds u m d c
  | outside {d n reference k p c} (refers : parentReference d = some reference) (qualified : u.qualified d.name = .ok n)
    (means : parentName u n reference = .ok k) (other : ∀ e ∈ u.declarations, ¬u.Names e k)
    (there : m.class? k = some p) (allowed : checkParent n p = .ok ()) (made : bodyOf u n d (some p) = .ok c) :
    Builds u m d c

variable {u : SourceUnit} {m m' : Machine} {d e : Declaration} {c p x : LoadedClass} {n : ClassName}
  {entries : List (ClassName × Declaration)} {load : ClassName → Change LoadError LoadedClass}

theorem parentName_declaring {ds : List Declaration} {reference : String} :
    parentName (u.declaring ds) n reference = parentName u n reference := by
  have same : (u.declaring ds).resolve reference = u.resolve reference := rfl
  simp only [parentName, same]

theorem bodyOf_declaring {ds : List Declaration} {parent : Option LoadedClass} :
    bodyOf (u.declaring ds) n d parent = bodyOf u n d parent := by
  have same : (u.declaring ds).scope = u.scope := rfl
  simp only [bodyOf, same]

namespace Builds

theorem qualified (h : Builds u m d c) : u.qualified d.name = .ok c.name := by
  cases h with
  | root _ qualified made => rw [qualified, (bodyOf_ok made).name_eq]
  | inside _ qualified _ _ _ _ _ made => rw [qualified, (bodyOf_ok made).name_eq]
  | outside _ qualified _ _ _ _ made => rw [qualified, (bodyOf_ok made).name_eq]

theorem names (h : Builds u m d c) : u.Names d c.name :=
  SourceUnit.names_of_qualified h.qualified

theorem made_of_root (h : Builds u m d c) (top : parentReference d = none) (qualified : u.qualified d.name = .ok n) :
    bodyOf u n d none = .ok c := by
  cases h with
  | root _ qualified' made =>
    obtain rfl := Except.ok.inj (qualified.symm.trans qualified')
    exact made
  | inside refers => cases top.symm.trans refers
  | outside refers => cases top.symm.trans refers

theorem made_of_parent {reference : String} {k : ClassName} (h : Builds u m d c)
    (refers : parentReference d = some reference) (qualified : u.qualified d.name = .ok n)
    (means : parentName u n reference = .ok k) :
    ∃ p, ((∃ e ∈ u.declarations, u.Names e k ∧ Builds u m e p) ∨
        (∀ e ∈ u.declarations, ¬u.Names e k) ∧ m.class? k = some p) ∧
      bodyOf u n d (some p) = .ok c := by
  cases h with
  | root top => cases refers.symm.trans top
  | inside refers' qualified' means' declared named above _ made =>
    obtain rfl := Option.some.inj (refers.symm.trans refers')
    obtain rfl := Except.ok.inj (qualified.symm.trans qualified')
    obtain rfl := Except.ok.inj (means.symm.trans means')
    exact ⟨_, .inl ⟨_, declared, named, above⟩, made⟩
  | outside refers' qualified' means' other there _ made =>
    obtain rfl := Option.some.inj (refers.symm.trans refers')
    obtain rfl := Except.ok.inj (qualified.symm.trans qualified')
    obtain rfl := Except.ok.inj (means.symm.trans means')
    exact ⟨_, .inr ⟨other, there⟩, made⟩

/-- A declaration becomes one class only. -/
theorem unique (once : DeclaresOnce u) (h : Builds u m d c) (h' : Builds u m d x) : c = x := by
  induction h generalizing x with
  | root top qualified made => exact Except.ok.inj (made.symm.trans (h'.made_of_root top qualified))
  | inside refers qualified means declared named above allowed made ih =>
    obtain ⟨p, parent, made'⟩ := h'.made_of_parent refers qualified means
    obtain ⟨e, declared', named', above'⟩ | ⟨other, -⟩ := parent
    · obtain rfl := once _ _ declared _ declared' named named'
      obtain rfl := ih above'
      exact Except.ok.inj (made.symm.trans made')
    · exact absurd named (other _ declared)
  | outside refers qualified means other there allowed made =>
    obtain ⟨p, parent, made'⟩ := h'.made_of_parent refers qualified means
    obtain ⟨e, declared', named', -⟩ | ⟨-, there'⟩ := parent
    · exact absurd named' (other _ declared')
    · obtain rfl := Option.some.inj (there.symm.trans there')
      exact Except.ok.inj (made.symm.trans made')

/-- It becomes the same among the same declarations in any order. -/
theorem reordered {ds : List Declaration} (same : ∀ e, e ∈ ds ↔ e ∈ u.declarations) (h : Builds u m d c) :
    Builds (u.declaring ds) m d c := by
  induction h with
  | root top qualified made => exact .root top qualified (bodyOf_declaring.trans made)
  | inside refers qualified means declared named above allowed made ih =>
    exact .inside refers qualified (parentName_declaring.trans means) ((same _).mpr declared) named ih allowed
      (bodyOf_declaring.trans made)
  | outside refers qualified means other there allowed made =>
    exact .outside refers qualified (parentName_declaring.trans means) (fun e he => other e ((same e).mp he)) there allowed
      (bodyOf_declaring.trans made)

end Builds

/-- A class is further down than its parent. -/
theorem length_ancestors_of_bodyOf (made : bodyOf u n d (some p) = .ok c) : p.ancestors.length < c.ancestors.length := by
  have up : c.parent? = some p := (bodyOf_ok made).parent_eq
  unfold LoadedClass.parent? at up
  cases above : c.ancestors with
  | nil =>
    rw [above] at up
    cases up
  | cons b rest =>
    rw [above] at up
    cases up
    exact Nat.lt_succ_self _

/-- Classes that declarations of a unit become. -/
def AllBuilds (u : SourceUnit) (m : Machine) (built : List LoadedClass) : Prop :=
  ∀ x ∈ built, ∃ e ∈ u.declarations, Builds u m e x

theorem AllBuilds.nil : AllBuilds u m [] :=
  List.forall_mem_nil _

theorem AllBuilds.add {built : List LoadedClass} (all : AllBuilds u m built) (hd : d ∈ u.declarations)
    (h : Builds u m d c) : AllBuilds u m (built ++ [c]) :=
  List.forall_mem_append.mpr ⟨all, List.forall_mem_singleton.mpr ⟨d, hd, h⟩⟩

/-- A class that was built before is the one of the declaration with its name. -/
theorem AllBuilds.found {built : List LoadedClass} (all : AllBuilds u m built) (unit : EntriesOf u entries)
    (listed : (n, d) ∈ entries) (found : built.find? (fun c => c.name == n) = some x) : Builds u m d x := by
  obtain ⟨e, he, builds⟩ := all x (List.mem_of_find?_eq_some found)
  have same : (x.name == n) = true := by simpa using List.find?_some found
  obtain rfl := unit.declaresOnce n d (unit.mem_declarations listed) e he (unit.names listed) (builds.names.congr same)
  exact builds

section Steps

variable {inner : List ClassName → ClassName → Declaration → Build LoadedClass} {path : List ClassName}
  {built built' : List LoadedClass} (fresh : built.find? (fun c => c.name == n) = none) (off : path.any (· == n) = false)
include fresh off

theorem buildWith_root (top : parentReference d = none) (made : bodyOf u n d none = .ok c) :
    buildWith load u entries inner path n d built m = (.ok (c, built ++ [c]), m) := by
  refine (Build.run_bind (x := get) rfl).trans ?_
  simp only [fresh, off, Bool.false_eq_true, if_false, top]
  rw [pure_bind, made]
  exact Build.run_bind (x := Build.lift (.ok c)) rfl

theorem buildWith_under {reference : String} {k : ClassName} (refers : parentReference d = some reference)
    (means : parentName u n reference = .ok k)
    (parent : (match entries.find? fun e : ClassName × Declaration => e.1 == k with
      | some e => inner (n :: path) e.1 e.2
      | none => StateT.lift (outsideParent load n k)) built m = (.ok (p, built'), m'))
    (allowed : checkParent n p = .ok ()) (made : bodyOf u n d (some p) = .ok c) :
    buildWith load u entries inner path n d built m = (.ok (c, built' ++ [c]), m') := by
  have finishes : (do
      Build.lift (checkParent n p)
      let parent ← pure (some p)
      let c ← Build.lift (bodyOf u n d parent)
      modify (· ++ [c])
      return c : Build LoadedClass) built' m' = (.ok (c, built' ++ [c]), m') := by
    rw [allowed]
    refine (Build.run_bind (x := Build.lift (.ok ())) rfl).trans ?_
    rw [pure_bind, made]
    exact Build.run_bind (x := Build.lift (.ok c)) rfl
  refine (Build.run_bind (x := get) rfl).trans ?_
  simp only [fresh, off, Bool.false_eq_true, if_false, refers]
  rw [means]
  refine (Build.run_bind (x := Build.lift (.ok k)) rfl).trans ?_
  cases found : entries.find? fun e : ClassName × Declaration => e.1 == k with
  | some e =>
    rw [found] at parent
    exact (Build.run_bind parent).trans finishes
  | none =>
    rw [found] at parent
    exact (Build.run_bind parent).trans finishes

end Steps

theorem buildWith_found {inner : List ClassName → ClassName → Declaration → Build LoadedClass} {path : List ClassName}
    {built : List LoadedClass} (found : built.find? (fun c => c.name == n) = some c) :
    buildWith load u entries inner path n d built m = (.ok (c, built), m) := by
  refine (Build.run_bind (x := get) rfl).trans ?_
  simp only [found]
  rfl

theorem outsideParent_of_class? {k : ClassName} (there : m.class? k = some p) :
    outsideParent Machine.load n k m = (.ok p, m) := by
  rw [outsideParent, mapError, load_of_class? there]

/-- The classes on the way to a class are further down than it. -/
def Below (u : SourceUnit) (m : Machine) (path : List ClassName) (c : LoadedClass) : Prop :=
  ∀ k ∈ path, ∀ e ∈ u.declarations, u.Names e k → ∀ x, Builds u m e x → c.ancestors.length < x.ancestors.length

theorem Below.nil : Below u m [] c :=
  List.forall_mem_nil _

theorem Below.cons {path : List ClassName} (below : Below u m path c) (once : DeclaresOnce u) (hd : d ∈ u.declarations)
    (named : u.Names d n) (h : Builds u m d c) (up : p.ancestors.length < c.ancestors.length) : Below u m (n :: path) p := by
  rw [Below, List.forall_mem_cons]
  constructor
  · intro e he named' x builds
    obtain rfl := once n d hd e he named named'
    rwa [← h.unique once builds]
  · intro k hk e he named' x builds
    exact up.trans (below k hk e he named' x builds)

/-- So the class itself is not among them. -/
theorem Below.off {path : List ClassName} (below : Below u m path c) (hd : d ∈ u.declarations) (named : u.Names d n)
    (h : Builds u m d c) : path.any (· == n) = false := by
  apply List.any_eq_false.mpr
  intro k hk same
  have further := below k hk d hd (named.congr (ClassName.beq_symm same)) c h
  exact Nat.lt_irrefl _ further

/-- A class that was built before is found; else it is to be built. -/
theorem Builds.met {inner : List ClassName → ClassName → Declaration → Build LoadedClass} {path : List ClassName}
    {built : List LoadedClass} (unit : EntriesOf u entries) (h : Builds u m d c) (listed : (n, d) ∈ entries)
    (all : AllBuilds u m built) (below : Below u m path c)
    (rest : built.find? (fun c => c.name == n) = none → path.any (· == n) = false →
      ∃ built', buildWith load u entries inner path n d built m = (.ok (c, built'), m) ∧ AllBuilds u m built') :
    ∃ built', buildWith load u entries inner path n d built m = (.ok (c, built'), m) ∧ AllBuilds u m built' := by
  cases found : built.find? fun c => c.name == n with
  | some x =>
    obtain rfl := h.unique unit.declaresOnce (all.found unit listed found)
    exact ⟨built, buildWith_found found, all⟩
  | none =>
    exact rest found (below.off (unit.mem_declarations listed) (unit.names listed) h)

/-- A declaration is built to the class that it becomes. The induction is on how it becomes that; the classes on the way are
further down, so none of them is met again. -/
theorem Builds.build (unit : EntriesOf u entries) (h : Builds u m d c) {fuel : Nat} {path : List ClassName}
    {built : List LoadedClass} (listed : (n, d) ∈ entries) (all : AllBuilds u m built) (enough : c.ancestors.length < fuel)
    (below : Below u m path c) :
    ∃ built', build Machine.load u entries fuel path n d built m = (.ok (c, built'), m) ∧ AllBuilds u m built' := by
  have once := unit.declaresOnce
  induction h generalizing fuel path n built with
  | root top qualified made =>
    obtain rfl := Except.ok.inj (qualified.symm.trans (unit.qualified _ _ listed))
    obtain ⟨fuel, rfl⟩ := Nat.exists_eq_add_one_of_ne_zero (Nat.ne_zero_of_lt enough)
    have h : Builds u m _ _ := .root top qualified made
    rw [build_succ]
    apply h.met unit listed all below
    intro fresh off
    exact ⟨_, buildWith_root fresh off top made, all.add (unit.mem_declarations listed) h⟩
  | inside refers qualified means declared named above allowed made ih =>
    obtain rfl := Except.ok.inj (qualified.symm.trans (unit.qualified _ _ listed))
    obtain ⟨fuel, rfl⟩ := Nat.exists_eq_add_one_of_ne_zero (Nat.ne_zero_of_lt enough)
    have h : Builds u m _ _ := .inside refers qualified means declared named above allowed made
    have hd := unit.mem_declarations listed
    have up := length_ancestors_of_bodyOf made
    rw [build_succ]
    apply h.met unit listed all below
    intro fresh off
    cases found : entries.find? fun e => e.1 == _ with
    | none => exact absurd named (unit.not_names_of_find? found _ declared)
    | some entry =>
      obtain ⟨there, named'⟩ := unit.names_of_find? found
      obtain rfl := once _ _ declared _ (unit.mem_declarations there) named named'
      have below' := below.cons once hd (SourceUnit.names_of_qualified qualified) h up
      obtain ⟨built', ran, all'⟩ := ih there all (Nat.lt_of_lt_of_le up (Nat.le_of_lt_succ enough)) below'
      refine ⟨_, buildWith_under fresh off refers means ?_ allowed made, all'.add hd h⟩
      rw [found]
      exact ran
  | outside refers qualified means other there allowed made =>
    obtain rfl := Except.ok.inj (qualified.symm.trans (unit.qualified _ _ listed))
    obtain ⟨fuel, rfl⟩ := Nat.exists_eq_add_one_of_ne_zero (Nat.ne_zero_of_lt enough)
    have h : Builds u m _ _ := .outside refers qualified means other there allowed made
    rw [build_succ]
    apply h.met unit listed all below
    intro fresh off
    refine ⟨_, buildWith_under fresh off refers means ?_ allowed made, all.add (unit.mem_declarations listed) h⟩
    cases found : entries.find? fun e => e.1 == _ with
    | some entry =>
      obtain ⟨there, named⟩ := unit.names_of_find? found
      exact absurd named (other _ (unit.mem_declarations there))
    | none => exact run_bind (outsideParent_of_class? there)

/-- Every class that a declaration of a unit names as its parent is declared in the unit too, or defined. -/
def ParentsKnown (u : SourceUnit) (m : Machine) : Prop :=
  ∀ d ∈ u.declarations, ∀ reference k, parentReference d = some reference → u.Means reference k →
    (∃ e ∈ u.declarations, u.Names e k) ∨ m.isDefined k = true

theorem ParentsKnown.outside (known : ParentsKnown u m) (unit : EntriesOf u entries) (hd : d ∈ u.declarations)
    {reference : String} {k : ClassName} (refers : parentReference d = some reference)
    (means : parentName u n reference = .ok k) (missing : entries.find? (fun e => e.1 == k) = none) :
    ∃ p, m.class? k = some p := by
  rcases known d hd reference k refers (SourceUnit.means_of_parentName means) with ⟨e, he, named⟩ | defined
  · exact absurd named (unit.not_names_of_find? missing e he)
  · exact Option.isSome_iff_exists.mp defined

/-- The steps behind finding the parent. -/
theorem finish_builds {parent : Option LoadedClass} {s : List LoadedClass × Machine} (hd : d ∈ u.declarations)
    (here : s.2 = m) (all : AllBuilds u m s.1) (becomes : ∀ c, bodyOf u n d parent = .ok c → Builds u m d c) :
    Build.Ends (do
        let c ← Build.lift (bodyOf u n d parent)
        modify (· ++ [c])
        return c)
      s (fun c t => t.2 = m ∧ AllBuilds u m t.1 ∧ Builds u m d c) fun m' => m' = m :=
  .bind_lift here fun c made => ⟨here, all.add hd (becomes c made), becomes c made⟩

theorem build_builds (unit : EntriesOf u entries) (known : ParentsKnown u m) (fuel : Nat) {path : List ClassName}
    {s : List LoadedClass × Machine} (listed : (n, d) ∈ entries) (here : s.2 = m) (all : AllBuilds u m s.1) :
    (build Machine.load u entries fuel path n d).Ends s
      (fun c t => t.2 = m ∧ AllBuilds u m t.1 ∧ Builds u m d c) fun m' => m' = m := by
  induction fuel generalizing path n d s with
  | zero => exact here
  | succ fuel ih =>
    have hd := unit.mem_declarations listed
    have qualified := unit.qualified n d listed
    rw [build_succ]
    refine .bind_get ?_
    cases found : s.1.find? fun c => c.name == n with
    | some x => exact ⟨here, all, all.found unit listed found⟩
    | none =>
      cases path.any (· == n) with
      | true => exact here
      | false =>
        cases refers : parentReference d with
        | none => exact finish_builds hd here all fun c made => .root refers qualified made
        | some reference =>
          refine .bind_lift here fun k means => ?_
          cases declared : entries.find? fun e => e.1 == k with
          | some entry =>
            obtain ⟨there, named⟩ := unit.names_of_find? declared
            refine .bind (ih there here all) ?_
            rintro p t ⟨here, all, above⟩
            refine .bind_lift here fun _ allowed => finish_builds hd here all fun c made => ?_
            exact .inside refers qualified means (unit.mem_declarations there) named above allowed made
          | none =>
            obtain ⟨p, there⟩ := known.outside unit hd refers means declared
            have found : (outsideParent Machine.load n k).Ends s.2 (fun q m' => q = p ∧ m' = m) fun m' => m' = m := by
              rw [here, Change.Ends, outsideParent_of_class? there]
              exact ⟨rfl, rfl⟩
            refine .bind (.liftChange found) ?_
            rintro q t ⟨kept, rfl, here⟩
            refine .bind_lift here fun _ allowed => finish_builds hd here (kept ▸ all) fun c made => ?_
            exact .outside refers qualified means (unit.not_names_of_find? declared) there allowed made

theorem buildAll_builds (unit : EntriesOf u entries) (known : ParentsKnown u m) {todo : List (ClassName × Declaration)}
    {s : List LoadedClass × Machine} (listed : todo ⊆ entries) (here : s.2 = m) (all : AllBuilds u m s.1) :
    (buildAll Machine.load u entries todo).Ends s
      (fun _ t => t.2 = m ∧ AllBuilds u m t.1 ∧ ∀ e ∈ todo, ∃ c, Builds u m e.2 c) fun m' => m' = m := by
  induction todo generalizing s with
  | nil => exact ⟨here, all, List.forall_mem_nil _⟩
  | cons e rest ih =>
    obtain ⟨first, later⟩ := List.cons_subset.mp listed
    refine .bind (build_builds unit known _ first here all) ?_
    rintro c t ⟨here, all, builds⟩
    refine Change.Ends.mono (ih later here all) ?_ fun _ => id
    rintro ⟨⟨⟩, built⟩ m' ⟨here, all, others⟩
    exact ⟨here, all, List.forall_mem_cons.mpr ⟨⟨c, builds⟩, others⟩⟩

/-- More fuel than a unit has declarations makes no difference. -/
theorem build_fuel {fuel : Nat} {entry : ClassName × Declaration} {built : List LoadedClass} (enough : entries.length < fuel)
    (listed : entry ∈ entries) :
    build load u entries fuel [] entry.1 entry.2 built m =
      build load u entries (entries.length + 1) [] entry.1 entry.2 built m := by
  rw [build_eq_iterate, build_eq_iterate load u entries (entries.length + 1)]
  exact buildWith_iterate .nil (List.forall_mem_nil _) (by simpa using enough) (by simp) _ _ listed

theorem buildAll_of_builds (unit : EntriesOf u entries) {todo : List (ClassName × Declaration)} {built : List LoadedClass}
    (listed : todo ⊆ entries) (all : AllBuilds u m built) (builds : ∀ e ∈ todo, ∃ c, Builds u m e.2 c) :
    ∃ built', buildAll Machine.load u entries todo built m = (.ok ((), built'), m) ∧ AllBuilds u m built' := by
  induction todo generalizing built with
  | nil => exact ⟨built, rfl, all⟩
  | cons e rest ih =>
    obtain ⟨first, later⟩ := List.cons_subset.mp listed
    obtain ⟨⟨c, here⟩, others⟩ := List.forall_mem_cons.mp builds
    have enough : c.ancestors.length < entries.length + 1 + c.ancestors.length := by omega
    obtain ⟨built₁, ran, all⟩ := here.build unit first all enough .nil
    rw [build_fuel (by omega) first] at ran
    obtain ⟨built₂, rest, all⟩ := ih later all others
    exact ⟨built₂, (Build.run_bind ran).trans rest, all⟩

/-- A unit that can be defined: it declares classes, with names of their own that are free, and each becomes a class. -/
structure Definable (u : SourceUnit) (m : Machine) : Prop where
  declares : u.declarations ≠ []
  free : ∀ d ∈ u.declarations, ∃ n, u.qualified d.name = .ok n ∧ m.isDefined n = false
  apart : u.declarations.Pairwise fun d e => ∀ c, u.Names d c → ¬u.Names e c
  builds : ∀ d ∈ u.declarations, ∃ c, Builds u m d c

theorem Definable.reordered {ds : List Declaration} (perm : ds.Perm u.declarations) (h : Definable u m) :
    Definable (u.declaring ds) m where
  declares := by
    intro none
    obtain rfl : ds = [] := none
    exact h.declares perm.symm.eq_nil
  free := fun d hd => h.free d (perm.mem_iff.mp hd)
  apart := by
    apply (perm.pairwise_iff ?_).mpr h.apart
    intro d e apart c named named'
    exact apart c named' named
  builds := by
    intro d hd
    obtain ⟨c, builds⟩ := h.builds d (perm.mem_iff.mp hd)
    exact ⟨c, builds.reordered fun e => perm.mem_iff⟩

theorem ParentsKnown.reordered {ds : List Declaration} (perm : ds.Perm u.declarations) (h : ParentsKnown u m) :
    ParentsKnown (u.declaring ds) m := by
  intro d hd reference k refers means
  obtain ⟨e, he, named⟩ | defined := h d (perm.mem_iff.mp hd) reference k refers means
  · exact .inl ⟨e, perm.mem_iff.mpr he, named⟩
  · exact .inr defined

theorem register_of_free {names : List ClassName} {built : List LoadedClass} (free : ∀ n ∈ names, m.isDefined n = false) :
    register names built m = (.ok ((names.filterMap fun n => built.find? fun c => c.name == n).map (·.handle)),
      { m with classes := m.classes ++ names.filterMap fun n => built.find? fun c => c.name == n }) := by
  have none : names.find? m.isDefined = none := by simpa using free
  simp only [register, none, foldl_addClass_eq]

theorem free_of_register {names : List ClassName} {built : List LoadedClass} {handles : List ClassHandle}
    (h : register names built m = (.ok handles, m')) : ∀ n ∈ names, m.isDefined n = false := by
  unfold register at h
  cases taken : names.find? m.isDefined with
  | some n =>
    rw [taken] at h
    cases h
  | none => simpa using taken

/-- The classes that are found for the names of a unit are those that its declarations become. -/
theorem AllBuilds.filterMap {built : List LoadedClass} (all : AllBuilds u m built) (unit : EntriesOf u entries)
    (made : ∀ e ∈ entries, ∃ c ∈ built, (c.name == e.1) = true) {become : Declaration → LoadedClass}
    (builds : ∀ d ∈ u.declarations, Builds u m d (become d)) :
    ((entries.map (·.1)).filterMap fun n => built.find? fun c => c.name == n) = u.declarations.map become := by
  have each : ∀ e ∈ entries, built.find? (fun c => c.name == e.1) = some (become e.2) := by
    intro e he
    obtain ⟨x, found⟩ := Option.isSome_iff_exists.mp (List.find?_isSome.mpr (made e he))
    rw [found, (all.found unit he found).unique unit.declaresOnce (builds e.2 (unit.mem_declarations he))]
  rw [← unit.declarations, List.map_map, List.filterMap_map]
  calc entries.filterMap ((fun n => built.find? fun c => c.name == n) ∘ (·.1))
      = entries.filterMap fun e => some (become e.2) := List.filterMap_congr each
    _ = entries.map (become ∘ (·.2)) := congrFun List.filterMap_eq_map entries

/-- A definable unit enters the table, each declaration as the class that it becomes. -/
theorem Definable.defines (h : Definable u m) {become : Declaration → LoadedClass}
    (builds : ∀ d ∈ u.declarations, Builds u m d (become d)) :
    Machine.defineUnit u m = (.ok (u.declarations.map fun d => (become d).handle),
      { m with classes := m.classes ++ u.declarations.map become }) := by
  obtain ⟨names, declared⟩ : ∃ names, declaredNames u m u.declarations [] = .ok names :=
    declaredNames_total h.free h.apart fun _ _ => List.forall_mem_nil _
  obtain ⟨unit, named⟩ := entriesOf_declaredNames declared
  obtain ⟨built, ran, all⟩ := buildAll_of_builds unit (List.Subset.refl _) .nil fun e he =>
    h.builds e.2 (unit.mem_declarations he)
  have made := buildAll_ofEntries (s := ([], m)) load_gives (List.Subset.refl (names.zip u.declarations))
    (show OfEntries u (names.zip u.declarations) [] from List.forall_mem_nil _)
  simp only [Build.Ends, Change.Ends, ran] at made
  have free : ∀ n ∈ names, m.isDefined n = false := by
    intro n hn
    rw [← named] at hn
    obtain ⟨e, he, rfl⟩ := List.mem_map.mp hn
    obtain ⟨k, qualified, free⟩ := h.free e.2 (unit.mem_declarations he)
    obtain rfl := Except.ok.inj (qualified.symm.trans (unit.qualified e.1 e.2 he))
    exact free
  have classes := all.filterMap unit made.2.2 builds
  rw [named] at classes
  show defineWith load u m = _
  rw [defineWith_eq h.declares declared, ran]
  dsimp only
  rw [register_of_free free, classes, List.map_map]
  rfl

theorem EntriesOf.pairwise (unit : EntriesOf u entries) :
    u.declarations.Pairwise fun d e => ∀ c, u.Names d c → ¬u.Names e c := by
  have apart := List.pairwise_map.mp unit.apart
  rw [← unit.declarations, List.pairwise_map]
  apply apart.imp_of_mem
  intro d e he he' differ c named named'
  rw [ClassName.beq_trans ((unit.names he).unique named) (named'.unique (unit.names he'))] at differ
  cases differ

/-- A unit whose parents are known can be defined only so; otherwise nothing changes. -/
theorem defineUnit_definable (known : ParentsKnown u m) :
    (Machine.defineUnit u).Ends m (fun _ _ => Definable u m) fun m' => m' = m := by
  have outcome := defineWith_defining load u m
  have builds {entries r m₁} (unit : EntriesOf u entries) (ran : buildAll load u entries entries [] m = (r, m₁)) := by
    have ends := buildAll_builds (s := ([], m)) unit known (List.Subset.refl entries) rfl .nil
    simpa only [Build.Ends, Change.Ends, ran] using ends
  unfold Change.Ends
  rw [show Machine.defineUnit u m = defineWith load u m from rfl]
  generalize defineWith load u m = result at outcome
  cases outcome with
  | refused => rfl
  | unbuilt _ unit ran => exact builds unit ran
  | taken _ unit ran => exact (builds unit ran).1
  | defined entries declares unit ran registered =>
    obtain ⟨rfl, -, builds⟩ := builds unit ran
    have free := free_of_register registered
    refine ⟨declares, fun d hd => ?_, unit.pairwise, fun d hd => ?_⟩
    · obtain ⟨n, he⟩ := unit.exists_mem hd
      exact ⟨n, unit.qualified n d he, free n (List.mem_map_of_mem (f := (·.1)) he)⟩
    · obtain ⟨n, he⟩ := unit.exists_mem hd
      exact builds (n, d) he

theorem Definable.exists_become (h : Definable u m) :
    ∃ become : Declaration → LoadedClass, ∀ d ∈ u.declarations, Builds u m d (become d) := by
  obtain ⟨d, hd⟩ := List.exists_mem_of_ne_nil _ h.declares
  obtain ⟨c, -⟩ := h.builds d hd
  have : Nonempty LoadedClass := ⟨c⟩
  choose! become builds using h.builds
  exact ⟨become, builds⟩

/-- Different names find the same among classes in any order. -/
theorem find?_name_of_perm {classes classes' : List LoadedClass} (perm : classes'.Perm classes)
    (distinct : classes.Pairwise fun a b => (a.name == b.name) = false) (name : ClassName) :
    classes'.find? (fun c => c.name == name) = classes.find? (fun c => c.name == name) := by
  cases found : classes.find? fun c => c.name == name with
  | none => exact List.find?_eq_none.mpr fun c hc => List.find?_eq_none.mp found c (perm.mem_iff.mp hc)
  | some c =>
    have hc : c ∈ classes' := perm.mem_iff.mpr (List.mem_of_find?_eq_some found)
    have same : (c.name == name) = true := by simpa using List.find?_some found
    have asks : (fun x : LoadedClass => x.name == name) = fun x => x.name == c.name := by
      funext x
      exact (ClassName.beq_congr_right same x.name).symm
    have distinct' := (perm.pairwise_iff fun differ => (ClassName.beq_comm _ _).trans differ).mpr distinct
    rw [asks, find?_name_of_distinct distinct' hc]

theorem Definable.distinct (h : Definable u m) {become : Declaration → LoadedClass}
    (builds : ∀ d ∈ u.declarations, Builds u m d (become d)) :
    (u.declarations.map become).Pairwise fun a b => (a.name == b.name) = false := by
  refine List.pairwise_map.mpr (h.apart.imp_of_mem fun hd he apart => Bool.eq_false_iff.mpr fun same => ?_)
  exact apart _ ((builds _ hd).names.congr same) (builds _ he).names

theorem Definable.defines_reordered {ds : List Declaration} (h : Definable u m) {become : Declaration → LoadedClass}
    (builds : ∀ d ∈ u.declarations, Builds u m d (become d)) (perm : ds.Perm u.declarations) :
    Machine.defineUnit (u.declaring ds) m = (.ok (ds.map fun d => (become d).handle),
      { m with classes := m.classes ++ ds.map become }) := by
  apply (h.reordered perm).defines
  intro d hd
  exact (builds d (perm.mem_iff.mp hd)).reordered fun e => perm.mem_iff

/-- Defining a unit does not depend on the order of its declarations, where the classes they name as parents are declared in
the unit or defined. In any order it succeeds if it does in one; then each declaration becomes the same class, with the same
handle, and each name finds the same class in the end. If it fails, it changes nothing. -/
theorem defineUnit_in_any_order (known : ParentsKnown u m) :
    ((∃ handles m', defineUnit u m = (.ok handles, m')) ↔
      ∀ ds, ds.Perm u.declarations → ∃ handles m', defineUnit (u.declaring ds) m = (.ok handles, m')) ∧
    (∀ handles m', defineUnit u m = (.ok handles, m') → ∃ become : Declaration → LoadedClass,
      handles = (u.declarations.map fun d => (become d).handle) ∧
      ∀ ds, ds.Perm u.declarations → ∃ after,
        defineUnit (u.declaring ds) m = (.ok (ds.map fun d => (become d).handle), after) ∧
        after = { m with classes := m.classes ++ ds.map become } ∧ ∀ name, after.class? name = m'.class? name) ∧
    ∀ ds, ds.Perm u.declarations → ∀ e m', defineUnit (u.declaring ds) m = (.error e, m') → m' = m := by
  have became : ∀ handles m', defineUnit u m = (.ok handles, m') →
      Definable u m ∧ ∃ become : Declaration → LoadedClass, ∀ d ∈ u.declarations, Builds u m d (become d) := by
    intro handles m' defines
    have h := defineUnit_definable known
    rw [Change.Ends, defines] at h
    exact ⟨h, h.exists_become⟩
  refine ⟨⟨?_, fun all => all u.declarations (.refl _)⟩, ?_, ?_⟩
  · rintro ⟨handles, m', defines⟩ ds perm
    obtain ⟨h, become, builds⟩ := became handles m' defines
    exact ⟨_, _, h.defines_reordered builds perm⟩
  · intro handles m' defines
    obtain ⟨h, become, builds⟩ := became handles m' defines
    cases defines.symm.trans (h.defines builds)
    refine ⟨become, rfl, fun ds perm => ⟨_, h.defines_reordered builds perm, rfl, fun name => ?_⟩⟩
    have added := find?_name_of_perm (perm.map become) (h.distinct builds) name
    rw [class?, class?, List.find?_append, List.find?_append, added]
  · intro ds perm e m' fails
    have h := defineUnit_definable (known.reordered perm)
    rwa [Change.Ends, fails] at h

/-- The parents of a unit are known if their names are found among those that it declares or in the table. -/
theorem parentsKnown_of_names (found : ∀ d ∈ u.declarations, ∀ reference ∈ parentReference d,
      ∀ k ∈ (ClassName.parse (u.resolve reference)).toOption,
        (∃ n ∈ u.names, (n == k) = true) ∨ m.isDefined k = true) : ParentsKnown u m := by
  rintro d hd reference c refers ⟨-, k, parsed, same⟩
  rcases found d hd reference refers k (by rw [parsed]; rfl) with ⟨n, listed, named⟩ | defined
  · obtain ⟨e, he, qualified⟩ := SourceUnit.mem_names.mp listed
    exact .inl ⟨e, he, n, qualified, ClassName.beq_trans named same⟩
  · exact .inr (isDefined_congr same ▸ defined)

/-- A machine on which the footing of a tower is defined. -/
def grounded : Machine :=
  (defineUnit footingUnit {}).2

/-- The tower is defined on its footing with the lower class first, too. -/
theorem defineUnit_in_any_order_tower :
    ParentsKnown (towerUnit false) grounded ∧ ∃ handles m', defineUnit (towerUnit false) grounded = (.ok handles, m') ∧
      ∃ after, defineUnit ((towerUnit false).declaring (towerUnit false).declarations.reverse) grounded =
          (.ok handles.reverse, after) ∧
        ∀ name, after.class? name = m'.class? name := by
  have known : ParentsKnown (towerUnit false) grounded := parentsKnown_of_names (by decide)
  have succeeds : (defineUnit (towerUnit false) grounded).1.toOption.isSome = true := by decide
  rcases ran : defineUnit (towerUnit false) grounded with ⟨e | handles, m'⟩
  · rw [ran] at succeeds
    cases succeeds
  · obtain ⟨become, rfl, any⟩ := (defineUnit_in_any_order known).2.1 handles m' ran
    obtain ⟨after, defines, -, same⟩ := any _ (List.reverse_perm _)
    exact ⟨known, _, m', rfl, after, by rw [defines, List.map_reverse], same⟩

end Machine

end AspectProxy
