import AspectProxy.Proofs.ClassTable.Reachable
import AspectProxy.Proofs.Outcomes

/-!
Defining a unit that declares one class under a parent of another unit, as every proxy is. The class enters the table
last, with its handle as the only one; under a parent that is in the table already nothing is loaded.
-/

namespace AspectProxy.Machine

variable {u : SourceUnit} {d : ClassDecl} {reference : String} {name resolved : ClassName} {p c : LoadedClass}
  {m m' : Machine}

theorem register_one (named : c.name = name) (fresh : m.isDefined name = false) :
    register [name] [c] m = (.ok [c.handle], m.addClass c) := by
  have none : [name].find? m.isDefined = none := by simp [fresh]
  unfold register
  rw [none]
  simp [named]

theorem of_register_one (named : c.name = name) {handles : List ClassHandle}
    (h : register [name] [c] m = (.ok handles, m')) : handles = [c.handle] ∧ m' = m.addClass c := by
  cases defined : m.isDefined name with
  | false =>
    rw [register_one named defined] at h
    cases h
    exact ⟨rfl, rfl⟩
  | true =>
    have some : [name].find? m.isDefined = some name := by simp [defined]
    rw [register, some] at h
    cases h

section Define

variable {load : ClassName → Change LoadError LoadedClass}

/-- The steps behind finding the parent. -/
theorem finish_ok {built built' : List LoadedClass} {declaration : Declaration}
    (h : (do
      Build.lift (checkParent name p)
      let parent ← pure (some p)
      let c ← Build.lift (bodyOf u name declaration parent)
      modify (· ++ [c])
      return c : Build LoadedClass) built m = (.ok (c, built'), m')) :
    bodyOf u name declaration (some p) = .ok c ∧ built' = built ++ [c] ∧ m' = m := by
  obtain ⟨_, _, _, checked, step⟩ := Build.of_run_bind h
  obtain ⟨-, rfl, rfl⟩ := Build.of_lift_ok checked
  rw [pure_bind] at step
  obtain ⟨_, _, _, made, last⟩ := Build.of_run_bind step
  obtain ⟨body, rfl, rfl⟩ := Build.of_lift_ok made
  cases last
  exact ⟨body, rfl, rfl⟩

/-- The class that the only declaration of a unit becomes. -/
theorem build_one_ok {built : List LoadedClass} (refers : d.parent = some reference)
    (h : build load u [(name, .class d)] 2 [] name (.class d) [] m = (.ok (c, built), m')) :
    ∃ p, bodyOf u name (.class d) (some p) = .ok c ∧ built = [c] := by
  rw [build] at h
  simp only [parentReference, refers] at h
  obtain ⟨_, _, _, got, step⟩ := Build.of_run_bind h
  cases got
  obtain ⟨resolved, _, _, means, next⟩ := Build.of_run_bind (x := Build.lift (parentName u name reference)) step
  obtain ⟨-, rfl, rfl⟩ := Build.of_lift_ok means
  cases same : [(name, Declaration.class d)].find? (fun e : ClassName × Declaration => e.1 == resolved) with
  | some e =>
    -- A class that extends itself meets itself on its own path.
    obtain rfl : e = (name, .class d) := List.mem_singleton.mp (List.mem_of_find?_eq_some same)
    have met : [name].any (· == name) = true := by simp
    rw [same] at next
    dsimp only at next
    rw [build] at next
    simp only [met, if_true] at next
    cases next
  | none =>
    rw [same] at next
    obtain ⟨p, _, _, found, last⟩ := Build.of_run_bind next
    obtain ⟨_, _, _, kept⟩ := of_run_bind found
    cases kept
    obtain ⟨body, rfl, rfl⟩ := finish_ok last
    exact ⟨p, body, rfl⟩

/-- What a unit with one class under a parent is defined as. -/
theorem defineWith_one_ok {handles : List ClassHandle} (one : u.declarations = [.class d])
    (refers : d.parent = some reference)
    (h : defineWith load u m = (.ok handles, m')) : ∃ name p c m₁,
      u.qualified d.name = .ok name ∧ bodyOf u name (.class d) (some p) = .ok c ∧ handles = [c.handle] ∧
        m' = addClass m₁ c := by
  unfold defineWith at h
  rw [one] at h
  obtain ⟨names, _, found, h⟩ := of_run_bind (x := defineWith.liftExcept (declaredNames u m [.class d] [])) h
  cases qualified : u.qualified d.name with
  | error e =>
    simp only [declaredNames, Declaration.name, qualified, defineWith.liftExcept] at found
    cases found
  | ok name =>
    have named : names = [name] := by
      simp only [declaredNames, Declaration.name, qualified, defineWith.liftExcept] at found
      split at found <;> cases found
      rfl
    subst named
    obtain ⟨⟨⟨⟩, built⟩, m₁, made, h⟩ := of_run_bind h
    obtain ⟨c, _, _, made, rest⟩ := Build.of_run_bind (x := build load u [(name, .class d)] 2 [] name (.class d)) made
    cases rest
    obtain ⟨p, body, rfl⟩ := build_one_ok refers made
    obtain ⟨rfl, rfl⟩ := of_register_one (bodyOf_ok body).name_eq h
    exact ⟨name, p, c, m₁, rfl, body, rfl, rfl⟩

/-- The class of a declaration under the parent that its reference means, where its unit does not declare the parent. -/
def classUnder (load : ClassName → Change LoadError LoadedClass) (u : SourceUnit) (d : ClassDecl) (name : ClassName)
    (reference : String) : Change DefinitionError LoadedClass := do
  let resolved ← defineWith.liftExcept (parentName u name reference)
  let p ← outsideParent load name resolved
  defineWith.liftExcept (checkParent name p)
  defineWith.liftExcept (bodyOf u name (.class d) (some p))

theorem classUnder_ok (means : parentName u name reference = .ok resolved) (there : load resolved m = (.ok p, m'))
    (allowed : checkParent name p = .ok ()) :
    classUnder load u d name reference m = (bodyOf u name (.class d) (some p), m') := by
  have found : outsideParent load name resolved m = (.ok p, m') := by rw [outsideParent, mapError, there]
  unfold classUnder
  rw [means]
  refine (run_bind (x := defineWith.liftExcept (.ok resolved)) rfl).trans ((run_bind found).trans ?_)
  rw [allowed]
  exact run_bind (x := defineWith.liftExcept (.ok ())) rfl

theorem classUnder_named (h : classUnder load u d name reference m = (.ok c, m')) : c.name = name := by
  obtain ⟨_, _, -, h⟩ := of_run_bind h
  obtain ⟨_, _, -, h⟩ := of_run_bind h
  obtain ⟨_, _, -, h⟩ := of_run_bind h
  exact (bodyOf_ok (congrArg (·.1) h)).name_eq

section Outside

variable (refers : d.parent = some reference)
  (other : ∀ resolved, parentName u name reference = .ok resolved → (name == resolved) = false)
include refers other

/-- Building the only declaration of a unit, whose parent is no declaration of the unit then. -/
theorem build_one : build load u [(name, .class d)] 2 [] name (.class d) [] m =
    match classUnder load u d name reference m with
    | (r, m') => (r.map fun c => (c, [c]), m') := by
  rw [build]
  simp only [parentReference, refers]
  refine (Build.run_bind (x := get) rfl).trans ?_
  unfold classUnder
  cases means : parentName u name reference with
  | error e =>
    rw [run_bind_error (x := defineWith.liftExcept (.error e)) rfl]
    exact Build.run_bind_error (x := Build.lift (.error e)) rfl
  | ok resolved =>
    have outside : [(name, Declaration.class d)].find? (fun e : ClassName × Declaration => e.1 == resolved) = none := by
      simp [other resolved means]
    rw [run_bind (x := defineWith.liftExcept (.ok resolved)) rfl]
    refine (Build.run_bind (x := Build.lift (.ok resolved)) rfl).trans ?_
    rw [outside]
    rcases found : outsideParent load name resolved m with ⟨e | p, m₁⟩
    · have lifted : (StateT.lift (outsideParent load name resolved) : Build LoadedClass) [] m = (.error e, m₁) :=
        run_bind_error found
      rw [run_bind_error found]
      exact Build.run_bind_error lifted
    · have lifted : (StateT.lift (outsideParent load name resolved) : Build LoadedClass) [] m = (.ok (p, []), m₁) :=
        run_bind found
      rw [run_bind found]
      refine (Build.run_bind lifted).trans ?_
      cases allowed : checkParent name p with
      | error e =>
        rw [run_bind_error (x := defineWith.liftExcept (.error e)) rfl]
        exact Build.run_bind_error (x := Build.lift (.error e)) rfl
      | ok =>
        rw [run_bind (x := defineWith.liftExcept (.ok ())) rfl]
        refine (Build.run_bind (x := Build.lift (.ok ())) rfl).trans ?_
        rw [pure_bind]
        cases made : bodyOf u name (.class d) (some p) with
        | error e => exact Build.run_bind_error (x := Build.lift (.error e)) rfl
        | ok c => exact Build.run_bind (x := Build.lift (.ok c)) rfl

/-- A unit with one class is defined by building the class and putting it into the table. -/
theorem defineWith_classUnder (one : u.declarations = [.class d]) (qualified : u.qualified d.name = .ok name)
    (fresh : m.isDefined name = false) :
    defineWith load u m = match classUnder load u d name reference m with
      | (.ok c, m') => register [name] [c] m'
      | (.error e, m') => (.error e, m') := by
  have names : defineWith.liftExcept (declaredNames u m [.class d] []) m = (.ok [name], m) := by
    simp only [defineWith.liftExcept, declaredNames, Declaration.name, qualified, fresh]
    rfl
  have built : build load u [(name, .class d)] 2 [] name (.class d) [] m = _ := build_one refers other
  have entries : buildAll load u [(name, .class d)] [(name, .class d)] [] m =
      match classUnder load u d name reference m with
      | (r, m') => (r.map fun c => ((), [c]), m') := by
    rcases made : classUnder load u d name reference m with ⟨e | c, m'⟩ <;> rw [made] at built
    · exact Build.run_bind_error built
    · exact Build.run_bind built
  unfold defineWith
  rw [one]
  refine (run_bind (x := get) (s := m) rfl).trans ((run_bind names).trans ?_)
  rcases made : classUnder load u d name reference m with ⟨e | c, m'⟩ <;> rw [made] at entries
  · exact run_bind_error entries
  · exact run_bind entries

end Outside

/-- A unit with one class is defined above a class that is loaded as soon as the class may stand there. -/
theorem defineWith_one (one : u.declarations = [.class d]) (refers : d.parent = some reference)
    (qualified : u.qualified d.name = .ok name) (fresh : m.isDefined name = false) (stillFresh : m'.isDefined name = false)
    (means : parentName u name reference = .ok resolved) (other : (name == resolved) = false)
    (there : load resolved m = (.ok p, m')) (allowed : checkParent name p = .ok ()) :
    defineWith load u m = match bodyOf u name (.class d) (some p) with
      | .ok c => (.ok [c.handle], m'.addClass c)
      | .error e => (.error e, m') := by
  have apart : ∀ r, parentName u name reference = .ok r → (name == r) = false :=
    fun r again => Except.ok.inj (means.symm.trans again) ▸ other
  rw [defineWith_classUnder refers apart one qualified fresh, classUnder_ok means there allowed]
  cases made : bodyOf u name (.class d) (some p) with
  | error e => rfl
  | ok c => exact register_one (bodyOf_ok made).name_eq stillFresh

end Define

variable {source : String} {handle : ClassHandle}

theorem firstClass_one (one : u.declarations = [.class d]) : firstClass u = 0 := by
  rw [firstClass, one]
  rfl

/-- A text that is defined holds a unit that is. -/
theorem define_ok (h : define source m = (.ok handle, m')) : ∃ u handles, SourceUnit.ofString? source = .ok u ∧
    defineUnit u m = (.ok handles, m') ∧ handles[firstClass u]? = some handle := by
  unfold define at h
  cases read : SourceUnit.ofString? source with
  | error fault =>
    rw [read] at h
    cases h
  | ok u =>
    rw [read] at h
    obtain ⟨handles, m₁, defined, last⟩ := of_run_bind h
    cases first : handles[firstClass u]? with
    | none =>
      rw [first] at last
      cases last
    | some found =>
      rw [first] at last
      cases last
      exact ⟨u, handles, rfl, defined, first⟩

theorem define_of_read {handles : List ClassHandle} (read : SourceUnit.ofString? source = .ok u)
    (defined : defineUnit u m = (.ok handles, m')) (first : handles[firstClass u]? = some handle) :
    define source m = (.ok handle, m') := by
  unfold define
  rw [read]
  refine (run_bind defined).trans ?_
  rw [first]
  rfl

theorem define_error_of_read {e : DefinitionError} (read : SourceUnit.ofString? source = .ok u)
    (defined : defineUnit u m = (.error e, m')) : define source m = (.error e, m') := by
  unfold define
  rw [read]
  exact run_bind_error defined

/-- The class that the text of a unit with one class under a parent is defined as. -/
theorem define_one_ok (read : SourceUnit.ofString? source = .ok u)
    (one : u.declarations = [.class d]) (refers : d.parent = some reference)
    (h : define source m = (.ok handle, m')) : ∃ p c,
      bodyOf u c.name (.class d) (some p) = .ok c ∧ handle = c.handle ∧ c ∈ m'.classes := by
  obtain ⟨v, handles, again, defined, first⟩ := define_ok h
  obtain rfl : u = v := Except.ok.inj (read.symm.trans again)
  obtain ⟨name, p, c, m₁, -, body, rfl, rfl⟩ := defineWith_one_ok one refers defined
  obtain rfl : c.name = name := (bodyOf_ok body).name_eq
  rw [firstClass_one one] at first
  exact ⟨p, c, body, (Option.some.inj first).symm, List.mem_append_right _ List.mem_cons_self⟩

/-- The text of a unit with one class is defined above a class that is in the table as soon as the class may stand
there. -/
theorem define_one (read : SourceUnit.ofString? source = .ok u) (one : u.declarations = [.class d])
    (refers : d.parent = some reference) (qualified : u.qualified d.name = .ok name) (fresh : m.isDefined name = false)
    (means : parentName u name reference = .ok resolved) (other : (name == resolved) = false)
    (there : m.class? resolved = some p) (allowed : checkParent name p = .ok ()) :
    define source m = match bodyOf u name (.class d) (some p) with
      | .ok c => (.ok c.handle, m.addClass c)
      | .error e => (.error e, m) := by
  have bound : ∃ n, m.loadBound = n + 1 := by
    unfold loadBound
    split
    · exact ⟨1, rfl⟩
    · exact ⟨_, rfl⟩
  obtain ⟨n, bound⟩ := bound
  have loaded : load resolved m = (.ok p, m) := by
    rw [load, bound, loadWithin]
    simp only [there]
  have defined := defineWith_one one refers qualified fresh fresh means other loaded allowed
  cases made : bodyOf u name (.class d) (some p) with
  | error e =>
    rw [made] at defined
    exact define_error_of_read read defined
  | ok c =>
    rw [made] at defined
    exact define_of_read read defined (by rw [firstClass_one one]; rfl)

theorem collectMembers_methods {parent : Option LoadedClass} {methods before : List Method} {properties : List Property}
    (distinct : ((before ++ methods).map (·.name)).Nodup) (allowed : ∀ m ∈ methods, overridesFinal parent m.name = false) :
    collectMembers name parent (methods.map .method) before properties = .ok (before ++ methods, properties) := by
  induction methods generalizing before with
  | nil => rw [List.append_nil]; rfl
  | cons m rest ih =>
    obtain ⟨here, more⟩ := List.forall_mem_cons.mp allowed
    have fresh : before.any (·.name = m.name) = false := by
      rw [List.map_append, List.nodup_append] at distinct
      refine List.any_eq_false.mpr fun x hx same => ?_
      exact distinct.2.2 x.name (List.mem_map_of_mem hx) m.name (by simp) (by simpa using same)
    rw [List.append_cons] at distinct ⊢
    rw [List.map_cons, collectMembers, here, fresh]
    exact ih distinct more

/-- A class whose members are methods of different names is built as soon as none of them is final above. -/
theorem bodyOf_methods {parent : Option LoadedClass} {methods : List Method} (members : d.members = methods.map .method)
    (distinct : (methods.map (·.name)).Nodup) :
    (∃ c, bodyOf u name (.class d) parent = .ok c) ↔ ∀ m ∈ methods, overridesFinal parent m.name = false := by
  have declared : (Declaration.class d).methods = methods := by
    show Member.methods d.members = methods
    rw [members, Member.methods, List.filterMap_map]
    exact List.filterMap_some
  constructor
  · rintro ⟨c, body⟩
    have as := bodyOf_ok body
    rw [← declared, ← as.methods]
    exact as.allowed
  · intro allowed
    have collected : collectMembers name parent (methods.map .method) [] [] = .ok (methods, []) :=
      collectMembers_methods distinct allowed
    rw [← members] at collected
    exact ⟨_, by simp only [bodyOf, Declaration.members, collected, bind, Except.bind]; rfl⟩

theorem isFinal_of_bodyOf {parent : Option LoadedClass} (h : bodyOf u name (.class d) parent = .ok c) :
    c.own.isFinal = d.isFinal := by
  unfold bodyOf at h
  cases collected : collectMembers name parent d.members [] [] with
  | error e => simp [Declaration.members, collected, bind, Except.bind] at h
  | ok found =>
    simp only [Declaration.members, collected, bind, Except.bind, pure, Except.pure, Except.ok.injEq] at h
    rw [← h, LoadedClass.own_extending]

end AspectProxy.Machine
