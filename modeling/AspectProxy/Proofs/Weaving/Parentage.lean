import AspectProxy.Proofs.ClassTable.Reachable
import AspectProxy.Proofs.Reading.Trees
import AspectProxy.Proofs.Weaving.Generated

/-!
The parent of a proxy. The unit of a proxy names the base class by its full name, but a reference without a dot is
looked up among the imports first, and one word stands for the class it is written in. So the parent is the base class
unless the name of a class without a package is captured by these.
-/

namespace AspectProxy

theorem mem_dotSegments {cs : List Char} {c : Char} (h : c ∈ cs) (noDot : c ≠ '.') : ∃ s ∈ dotSegments cs, c ∈ s := by
  induction cs with
  | nil => cases h
  | cons d cs ih =>
    by_cases dot : d = '.'
    · subst dot
      obtain ⟨s, hs, hc⟩ := ih ((List.mem_cons.mp h).resolve_left noDot)
      exact ⟨s, List.mem_cons_of_mem _ hs, hc⟩
    · rw [dotSegments.eq_3 _ _ dot]
      rcases List.mem_cons.mp h with rfl | h
      · split <;> exact ⟨_, List.mem_cons_self, List.mem_cons_self⟩
      · obtain ⟨s, hs, hc⟩ := ih h
        split
        case h_1 none => simp [none] at hs
        case h_2 first rest segments =>
          rw [segments] at hs
          rcases List.mem_cons.mp hs with rfl | hs
          · exact ⟨_, List.mem_cons_self, List.mem_cons_of_mem _ hc⟩
          · exact ⟨s, List.mem_cons_of_mem _ hs, hc⟩

theorem isWhiteSpace_of_isNamePart {c : Char} (h : isNamePart c = true) : isWhiteSpace c = false := by
  simp only [isWhiteSpace, Bool.or_eq_false_iff, Bool.and_eq_false_iff, decide_eq_false_iff_not]
  rcases isNamePart_cases h with upper | lower | digit | rfl
  case inr.inr.inr => decide
  all_goals omega

theorem isWhiteSpace_of_isDottedName {cs : List Char} (h : isDottedName cs = true) :
    ∀ c ∈ cs, isWhiteSpace c = false := by
  intro c hc
  by_cases dot : c = '.'
  · rw [dot]
    decide
  · obtain ⟨s, hs, hc⟩ := mem_dotSegments hc dot
    exact isWhiteSpace_of_isNamePart (mem_of_isIdentifier (List.all_eq_true.mp h s hs) hc)

theorem trimWhiteSpace_eq_self {cs : List Char} (h : ∀ c ∈ cs, isWhiteSpace c = false) : trimWhiteSpace cs = cs := by
  have kept : ∀ ds : List Char, (∀ c ∈ ds, isWhiteSpace c = false) → ds.dropWhile isWhiteSpace = ds := by
    intro ds hds
    cases ds with
    | nil => rfl
    | cons d ds => rw [List.dropWhile_cons_of_neg (by simp [hds d List.mem_cons_self])]
  rw [trimWhiteSpace, kept cs h, kept _ fun c hc => h c (List.mem_reverse.mp hc), List.reverse_reverse]

namespace ClassName

/-- A name between no white space is the name it is read as. -/
theorem parse_of_isDottedName {s : String} (h : isDottedName s.toList = true) : parse s = .ok ⟨s, h⟩ := by
  have trimmed : String.ofList (trimWhiteSpace s.toList) = s := by
    rw [trimWhiteSpace_eq_self (isWhiteSpace_of_isDottedName h), String.ofList_toList]
  unfold parse
  simp only [trimmed, h, dif_pos]

theorem package?_eq_none_iff (c : ClassName) : c.package? = none ↔ '.' ∉ c.text.toList := by
  unfold package? beforeLastDot?
  rw [← List.mem_reverse]
  split
  case h_1 none =>
    have noDot := List.dropWhile_eq_nil_iff.mp none
    exact iff_of_true rfl fun dot => by simpa using noDot '.' dot
  case h_2 some =>
    refine iff_of_false nofun fun noDot => ?_
    rw [List.dropWhile_eq_nil_iff.mpr] at some
    · cases some
    · intro c hc
      have other : c ≠ '.' := fun same => noDot (same ▸ hc)
      simpa using other

end ClassName

section Resolving

variable {u : SourceUnit} {c : ClassName}

/-- Whether the name of a class means no class or another class in a unit: it is the word for the class it is written
in, or the name of an import of another class. -/
def SourceUnit.Captures (u : SourceUnit) (c : ClassName) : Prop :=
  c.package? = none ∧ (c.text = selfClass ∨
    ∃ i, u.imports.find? (fun i => i.visibleName = c.text) = some i ∧ asciiLower i.path ≠ c.key)

theorem IsDotted.ne_empty {s : String} (h : IsDotted s) : s ≠ "" := by
  rintro rfl
  exact absurd h.isDottedName (by decide)

theorem eq_empty_of_asciiLower {s : String} (h : asciiLower s = "") : s = "" := by
  have length := congrArg (·.toList.length) h
  simp only [asciiLower, String.toList_ofList, List.length_map, String.toList_empty, List.length_nil] at length
  exact String.toList_inj.mp (List.length_eq_zero_iff.mp length)

/-- A unit that has a class without a package has none. -/
theorem package_eq_none (named : ∀ p ∈ u.package, IsDotted p)
    (same : asciiLower (u.package.getD "") = asciiLower (c.package?.getD "")) (bare : c.package? = none) :
    u.package = none := by
  rw [bare] at same
  have empty : u.package.getD "" = "" := eq_empty_of_asciiLower same
  cases package : u.package with
  | none => rfl
  | some p =>
    rw [package] at empty
    exact absurd empty (named p package).ne_empty

/-- A reference that resolves to a name means a class if the name is one of its names. -/
theorem parentName_of_resolve {s : String} (h : isDottedName s.toList = true) (other : c.text ≠ selfClass)
    (means : u.resolve c.text = s) (name : ClassName) :
    (∃ parent, Machine.parentName u name c.text = .ok parent ∧ (parent == c) = true) ↔ asciiLower s = c.key := by
  unfold Machine.parentName
  simp only [other, if_false, means, ClassName.parse_of_isDottedName h, Except.ok.injEq, exists_eq_left',
    ClassName.beq_iff]
  rfl

theorem parentName_eq {parent : ClassName} {reference : String} (other : reference ≠ selfClass)
    (means : u.resolve reference = parent.text) (name : ClassName) :
    Machine.parentName u name reference = .ok parent := by
  unfold Machine.parentName
  simp only [other, if_false, means, ClassName.parse_of_isDottedName parent.valid]

theorem parentName_congr {v : SourceUnit} (package : u.package = v.package) (imports : u.imports = v.imports)
    (name : ClassName) (reference : String) :
    Machine.parentName u name reference = Machine.parentName v name reference := by
  unfold Machine.parentName SourceUnit.resolve
  rw [package, imports]

theorem parentName_selfClass (self : c.text = selfClass) (name : ClassName) :
    ¬∃ parent, Machine.parentName u name c.text = .ok parent ∧ (parent == c) = true := by
  rintro ⟨parent, found, -⟩
  rw [self, Machine.parentName, if_pos rfl] at found
  cases found

/-- The reference to a class by its full name means the class, unless it is captured. -/
theorem parentName_iff (named : ∀ p ∈ u.package, IsDotted p) (imported : ∀ i ∈ u.imports, i.Sound)
    (same : asciiLower (u.package.getD "") = asciiLower (c.package?.getD "")) (name : ClassName) :
    (∃ parent, Machine.parentName u name c.text = .ok parent ∧ (parent == c) = true) ↔ ¬u.Captures c := by
  by_cases self : c.text = selfClass
  · have bare : c.package? = none := c.package?_eq_none_iff.mpr (by rw [self]; decide)
    exact iff_of_false (parentName_selfClass self name) fun free => free ⟨bare, .inl self⟩
  · by_cases dot : '.' ∈ c.text.toList
    · have means : u.resolve c.text = c.text := by
        rw [SourceUnit.resolve, if_pos (by simpa using dot)]
      rw [parentName_of_resolve c.valid self means]
      exact iff_of_true rfl fun captured => c.package?_eq_none_iff.mp captured.1 dot
    · have bare : c.package? = none := c.package?_eq_none_iff.mpr dot
      cases found : u.imports.find? fun i => i.visibleName = c.text with
      | none =>
        have means : u.resolve c.text = c.text := by
          rw [SourceUnit.resolve, if_neg (by simpa using dot), found, package_eq_none named same bare]
        rw [parentName_of_resolve c.valid self means]
        refine iff_of_true rfl fun captured => ?_
        obtain ⟨i, again, -⟩ := captured.2.resolve_left self
        rw [found] at again
        cases again
      | some i =>
        have path : isDottedName i.path.toList = true :=
          (imported i (List.mem_of_find?_eq_some found)).path.isDottedName
        have means : u.resolve c.text = i.path := by
          rw [SourceUnit.resolve, if_neg (by simpa using dot), found]
        rw [parentName_of_resolve path self means]
        constructor
        · rintro here ⟨-, captured⟩
          obtain ⟨j, again, other⟩ := captured.resolve_left self
          rw [found] at again
          cases again
          exact other here
        · intro free
          by_contra other
          exact free ⟨bare, .inr ⟨i, found, other⟩⟩

end Resolving

section Proxy

variable {source : String} {u proxy : SourceUnit} {policy : Policy} {hooks : HookSet} {i : Identity}
  {inherited : List InheritedMethod}

/-- The reference to the base class in the unit of a proxy. -/
theorem parentName_of_weave (read : SourceUnit.ofString? source = .ok u)
    (woven : weave policy hooks i u inherited = .ok proxy) (name : ClassName) :
    (∃ parent, Machine.parentName proxy name i.base.text = .ok parent ∧ (parent == i.base) = true) ↔
      ¬u.Captures i.base := by
  obtain ⟨d, wrapped, proxyable, -, made⟩ := weave_ok woven
  obtain ⟨named, imported⟩ := SourceUnit.heading_of_ofString? read
  -- A reference is looked up in the package and the imports only, which the proxy has from the unit.
  have package : proxy.package = u.package := by rw [made]
  have imports : proxy.imports = u.imports := by rw [made]
  rw [parentName_congr package imports]
  exact parentName_iff named imported (proxyable_ok proxyable).2 name

/-- The class of a proxy extends its base class exactly when the unit does not capture the name of that class: the
reference means the base class, and the class that it becomes has the base class as its parent. -/
theorem weave_extends_base (read : SourceUnit.ofString? source = .ok u)
    (woven : weave policy hooks i u inherited = .ok proxy) :
    ∃ d, proxy.declarations = [.class d] ∧ d.parent = some i.base.text ∧
      (∀ name, (∃ parent, Machine.parentName proxy name i.base.text = .ok parent ∧ (parent == i.base) = true) ↔
        ¬u.Captures i.base) ∧
      ∀ (m m' : Machine) (handles : List ClassHandle), m.Reachable → Machine.defineUnit proxy m = (.ok handles, m') →
        ∃ P ∈ m'.classes, proxy.qualified d.name = .ok P.name ∧
          ∃ parent ∈ m'.classes, P.parent? = some parent ∧ ((parent.name == i.base) = true ↔ ¬u.Captures i.base) := by
  have means := parentName_of_weave read woven
  obtain ⟨d, wrapped, -, -, rfl⟩ := weave_ok woven
  refine ⟨proxyDeclaration hooks i wrapped, rfl, rfl, means, fun m m' handles reachable ran => ?_⟩
  have ends := Machine.defineUnit_ends { u with declarations := [.class (proxyDeclaration hooks i wrapped)] } reachable.ordered
  rw [Change.Ends, ran] at ends
  obtain ⟨grown, defined⟩ := ends
  obtain ⟨P, hP, qualified, as⟩ := defined _ List.mem_cons_self
  obtain ⟨resolved, parent, reference, up, named⟩ := as.parentOf
  refine ⟨P, hP, qualified, parent, grown.ordered.parent_mem P hP parent up, up, ?_⟩
  rw [ClassName.beq_iff] at named
  rw [← means P.name, ClassName.beq_iff, named, ← ClassName.beq_iff]
  constructor
  · exact fun base => ⟨resolved, reference, base⟩
  · rintro ⟨found, again, base⟩
    obtain rfl : resolved = found := Except.ok.inj (reference.symm.trans again)
    exact base

end Proxy

def clockUnit : SourceUnit where
  package := some "app"
  declarations := [.class ⟨"Clock", false, none, []⟩]

def clockIdentity : Identity :=
  .numbered ⟨"app.Clock", by decide⟩ 1

def clockProxy : SourceUnit where
  package := some "app"
  declarations := [.class (proxyDeclaration aspectHooks clockIdentity [])]

/-- A machine with the class. -/
def clockMachine : Machine :=
  (Machine.defineUnit clockUnit {}).2

theorem clock_read : SourceUnit.ofString? "package app; class Clock { }" = .ok clockUnit :=
  SourceUnit.eq_ok_of_beq (by decide +kernel)

theorem weave_clock : weave {} aspectHooks clockIdentity clockUnit [] = .ok clockProxy :=
  SourceUnit.eq_ok_of_beq (by decide)

theorem weave_extends_base_clock :
    ∃ P ∈ (Machine.defineUnit clockProxy clockMachine).2.classes, ∃ parent, P.parent? = some parent ∧
      (parent.name == clockIdentity.base) = true := by
  have free : ¬clockUnit.Captures clockIdentity.base := fun captured => absurd captured.1 (by decide)
  have reachable : clockMachine.Reachable := .defineUnit _ .fresh
  have succeeds : (Machine.defineUnit clockProxy clockMachine).1.toOption.isSome = true := by decide
  cases ran : Machine.defineUnit clockProxy clockMachine with
  | mk result after =>
    cases result with
    | error e =>
      rw [ran] at succeeds
      cases succeeds
    | ok handles =>
      obtain ⟨d, -, -, -, extends_⟩ := weave_extends_base clock_read weave_clock
      obtain ⟨P, hP, -, parent, -, up, base⟩ := extends_ clockMachine after handles reachable ran
      exact ⟨P, hP, parent, up, base.mpr free⟩

def widgetUnit : SourceUnit where
  imports := [⟨"lib.Widget", none⟩]
  declarations := [.class ⟨"Widget", false, none, [.method ⟨{}, "a", [], none, []⟩]⟩]

def widgetIdentity : Identity :=
  .numbered ⟨"Widget", by decide⟩ 1

def widgetProxy : SourceUnit where
  imports := [⟨"lib.Widget", none⟩]
  declarations := [.class (proxyDeclaration aspectHooks widgetIdentity [⟨{}, "a", [], none, []⟩])]

theorem widget_read : SourceUnit.ofString? "import lib.Widget; class Widget { fn a() {} }" = .ok widgetUnit :=
  SourceUnit.eq_ok_of_beq (by decide +kernel)

/-- The proxy of a class extends what its unit imports under the same name, and the check of the proxy lets it. -/
theorem import_captures_parent :
    SourceUnit.ofString? "import lib.Widget; class Widget { fn a() {} }" = .ok widgetUnit ∧
      weave {} aspectHooks widgetIdentity widgetUnit [] = .ok widgetProxy ∧
      checkProxy {} aspectHooks widgetIdentity widgetUnit widgetProxy = .ok () ∧
      ∃ parent, Machine.parentName widgetProxy widgetIdentity.proxy widgetIdentity.base.text = .ok parent ∧
        parent.text = "lib.Widget" ∧ (parent == widgetIdentity.base) = false := by
  refine ⟨widget_read, SourceUnit.eq_ok_of_beq (by decide), by decide, ⟨"lib.Widget", by decide⟩,
    parentName_eq (by decide) (by decide) _, rfl, by decide⟩

end AspectProxy
