import AspectProxy.Proofs.Reading.Refused
import AspectProxy.Proofs.References.Conditions
import AspectProxy.Proofs.Weaving.ProxyNames

/-!
The text of a proxy. Every name that the proxy of a class has besides the name of that class is a name of the language:
that of the proxy, its variables and the full names of retargeted references. So the text is read as the proxy exactly
when the name of the class is requested without a reserved word in it.
-/

namespace AspectProxy

theorem isName_freshName {name : String} (identifier : isIdentifier name.toList = true) (mem : '_' ∈ name.toList)
    (taken : List String) : IsName (freshName name taken) := by
  obtain ⟨k, fresh, -⟩ := freshName_eq_underscored name taken
  have text : (freshName name taken).toList = name.toList ++ List.replicate k '_' := by
    rw [fresh, underscored, String.toList_append, String.toList_ofList]
  refine isName_of_underscore ?_ ?_
  · rw [text]
    exact isIdentifier_append identifier (List.all_eq_true.mpr fun c hc => by rw [List.eq_of_mem_replicate hc]; decide)
  · rw [text]
    exact List.mem_append_left _ mem

/-- The full name of a class is a name of the language where the heading of its unit has names. -/
theorem SourceUnit.isDotted_resolve {u : SourceUnit} (named : ∀ p ∈ u.package, IsDotted p)
    (imported : ∀ i ∈ u.imports, i.Sound) {name : String} (h : IsDotted name) : IsDotted (u.resolve name) := by
  unfold resolve
  split
  · exact h
  · split
    · rename_i i found
      exact (imported i (List.mem_of_find?_eq_some found)).path
    · split
      · rename_i p package
        exact (named p package).append h
      · exact h

theorem keepsNames_retargetIn {u : SourceUnit} (named : ∀ p ∈ u.package, IsDotted p)
    (imported : ∀ i ∈ u.imports, i.Sound) : KeepsNames (Reference.retargetIn u) := by
  intro r h
  unfold Reference.retargetIn
  dsimp only
  split
  · exact h
  · split
    · exact h
    · split
      · exact h
      · exact SourceUnit.isDotted_resolve named imported h

/-- The condition on the expressions of a tree whose text is read as the tree. -/
def Expr.Stable (e : Expr) : Prop :=
  e.PlainWith (·.isFinite = true) ∧ e.ReadsBack

/-- A method whose names are names and whose expressions meet a condition. -/
structure Method.Meets (p : Expr → Prop) (m : Method) : Prop where
  sound : m.Sound
  every : (Member.method m).Every Statement.Sound p

abbrev Method.Stable : Method → Prop :=
  Method.Meets Expr.Stable

namespace SourceUnit

abbrev Stable : SourceUnit → Prop :=
  Meets Expr.Stable

variable {u : SourceUnit}

/-- The text of a stable unit is read as the unit. -/
theorem Stable.reads (h : u.Stable) (width : Nat) : ofString? (u.print width) = .ok u := by
  have sound : u.Meets Expr.Sound := h.imp fun _ here => Expr.soundWith_isFinite.mp here.1.1
  have plain : u.Meets Expr.NotNegatedNumber := h.imp fun _ here => here.1.2
  have back : u.Every (fun _ => True) Expr.ReadsBack := .imp (fun _ _ _ => trivial) (fun _ here _ => here.2) h.parts h.parts
  have printed := ofString?_print ⟨h.package, h.imports, h.declarations, sound.parts⟩ back width
  rwa [folded_eq_self plain.parts] at printed

/-- What is read from a text is stable, if its floats are. -/
theorem stable_of_ofString? {source : String} (read : ofString? source = .ok u) (finite : FiniteFloats source)
    (floats : u.Every (fun _ => True) Expr.ReadsBack) : u.Stable := by
  obtain ⟨wellFormed, plain⟩ := wellFormed_of_ofString? read finite
  have written : u.Every Statement.Sound (Expr.PlainWith (·.isFinite = true)) :=
    .imp (fun _ here _ => here) (fun _ sound plain => ⟨Expr.soundWith_isFinite.mpr sound, plain⟩) wellFormed.parts plain
  exact {
    package := wellFormed.package
    imports := wellFormed.imports
    declarations := wellFormed.declarations
    parts := .imp (fun _ here _ => here) (fun _ plain back => ⟨plain, back⟩) written floats }

theorem Meets.method {p : Expr → Prop} (h : u.Meets p) {d : Declaration} (hd : d ∈ u.declarations) {m : Method}
    (hm : m ∈ d.methods) : m.Meets p := by
  obtain ⟨x, hx, isMethod⟩ := List.mem_filterMap.mp hm
  cases x with
  | property x => cases isMethod
  | method m' =>
    cases isMethod
    exact ⟨(h.declarations d hd).members _ hx, h.parts d hd _ hx⟩

end SourceUnit

/-- No number and no operator, which are what the weaver writes nothing of. -/
def Expr.Wordy : Expr → Prop
  | .int _ | .float _ | .unary .. => False
  | _ => True

/-- A condition that the weaver keeps: what it writes itself meets it, and it does not look at the names of classes. -/
class Expr.Weavable (p : Expr → Prop) : Prop where
  spelt : ∀ {e}, p e → e.Spelt
  written : ∀ {e : Expr}, e.Sound → e.Wordy → p e
  renamed : ∀ {rename : Reference → Option String}, KeepsNames rename → ∀ e, p e → p (e.mapReferences (M := Id) rename)

theorem Expr.spelt_renamed {rename : Reference → Option String} (kept : KeepsNames rename) (e : Expr) (h : e.Spelt) :
    Expr.Spelt (e.mapReferences (M := Id) rename) := by
  by_cases float : ∃ x, e = .float x
  · obtain ⟨x, rfl⟩ := float
    trivial
  · have sound : e.Sound := by
      cases e <;> first | exact h | exact absurd ⟨_, rfl⟩ float
    exact (e.sound_renamed kept sound).spelt

instance : Expr.Weavable Expr.Spelt where
  spelt := fun h => h
  written := fun sound _ => sound.spelt
  renamed := Expr.spelt_renamed

instance : Expr.Weavable Expr.Stable where
  spelt := fun h => h.1.1.spelt
  written := by
    intro e sound wordy
    refine ⟨⟨Expr.soundWith_isFinite.mpr sound, ?_⟩, ?_⟩ <;> cases e <;> first | exact wordy.elim | trivial
  renamed := by
    intro rename kept e h
    refine ⟨⟨?_, ?_⟩, ?_⟩
    · exact Expr.soundWith_isFinite.mpr (e.sound_renamed kept (Expr.soundWith_isFinite.mp h.1.1))
    · have plain := h.1.2
      cases e with
      | unary op operand => cases op <;> cases operand <;> exact plain
      | _ => trivial
    · have back := h.2
      cases e <;> exact back

section Weavable

variable {p : Expr → Prop} [Expr.Weavable p]

open Expr.Weavable (written renamed)

/-- A method that is retargeted from a unit meets what the unit meets. -/
theorem Method.Meets.retarget {u : SourceUnit} (meets : u.Meets p) {m : Method} (h : m.Meets p) :
    (m.retarget u).Meets p := by
  have kept : KeepsNames (Reference.retargetIn u) := keepsNames_retargetIn meets.package meets.imports
  exact ⟨Method.sound_renamed kept h.sound, Method.every_renamed (renamed kept) (Statement.sound_renamed kept) h.every⟩

theorem meets_vars {names : List String} (h : ∀ n ∈ names, IsName n) : Expr.EveryItem p (names.map .var) := by
  induction names with
  | nil => trivial
  | cons n ns ih =>
    obtain ⟨here, rest⟩ := List.forall_mem_cons.mp h
    have first : p (.var n) := written here trivial
    exact ⟨first, ih rest⟩

/-- The wrapper of a method meets what the method meets. -/
theorem Method.Meets.wrapper {m : Method} (h : m.Meets p) (base : ClassName) : (m.wrapper base).Meets p := by
  let names := m.parameters.map (·.name)
  have parameters : ∀ n ∈ names, IsName n := by
    intro n hn
    obtain ⟨x, hx, rfl⟩ := List.mem_map.mp hn
    exact (h.sound.parameters x hx).name
  have vars : Expr.EveryItem p (names.map .var) := meets_vars parameters
  have context : IsName (freshName "__ctx" names) := isName_freshName (by decide) (by decide) names
  have result : IsName (freshName "__result" names) := isName_freshName (by decide) (by decide) names
  have before : IsName beforeHook := by decide
  have after : IsName afterHook := by decide
  have self : p .self := written trivial trivial
  have var : ∀ {n : String}, IsName n → p (.var n) := fun isName => written isName trivial
  have str : ∀ s, p (.str s) := fun s => written trivial trivial
  have list : p (.list (names.map .var)) := written trivial trivial
  have described : (contextExpr base m (names.map .var)).Every p :=
    ⟨written trivial trivial, str _, str _, ⟨list, vars⟩, trivial⟩
  refine ⟨⟨h.sound.name, h.sound.parameters, h.sound.distinct, h.sound.returnType⟩, h.every.1, ?_⟩
  exact ⟨⟨⟨context, nofun⟩, described⟩,
    ⟨written before trivial, self, var context, trivial⟩,
    ⟨⟨result, nofun⟩, written h.sound.name trivial, vars⟩,
    ⟨written after trivial, self, var context, var result, trivial⟩, trivial⟩

end Weavable

theorem HookSet.ofMethods_ok {methods : List Method} {hooks : HookSet} (h : ofMethods methods = .ok hooks) :
    hooks.methods = methods := by
  unfold ofMethods at h
  split at h
  · cases h
  · split at h
    · cases h
    · split at h
      · cases h
      · cases h
        rfl

/-- The hooks of an aspect are the methods of a declaration, retargeted. -/
theorem HookSet.ofUnit_ok {aspect : ClassName} {a : SourceUnit} {hooks : HookSet} (h : ofUnit aspect a = .ok hooks) :
    ∃ d ∈ a.declarations, hooks.methods = d.methods.map (Method.retarget a) := by
  unfold ofUnit at h
  split at h
  · cases h
  · rename_i d found
    exact ⟨d, List.mem_of_find?_eq_some found, HookSet.ofMethods_ok h⟩

theorem HookSet.meets {p : Expr → Prop} [Expr.Weavable p] {aspect : ClassName} {a : SourceUnit} (meets : a.Meets p)
    {hooks : HookSet} (h : ofUnit aspect a = .ok hooks) : ∀ hook ∈ hooks.methods, hook.Meets p := by
  obtain ⟨d, hd, methods⟩ := HookSet.ofUnit_ok h
  intro hook hhook
  rw [methods] at hhook
  obtain ⟨m, hm, rfl⟩ := List.mem_map.mp hhook
  exact (meets.method hd hm).retarget meets

theorem classNamed_ok {u : SourceUnit} {c : ClassName} {d : ClassDecl} (h : u.classNamed c = .ok d) :
    u.declaration? c.short = some (.class d) := by
  unfold SourceUnit.classNamed at h
  split at h
  · rename_i found
    obtain rfl := Except.ok.inj h
    exact found
  · cases h

section Woven

variable {p : Expr → Prop} [Expr.Weavable p] {u proxy : SourceUnit} (meets : u.Meets p) {hooks : HookSet}
  (hooksMeet : ∀ hook ∈ hooks.methods, hook.Meets p) {i : Identity} (short : IsName i.proxy.short) {policy : Policy}
  {inherited : List InheritedMethod} (woven : weave policy hooks i u inherited = .ok proxy)

include meets hooksMeet woven

/-- The members of a proxy are methods that meet what its class and its hooks meet. -/
theorem weave_members : ∃ d : ClassDecl, d.name = i.proxy.short ∧ d.isFinal = false ∧ d.parent = some i.base.text ∧
    proxy = { u with declarations := [.class d] } ∧ ∀ x ∈ d.members, ∃ m : Method, m.Meets p ∧ x = .method m := by
  obtain ⟨d, wrapped, proxyable, chosen, rfl⟩ := weave_ok woven
  have declared : .class d ∈ u.declarations := List.mem_of_find?_eq_some (classNamed_ok (proxyable_ok proxyable).1)
  refine ⟨proxyDeclaration hooks i wrapped, rfl, rfl, rfl, rfl, fun x hx => ?_⟩
  obtain ⟨m, hm, rfl⟩ := List.mem_map.mp hx
  refine ⟨m, ?_, rfl⟩
  rcases List.mem_append.mp hm with hm | hm
  · obtain ⟨original, horiginal, rfl⟩ := List.mem_map.mp hm
    rw [Policy.wrapped_ok chosen] at horiginal
    exact (meets.method declared (List.mem_filter.mp horiginal).1).wrapper i.base
  · exact hooksMeet m hm

include short

/-- The unit of a proxy meets what its class and its hooks meet, if the class is requested by a name of the language. -/
theorem weave_meets (named : IsDotted i.base.text) : proxy.Meets p := by
  obtain ⟨d, name, -, parent, rfl, methods⟩ := weave_members meets hooksMeet woven
  refine ⟨meets.package, meets.imports, List.forall_mem_singleton.mpr ⟨?_, ?_, fun x hx => ?_⟩,
    List.forall_mem_singleton.mpr fun x hx => ?_⟩
  · exact (congrArg IsName name).mpr short
  · rintro _ ⟨⟩ written hp
    obtain rfl : i.base.text = written := Option.some.inj (parent.symm.trans hp)
    exact named
  · obtain ⟨m, here, rfl⟩ := methods x hx
    exact here.sound
  · obtain ⟨m, here, rfl⟩ := methods x hx
    exact here.every

/-- The class of a proxy is written as one under the class that the proxy is requested for. -/
theorem weave_spelt : ∃ d : ClassDecl, d.name = i.proxy.short ∧ d.isFinal = false ∧ d.parent = some i.base.text ∧
    proxy = { u with declarations := [.class d] } ∧ (Declaration.class d).Spelt ∧
      (Declaration.class d).Every Statement.Sound Expr.Spelt := by
  obtain ⟨d, name, isOpen, parent, rfl, methods⟩ := weave_members meets hooksMeet woven
  refine ⟨d, name, isOpen, parent, rfl, ⟨(congrArg IsName name).mpr short, ?_, fun x hx => ?_⟩, fun x hx => ?_⟩
  · rintro _ ⟨⟩ written hp
    obtain rfl : i.base.text = written := Option.some.inj (parent.symm.trans hp)
    exact i.base.valid
  · obtain ⟨m, here, rfl⟩ := methods x hx
    exact here.sound
  · obtain ⟨m, here, rfl⟩ := methods x hx
    exact .imp (fun _ here _ => here) (fun _ here _ => Expr.Weavable.spelt here) here.every here.every

/-- The text of a proxy is read as a unit, whichever, only if the class is requested by a name of the language. -/
theorem isDotted_of_weave_read {width : Nat} {v : SourceUnit} (read : SourceUnit.ofString? (proxy.print width) = .ok v) :
    IsDotted i.base.text := by
  obtain ⟨d, name, -, parent, rfl, spelt, every⟩ := weave_spelt meets hooksMeet short woven
  exact SourceUnit.isDotted_of_read_print (u := { u with declarations := [.class d] }) meets.package meets.imports
    (List.forall_mem_singleton.mpr spelt) (List.forall_mem_singleton.mpr every) rfl parent read

end Woven

/-- The names of a proxy whose suffix is made of parts of names. -/
theorem Identity.withSuffix_ok {c : ClassName} {suffix : String} (parts : suffix.toList.all isNamePart = true)
    {i : Identity} (made : withSuffix c suffix = .ok i) :
    i.base = c ∧ i.proxy.text = proxyText c suffix := by
  have text : (proxyText c suffix).toList = c.text.toList ++ '_' :: suffix.toList := by simp [proxyText]
  have valid : isDottedName (proxyText c suffix).toList = true := by
    rw [text]
    exact isDottedName_append c.valid (by simpa using ⟨by decide, by simpa using parts⟩)
  rw [withSuffix, ClassName.parse_of_isDottedName valid] at made
  cases made
  exact ⟨rfl, rfl⟩

/-- The text of a proxy is read as the proxy exactly when the name of the class, as it is requested, has no reserved
word in it. -/
theorem weave_print_reads {source aspectSource : String} {u a : SourceUnit} (read : SourceUnit.ofString? source = .ok u)
    (finite : FiniteFloats source) (floats : u.Every (fun _ => True) Expr.ReadsBack)
    (readAspect : SourceUnit.ofString? aspectSource = .ok a) (finiteAspect : FiniteFloats aspectSource)
    (floatsAspect : a.Every (fun _ => True) Expr.ReadsBack) {aspect : ClassName} {hooks : HookSet}
    (found : HookSet.ofUnit aspect a = .ok hooks) {c : ClassName} {suffix : String}
    (parts : suffix.toList.all isNamePart = true) {i : Identity} (made : Identity.withSuffix c suffix = .ok i)
    {policy : Policy} {inherited : List InheritedMethod} {proxy : SourceUnit}
    (woven : weave policy hooks i u inherited = .ok proxy) (width : Nat) :
    SourceUnit.ofString? (proxy.print width) = .ok proxy ↔ IsDotted c.text := by
  obtain ⟨rfl, text⟩ := Identity.withSuffix_ok parts made
  constructor
  · intro again
    have names := SourceUnit.namesParent_of_ofString? again
    obtain ⟨d, wrapped, -, -, rfl⟩ := weave_ok woven
    exact names _ rfl _ rfl _ rfl
  · intro named
    have stable := SourceUnit.stable_of_ofString? read finite floats
    have hooksStable := HookSet.meets (SourceUnit.stable_of_ofString? readAspect finiteAspect floatsAspect) found
    have proxyStable := weave_meets stable hooksStable (isName_proxyShort parts text) woven named
    exact SourceUnit.Stable.reads proxyStable width

theorem Identity.withSuffix_serialSuffix (c : ClassName) (n : Nat) :
    withSuffix c (serialSuffix n) = .ok (numbered c n) := by
  rw [withSuffix, ClassName.parse_of_isDottedName (valid_serial c n)]
  rfl

/-- An aspect whose hooks do nothing. -/
def quietUnit : SourceUnit where
  declarations := [.trait ⟨"Quiet",
    [.method ⟨{}, beforeHook, [⟨"c", none, none⟩], none, []⟩,
     .method ⟨{}, afterHook, [⟨"c", none, none⟩, ⟨"r", none, none⟩], none, [.return (some (.var "r"))]⟩]⟩]

theorem quiet_read :
    SourceUnit.ofString? "trait Quiet { fn __before(c) {} fn __after(c, r) { return r; } }" = .ok quietUnit :=
  SourceUnit.eq_ok_of_beq (by decide +kernel)

def quietHooks : HookSet where
  methods := quietUnit.methods
  distinct := by decide
  complete := by decide

theorem ofUnit_quietUnit : HookSet.ofUnit ⟨"Quiet", by decide⟩ quietUnit = .ok quietHooks :=
  rfl

def quietClock : SourceUnit where
  package := some "app"
  declarations := [.class (proxyDeclaration quietHooks clockIdentity [])]

theorem weave_print_reads_clock : SourceUnit.ofString? (quietClock.print 4) = .ok quietClock := by
  have floats : clockUnit.Every (fun _ => True) Expr.ReadsBack := List.forall_mem_singleton.mpr nofun
  have finite : FiniteFloats "package app; class Clock { }" := by decide
  have finiteQuiet : FiniteFloats "trait Quiet { fn __before(c) {} fn __after(c, r) { return r; } }" := by decide
  have floatsQuiet : quietUnit.Every (fun _ => True) Expr.ReadsBack := by
    refine List.forall_mem_singleton.mpr (List.forall_mem_cons.mpr ⟨?_, List.forall_mem_singleton.mpr ?_⟩)
    · exact ⟨List.forall_mem_singleton.mpr nofun, trivial⟩
    · exact ⟨List.forall_mem_cons.mpr ⟨nofun, List.forall_mem_singleton.mpr nofun⟩, trivial, trivial⟩
  have named : IsDotted "app.Clock" := ⟨"app", ["Clock"], by decide, by decide⟩
  have woven : weave {} quietHooks clockIdentity clockUnit [] = .ok quietClock :=
    SourceUnit.eq_ok_of_beq (by decide)
  exact (weave_print_reads clock_read finite floats quiet_read finiteQuiet floatsQuiet ofUnit_quietUnit
    (Identity.serialSuffix_parts 1) (Identity.withSuffix_serialSuffix ⟨"app.Clock", by decide⟩ 1) woven 4).mpr named

def classUnit : SourceUnit where
  declarations := [.class ⟨"Class", false, none, []⟩]

/-- The names of the proxy of `Class`, requested as `class`. -/
def classIdentity : Identity :=
  .numbered ⟨"class", by decide⟩ 1

def classProxy : SourceUnit where
  declarations := [.class (proxyDeclaration aspectHooks classIdentity [])]

theorem class_read : SourceUnit.ofString? "class Class {}" = .ok classUnit :=
  SourceUnit.eq_ok_of_beq (by decide +kernel)

theorem IsDotted.segments {s : String} (h : IsDotted s) : ∀ cs ∈ dotSegments s.toList, IsName (String.ofList cs) := by
  obtain ⟨n, ns, names, rfl⟩ := h
  rw [dotSegments_dotted names]
  intro cs hcs
  obtain ⟨x, hx, rfl⟩ := List.mem_map.mp hcs
  rw [String.ofList_toList]
  exact names x hx

/-- A class is found under its name in any case, but the proxy of `Class` that is requested as `class` has that word as
the name of its parent, which is no name in a text. -/
theorem reserved_word_in_parent :
    SourceUnit.ofString? "class Class {}" = .ok classUnit ∧ FiniteFloats "class Class {}" ∧
      Identity.withSuffix classIdentity.base classIdentity.suffix = .ok classIdentity ∧
      weave {} aspectHooks classIdentity classUnit [] = .ok classProxy ∧
      checkProxy {} aspectHooks classIdentity classUnit classProxy = .ok () ∧
      ∀ width, SourceUnit.ofString? (classProxy.print width) ≠ .ok classProxy := by
  refine ⟨class_read, by decide, Identity.withSuffix_serialSuffix _ 1,
    SourceUnit.eq_ok_of_beq (by decide), by decide, fun width read => ?_⟩
  have named : IsDotted "class" := SourceUnit.namesParent_of_ofString? read _ rfl _ rfl _ rfl
  exact absurd (named.segments ['c', 'l', 'a', 's', 's'] (by decide)) (by decide)

end AspectProxy
