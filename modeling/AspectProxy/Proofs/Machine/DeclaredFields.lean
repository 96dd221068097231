import AspectProxy.Proofs.ClassTable.Chains
import AspectProxy.Proofs.Machine.Extension
import AspectProxy.Proofs.Machine.ObjectTypes

/-!
The properties of objects. An object that is made gets a field for each property that a class of its lineage declares, and
as no run takes a field away, a declared property can be read of it from then on.
-/

namespace AspectProxy

open Eval

namespace Heap

variable {h h' : Heap}

theorem Extends.mem_fieldNames (extended : h.Extends h') {id : Nat} {field : String} (there : field ∈ h.fieldNames id) :
    field ∈ h'.fieldNames id :=
  (extended.fields id).subset there

theorem mem_fieldNames_set {o : ObjectRef} (there : o.id < h.objects.size) (field : String) (v : Value) :
    field ∈ (h.set o field v).fieldNames o.id := by
  unfold fieldNames set
  rw [Array.getElem?_modify, if_pos rfl, Array.getElem?_eq_getElem there]
  exact key_mem_setEntry field v _

/-- A field that an object has can be read. -/
theorem get?_of_mem_fieldNames {o : ObjectRef} {field : String} (there : field ∈ h.fieldNames o.id) :
    ∃ v, h.get? o field = some v :=
  getEntry_of_key there

end Heap

/-- Whether an object has a field for each property that some classes declare. -/
def Heap.Declares (h : Heap) (id : Nat) (classes : List LoadedClass) : Prop :=
  ∀ c ∈ classes, ∀ p ∈ c.own.properties, p.name ∈ h.fieldNames id

section Making

variable {calls : Calls} (kept : calls.Keep Machine.Extends) {frame : Frame} {o : ObjectRef} {s t : Store}

include kept

theorem setProperties_ok {ps : List Property} (there : o.id < s.machine.heap.objects.size)
    (ran : setProperties calls frame o ps s = (.ok (), t)) : ∀ p ∈ ps, p.name ∈ t.machine.heap.fieldNames o.id := by
  induction ps generalizing s with
  | nil => nofun
  | cons p ps ih =>
    have sets : ∀ (v : Value) (s₁ : Store), s.machine.Extends s₁.machine →
        (do setField o p.name v; setProperties calls frame o ps : Eval Unit) s₁ = (.ok (), t) →
          ∀ q ∈ p :: ps, q.name ∈ t.machine.heap.fieldNames o.id := by
      intro v s₁ first step
      have there₁ := Nat.lt_of_lt_of_le there first.heap.size
      obtain ⟨_, s₂, set, behind⟩ := of_run_bind step
      cases set
      have second := setProperties_keeps frame kept o ps
        { s₁ with machine := { s₁.machine with heap := s₁.machine.heap.set o p.name v } }
      rw [show setProperties calls frame o ps _ = (.ok (), t) from behind] at second
      have there₂ := Nat.lt_of_lt_of_le there₁ (s₁.machine.heap.extends_set o p.name v).size
      refine List.forall_mem_cons.mpr ⟨?_, ih there₂ behind⟩
      exact second.heap.mem_fieldNames (Heap.mem_fieldNames_set there₁ p.name v)
    rw [setProperties] at ran
    cases default : p.default with
    | none =>
      rw [default] at ran
      exact sets .null s (.refl s.machine) ran
    | some e =>
      rw [default] at ran
      obtain ⟨v, s₁, evaluated, step⟩ := of_run_bind ran
      have first := e.eval_keeps frame kept s
      rw [evaluated] at first
      exact sets v s₁ first step

theorem fillFields_ok {depth : Nat} {lineage : List LoadedClass} (there : o.id < s.machine.heap.objects.size)
    (ran : fillFields calls o depth lineage s = (.ok (), t)) : t.machine.heap.Declares o.id lineage := by
  induction lineage generalizing s with
  | nil => nofun
  | cons owner rest ih =>
    obtain ⟨_, s₁, filled, behind⟩ :=
      of_run_bind (x := withLocals (setProperties calls ⟨some o, owner, depth⟩ o owner.own.properties)) ran
    rcases set : setProperties calls ⟨some o, owner, depth⟩ o owner.own.properties { s with locals := [] } with ⟨r, s'⟩
    simp only [withLocals, set] at filled
    cases filled
    have first := setProperties_keeps ⟨some o, owner, depth⟩ kept o owner.own.properties { s with locals := [] }
    rw [set] at first
    have second := fillFields_keeps kept o depth rest { s' with locals := s.locals }
    rw [behind] at second
    have there' : o.id < s'.machine.heap.objects.size := Nat.lt_of_lt_of_le there first.heap.size
    refine List.forall_mem_cons.mpr ⟨fun p hp => ?_, ih (s := { s' with locals := s.locals }) there' behind⟩
    exact second.heap.mem_fieldNames (setProperties_ok kept (s := { s with locals := [] }) there set p hp)

omit kept in
theorem alloc_ok {c : LoadedClass} (made : Eval.alloc c s = (.ok o, t)) :
    o.type = c ∧ o.id < t.machine.heap.objects.size := by
  cases made
  simp

theorem makeObject_ok {c : LoadedClass} {args : List Value} {depth : Nat} {v : Value}
    (ran : makeObject calls c args depth s = (.ok v, t)) :
    ∃ o, v = .object o ∧ o.type = c ∧ t.machine.heap.Declares o.id c.lineage := by
  obtain ⟨o, s₁, made, step⟩ := of_run_bind ran
  obtain ⟨type, there⟩ := alloc_ok made
  obtain ⟨_, s₂, filled, last⟩ := of_run_bind step
  have declares := fillFields_ok kept there filled
  -- The constructor runs on the object, whose fields stay.
  have ends : v = .object o ∧ s₂.machine.Extends t.machine := by
    cases found : c.findMethod constructorName with
    | some constructor_ =>
      obtain ⟨owner, m⟩ := constructor_
      rw [found] at last
      obtain ⟨_, s₃, invoked, given⟩ := of_run_bind last
      have extended := kept.invoke owner m (some o) args depth s₂
      rw [invoked] at extended
      cases given
      exact ⟨rfl, extended⟩
    | none =>
      rw [found] at last
      dsimp only at last
      split at last
      · cases last
        exact ⟨rfl, .refl _⟩
      · cases last
  exact ⟨o, ends.1, type, fun d hd p hp => ends.2.heap.mem_fieldNames (declares d hd p hp)⟩

theorem constructOver_ok {c : LoadedClass} {args : List Value} {depth : Nat} {v : Value}
    (ran : constructOver calls c args depth s = (.ok v, t)) :
    ∃ o, v = .object o ∧ o.type = c ∧ t.machine.heap.Declares o.id c.lineage := by
  rw [constructOver_eq] at ran
  split at ran
  · obtain ⟨_, _, failed, -⟩ := of_run_bind ran
    cases failed
  · exact makeObject_ok kept ran

end Making

theorem constructWithin_ok {steps : Nat} {c : LoadedClass} {args : List Value} {depth : Nat} {v : Value} {s t : Store}
    (ran : constructWithin steps c args depth s = (.ok v, t)) :
    ∃ o, v = .object o ∧ o.type = c ∧ t.machine.heap.Declares o.id c.lineage := by
  cases steps with
  | zero => cases ran
  | succ steps => exact constructOver_ok (Calls.within_keep steps) ran

namespace Machine

/-- An object that a host has made is of the class it was asked for, and has a field for each property of its lineage. -/
theorem instantiate_ok {steps : Nat} {name : ClassName} {args : List Value} {v : Value} {m m' : Machine}
    (ran : instantiate steps name args m = (.ok v, m')) :
    ∃ o, v = .object o ∧ m'.class? name = some o.type ∧ m'.heap.Declares o.id o.type.lineage := by
  unfold instantiate runCode at ran
  rcases done : (Eval.loadClass name >>= fun c => constructWithin steps c args 0) { machine := m } with ⟨r, t⟩
  rw [done] at ran
  cases ran
  obtain ⟨c, s, loaded, made⟩ := of_run_bind done
  obtain ⟨o, rfl, rfl, declares⟩ := constructWithin_ok made
  have extended := constructWithin_keeps (R := Extends) steps o.type args 0 s
  rw [made] at extended
  refine ⟨o, rfl, extended.class? ?_, declares⟩
  rcases found : load name m with ⟨_ | c, m₁⟩ <;> simp only [Eval.loadClass, Eval.onMachine, found] at loaded <;> cases loaded
  exact load_found found

/-- The states that come behind one: a step of a program runs, or a host changes what is not an object. -/
inductive Later (m : Machine) : Machine → Prop
  | now : Later m m
  | load {m' : Machine} (name : ClassName) : Later m m' → Later m (Machine.load name m').2
  | write {m' : Machine} (line : String) : Later m m' → Later m (m'.write line)
  | alloc {m' : Machine} (c : LoadedClass) : Later m m' → Later m { m' with heap := (m'.heap.alloc c).2 }
  | set {m' : Machine} (o : ObjectRef) (field : String) (v : Value) : Later m m' →
      Later m { m' with heap := m'.heap.set o field v }
  | before {m' : Machine} (p : JoinPoint) : Later m m' → Later m { m' with advice := (m'.advice.runBefore p).2 }
  | after {m' : Machine} (p : JoinPoint) (v : Value) : Later m m' →
      Later m { m' with advice := (m'.advice.runAfter p v).2 }
  | host {m' m'' : Machine} : m''.heap = m'.heap → Later m m' → Later m m''

theorem Later.trans {a b c : Machine} (first : Later a b) (second : Later b c) : Later a c := by
  induction second with
  | now => exact first
  | load name _ ih => exact .load name ih
  | write line _ ih => exact .write line ih
  | alloc c _ ih => exact .alloc c ih
  | set o field v _ ih => exact .set o field v ih
  | before p _ ih => exact .before p ih
  | after p v _ ih => exact .after p v ih
  | host same _ ih => exact .host same ih

/-- The states behind a run come later. -/
instance : StepRelation Later where
  refl := fun _ => .now
  trans := .trans
  load := fun name _ => .load name .now
  write := fun line _ => .write line .now
  alloc := fun c _ => .alloc c .now
  set := fun o field v _ => .set o field v .now
  before := fun p _ => .before p .now
  after := fun p v _ => .after p v .now

/-- No field is lost later. -/
theorem Later.heap_extends {m m' : Machine} (later : Later m m') : m.heap.Extends m'.heap := by
  induction later with
  | now => exact .refl _
  | @load m' name _ ih => exact ih.trans (extends_load name m').heap
  | write _ _ ih | before _ _ ih | after _ _ _ ih => exact ih
  | @alloc m' c _ ih => exact ih.trans (m'.heap.extends_alloc c)
  | @set m' o field v _ ih => exact ih.trans (m'.heap.extends_set o field v)
  | host same _ ih => exact same ▸ ih

/-- A property that a class of the lineage declares can be read of an object at any later time. -/
theorem Later.readProperty {m m' : Machine} (later : Later m m') {o : ObjectRef}
    (declares : m.heap.Declares o.id o.type.lineage)
    {c : LoadedClass} (hc : c ∈ o.type.lineage) {p : Property} (hp : p ∈ c.own.properties) (locals : List (String × Value)) :
    ∃ v, readProperty p.name (.object o) ⟨m', locals⟩ = (.ok v, ⟨m', locals⟩) := by
  obtain ⟨v, found⟩ := Heap.get?_of_mem_fieldNames (later.heap_extends.mem_fieldNames (declares c hc p hp))
  refine ⟨v, ?_⟩
  unfold AspectProxy.readProperty
  refine (run_bind (x := Eval.getMachine) rfl).trans ?_
  simp only [found]
  rfl

namespace Request

/-- Whether all objects that a request refers to have the classes of a list. -/
def Typed (types : List LoadedClass) : Request → Prop
  | instantiate _ args | callStatic _ _ args => ∀ v ∈ args, v.Typed types
  | callMethod target _ args => target.Typed types ∧ ∀ v ∈ args, v.Typed types

theorem runCode_typed {types : List LoadedClass} {code : Eval Value} (sound : TypeSafe types Value.Typed code) {m : Machine}
    (typed : m.Typed types) : ∃ more, types <+: more ∧ (runCode code m).2.Typed more ∧
      ∀ v, (runCode code m).1 = .ok v → v.Typed more := by
  obtain ⟨more, longer, after, gives⟩ := sound types List.prefix_rfl { machine := m } ⟨typed, nofun⟩
  exact ⟨more, longer, after.machine, gives⟩

/-- A request leaves each object its class. -/
theorem run_typed (r : Request) (steps : Nat) {m : Machine} {types : List LoadedClass} (typed : m.Typed types)
    (given : r.Typed types) : ∃ more, types <+: more ∧ (r.run steps m).2.Typed more ∧
      ∀ v, (r.run steps m).1 = .ok v → v.Typed more := by
  have calls := Calls.within_sound steps
  cases r with
  | instantiate name args =>
    refine runCode_typed (.bind (.loadClass name) fun _ longer c _ => ?_) typed
    exact calls.construct c args 0 fun v hv => (given v hv).mono longer
  | callStatic name method args =>
    refine runCode_typed (.bind (.loadClass name) fun _ first c _ => .bind (ofExcept_sound _) fun _ second found _ => ?_) typed
    have still : ∀ now, ∀ o ∈ (none : Option ObjectRef), o.Of now := fun _ o there => absurd there (Option.not_mem_none o)
    have call := fun now (longer : _ <+: now) => calls.invoke found.1 found.2 none args 0 (still now)
      fun v hv => (given v hv).mono ((first.trans second).trans longer)
    dsimp only
    split
    · exact .bind (Q := fun _ _ => True) (.fail _) fun now longer _ _ => call now longer
    · exact call _ List.prefix_rfl
  | callMethod target method args =>
    refine runCode_typed (.bind (receiver_sound given.1) fun _ first o of => .bind (ofExcept_sound _)
      fun mid second found _ => ?_) typed
    have call : ∀ now, mid <+: now → TypeSafe now Value.Typed (invokeWithin steps found.1 found.2 (some o) args 0) := by
      intro now longer
      refine calls.invoke found.1 found.2 (some o) args 0 ?_ fun v hv => (given.2 v hv).mono ((first.trans second).trans longer)
      rintro _ ⟨⟩
      exact of.mono (second.trans longer)
    dsimp only
    split
    · refine .bind (Q := fun _ _ => True) (.fail _) fun now longer _ _ => ?_
      split
      · exact .bind (Q := fun _ _ => True) (.fail _) fun now' further _ _ => call now' (longer.trans further)
      · exact call now longer
    · split
      · exact .bind (Q := fun _ _ => True) (.fail _) fun now longer _ _ => call now longer
      · exact call mid List.prefix_rfl

/-- A run only adds to what a machine has, whether it ends in a value or fails: objects keep their fields, lines and classes
stand where they stood, the same is being loaded, and pure advice stays as it is. Each object keeps its class, in every
reference to it that there is. And an object that a host has made can be asked for each property that its lineage
declares, at once and in every later state. -/
theorem run_only_extends (r : Request) (steps : Nat) (m : Machine) :
    m.Extends (r.run steps m).2 ∧
    (∀ types, m.Typed types → r.Typed types → ∃ more, types <+: more ∧ (r.run steps m).2.Typed more ∧
      ∀ v, (r.run steps m).1 = .ok v → v.Typed more) ∧
    ∀ name args v, r = .instantiate name args → (r.run steps m).1 = .ok v →
      ∃ o, v = .object o ∧ (r.run steps m).2.class? name = some o.type ∧
        ∀ m', Later (r.run steps m).2 m' → ∀ c ∈ o.type.lineage, ∀ p ∈ c.own.properties,
          p.name ∈ m'.heap.fieldNames o.id ∧
            ∀ locals, ∃ w, readProperty p.name (.object o) ⟨m', locals⟩ = (.ok w, ⟨m', locals⟩) := by
  refine ⟨r.run_keeps steps m, fun types typed given => r.run_typed steps typed given, ?_⟩
  rintro name args v rfl made
  obtain ⟨o, rfl, found, declares⟩ := instantiate_ok (Prod.ext made rfl : Machine.instantiate steps name args m = (_, _))
  refine ⟨o, rfl, found, fun m' later c hc p hp => ⟨?_, later.readProperty declares hc hp⟩⟩
  exact later.heap_extends.mem_fieldNames (declares c hc p hp)

/-- `class Point { let x = 1; }` -/
def pointClass : LoadedClass :=
  ⟨⟨⟨"Point", by decide⟩, false, false, ⟨none, [], []⟩, [], [⟨{}, "x", none, some (.int 1)⟩]⟩, []⟩

/-- `class Pixel extends Point { let color; }` -/
def pixelClass : LoadedClass :=
  ⟨⟨⟨"Pixel", by decide⟩, false, false, ⟨none, [], []⟩, [], [⟨{}, "color", none, none⟩]⟩, [pointClass.own]⟩

/-- A machine with a point that refers to itself. -/
def canvas : Machine where
  classes := [pointClass, pixelClass]
  heap := ⟨#[[("x", .int 1), ("next", .object ⟨0, pointClass⟩)]]⟩

theorem canvas_typed : canvas.Typed [pointClass] where
  size := rfl
  heap := by
    rintro ⟨id, type⟩ field there
    cases id with
    | zero =>
      rcases List.mem_cons.mp there with rfl | there
      · exact trivial
      · cases List.mem_singleton.mp there
        exact rfl
    | succ id => cases there
  advice := fun _ _ => nofun

/-- A pixel is made beside the point; it has the property of its own class and that of points. -/
theorem run_only_extends_canvas : ∃ (m : Machine) (o : ObjectRef),
    (instantiate pixelClass.name []).run 1 canvas = (.ok (.object o), m) ∧ canvas.heap.Extends m.heap ∧
      (∃ more, [pointClass] <+: more ∧ m.Typed more) ∧
      (∃ w, readProperty "x" (.object o) ⟨m, []⟩ = (.ok w, ⟨m, []⟩)) ∧
      ∃ w, readProperty "color" (.object o) ⟨m, []⟩ = (.ok w, ⟨m, []⟩) := by
  have ran : ((instantiate pixelClass.name []).run 1 canvas).1 = .ok (.object ⟨1, pixelClass⟩) := rfl
  obtain ⟨extended, typed, made⟩ := run_only_extends (instantiate pixelClass.name []) 1 canvas
  obtain ⟨more, longer, after, -⟩ := typed [pointClass] canvas_typed (List.forall_mem_nil _)
  obtain ⟨o, same, -, reads⟩ := made pixelClass.name [] _ rfl ran
  cases same
  have point : pointClass ∈ pixelClass.lineage := List.mem_cons_self
  have pixel : pixelClass ∈ pixelClass.lineage := List.mem_cons_of_mem pointClass List.mem_cons_self
  have own := reads _ .now pixelClass pixel ⟨{}, "color", none, none⟩ List.mem_cons_self
  have inherited := reads _ .now pointClass point ⟨{}, "x", none, some (.int 1)⟩ List.mem_cons_self
  exact ⟨_, ⟨1, pixelClass⟩, Prod.ext ran rfl, extended.heap, ⟨more, longer, after⟩, inherited.2 [], own.2 []⟩

end Request

end Machine

end AspectProxy
