import AspectProxy.Proofs.Machine.Finishing
import AspectProxy.Proofs.Machine.Requests
import AspectProxy.Proofs.Weaving.Sameness
import Mathlib.Data.List.Perm.Subperm

/-!
What the bound on calls bounds. Each call is one deeper than the code it stands in, but objects are made at the depth of
the code that makes them, and so are those in the defaults of their properties. Without loops a request ends if no class
makes objects of itself in this way; one that does may go on making objects without reaching the bound on calls.
-/

namespace AspectProxy

open Eval Relation

namespace Machine

/-- Whether making an object of a known class may make one of another in the default of a property. -/
def Makes (m : Machine) (c d : LoadedClass) : Prop :=
  c ∈ m.known ∧ ∃ owner ∈ c.lineage, ∃ p ∈ owner.own.properties, ∃ e ∈ p.default, ∃ reference,
    ⟨.create, reference⟩ ∈ e.references ∧ m.target? owner reference = some d

/-- A machine whose code holds no `while` and needs no class to be loaded, and whose objects are of classes it knows. -/
structure Loopless (m : Machine) : Prop where
  body : ∀ c ∈ m.known, ∀ method ∈ c.own.methods, Statement.LoopFreeIn method.body
  settled : ∀ c ∈ m.known, ∀ r ∈ c.references, m.SettledIn c r
  objects : m.Objects (· ∈ m.known)

end Machine

section Bodies

variable {base : Machine} (loopless : base.Loopless)
include loopless

theorem method_fits {owner : LoadedClass} (known : owner ∈ base.known) {m : Method} (hm : m ∈ owner.own.methods)
    (r : Reference) (there : .reference r ∈ m.nodes) : base.Fits owner (fun _ => True) r := by
  refine ⟨loopless.settled owner known r ?_, fun _ _ _ => trivial⟩
  exact List.mem_filterMap.mpr ⟨.reference r, List.mem_append_left _ (List.mem_flatMap.mpr ⟨m, hm, there⟩), rfl⟩

theorem properties_fit {c owner : LoadedClass} (hc : c ∈ base.known) (within : owner ∈ c.lineage) (r : Reference)
    (there : .reference r ∈ owner.own.properties.flatMap fun p => Expr.defaultNodes p.default) :
    base.Fits owner (base.Makes c) r := by
  have own : r ∈ owner.references := List.mem_filterMap.mpr ⟨.reference r, List.mem_append_right _ there, rfl⟩
  refine ⟨loopless.settled owner (Machine.known_of_lineage hc within) r own, fun create d meant => ?_⟩
  obtain ⟨p, hp, there⟩ := List.mem_flatMap.mp there
  obtain ⟨e, he, there⟩ := List.mem_flatMap.mp there
  obtain ⟨kind, name⟩ := r
  subst create
  exact ⟨hc, owner, within, p, hp, e, Option.mem_toList.mp he, name, Expr.mem_nodes.mp there, meant⟩

variable {calls : Calls}

/-- A call ends if the calls one deeper do, where the bound allows them. -/
theorem invokeOver_finishes {depth : Nat}
    (deeper : depth + 1 ≤ base.maxDepth → calls.Finish base (depth + 1) fun _ => True) (steps : Nat)
    {owner : LoadedClass} (known : owner ∈ base.known) {m : Method} (hm : m ∈ owner.own.methods)
    {this : Option ObjectRef} (hthis : ∀ o ∈ this, o.type ∈ base.known) {args : List Value}
    (held : ∀ v ∈ args, base.Knows v) : Finishes base base.Knows (invokeOver calls steps owner m this args depth) := by
  refine .getMachine_bind fun machine bound _ => ?_
  dsimp only
  split
  next => exact .bind (Q := fun _ => False) (.fail _) fun _ never => never.elim
  next room =>
    have ready : Frame.Ready base (fun _ => True) calls ⟨this, owner, depth + 1⟩ :=
      ⟨known, hthis, deeper (by omega)⟩
    have body := m.runBody_finishes steps ready (loopless.body owner known m hm) (method_fits loopless known hm) args held
    exact .bind (Q := fun _ => True) (.ofExcept fun _ _ => trivial) fun _ _ => .withLocals body

theorem fillFields_finishes {c : LoadedClass} (hc : c ∈ base.known) {depth : Nat}
    (finish : calls.Finish base depth (base.Makes c)) {o : ObjectRef} (ho : o.type ∈ base.known) :
    ∀ owners : List LoadedClass, owners ⊆ c.lineage →
      Finishes base (fun _ => True) (fillFields calls o depth owners)
  | [], _ => .pure trivial
  | owner :: rest, within => by
    obtain ⟨first, others⟩ := List.cons_subset.mp within
    have this : ∀ x ∈ some o, x.type ∈ base.known := by
      rintro _ ⟨⟩
      exact ho
    have ready : Frame.Ready base (base.Makes c) calls ⟨some o, owner, depth⟩ :=
      ⟨Machine.known_of_lineage hc first, this, finish⟩
    have filled := setProperties_finishes ready o owner.own.properties (properties_fit loopless hc first)
    exact .bind (.withLocals filled) fun _ _ => fillFields_finishes hc finish ho rest others

/-- Making an object ends if calls from where it is made do, and making those that its class makes. -/
theorem makeObject_finishes {c : LoadedClass} (hc : c ∈ base.known) {depth : Nat}
    (finish : calls.Finish base depth (base.Makes c)) {args : List Value} (held : ∀ v ∈ args, base.Knows v) :
    Finishes base base.Knows (makeObject calls c args depth) := by
  refine .bind (.alloc hc) fun o ho => ?_
  refine .bind (fillFields_finishes loopless hc finish ho c.lineage fun _ h => h) fun _ _ => ?_
  split
  next owner m found =>
    obtain ⟨within, own, -⟩ := LoadedClass.mem_lineage_of_findMethod found
    have this : ∀ x ∈ some o, x.type ∈ base.known := by
      rintro _ ⟨⟩
      exact ho
    exact .bind (finish.invoke owner (Machine.known_of_lineage hc within) m own _ this args held) fun _ _ => .pure ho
  next =>
    split
    · exact .pure ho
    · exact .fail _

theorem constructOver_finishes {c : LoadedClass} (hc : c ∈ base.known) {depth : Nat}
    (finish : calls.Finish base depth (base.Makes c)) {args : List Value} (held : ∀ v ∈ args, base.Knows v) :
    Finishes base base.Knows (constructOver calls c args depth) := by
  rw [constructOver_eq]
  split
  · exact .bind (Q := fun _ => False) (.fail _) fun _ never => never.elim
  · exact makeObject_finishes loopless hc finish held

end Bodies

/-- Classes whose objects are made within each other at one depth, and within them an object of a further class. -/
structure MakingPath (m : Machine) (path : List LoadedClass) (c : LoadedClass) : Prop where
  distinct : path.Nodup
  known : path ⊆ m.known
  makes : ∀ a ∈ path, TransGen m.Makes a c

section Paths

variable {base : Machine} (acyclic : ∀ c, ¬TransGen base.Makes c c)
include acyclic

theorem MakingPath.fresh {path : List LoadedClass} {c : LoadedClass} (h : MakingPath base path c) : (c :: path).Nodup :=
  List.nodup_cons.mpr ⟨fun again => acyclic c (h.makes c again), h.distinct⟩

theorem MakingPath.cons {path : List LoadedClass} {c d : LoadedClass} (h : MakingPath base path c)
    (makes : base.Makes c d) : MakingPath base (c :: path) d where
  distinct := h.fresh acyclic
  known := List.cons_subset.mpr ⟨makes.1, h.known⟩
  makes := by
    intro a ha
    rcases List.mem_cons.mp ha with rfl | ha
    · exact .single makes
    · exact (h.makes a ha).tail makes

/-- There are no more classes on a path than the machine knows. -/
theorem MakingPath.length_lt {path : List LoadedClass} {c : LoadedClass} (h : MakingPath base path c)
    (hc : c ∈ base.known) : path.length < base.known.length :=
  (List.subperm_of_subset (h.fresh acyclic) (List.cons_subset.mpr ⟨hc, h.known⟩)).length_le

end Paths

namespace Machine

/-- Steps that are enough for a call with a number of calls around it: for each further call that the bound allows, one
for the call and one for each class whose objects may be made within each other. -/
def callSteps (m : Machine) (depth : Nat) : Nat :=
  (m.maxDepth - depth) * (m.known.length + 1) + 1

theorem callSteps_succ {m : Machine} {depth : Nat} (room : depth + 1 ≤ m.maxDepth) :
    m.callSteps depth = m.callSteps (depth + 1) + m.known.length + 1 := by
  obtain ⟨more, bound⟩ := Nat.exists_eq_add_of_le room
  have left : m.maxDepth - depth = more + 1 := by omega
  have left' : m.maxDepth - (depth + 1) = more := by omega
  unfold callSteps
  rw [left, left', Nat.succ_mul]
  omega

end Machine

section Steps

variable {base : Machine} (loopless : base.Loopless) (acyclic : ∀ c, ¬TransGen base.Makes c c)
include loopless acyclic

/-- Calls with enough steps end, and so does making objects, with a step more for each class that is not on the path. -/
theorem within_finishes (steps : Nat) :
    (∀ {depth}, base.callSteps depth ≤ steps → ∀ owner ∈ base.known, ∀ m ∈ owner.own.methods, ∀ this : Option ObjectRef,
      (∀ o ∈ this, o.type ∈ base.known) → ∀ args : List Value, (∀ v ∈ args, base.Knows v) →
        Finishes base base.Knows (invokeWithin steps owner m this args depth)) ∧
    (∀ {depth path}, base.callSteps depth + (base.known.length - path.length) ≤ steps → ∀ c ∈ base.known,
      MakingPath base path c → ∀ args : List Value, (∀ v ∈ args, base.Knows v) →
        Finishes base base.Knows (constructWithin steps c args depth)) := by
  induction steps with
  | zero => exact ⟨fun none => by simp [Machine.callSteps] at none, fun none => by simp [Machine.callSteps] at none⟩
  | succ steps ih =>
    obtain ⟨invokes, constructs⟩ := ih
    constructor
    · intro depth enough owner known m hm this hthis args held
      refine invokeOver_finishes loopless (fun room => ?_) steps known hm hthis held
      have split := Machine.callSteps_succ room
      have call : base.callSteps (depth + 1) ≤ steps := by omega
      have make : base.callSteps (depth + 1) + (base.known.length - ([] : List LoadedClass).length) ≤ steps := by
        rw [List.length_nil]
        omega
      exact ⟨invokes call, fun c hc _ => constructs make c hc ⟨.nil, nofun, nofun⟩⟩
    · intro depth path enough c hc making args held
      have short := making.length_lt acyclic hc
      have call : base.callSteps depth ≤ steps := by omega
      have make : base.callSteps depth + (base.known.length - (c :: path).length) ≤ steps := by
        rw [List.length_cons]
        omega
      exact constructOver_finishes loopless hc
        ⟨invokes call, fun d hd makes => constructs make d hd (making.cons acyclic makes)⟩ held

end Steps

namespace Machine

theorem Loopless.within {m : Machine} (loopless : m.Loopless) : Store.Within m { machine := m } :=
  ⟨rfl, rfl, rfl, loopless.objects, nofun⟩

section Ended

variable {m : Machine} (loopless : m.Loopless) (acyclic : ∀ c, ¬TransGen m.Makes c c) {steps : Nat}
  (enough : (m.maxDepth + 1) * (m.known.length + 1) ≤ steps) {name : ClassName} {target : Value} {method : String}
  {args : List Value} (held : ∀ v ∈ args, m.Knows v)

theorem ended_of_finishes (loopless : m.Loopless) {code : Eval α} {Q : α → Prop} (h : Finishes m Q code) :
    Ended Q (runCode code m).1 :=
  (h _ loopless.within).2

theorem callSteps_le (enough : (m.maxDepth + 1) * (m.known.length + 1) ≤ steps) :
    m.callSteps 0 + (m.known.length - ([] : List LoadedClass).length) ≤ steps := by
  rw [Nat.succ_mul] at enough
  rw [callSteps, List.length_nil, Nat.sub_zero, Nat.sub_zero]
  omega

include loopless acyclic enough held

theorem instantiate_ended (settled : m.Settled name) : Ended m.Knows (instantiate steps name args m).1 := by
  obtain ⟨-, constructs⟩ := within_finishes loopless acyclic steps
  refine ended_of_finishes loopless (.bind (.loadClass settled) fun c found => ?_)
  exact constructs (callSteps_le enough) c (known_of_class? found) ⟨.nil, nofun, nofun⟩ args held

theorem callMethod_ended (known : m.Knows target) : Ended m.Knows (callMethod steps target method args m).1 := by
  obtain ⟨invokes, -⟩ := within_finishes loopless acyclic steps
  have call : m.callSteps 0 ≤ steps := Nat.le_of_add_right_le (callSteps_le enough)
  refine ended_of_finishes loopless (.bind (Q := fun o => o.type ∈ m.known) (.ofExcept fun o h => ?_) fun o type => ?_)
  · cases target <;> cases h
    exact known
  refine .bind (Q := fun found => found.1 ∈ m.known ∧ found.2 ∈ found.1.own.methods)
    (.ofExcept fun found h => findMethod_known type h) fun found there => ?_
  have this : ∀ x ∈ some o, x.type ∈ m.known := by
    rintro _ ⟨⟩
    exact type
  have run := invokes call found.1 there.1 found.2 there.2 (some o) this args held
  dsimp only
  split
  · exact .bind (Q := fun _ => False) (.fail _) fun _ never => never.elim
  · split
    · exact .bind (Q := fun _ => False) (.fail _) fun _ never => never.elim
    · exact run

theorem callStatic_ended (settled : m.Settled name) : Ended m.Knows (callStatic steps name method args m).1 := by
  obtain ⟨invokes, -⟩ := within_finishes loopless acyclic steps
  have call : m.callSteps 0 ≤ steps := Nat.le_of_add_right_le (callSteps_le enough)
  refine ended_of_finishes loopless (.bind (.loadClass settled) fun c found => ?_)
  refine .bind (Q := fun found => found.1 ∈ m.known ∧ found.2 ∈ found.1.own.methods)
    (.ofExcept fun _ h => findMethod_known (known_of_class? found) h) fun found there => ?_
  dsimp only
  split
  · exact .bind (Q := fun _ => False) (.fail _) fun _ never => never.elim
  · exact invokes call found.1 there.1 found.2 there.2 none (by rintro _ ⟨⟩) args held

end Ended

namespace Request

/-- A request for a class that needs no loading, with objects of classes that the machine knows. -/
def Known (m : Machine) : Request → Prop
  | instantiate name args => m.Settled name ∧ ∀ v ∈ args, m.Knows v
  | callMethod target _ args => m.Knows target ∧ ∀ v ∈ args, m.Knows v
  | callStatic name _ args => m.Settled name ∧ ∀ v ∈ args, m.Knows v

/-- Without loops every request ends, in a value or an error, unless making an object of some class can go on to make one
of that class again at the same depth. -/
theorem run_ends (r : Request) {m : Machine} (loopless : m.Loopless) (acyclic : ∀ c, ¬TransGen m.Makes c c)
    (known : r.Known m) {steps : Nat} (enough : (m.maxDepth + 1) * (m.known.length + 1) ≤ steps) :
    (∃ v, (r.run steps m).1 = .ok v) ∨ ∃ e, (r.run steps m).1 = .error (.failed e) := by
  have ended : Ended m.Knows (r.run steps m).1 := by
    cases r with
    | instantiate => exact instantiate_ended loopless acyclic enough known.2 known.1
    | callMethod => exact callMethod_ended loopless acyclic enough known.2 known.1
    | callStatic => exact callStatic_ended loopless acyclic enough known.2 known.1
  rcases ran : (r.run steps m).1 with e | v
  · rw [ran] at ended
    cases e with
    | outOfSteps => exact ended.elim
    | failed e => exact .inr ⟨e, rfl⟩
  · exact .inl ⟨v, rfl⟩

/-- A class with a method that calls itself for ever, whose objects have a mark made with them. -/
def echoClass : LoadedClass where
  own.name := ⟨"Echo", by decide⟩
  own.isFinal := false
  own.isTrait := false
  own.scope := {}
  own.methods := [⟨{ isStatic := true }, "again", [], none, [.expr (.staticCall "Self" "again" [])]⟩]
  own.properties := [⟨{}, "mark", none, some (.create "Mark" [])⟩]
  ancestors := []

def markClass : LoadedClass where
  own.name := ⟨"Mark", by decide⟩
  own.isFinal := false
  own.isTrait := false
  own.scope := {}
  own.methods := []
  own.properties := []
  ancestors := []

def echo : Machine where
  classes := [echoClass, markClass]

theorem echo_known {c : LoadedClass} (h : c ∈ echo.known) : c = echoClass ∨ c = markClass := by
  have known : echo.known = [echoClass, markClass] := rfl
  simpa [known] using h

theorem echo_loopless : echo.Loopless where
  body := by
    intro c hc method hm
    rcases echo_known hc with rfl | rfl
    · obtain rfl := List.mem_singleton.mp hm
      exact ⟨trivial, trivial⟩
    · cases hm
  settled := fun _ _ _ _ _ _ _ _ => .inl rfl
  objects := ⟨fun o field there => by simp [echo, Heap.fields] at there, nofun⟩

theorem echo_makes {c d : LoadedClass} (h : echo.Makes c d) : c = echoClass ∧ d = markClass := by
  have mark : echo.target? echoClass "Mark" = some markClass := rfl
  obtain ⟨hc, owner, within, p, hp, e, he, reference, there, meant⟩ := h
  rcases echo_known hc with rfl | rfl
  · obtain rfl := List.mem_singleton.mp within
    obtain rfl := List.mem_singleton.mp hp
    cases he
    cases List.mem_singleton.mp there
    exact ⟨rfl, Option.some.inj (meant.symm.trans mark)⟩
  · obtain rfl := List.mem_singleton.mp within
    cases hp

theorem echo_acyclic (c : LoadedClass) : ¬TransGen echo.Makes c c := by
  intro cycle
  obtain ⟨_, first, -⟩ := TransGen.head'_iff.mp cycle
  obtain ⟨_, -, last⟩ := TransGen.tail'_iff.mp cycle
  have same : echoClass.own.methods = markClass.own.methods := by rw [← (echo_makes first).1, (echo_makes last).2]
  cases same

theorem run_ends_echo :
    (∃ v, ((callStatic echoClass.name "again" []).run 771 echo).1 = .ok v) ∨
      ∃ e, ((callStatic echoClass.name "again" []).run 771 echo).1 = .error (.failed e) :=
  run_ends (callStatic echoClass.name "again" []) echo_loopless echo_acyclic ⟨.inl rfl, by simp⟩ (by decide)

end Request

def mirrorUnit : SourceUnit where
  declarations := [.class ⟨"Mirror", false, none, [.property ⟨{}, "image", none, some (.create "Mirror" [])⟩]⟩]

theorem mirror_read : SourceUnit.ofString? "class Mirror { let image = new Mirror(); }" = .ok mirrorUnit :=
  SourceUnit.eq_ok_of_beq (by decide +kernel)

def mirrorClass : LoadedClass where
  own.name := ⟨"Mirror", by decide⟩
  own.isFinal := false
  own.isTrait := false
  own.scope := {}
  own.methods := []
  own.properties := [⟨{}, "image", none, some (.create "Mirror" [])⟩]
  ancestors := []

def mirror : Machine where
  classes := [mirrorClass]

theorem define_mirror : define "class Mirror { let image = new Mirror(); }" {} = (.ok mirrorClass.handle, mirror) := by
  unfold define
  rw [mirror_read]
  rfl

theorem resolve_mirror (frame : Frame) (owner : frame.owner = mirrorClass) {s : Store}
    (classes : s.machine.classes = [mirrorClass]) : resolveClass frame "Mirror" s = (.ok mirrorClass, s) := by
  have parsed : ClassName.parse (mirrorClass.own.scope.resolve "Mirror") = .ok mirrorClass.name := rfl
  have found : s.machine.class? mirrorClass.name = some mirrorClass := by
    unfold class?
    rw [classes]
    rfl
  have settled : s.machine.Settled mirrorClass.name := .inr (by rw [isDefined, found]; rfl)
  unfold resolveClass
  rw [if_neg (by decide), owner, parsed]
  show Eval.loadClass mirrorClass.name s = _
  unfold Eval.loadClass onMachine
  rw [load_settled settled, found]
  rfl

/-- The object in the default is made at the depth of the object that it is for, and so on without end. -/
theorem construct_mirror (steps : Nat) {s : Store} (classes : s.machine.classes = [mirrorClass]) :
    (constructWithin steps mirrorClass [] 0 s).1 = .error .outOfSteps := by
  induction steps generalizing s with
  | zero => rfl
  | succ steps ih =>
    have image : ∀ (o : ObjectRef) {t : Store}, t.machine.classes = [mirrorClass] →
        (Expr.eval (.within steps) ⟨some o, mirrorClass, 0⟩ (.create "Mirror" []) t).1 = .error .outOfSteps := by
      intro o t classes
      rw [Expr.eval, Eval.bind_ok (resolve_mirror _ rfl classes)]
      exact ih classes
    have fields : ∀ (o : ObjectRef) {t : Store}, t.machine.classes = [mirrorClass] →
        (fillFields (.within steps) o 0 [mirrorClass] t).1 = .error .outOfSteps := by
      intro o t classes
      have cleared : ∀ code : Eval Unit, (withLocals code t).1 = (code { t with locals := [] }).1 := fun _ => rfl
      have declared : mirrorClass.own.properties = [⟨{}, "image", none, some (.create "Mirror" [])⟩] := rfl
      rw [fillFields]
      refine bind_stopped ?_
      rw [cleared, declared, setProperties]
      exact bind_stopped (image o classes)
    have lineage : mirrorClass.lineage = [mirrorClass] := rfl
    have made : alloc mirrorClass s = (.ok (s.machine.heap.alloc mirrorClass).1, _) := rfl
    rw [constructWithin, constructOver, if_neg (by decide)]
    dsimp only
    rw [Eval.bind_ok made, lineage]
    exact bind_stopped (fields _ classes)

theorem mirror_loopless : mirror.Loopless where
  body := by
    intro c hc method hm
    obtain rfl := List.mem_singleton.mp hc
    cases hm
  settled := fun _ _ _ _ _ _ _ _ => .inl rfl
  objects := ⟨fun o field there => by simp [mirror, Heap.fields] at there, nofun⟩

/-- A class without loops whose objects have another of the class as a default: making one never ends, and makes no call
that the bound could end it by. -/
theorem mirror_never_ends :
    define "class Mirror { let image = new Mirror(); }" {} = (.ok mirrorClass.handle, mirror) ∧ mirror.Loopless ∧
      ∀ steps, ((Request.instantiate mirrorClass.name []).run steps mirror).1 = .error .outOfSteps := by
  refine ⟨define_mirror, mirror_loopless, fun steps => ?_⟩
  have found : Eval.loadClass mirrorClass.name { machine := mirror } = (.ok mirrorClass, { machine := mirror }) := by
    unfold Eval.loadClass onMachine
    rw [load_settled (.inl rfl)]
    rfl
  have run : ((Eval.loadClass mirrorClass.name >>= fun c => constructWithin steps c [] 0) { machine := mirror }).1 =
      .error .outOfSteps := by
    rw [Eval.bind_ok found]
    exact construct_mirror steps rfl
  exact run

end Machine

end AspectProxy
