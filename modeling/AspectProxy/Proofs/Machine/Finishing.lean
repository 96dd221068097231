import AspectProxy.Proofs.ClassTable.Chains
import AspectProxy.Proofs.Machine.Locals
import AspectProxy.Proofs.Machine.Objects
import AspectProxy.Tree.References
import Mathlib.Logic.Relation

/-!
Code without loops that always ends. What a statement or expression runs is bounded by its own form, so running out of
steps is left to the calls it makes; if all these end, so does the code. The classes that code can reach are those of
the table and their ancestors, as long as nothing has to be loaded.
-/

namespace AspectProxy

open Eval

mutual

/-- Whether a statement holds no `while`. -/
def Statement.LoopFree : Statement → Prop
  | .cond _ thenBranch none => Statement.LoopFreeIn thenBranch
  | .cond _ thenBranch (some elseBranch) => Statement.LoopFreeIn thenBranch ∧ Statement.LoopFreeIn elseBranch
  | .while .. => False
  | .for _ _ body => Statement.LoopFreeIn body
  | _ => True

def Statement.LoopFreeIn : Block → Prop
  | [] => True
  | s :: rest => s.LoopFree ∧ Statement.LoopFreeIn rest

end

namespace LoadedClass

/-- The class references in the code of a class. -/
def references (c : LoadedClass) : List Reference :=
  (c.own.methods.flatMap Method.nodes ++ c.own.properties.flatMap fun p => Expr.defaultNodes p.default).filterMap
    Node.reference?

end LoadedClass

namespace Machine

/-- The classes of the table and their ancestors. -/
def known (m : Machine) : List LoadedClass :=
  m.classes.flatMap LoadedClass.lineage

theorem known_of_lineage {m : Machine} {a c : LoadedClass} (hc : c ∈ m.known) (ha : a ∈ c.lineage) : a ∈ m.known := by
  obtain ⟨d, hd, within⟩ := List.mem_flatMap.mp hc
  rw [LoadedClass.mem_lineage] at ha within
  exact List.mem_flatMap.mpr ⟨d, hd, LoadedClass.mem_lineage.mpr (ha.trans within)⟩

theorem known_of_class? {m : Machine} {c : LoadedClass} {name : ClassName} (found : m.class? name = some c) :
    c ∈ m.known :=
  List.mem_flatMap.mpr ⟨c, List.mem_of_find?_eq_some found, LoadedClass.mem_lineage.mpr List.suffix_rfl⟩

/-- Whether all objects in a value are of classes that a machine knows. -/
def Knows (m : Machine) (v : Value) : Prop :=
  v.Objects (· ∈ m.known)

/-- The class that a reference in the code of a class means among those of the table. -/
def target? (m : Machine) (owner : LoadedClass) (reference : String) : Option LoadedClass :=
  if reference = selfClass then some owner
  else
    match ClassName.parse (owner.own.scope.resolve reference) with
    | .ok name => m.class? name
    | .error _ => none

/-- Whether no unit is loaded for a class. -/
def Settled (m : Machine) (name : ClassName) : Prop :=
  m.units = none ∨ m.isDefined name

/-- Whether no unit is loaded for a reference in the code of a class. -/
def SettledIn (m : Machine) (owner : LoadedClass) (r : Reference) : Prop :=
  r.kind ∈ [.create, .staticCall] → r.name ≠ selfClass →
    ∀ name, ClassName.parse (owner.own.scope.resolve r.name) = .ok name → m.Settled name

theorem load_settled {m : Machine} {name : ClassName} (settled : m.Settled name) :
    load name m =
      ((m.class? name).elim (.error (.missing (.notDefined name.text))) .ok, m) := by
  unfold load loadBound
  cases found : m.class? name with
  | some c => cases m.units <;> simp [loadWithin, found]
  | none =>
    have units : m.units = none := by
      refine settled.resolve_right ?_
      simp [isDefined, found]
    simp [units, loadWithin, found]

/-- Whether code of a class may refer to a class, where it may make only some objects. -/
def Fits (m : Machine) (owner : LoadedClass) (allowed : LoadedClass → Prop) (r : Reference) : Prop :=
  m.SettledIn owner r ∧ (r.kind = .create → ∀ c ∈ m.target? owner r.name, allowed c)

end Machine

/-- A store of a machine with the classes and limits of another, where all objects are of classes it knows. -/
structure Store.Within (base : Machine) (s : Store) : Prop where
  classes : s.machine.classes = base.classes
  units : s.machine.units = base.units
  maxDepth : s.machine.maxDepth = base.maxDepth
  objects : s.machine.Objects (· ∈ base.known)
  locals : ∀ e ∈ s.locals, base.Knows e.2

/-- What a run that is not out of steps gives. -/
def Ended (Q : α → Prop) : Except Stop α → Prop
  | .ok a => Q a
  | .error .outOfSteps => False
  | .error (.failed _) => True

/-- Code that ends with the classes as they are, giving what meets a condition. -/
def Eval.Finishes (base : Machine) (Q : α → Prop) (x : Eval α) : Prop :=
  ∀ s, s.Within base → (x s).2.Within base ∧ Ended Q (x s).1

section Pieces

variable {base : Machine}

namespace Eval.Finishes

theorem pure {Q : α → Prop} {a : α} (h : Q a) : Finishes base Q (Pure.pure a) :=
  fun _ within => ⟨within, h⟩

theorem fail {Q : α → Prop} (e : EvalError) : Finishes base Q (Eval.fail e : Eval α) :=
  fun _ within => ⟨within, trivial⟩

theorem ofExcept {Q : α → Prop} {r : Except EvalError α} (h : ∀ a, r = .ok a → Q a) :
    Finishes base Q (Eval.ofExcept r) := by
  intro s within
  refine ⟨within, ?_⟩
  cases r with
  | error e => trivial
  | ok a => exact h a rfl

theorem imp {Q Q' : α → Prop} {x : Eval α} (h : Finishes base Q x) (weaker : ∀ a, Q a → Q' a) :
    Finishes base Q' x := by
  intro s within
  obtain ⟨after, ended⟩ := h s within
  refine ⟨after, ?_⟩
  rcases ran : (x s).1 with e | a <;> rw [ran] at ended
  · cases e <;> exact ended
  · exact weaker a ended

theorem bind {Q : α → Prop} {Q' : β → Prop} {x : Eval α} {f : α → Eval β} (first : Finishes base Q x)
    (rest : ∀ a, Q a → Finishes base Q' (f a)) : Finishes base Q' (x >>= f) := by
  intro s within
  obtain ⟨after, ended⟩ := first s within
  rw [bind_run]
  rcases ran : x s with ⟨_ | a, t⟩ <;> simp only [ran] at after ended ⊢
  · rename_i e
    cases e with
    | outOfSteps => exact ended.elim
    | failed e => exact ⟨after, trivial⟩
  · exact rest a ended t after

/-- Code that goes on from what the machine holds. -/
theorem getMachine_bind {Q : α → Prop} {f : Machine → Eval α}
    (rest : ∀ m, m.maxDepth = base.maxDepth → m.Objects (· ∈ base.known) → Finishes base Q (f m)) :
    Finishes base Q (getMachine >>= f) := by
  intro s within
  rw [bind_ok (x := getMachine) rfl]
  exact rest s.machine within.maxDepth within.objects s within

theorem getLocal (name : String) : Finishes base base.Knows (Eval.getLocal name) := by
  intro s within
  unfold Eval.getLocal
  split
  next found => exact ⟨within, of_getEntry (P := base.Knows) within.locals found⟩
  next => exact ⟨within, trivial⟩

theorem setLocal (name : String) {v : Value} (hv : base.Knows v) :
    Finishes base (fun _ => True) (Eval.setLocal name v) :=
  fun _ within => ⟨{ within with locals := forall_mem_setEntry within.locals hv }, trivial⟩

theorem withLocals {Q : α → Prop} {x : Eval α} (h : Finishes base Q x) : Finishes base Q (Eval.withLocals x) := by
  intro s within
  obtain ⟨after, ended⟩ := h { s with locals := [] } { within with locals := nofun }
  exact ⟨{ after with locals := within.locals }, ended⟩

theorem alloc {c : LoadedClass} (known : c ∈ base.known) :
    Finishes base (fun o => o.type ∈ base.known) (Eval.alloc c) :=
  fun _ within => ⟨{ within with objects := within.objects.alloc c }, known⟩

theorem setField (o : ObjectRef) (field : String) {v : Value} (hv : base.Knows v) :
    Finishes base (fun _ => True) (Eval.setField o field v) :=
  fun _ within => ⟨{ within with objects := within.objects.set o field hv }, trivial⟩

theorem loadClass {name : ClassName} (settled : base.Settled name) :
    Finishes base (fun c => base.class? name = some c) (Eval.loadClass name) := by
  intro s within
  have same : s.machine.class? = base.class? := by
    unfold Machine.class?
    rw [within.classes]
  have there : s.machine.Settled name := by
    unfold Machine.Settled Machine.isDefined
    rw [within.units, same]
    exact settled
  unfold Eval.loadClass onMachine
  rw [Machine.load_settled there, same]
  refine ⟨within, ?_⟩
  cases base.class? name with
  | none => trivial
  | some c => rfl

end Eval.Finishes

theorem advise_finishes (kind : AdviceKind) {context result : Value} (hc : base.Knows context)
    (hr : base.Knows result) : Finishes base base.Knows (advise kind context result) := by
  refine .bind (.ofExcept fun point h => JoinPoint.objects_ofContext hc h) fun point args => ?_
  refine .getMachine_bind fun m _ objects => ?_
  cases kind with
  | before =>
    have table := objects.advice.runBefore point
    refine .bind (Q := fun _ => True)
      (fun _ within => ⟨{ within with objects := ⟨within.objects.heap, table⟩ }, trivial⟩) fun _ _ => ?_
    split
    · exact .pure trivial
    · exact .fail _
  | after =>
    obtain ⟨table, held⟩ := objects.advice.runAfter args hr
    refine .bind (Q := fun _ => True)
      (fun _ within => ⟨{ within with objects := ⟨within.objects.heap, table⟩ }, trivial⟩) fun _ _ => ?_
    split
    next v given => exact .pure (held v given)
    next => exact .fail _

theorem callFunction_finishes (name : String) {args : List Value} (known : ∀ v ∈ args, base.Knows v) :
    Finishes base base.Knows (callFunction name args) := by
  unfold callFunction
  split
  · simp only [List.forall_mem_cons] at known
    exact .bind (Q := fun _ => True) (.ofExcept fun _ _ => trivial) fun kind _ =>
      advise_finishes kind known.2.1 known.2.2.1
  · exact .bind (Q := fun _ => True) (.ofExcept fun _ _ => trivial) fun _ _ => .pure trivial
  · exact .pure trivial
  · exact .bind (Q := fun _ => True)
      (fun _ within => ⟨{ within with objects := ⟨within.objects.heap, within.objects.advice⟩ }, trivial⟩)
      fun _ _ => .pure trivial
  · refine .ofExcept fun v h => ?_
    unfold classOf at h
    split at h <;> cases h
    trivial
  · exact .pure trivial
  · refine .ofExcept fun v h => ?_
    unfold keysOf at h
    split at h <;> cases h
    refine Value.objects_list.mpr fun w hw => ?_
    obtain ⟨_, -, rfl⟩ := List.mem_map.mp hw
    trivial
  · split
    · exact .fail _
    · split <;> exact .fail _

theorem readProperty_finishes (name : String) {v : Value} (known : base.Knows v) :
    Finishes base base.Knows (readProperty name v) := by
  unfold readProperty
  split
  · refine .getMachine_bind fun m _ objects => ?_
    split
    next found => exact .pure (objects.get? found)
    next => exact .fail _
  next entries =>
    refine .pure ?_
    cases found : getEntry name entries with
    | none => trivial
    | some v => exact of_getEntry (P := base.Knows) (Value.objects_map.mp known) found
  · exact .fail _

theorem resolveClass_finishes {frame : Frame} {r : Reference} (owner : frame.owner ∈ base.known)
    (kind : r.kind ∈ [.create, .staticCall]) (settled : base.SettledIn frame.owner r) :
    Finishes base (fun c => c ∈ base.known ∧ base.target? frame.owner r.name = some c)
      (resolveClass frame r.name) := by
  unfold resolveClass Machine.target?
  by_cases self : r.name = selfClass
  · simp only [if_pos self]
    exact .pure ⟨owner, rfl⟩
  · simp only [if_neg self]
    cases parsed : ClassName.parse (frame.owner.own.scope.resolve r.name) with
    | error e => exact .fail _
    | ok name =>
      exact .imp (.loadClass (settled kind self name parsed)) fun c found => ⟨Machine.known_of_class? found, found⟩

theorem findMethod_known {c owner : LoadedClass} (known : c ∈ base.known) {name : String} {m : Method}
    (found : findMethod c name = .ok (owner, m)) : owner ∈ base.known ∧ m ∈ owner.own.methods := by
  unfold findMethod at found
  split at found
  next h =>
    cases found
    obtain ⟨within, own, -⟩ := LoadedClass.mem_lineage_of_findMethod h
    exact ⟨Machine.known_of_lineage known within, own⟩
  next => cases found

end Pieces

/-- Calls that end, and with them the making of objects of classes that meet a condition. -/
structure Calls.Finish (base : Machine) (depth : Nat) (allowed : LoadedClass → Prop) (calls : Calls) : Prop where
  invoke : ∀ owner ∈ base.known, ∀ m ∈ owner.own.methods, ∀ this : Option ObjectRef,
    (∀ o ∈ this, o.type ∈ base.known) → ∀ args : List Value, (∀ v ∈ args, base.Knows v) →
      Finishes base base.Knows (calls.invoke owner m this args depth)
  construct : ∀ c ∈ base.known, allowed c → ∀ args : List Value, (∀ v ∈ args, base.Knows v) →
      Finishes base base.Knows (calls.construct c args depth)

/-- A frame of a known class, and of an object of one, whose calls end. -/
structure Frame.Ready (base : Machine) (allowed : LoadedClass → Prop) (calls : Calls) (frame : Frame) : Prop where
  owner : frame.owner ∈ base.known
  this : ∀ o ∈ frame.this, o.type ∈ base.known
  calls : calls.Finish base frame.depth allowed

section Code

variable {base : Machine} {allowed : LoadedClass → Prop} {calls : Calls} {frame : Frame}

theorem thisObject_finishes (ready : frame.Ready base allowed calls) :
    Finishes base (fun o => o.type ∈ base.known) (ofExcept (thisObject frame)) := by
  refine .ofExcept fun o h => ready.this o ?_
  unfold thisObject at h
  split at h
  next this =>
    cases h
    exact this
  next => cases h

mutual

theorem Expr.eval_finishes (ready : frame.Ready base allowed calls) : ∀ e : Expr,
    (∀ r ∈ e.references, base.Fits frame.owner allowed r) → Finishes base base.Knows (e.eval calls frame)
  | .int _, _ | .float _, _ | .str _, _ | .bool _, _ | .null, _ => .pure trivial
  | .var name, _ => .getLocal name
  | .self, _ => .bind (thisObject_finishes ready) fun _ type => .pure type
  | .list items, fits =>
    .bind (Expr.evalList_finishes ready items fits) fun _ held => .pure (Value.objects_list.mpr held)
  | .map entries, fits =>
    .bind (Expr.evalEntries_finishes ready entries fits) fun _ held =>
      .pure (Value.objects_map.mpr (forall_mem_entriesOf held))
  | .binary op left right, fits => by
    have hr := right.eval_finishes ready fun r hr => fits r (List.mem_append_right _ hr)
    refine .bind (left.eval_finishes ready fun r hr => fits r (List.mem_append_left _ hr)) fun l hl => ?_
    split
    · split
      · exact .bind hr fun _ _ => .pure trivial
      · exact .pure trivial
    · split
      · exact .pure trivial
      · exact .bind hr fun _ _ => .pure trivial
    · exact .bind hr fun r held => .ofExcept fun v h => Value.objects_binary hl held h
  | .unary _ operand, fits =>
    .bind (operand.eval_finishes ready fits) fun _ _ => .ofExcept fun _ h => Value.objects_unary h
  | .property object name, fits =>
    .bind (object.eval_finishes ready fits) fun _ held => readProperty_finishes name held
  | .index object key, fits =>
    .bind (object.eval_finishes ready fun r hr => fits r (List.mem_append_left _ hr)) fun _ held =>
      .bind (key.eval_finishes ready fun r hr => fits r (List.mem_append_right _ hr)) fun _ _ =>
        .ofExcept fun _ h => Value.objects_index held h
  | .call object method args, fits => by
    refine .bind (object.eval_finishes ready fun r hr => fits r (List.mem_append_left _ hr)) fun target held => ?_
    refine .bind (Expr.evalList_finishes ready args fun r hr => fits r (List.mem_append_right _ hr)) fun args hargs => ?_
    refine .bind (Q := fun o => o.type ∈ base.known) (.ofExcept fun o h => ?_) fun o type => ?_
    · cases target <;> cases h
      exact held
    refine .bind (Q := fun found => found.1 ∈ base.known ∧ found.2 ∈ found.1.own.methods)
      (.ofExcept fun found h => findMethod_known type h) fun found there => ?_
    refine ready.calls.invoke _ there.1 _ there.2 _ ?_ _ hargs
    rintro _ ⟨⟩
    exact type
  | .superCall method args, fits => by
    refine .bind (thisObject_finishes ready) fun o type => ?_
    refine .bind (Q := fun p => p ∈ base.known) (.ofExcept fun p h => ?_) fun p above => ?_
    · unfold parentClass at h
      split at h
      next parent =>
        cases h
        exact Machine.known_of_lineage ready.owner (LoadedClass.parent?_mem_lineage parent)
      next => cases h
    refine .bind (Q := fun found => found.1 ∈ base.known ∧ found.2 ∈ found.1.own.methods)
      (.ofExcept fun found h => findMethod_known above h) fun found there => ?_
    refine .bind (Expr.evalList_finishes ready args fits) fun args hargs => ?_
    refine ready.calls.invoke _ there.1 _ there.2 _ ?_ _ hargs
    rintro _ ⟨⟩
    exact type
  | .staticCall className method args, fits => by
    have hargs := Expr.evalList_finishes ready args fun r hr => fits r (List.mem_cons_of_mem _ hr)
    have settled := (fits ⟨.staticCall, className⟩ List.mem_cons_self).1
    refine .bind (resolveClass_finishes ready.owner (by simp) settled) fun c found => ?_
    refine .bind (Q := fun found => found.1 ∈ base.known ∧ found.2 ∈ found.1.own.methods)
      (.ofExcept fun _ h => findMethod_known found.1 h) fun _ there => ?_
    dsimp only
    split
    · exact .bind hargs fun args hargs => ready.calls.invoke _ there.1 _ there.2 _ (by rintro _ ⟨⟩) _ hargs
    · exact .fail _
  | .functionCall name args, fits =>
    .bind (Expr.evalList_finishes ready args fits) fun _ held => callFunction_finishes name held
  | .create className args, fits => by
    obtain ⟨settled, mayMake⟩ := fits ⟨.create, className⟩ List.mem_cons_self
    refine .bind (resolveClass_finishes ready.owner (by simp) settled) fun c found => ?_
    refine .bind (Expr.evalList_finishes ready args fun r hr => fits r (List.mem_cons_of_mem _ hr)) fun args hargs => ?_
    exact ready.calls.construct c found.1 (mayMake rfl c found.2) args hargs

theorem Expr.evalList_finishes (ready : frame.Ready base allowed calls) : ∀ es : List Expr,
    (∀ r ∈ Expr.listReferences es, base.Fits frame.owner allowed r) →
      Finishes base (fun vs => ∀ v ∈ vs, base.Knows v) (Expr.evalList calls frame es)
  | [], _ => .pure nofun
  | e :: es, fits =>
    .bind (e.eval_finishes ready fun r hr => fits r (List.mem_append_left _ hr)) fun _ hv =>
      .bind (Expr.evalList_finishes ready es fun r hr => fits r (List.mem_append_right _ hr)) fun _ hvs =>
        .pure (List.forall_mem_cons.mpr ⟨hv, hvs⟩)

theorem Expr.evalEntries_finishes (ready : frame.Ready base allowed calls) : ∀ es : List (String × Expr),
    (∀ r ∈ Expr.entryReferences es, base.Fits frame.owner allowed r) →
      Finishes base (fun entries => ∀ e ∈ entries, base.Knows e.2) (Expr.evalEntries calls frame es)
  | [], _ => .pure nofun
  | (_, e) :: es, fits =>
    .bind (e.eval_finishes ready fun r hr => fits r (List.mem_append_left _ hr)) fun _ hv =>
      .bind (Expr.evalEntries_finishes ready es fun r hr => fits r (List.mem_append_right _ hr)) fun _ hes =>
        .pure (List.forall_mem_cons.mpr ⟨hv, hes⟩)

end

theorem Expr.assign_finishes (ready : frame.Ready base allowed calls) : ∀ e : Expr,
    (∀ r ∈ e.references, base.Fits frame.owner allowed r) → ∀ v : Value, base.Knows v →
      Finishes base (fun _ => True) (e.assign calls frame v)
  | .var name, _, _, hv => .bind (.getLocal name) fun _ _ => .setLocal name hv
  | .property object name, fits, v, hv => by
    refine .bind (object.eval_finishes ready fits) fun target held => ?_
    cases target with
    | object o => exact .setField o name hv
    | map entries =>
      have updated : ∀ e ∈ setEntry name v entries, base.Knows e.2 := forall_mem_setEntry (Value.objects_map.mp held) hv
      exact object.assign_finishes ready fits _ (Value.objects_map.mpr updated)
    | _ => exact .fail _
  | .index object key, fits, v, hv => by
    have there : ∀ r ∈ object.references, base.Fits frame.owner allowed r :=
      fun r hr => fits r (List.mem_append_left _ hr)
    refine .bind (key.eval_finishes ready fun r hr => fits r (List.mem_append_right _ hr)) fun k _ => ?_
    refine .bind (object.eval_finishes ready there) fun container held => ?_
    exact .bind (.ofExcept fun updated h => Value.objects_setIndex held hv h) fun updated hu =>
      object.assign_finishes ready there updated hu
  | .int _, _, _, _ | .float _, _, _, _ | .str _, _, _, _ | .bool _, _, _, _ | .null, _, _, _ | .self, _, _, _
  | .list _, _, _, _ | .map _, _, _, _ | .binary .., _, _, _ | .unary .., _, _, _ | .call .., _, _, _
  | .superCall .., _, _, _ | .staticCall .., _, _, _ | .functionCall .., _, _, _ | .create .., _, _, _ => .fail _

theorem Expr.mem_nodes {e : Expr} {r : Reference} : .reference r ∈ e.nodes ↔ r ∈ e.references := by
  simp [Expr.nodes]

/-- What a loop or a statement gives when it goes on: a value that is returned is known. -/
def Flow.Known (base : Machine) : Flow → Prop
  | .return v => base.Knows v
  | _ => True

theorem forLoop_finishes (name : String) {body : Eval Flow} (hb : Finishes base (Flow.Known base) body) :
    ∀ vs : List Value, (∀ v ∈ vs, base.Knows v) → Finishes base (Flow.Known base) (forLoop name body vs)
  | [], _ => .pure trivial
  | v :: vs, held => by
    obtain ⟨hv, others⟩ := List.forall_mem_cons.mp held
    refine .bind (.setLocal name hv) fun _ _ => .bind hb fun flow known => ?_
    cases flow with
    | «break» => exact .pure trivial
    | «return» v => exact .pure known
    | next | «continue» => exact forLoop_finishes name hb vs others

theorem Expr.eval_finishes_of_nodes (ready : frame.Ready base allowed calls) (e : Expr)
    (fits : ∀ r, .reference r ∈ e.nodes → base.Fits frame.owner allowed r) :
    Finishes base base.Knows (e.eval calls frame) :=
  e.eval_finishes ready fun r hr => fits r (Expr.mem_nodes.mpr hr)

theorem Target.assign_finishes (ready : frame.Ready base allowed calls) (target : Target)
    (fits : ∀ r, .reference r ∈ target.nodes → base.Fits frame.owner allowed r) {v : Value} (hv : base.Knows v) :
    Finishes base (fun _ => True) (target.toExpr.assign calls frame v) := by
  refine target.toExpr.assign_finishes ready (fun r hr => fits r ?_) v hv
  cases target with
  | var name => cases hr
  | property object name => exact Expr.mem_nodes.mpr hr
  | index object key =>
    exact List.mem_append.mpr ((List.mem_append.mp hr).imp Expr.mem_nodes.mpr Expr.mem_nodes.mpr)

variable (steps : Nat)

mutual

theorem Statement.run_finishes (ready : frame.Ready base allowed calls) : ∀ s : Statement, s.LoopFree →
    (∀ r, .reference r ∈ s.nodes → base.Fits frame.owner allowed r) →
      Finishes base (Flow.Known base) (s.run calls frame steps)
  | .declare name _ value, _, fits =>
    .bind (value.eval_finishes_of_nodes ready fun r hr => fits r (List.mem_append_right _ hr)) fun _ hv =>
      .bind (.setLocal name hv) fun _ _ => .pure trivial
  | .assign target value, _, fits =>
    .bind (value.eval_finishes_of_nodes ready fun r hr => fits r (List.mem_append_right _ hr)) fun _ hv =>
      .bind (target.assign_finishes ready (fun r hr => fits r (List.mem_append_left _ hr)) hv) fun _ _ => .pure trivial
  | .expr e, _, fits => .bind (e.eval_finishes_of_nodes ready fits) fun _ _ => .pure trivial
  | .return none, _, _ => .pure trivial
  | .return (some e), _, fits =>
    .bind (e.eval_finishes_of_nodes ready fun r hr => fits r (by simpa [Statement.nodes, Expr.defaultNodes] using hr))
      fun _ hv => .pure hv
  | .cond condition thenBranch none, free, fits => by
    have ht := Statement.runBlock_finishes ready thenBranch free fun r hr => fits r (by simp [Statement.nodes, hr])
    refine .bind (condition.eval_finishes_of_nodes ready fun r hr => fits r (by simp [Statement.nodes, hr]))
      fun _ _ => ?_
    split
    · exact ht
    · exact .pure trivial
  | .cond condition thenBranch (some elseBranch), free, fits => by
    have ht := Statement.runBlock_finishes ready thenBranch free.1 fun r hr => fits r (by simp [Statement.nodes, hr])
    have he := Statement.runBlock_finishes ready elseBranch free.2 fun r hr => fits r (by simp [Statement.nodes, hr])
    refine .bind (condition.eval_finishes_of_nodes ready fun r hr => fits r (by simp [Statement.nodes, hr]))
      fun _ _ => ?_
    split
    · exact ht
    · exact he
  | .while _ _, free, _ => free.elim
  | .for name iterable body, free, fits => by
    have hb := Statement.runBlock_finishes ready body free fun r hr => fits r (by simp [Statement.nodes, hr])
    refine .bind (iterable.eval_finishes_of_nodes ready fun r hr => fits r (by simp [Statement.nodes, hr]))
      fun _ held => ?_
    exact .bind (.ofExcept fun items h => Value.objects_iterated held h) fun items hitems =>
      forLoop_finishes name hb items hitems
  | .break, _, _ | .continue, _, _ => .pure trivial

theorem Statement.runBlock_finishes (ready : frame.Ready base allowed calls) : ∀ b : Block, Statement.LoopFreeIn b →
    (∀ r, .reference r ∈ Statement.listNodes b → base.Fits frame.owner allowed r) →
      Finishes base (Flow.Known base) (Statement.runBlock calls frame steps b)
  | [], _, _ => .pure trivial
  | s :: rest, free, fits => by
    have hr := Statement.runBlock_finishes ready rest free.2 fun r hr => fits r (List.mem_append_right _ hr)
    refine .bind (s.run_finishes ready free.1 fun r hr => fits r (List.mem_append_left _ hr)) fun flow known => ?_
    cases flow with
    | next => exact hr
    | «return» v => exact .pure known
    | «break» | «continue» => exact .pure trivial

end

theorem bindParameters_finishes (ready : frame.Ready base allowed calls) : ∀ (ps : List Parameter),
    (∀ r, .reference r ∈ ps.flatMap Parameter.nodes → base.Fits frame.owner allowed r) →
      ∀ args : List Value, (∀ v ∈ args, base.Knows v) →
        Finishes base (fun _ => True) (bindParameters calls frame ps args)
  | [], _, _, _ => .pure trivial
  | p :: ps, fits, v :: vs, held => by
    obtain ⟨hv, others⟩ := List.forall_mem_cons.mp held
    have rest := bindParameters_finishes ready ps (fun r hr => fits r (List.mem_append_right _ hr)) vs others
    exact .bind (.setLocal p.name hv) fun _ _ => rest
  | p :: ps, fits, [], held => by
    have others := bindParameters_finishes ready ps (fun r hr => fits r (List.mem_append_right _ hr)) [] held
    have rest : ∀ v, base.Knows v →
        Finishes base (fun _ => True) (do setLocal p.name v; bindParameters calls frame ps []) :=
      fun v hv => .bind (.setLocal p.name hv) fun _ _ => others
    have own : ∀ r, .reference r ∈ p.nodes → base.Fits frame.owner allowed r :=
      fun r hr => fits r (List.mem_append_left _ hr)
    rw [bindParameters]
    cases default : p.default with
    | none => exact .bind (.pure trivial) rest
    | some e =>
      refine .bind (e.eval_finishes_of_nodes ready fun r hr => own r ?_) rest
      simp [Parameter.nodes, Expr.defaultNodes, default, hr]

theorem setProperties_finishes (ready : frame.Ready base allowed calls) (o : ObjectRef) : ∀ ps : List Property,
    (∀ r, .reference r ∈ ps.flatMap (fun p => Expr.defaultNodes p.default) → base.Fits frame.owner allowed r) →
      Finishes base (fun _ => True) (setProperties calls frame o ps)
  | [], _ => .pure trivial
  | p :: ps, fits => by
    have others := setProperties_finishes ready o ps fun r hr => fits r (List.mem_append_right _ hr)
    have rest : ∀ v, base.Knows v →
        Finishes base (fun _ => True) (do setField o p.name v; setProperties calls frame o ps) :=
      fun v hv => .bind (.setField o p.name hv) fun _ _ => others
    have own : ∀ r, .reference r ∈ Expr.defaultNodes p.default → base.Fits frame.owner allowed r :=
      fun r hr => fits r (List.mem_append_left _ hr)
    rw [setProperties]
    cases default : p.default with
    | none => exact .bind (.pure trivial) rest
    | some e =>
      refine .bind (e.eval_finishes_of_nodes ready fun r hr => own r ?_) rest
      simp [Expr.defaultNodes, default, hr]

theorem Method.runBody_finishes (ready : frame.Ready base allowed calls) (m : Method) (free : Statement.LoopFreeIn m.body)
    (fits : ∀ r, .reference r ∈ m.nodes → base.Fits frame.owner allowed r) (args : List Value)
    (held : ∀ v ∈ args, base.Knows v) : Finishes base base.Knows (m.runBody calls frame steps args) := by
  refine .bind (bindParameters_finishes ready m.parameters (fun r hr => fits r ?_) args held) fun _ _ => ?_
  · simp only [Method.nodes, List.mem_append, List.mem_cons]
    exact .inl (.inl (.inr (.inr hr)))
  refine .bind (Statement.runBlock_finishes steps ready m.body free fun r hr => fits r ?_) fun flow known => ?_
  · simp only [Method.nodes, List.mem_append, List.mem_cons]
    exact .inr (.inr hr)
  refine .ofExcept fun v h => ?_
  cases flow with
  | next =>
    cases h
    trivial
  | «return» v =>
    cases h
    exact known
  | «break» | «continue» => cases h

end Code

end AspectProxy
