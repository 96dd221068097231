import AspectProxy.Proofs.Machine.Locals

/-!
What runs do to a machine. A relation between machines that every single step of a program keeps is kept by whole
runs, whether they end in a value, fail or are out of steps.
-/

namespace AspectProxy

/-- A relation between the machines before and after, true of each step that programs are made of. -/
class StepRelation (R : Machine → Machine → Prop) : Prop where
  refl : ∀ m, R m m
  trans : ∀ {a b c}, R a b → R b c → R a c
  load : ∀ (name : ClassName) (m : Machine), R m (Machine.load name m).2
  write : ∀ (line : String) (m : Machine), R m (m.write line)
  alloc : ∀ (c : LoadedClass) (m : Machine), R m { m with heap := (m.heap.alloc c).2 }
  set : ∀ (o : ObjectRef) (field : String) (v : Value) (m : Machine), R m { m with heap := m.heap.set o field v }
  before : ∀ (p : JoinPoint) (m : Machine), R m { m with advice := (m.advice.runBefore p).2 }
  after : ∀ (p : JoinPoint) (v : Value) (m : Machine), R m { m with advice := (m.advice.runAfter p v).2 }

namespace Eval

/-- Code every run of which keeps a relation. -/
def Keeps (R : Machine → Machine → Prop) (code : Eval α) : Prop :=
  ∀ s, R s.machine (code s).2.machine

end Eval

open Eval

section Pieces

variable {R : Machine → Machine → Prop} [step : StepRelation R]

namespace Eval.Keeps

theorem pure (a : α) : Keeps R (Pure.pure a : Eval α) :=
  fun s => step.refl s.machine

theorem throw (e : Stop) : Keeps R (MonadExcept.throw e : Eval α) :=
  fun s => step.refl s.machine

theorem fail (e : EvalError) : Keeps R (Eval.fail e : Eval α) :=
  fun s => step.refl s.machine

theorem ofExcept (r : Except EvalError α) : Keeps R (Eval.ofExcept r) :=
  fun s => step.refl s.machine

theorem getMachine : Keeps R Eval.getMachine :=
  fun s => step.refl s.machine

theorem bind {x : Eval α} {f : α → Eval β} (first : Keeps R x) (rest : ∀ a, Keeps R (f a)) : Keeps R (x >>= f) := by
  intro s
  have hx := first s
  rw [bind_run]
  rcases hr : x s with ⟨_ | a, t⟩ <;> simp only [hr] at hx ⊢
  · exact hx
  · exact step.trans hx (rest a t)

theorem getLocal (name : String) : Keeps R (Eval.getLocal name) := by
  intro s
  unfold Eval.getLocal
  split <;> exact step.refl _

theorem setLocal (name : String) (v : Value) : Keeps R (Eval.setLocal name v) :=
  fun s => step.refl s.machine

omit step in
theorem withLocals {code : Eval α} (h : Keeps R code) : Keeps R (Eval.withLocals code) :=
  fun s => h { s with locals := [] }

theorem alloc (c : LoadedClass) : Keeps R (Eval.alloc c) :=
  fun s => step.alloc c s.machine

theorem setField (o : ObjectRef) (field : String) (v : Value) : Keeps R (Eval.setField o field v) :=
  fun s => step.set o field v s.machine

theorem loadClass (name : ClassName) : Keeps R (Eval.loadClass name) :=
  fun s => step.load name s.machine

end Eval.Keeps

theorem advise_keeps (kind : AdviceKind) (context result : Value) : Keeps R (advise kind context result) := by
  refine .bind (.ofExcept _) fun point s => ?_
  rw [bind_run]
  cases kind with
  | before =>
    have h := step.before point s.machine
    simp only [getMachine, modifyMachine, bind_run]
    rcases (s.machine.advice.runBefore point).1 <;> exact h
  | after =>
    have h := step.after point result s.machine
    simp only [getMachine, modifyMachine, bind_run]
    rcases (s.machine.advice.runAfter point result).1 <;> exact h

theorem callFunction_keeps (name : String) (args : List Value) : Keeps R (callFunction name args) := by
  unfold callFunction
  split
  · exact .bind (.ofExcept _) fun _ => advise_keeps _ _ _
  · exact .bind (.ofExcept _) fun _ => .pure _
  · exact .pure _
  · exact .bind (fun s => step.write _ s.machine) fun _ => .pure _
  · exact .ofExcept _
  · exact .pure _
  · exact .ofExcept _
  · split
    · exact .fail _
    · split <;> exact .fail _

theorem resolveClass_keeps (frame : Frame) (reference : String) : Keeps R (resolveClass frame reference) := by
  unfold resolveClass
  split
  · exact .pure _
  · dsimp only
    split
    · exact .loadClass _
    · exact .fail _

theorem readProperty_keeps (name : String) (v : Value) : Keeps R (readProperty name v) := by
  unfold readProperty
  split
  · refine .bind .getMachine fun _ => ?_
    split
    · exact .pure _
    · exact .fail _
  · exact .pure _
  · exact .fail _

end Pieces

/-- Calls every run of which keeps a relation. -/
structure Calls.Keep (R : Machine → Machine → Prop) (calls : Calls) : Prop where
  invoke : ∀ owner m this args depth, Keeps R (calls.invoke owner m this args depth)
  construct : ∀ c args depth, Keeps R (calls.construct c args depth)

section Code

variable {R : Machine → Machine → Prop} [StepRelation R] {calls : Calls} (frame : Frame)

mutual

theorem Expr.eval_keeps (kept : calls.Keep R) : ∀ e : Expr, Keeps R (e.eval calls frame)
  | .int _ | .float _ | .str _ | .bool _ | .null => .pure _
  | .var name => .getLocal name
  | .self => .bind (.ofExcept _) fun _ => .pure _
  | .list items => .bind (Expr.evalList_keeps kept items) fun _ => .pure _
  | .map entries => .bind (Expr.evalEntries_keeps kept entries) fun _ => .pure _
  | .binary op left right => by
    have hr := right.eval_keeps kept
    refine .bind (left.eval_keeps kept) fun l => ?_
    split
    · split
      · exact .bind hr fun _ => .pure _
      · exact .pure _
    · split
      · exact .pure _
      · exact .bind hr fun _ => .pure _
    · exact .bind hr fun _ => .ofExcept _
  | .unary _ operand => .bind (operand.eval_keeps kept) fun _ => .ofExcept _
  | .property object name => .bind (object.eval_keeps kept) fun _ => readProperty_keeps name _
  | .index object key => .bind (object.eval_keeps kept) fun _ => .bind (key.eval_keeps kept) fun _ => .ofExcept _
  | .call object _ args =>
    .bind (object.eval_keeps kept) fun _ => .bind (Expr.evalList_keeps kept args) fun _ =>
      .bind (.ofExcept _) fun _ => .bind (.ofExcept _) fun _ => kept.invoke _ _ _ _ _
  | .superCall _ args =>
    .bind (.ofExcept _) fun _ => .bind (.ofExcept _) fun _ => .bind (.ofExcept _) fun _ =>
      .bind (Expr.evalList_keeps kept args) fun _ => kept.invoke _ _ _ _ _
  | .staticCall className _ args => by
    have ha := Expr.evalList_keeps kept args
    refine .bind (resolveClass_keeps frame className) fun _ => .bind (.ofExcept _) fun found => ?_
    dsimp only
    split
    · exact .bind ha fun _ => kept.invoke _ _ _ _ _
    · exact .fail _
  | .functionCall name args => .bind (Expr.evalList_keeps kept args) fun _ => callFunction_keeps name _
  | .create className args =>
    .bind (resolveClass_keeps frame className) fun _ => .bind (Expr.evalList_keeps kept args) fun _ =>
      kept.construct _ _ _

theorem Expr.evalList_keeps (kept : calls.Keep R) : ∀ es : List Expr, Keeps R (Expr.evalList calls frame es)
  | [] => .pure _
  | e :: es => .bind (e.eval_keeps kept) fun _ => .bind (Expr.evalList_keeps kept es) fun _ => .pure _

theorem Expr.evalEntries_keeps (kept : calls.Keep R) :
    ∀ es : List (String × Expr), Keeps R (Expr.evalEntries calls frame es)
  | [] => .pure _
  | (_, e) :: es => .bind (e.eval_keeps kept) fun _ => .bind (Expr.evalEntries_keeps kept es) fun _ => .pure _

end

theorem Expr.assign_keeps (kept : calls.Keep R) : ∀ (e : Expr) (v : Value), Keeps R (e.assign calls frame v)
  | .var name, v => .bind (.getLocal name) fun _ => .setLocal name v
  | .property object name, v => by
    refine .bind (object.eval_keeps frame kept) fun target => ?_
    cases target with
    | object o => exact .setField o name v
    | map entries => exact object.assign_keeps kept _
    | _ => exact .fail _
  | .index object key, v =>
    .bind (key.eval_keeps frame kept) fun _ => .bind (object.eval_keeps frame kept) fun _ =>
      .bind (.ofExcept _) fun _ => object.assign_keeps kept _
  | .int _, _ | .float _, _ | .str _, _ | .bool _, _ | .null, _ | .self, _ | .list _, _ | .map _, _
  | .binary .., _ | .unary .., _ | .call .., _ | .superCall .., _ | .staticCall .., _ | .functionCall .., _
  | .create .., _ => .fail _

theorem whileLoop_keeps {condition : Eval Value} {body : Eval Flow} (hc : Keeps R condition) (hb : Keeps R body)
    (steps : Nat) : Keeps R (whileLoop condition body steps) := by
  induction steps with
  | zero => exact .throw _
  | succ steps ih =>
    refine .bind hc fun v => ?_
    split
    · refine .bind hb fun flow => ?_
      cases flow with
      | «break» => exact .pure _
      | «return» v => exact .pure _
      | next | «continue» => exact ih
    · exact .pure _

theorem forLoop_keeps (name : String) {body : Eval Flow} (hb : Keeps R body) (vs : List Value) :
    Keeps R (forLoop name body vs) := by
  induction vs with
  | nil => exact .pure _
  | cons v vs ih =>
    refine .bind (.setLocal name v) fun _ => .bind hb fun flow => ?_
    cases flow with
    | «break» => exact .pure _
    | «return» v => exact .pure _
    | next | «continue» => exact ih

variable (steps : Nat)

mutual

theorem Statement.run_keeps (kept : calls.Keep R) : ∀ s : Statement, Keeps R (s.run calls frame steps)
  | .declare name _ value => .bind (value.eval_keeps frame kept) fun v => .bind (.setLocal name v) fun _ => .pure _
  | .assign target value =>
    .bind (value.eval_keeps frame kept) fun v => .bind (target.toExpr.assign_keeps frame kept v) fun _ => .pure _
  | .expr e => .bind (e.eval_keeps frame kept) fun _ => .pure _
  | .return none => .pure _
  | .return (some e) => .bind (e.eval_keeps frame kept) fun _ => .pure _
  | .cond condition thenBranch none => by
    have ht := Statement.runBlock_keeps kept thenBranch
    refine .bind (condition.eval_keeps frame kept) fun _ => ?_
    split
    · exact ht
    · exact .pure _
  | .cond condition thenBranch (some elseBranch) => by
    have ht := Statement.runBlock_keeps kept thenBranch
    have he := Statement.runBlock_keeps kept elseBranch
    refine .bind (condition.eval_keeps frame kept) fun _ => ?_
    split
    · exact ht
    · exact he
  | .while condition body =>
    whileLoop_keeps (condition.eval_keeps frame kept) (Statement.runBlock_keeps kept body) steps
  | .for name iterable body =>
    .bind (iterable.eval_keeps frame kept) fun _ => .bind (.ofExcept _) fun items =>
      forLoop_keeps name (Statement.runBlock_keeps kept body) items
  | .break | .continue => .pure _

theorem Statement.runBlock_keeps (kept : calls.Keep R) :
    ∀ b : List Statement, Keeps R (Statement.runBlock calls frame steps b)
  | [] => .pure _
  | s :: rest => by
    have hr := Statement.runBlock_keeps kept rest
    refine .bind (s.run_keeps kept) fun flow => ?_
    cases flow with
    | next => exact hr
    | _ => exact .pure _

end

theorem bindParameters_keeps (kept : calls.Keep R) :
    ∀ (ps : List Parameter) (args : List Value), Keeps R (bindParameters calls frame ps args)
  | [], _ => .pure _
  | p :: ps, v :: vs => .bind (.setLocal p.name v) fun _ => bindParameters_keeps kept ps vs
  | p :: ps, [] => by
    have rest : ∀ v, Keeps R (do setLocal p.name v; bindParameters calls frame ps []) := fun v =>
      .bind (.setLocal p.name v) fun _ => bindParameters_keeps kept ps []
    rw [bindParameters]
    cases p.default with
    | none => exact .bind (.pure _) rest
    | some e => exact .bind (e.eval_keeps frame kept) rest

theorem Method.runBody_keeps (kept : calls.Keep R) (m : Method) (args : List Value) :
    Keeps R (m.runBody calls frame steps args) :=
  .bind (bindParameters_keeps frame kept m.parameters args) fun _ =>
    .bind (Statement.runBlock_keeps frame steps kept m.body) fun _ => .ofExcept _

theorem setProperties_keeps (kept : calls.Keep R) (o : ObjectRef) (ps : List Property) :
    Keeps R (setProperties calls frame o ps) := by
  induction ps with
  | nil => exact .pure _
  | cons p ps ih =>
    have rest : ∀ v, Keeps R (do setField o p.name v; setProperties calls frame o ps) := fun v =>
      .bind (.setField o p.name v) fun _ => ih
    rw [setProperties]
    cases p.default with
    | none => exact .bind (.pure _) rest
    | some e => exact .bind (e.eval_keeps frame kept) rest

theorem invokeOver_keeps (kept : calls.Keep R) (owner : LoadedClass) (m : Method) (this : Option ObjectRef)
    (args : List Value) (depth : Nat) : Keeps R (invokeOver calls steps owner m this args depth) := by
  have run : Keeps R (do
      ofExcept (checkArity owner m args)
      withLocals (m.runBody calls ⟨this, owner, depth + 1⟩ steps args)) :=
    .bind (.ofExcept _) fun _ => .withLocals (m.runBody_keeps _ steps kept args)
  refine .bind .getMachine fun machine => ?_
  dsimp only
  split
  · exact .bind (.fail _) fun _ => run
  · exact run

theorem fillFields_keeps (kept : calls.Keep R) (o : ObjectRef) (depth : Nat) (lineage : List LoadedClass) :
    Keeps R (fillFields calls o depth lineage) := by
  induction lineage with
  | nil => exact .pure _
  | cons owner rest ih => exact .bind (.withLocals (setProperties_keeps _ kept o owner.own.properties)) fun _ => ih

theorem makeObject_keeps (kept : calls.Keep R) (c : LoadedClass) (args : List Value) (depth : Nat) :
    Keeps R (makeObject calls c args depth) := by
  refine .bind (.alloc c) fun o => .bind (fillFields_keeps kept o depth c.lineage) fun _ => ?_
  split
  · exact .bind (kept.invoke _ _ _ _ _) fun _ => .pure _
  · split
    · exact .pure _
    · exact .fail _

theorem constructOver_keeps (kept : calls.Keep R) (c : LoadedClass) (args : List Value) (depth : Nat) :
    Keeps R (constructOver calls c args depth) := by
  rw [constructOver_eq]
  split
  · exact .bind (.fail _) fun _ => makeObject_keeps kept c args depth
  · exact makeObject_keeps kept c args depth

end Code

section Runs

variable {R : Machine → Machine → Prop} [StepRelation R]

theorem Calls.within_keep (steps : Nat) : (Calls.within steps).Keep R := by
  induction steps with
  | zero => exact ⟨fun _ _ _ _ _ => .throw _, fun _ _ _ => .throw _⟩
  | succ steps ih =>
    exact ⟨fun owner m this args depth => invokeOver_keeps steps ih owner m this args depth,
      fun c args depth => constructOver_keeps ih c args depth⟩

theorem invokeWithin_keeps (steps : Nat) (owner : LoadedClass) (m : Method) (this : Option ObjectRef)
    (args : List Value) (depth : Nat) : Keeps R (invokeWithin steps owner m this args depth) :=
  (Calls.within_keep steps).invoke owner m this args depth

theorem constructWithin_keeps (steps : Nat) (c : LoadedClass) (args : List Value) (depth : Nat) :
    Keeps R (constructWithin steps c args depth) :=
  (Calls.within_keep steps).construct c args depth

namespace Machine

omit [StepRelation R] in
theorem runCode_keeps {code : Eval α} (h : Keeps R code) (m : Machine) : R m (runCode code m).2 :=
  h { machine := m }

theorem instantiate_keeps (steps : Nat) (name : ClassName) (args : List Value) (m : Machine) :
    R m (instantiate steps name args m).2 :=
  runCode_keeps (.bind (.loadClass name) fun c => constructWithin_keeps steps c args 0) m

theorem callMethod_keeps (steps : Nat) (target : Value) (method : String) (args : List Value) (m : Machine) :
    R m (callMethod steps target method args m).2 := by
  refine runCode_keeps (.bind (.ofExcept _) fun o => .bind (.ofExcept _) fun found => ?_) m
  have run : Keeps R (invokeWithin steps found.1 found.2 (some o) args 0) := invokeWithin_keeps _ _ _ _ _ _
  dsimp only
  split
  · exact .bind (.fail _) fun _ => by split <;> first | exact .bind (.fail _) fun _ => run | exact run
  · split
    · exact .bind (.fail _) fun _ => run
    · exact run

theorem callStatic_keeps (steps : Nat) (name : ClassName) (method : String) (args : List Value) (m : Machine) :
    R m (callStatic steps name method args m).2 := by
  refine runCode_keeps (.bind (.loadClass name) fun c => .bind (.ofExcept _) fun found => ?_) m
  have run : Keeps R (invokeWithin steps found.1 found.2 none args 0) := invokeWithin_keeps _ _ _ _ _ _
  dsimp only
  split
  · exact .bind (.fail _) fun _ => run
  · exact run

theorem loadClass_keeps (name : ClassName) (m : Machine) : R m (loadClass name m).2 :=
  runCode_keeps (.loadClass name) m

end Machine

end Runs

end AspectProxy
