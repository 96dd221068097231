import AspectProxy.Proofs.Weaving.AdviceRuns

/-!
Calls with fewer arguments than parameters. An expression leaves the local variables as they are, so binding the
parameters of a call gives each a value, and the call is the call with all these values.
-/

namespace AspectProxy

open Eval

/-- Code that leaves the local variables as they are. -/
def Eval.KeepsLocals (code : Eval α) : Prop :=
  ∀ s, (code s).2.locals = s.locals

namespace Eval.KeepsLocals

theorem pure (a : α) : KeepsLocals (Pure.pure a : Eval α) :=
  fun _ => rfl

theorem throw (e : Stop) : KeepsLocals (MonadExcept.throw e : Eval α) :=
  fun _ => rfl

theorem fail (e : EvalError) : KeepsLocals (Eval.fail e : Eval α) :=
  fun _ => rfl

theorem ofExcept (r : Except EvalError α) : KeepsLocals (Eval.ofExcept r) :=
  fun _ => rfl

theorem getMachine : KeepsLocals Eval.getMachine :=
  fun _ => rfl

theorem modifyMachine (f : Machine → Machine) : KeepsLocals (Eval.modifyMachine f) :=
  fun _ => rfl

theorem alloc (c : LoadedClass) : KeepsLocals (Eval.alloc c) :=
  fun _ => rfl

theorem loadClass (name : ClassName) : KeepsLocals (Eval.loadClass name) :=
  fun _ => rfl

theorem withLocals (code : Eval α) : KeepsLocals (Eval.withLocals code) :=
  fun _ => rfl

theorem getLocal (name : String) : KeepsLocals (Eval.getLocal name) := by
  intro s
  unfold Eval.getLocal
  split <;> rfl

theorem bind {x : Eval α} {f : α → Eval β} (first : KeepsLocals x) (rest : ∀ a, KeepsLocals (f a)) :
    KeepsLocals (x >>= f) := by
  intro s
  have hx := first s
  rw [bind_run]
  rcases hr : x s with ⟨_ | a, t⟩ <;> simp only [hr] at hx ⊢
  · exact hx
  · exact (rest a t).trans hx

end Eval.KeepsLocals

theorem advise_keepsLocals (kind : AdviceKind) (context result : Value) : KeepsLocals (advise kind context result) := by
  refine .bind (.ofExcept _) fun point => .bind .getMachine fun m => ?_
  cases kind with
  | before =>
    refine .bind (.modifyMachine _) fun _ => ?_
    split
    · exact .pure _
    · exact .fail _
  | after =>
    refine .bind (.modifyMachine _) fun _ => ?_
    split
    · exact .pure _
    · exact .fail _

theorem callFunction_keepsLocals (name : String) (args : List Value) : KeepsLocals (callFunction name args) := by
  unfold callFunction
  split
  · exact .bind (.ofExcept _) fun _ => advise_keepsLocals _ _ _
  · exact .bind (.ofExcept _) fun _ => .pure _
  · exact .pure _
  · exact .bind (.modifyMachine _) fun _ => .pure _
  · exact .ofExcept _
  · exact .pure _
  · exact .ofExcept _
  · split
    · exact .fail _
    · split <;> exact .fail _

theorem resolveClass_keepsLocals (frame : Frame) (reference : String) :
    KeepsLocals (resolveClass frame reference) := by
  unfold resolveClass
  split
  · exact .pure _
  · dsimp only
    split
    · exact .loadClass _
    · exact .fail _

theorem readProperty_keepsLocals (name : String) (v : Value) : KeepsLocals (readProperty name v) := by
  unfold readProperty
  split
  · refine .bind .getMachine fun _ => ?_
    split
    · exact .pure _
    · exact .fail _
  · exact .pure _
  · exact .fail _

/-- Calls that leave the local variables around them as they are. -/
structure Calls.KeepLocals (calls : Calls) : Prop where
  invoke : ∀ owner m this args depth, KeepsLocals (calls.invoke owner m this args depth)
  construct : ∀ c args depth, KeepsLocals (calls.construct c args depth)

section Code

variable {calls : Calls}

mutual

theorem Expr.eval_keepsLocals (kept : calls.KeepLocals) (frame : Frame) :
    ∀ e : Expr, KeepsLocals (e.eval calls frame)
  | .int _ | .float _ | .str _ | .bool _ | .null => .pure _
  | .var name => .getLocal name
  | .self => .bind (.ofExcept _) fun _ => .pure _
  | .list items => .bind (Expr.evalList_keepsLocals kept frame items) fun _ => .pure _
  | .map entries => .bind (Expr.evalEntries_keepsLocals kept frame entries) fun _ => .pure _
  | .binary op left right => by
    have hr := right.eval_keepsLocals kept frame
    refine .bind (left.eval_keepsLocals kept frame) fun l => ?_
    split
    · split
      · exact .bind hr fun _ => .pure _
      · exact .pure _
    · split
      · exact .pure _
      · exact .bind hr fun _ => .pure _
    · exact .bind hr fun _ => .ofExcept _
  | .unary _ operand => .bind (operand.eval_keepsLocals kept frame) fun _ => .ofExcept _
  | .property object name => .bind (object.eval_keepsLocals kept frame) fun _ => readProperty_keepsLocals name _
  | .index object key => .bind (object.eval_keepsLocals kept frame) fun _ => .bind (key.eval_keepsLocals kept frame) fun _ => .ofExcept _
  | .call object _ args =>
    .bind (object.eval_keepsLocals kept frame) fun _ => .bind (Expr.evalList_keepsLocals kept frame args) fun _ =>
      .bind (.ofExcept _) fun _ => .bind (.ofExcept _) fun _ => kept.invoke _ _ _ _ _
  | .superCall _ args =>
    .bind (.ofExcept _) fun _ => .bind (.ofExcept _) fun _ => .bind (.ofExcept _) fun _ =>
      .bind (Expr.evalList_keepsLocals kept frame args) fun _ => kept.invoke _ _ _ _ _
  | .staticCall className _ args => by
    have ha := Expr.evalList_keepsLocals kept frame args
    refine .bind (resolveClass_keepsLocals frame className) fun _ => .bind (.ofExcept _) fun found => ?_
    dsimp only
    split
    · exact .bind ha fun _ => kept.invoke _ _ _ _ _
    · exact .fail _
  | .functionCall name args => .bind (Expr.evalList_keepsLocals kept frame args) fun _ => callFunction_keepsLocals name _
  | .create className args =>
    .bind (resolveClass_keepsLocals frame className) fun _ => .bind (Expr.evalList_keepsLocals kept frame args) fun _ =>
      kept.construct _ _ _

theorem Expr.evalList_keepsLocals (kept : calls.KeepLocals) (frame : Frame) :
    ∀ es : List Expr, KeepsLocals (Expr.evalList calls frame es)
  | [] => .pure _
  | e :: es => .bind (e.eval_keepsLocals kept frame) fun _ => .bind (Expr.evalList_keepsLocals kept frame es) fun _ =>
    .pure _

theorem Expr.evalEntries_keepsLocals (kept : calls.KeepLocals) (frame : Frame) :
    ∀ es : List (String × Expr), KeepsLocals (Expr.evalEntries calls frame es)
  | [] => .pure _
  | (_, e) :: es => .bind (e.eval_keepsLocals kept frame) fun _ => .bind (Expr.evalEntries_keepsLocals kept frame es)
    fun _ => .pure _

end

theorem fillFields_keepsLocals (o : ObjectRef) (depth : Nat) (lineage : List LoadedClass) :
    KeepsLocals (fillFields calls o depth lineage) := by
  induction lineage with
  | nil => exact .pure _
  | cons owner rest ih => exact .bind (.withLocals _) fun _ => ih

variable (kept : calls.KeepLocals)
include kept

theorem makeObject_keepsLocals (c : LoadedClass) (args : List Value) (depth : Nat) :
    KeepsLocals (makeObject calls c args depth) := by
  refine .bind (.alloc c) fun o => .bind (fillFields_keepsLocals o depth c.lineage) fun _ => ?_
  split
  · exact .bind (kept.invoke _ _ _ _ _) fun _ => .pure _
  · split
    · exact .pure _
    · exact .fail _

theorem constructOver_keepsLocals (c : LoadedClass) (args : List Value) (depth : Nat) :
    KeepsLocals (constructOver calls c args depth) := by
  rw [constructOver_eq]
  split
  · exact .bind (.fail _) fun _ => makeObject_keepsLocals kept c args depth
  · exact makeObject_keepsLocals kept c args depth

end Code

theorem Calls.within_keepLocals (steps : Nat) : (Calls.within steps).KeepLocals := by
  induction steps with
  | zero => exact ⟨fun _ _ _ _ _ => .throw _, fun _ _ _ => .throw _⟩
  | succ steps ih =>
    refine ⟨fun owner m this args depth s => ?_, fun c args depth => constructOver_keepsLocals ih c args depth⟩
    show (invokeWithin (steps + 1) owner m this args depth s).2.locals = s.locals
    rw [invokeWithin_detached (steps + 1) owner m this args depth s]

/-- The values that the parameters of a method have in a call: its arguments, and behind them the defaults. -/
def Method.boundArguments (m : Method) (calls : Calls) (frame : Frame) (args : List Value) : Eval (List Value) :=
  withLocals do
    bindParameters calls frame m.parameters args
    Expr.evalList calls frame (m.parameters.map fun p => .var p.name)

/-- Parameters that are bound are set to a value each, the first ones to the arguments. -/
theorem bindParameters_values {calls : Calls} (kept : calls.KeepLocals) (frame : Frame) {ps : List Parameter}
    {args : List Value} (enough : args.length ≤ ps.length) {s t : Store}
    (bound : bindParameters calls frame ps args s = (.ok (), t)) :
    ∃ values, args <+: values ∧ values.length = ps.length ∧
      t.locals = setEntries (ps.map (·.name)) values s.locals := by
  induction ps generalizing args s with
  | nil =>
    obtain rfl : args = [] := List.length_eq_zero_iff.mp (Nat.le_zero.mp enough)
    cases bound
    exact ⟨[], List.prefix_refl _, rfl, rfl⟩
  | cons p ps ih =>
    cases args with
    | cons v vs =>
      obtain ⟨values, starts, length, locals⟩ := ih (Nat.le_of_succ_le_succ enough) bound
      exact ⟨v :: values, List.cons_prefix_cons.mpr ⟨rfl, starts⟩, congrArg _ length, locals⟩
    | nil =>
      have set : ∀ (v : Value) (r : Store), r.locals = s.locals →
          (do setLocal p.name v; bindParameters calls frame ps []) r = (.ok (), t) →
          ∃ values, [] <+: values ∧ values.length = (p :: ps).length ∧
            t.locals = setEntries ((p :: ps).map (·.name)) values s.locals := by
        intro v r same rest
        obtain ⟨values, -, length, locals⟩ := ih (Nat.zero_le _) rest
        exact ⟨v :: values, List.nil_prefix, congrArg _ length, by rw [locals, same]; rfl⟩
      rw [bindParameters] at bound
      cases default : p.default with
      | none =>
        rw [default] at bound
        exact set .null s rfl bound
      | some e =>
        rw [default] at bound
        dsimp only at bound
        have locals := e.eval_keepsLocals kept frame s
        rcases evaluated : e.eval calls frame s with ⟨x | v, r⟩
        · rw [Eval.bind_error evaluated] at bound
          cases bound
        · rw [Eval.bind_ok evaluated] at bound
          rw [evaluated] at locals
          exact set v r locals bound

theorem boundArguments_detached (m : Method) (calls : Calls) (frame : Frame) (args : List Value) :
    (m.boundArguments calls frame args).Detached :=
  fun _ => rfl

theorem boundArguments_keepsAdvice (m : Method) (steps : Nat) (frame : Frame) (args : List Value) (machine : Machine) :
    machine.KeepsAdvice (Machine.runCode (m.boundArguments (.within steps) frame args) machine).2 := by
  have kept := Calls.within_keep (R := Machine.KeepsAdvice) steps
  exact Machine.runCode_keeps (.withLocals (.bind (bindParameters_keeps frame kept m.parameters args) fun _ =>
    Expr.evalList_keeps frame kept _)) machine

section Bound

variable {m : Method} {args : List Value}

theorem boundArguments_error {calls : Calls} {frame : Frame} {s t : Store} {e : Stop}
    (bound : bindParameters calls frame m.parameters args { s with locals := [] } = (.error e, t)) :
    m.boundArguments calls frame args s = (.error e, { t with locals := s.locals }) := by
  unfold Method.boundArguments withLocals
  rw [Eval.bind_error bound]

variable (distinct : (m.parameters.map (·.name)).Nodup) (enough : args.length ≤ m.parameters.length)
include distinct enough

theorem boundArguments_ok {calls : Calls} (kept : calls.KeepLocals) {frame : Frame} {s t : Store}
    (bound : bindParameters calls frame m.parameters args { s with locals := [] } = (.ok (), t)) :
    ∃ values, m.boundArguments calls frame args s = (.ok values, { t with locals := s.locals }) ∧ args <+: values ∧
      values.length = m.parameters.length ∧ t.locals = setEntries (m.parameters.map (·.name)) values [] := by
  obtain ⟨values, starts, length, locals⟩ := bindParameters_values kept frame enough bound
  refine ⟨values, ?_, starts, length, locals⟩
  have held := getEntry_setEntries distinct (length.trans (List.length_map _).symm) ([] : List (String × Value))
  have read : Expr.evalList calls frame (m.parameters.map fun p => .var p.name) t = (.ok values, t) := by
    rw [← locals] at held
    have evaluated := evalList_vars calls frame held
    rwa [List.map_map] at evaluated
  unfold Method.boundArguments withLocals
  rw [Eval.bind_ok bound, read]

/-- Each parameter gets a value, the first ones the arguments. -/
theorem boundArguments_values {calls : Calls} (kept : calls.KeepLocals) {frame : Frame} {s t : Store}
    {values : List Value} (bound : m.boundArguments calls frame args s = (.ok values, t)) :
    args <+: values ∧ values.length = m.parameters.length := by
  rcases ran : bindParameters calls frame m.parameters args { s with locals := [] } with ⟨e | ⟨⟩, r⟩
  · rw [boundArguments_error ran] at bound
    cases bound
  · obtain ⟨values', all, starts, length, -⟩ := boundArguments_ok distinct enough kept ran
    rw [all] at bound
    cases bound
    exact ⟨starts, length⟩

/-- On a machine too each parameter gets a value. -/
theorem boundArguments_passed {steps : Nat} {frame : Frame} {machine m' : Machine} {values : List Value}
    (bound : Machine.runCode (m.boundArguments (.within steps) frame args) machine = (.ok values, m')) :
    args <+: values ∧ values.length = m.parameters.length := by
  unfold Machine.runCode at bound
  rcases ran : m.boundArguments (.within steps) frame args { machine } with ⟨r, t⟩
  rw [ran] at bound
  obtain ⟨rfl, -⟩ := Prod.mk.inj bound
  exact boundArguments_values distinct enough (Calls.within_keepLocals steps) ran

/-- A call is the call with the values of all parameters. -/
theorem call_bound (steps : Nat) (owner : LoadedClass) (this : Option ObjectRef) (required : m.required ≤ args.length)
    {depth : Nat} {machine : Machine} (shallow : depth + 1 ≤ machine.maxDepth) :
    Machine.runCode (invokeWithin (steps + 1) owner m this args depth) machine =
      Machine.runCode (do
        let values ← m.boundArguments (.within steps) ⟨this, owner, depth + 1⟩ args
        invokeWithin (steps + 1) owner m this values depth) machine := by
  have arity : checkArity owner m args = .ok () := if_pos ⟨required, enough⟩
  let frame : Frame := ⟨this, owner, depth + 1⟩
  rw [call_run arity steps this shallow]
  rcases ran : bindParameters (.within steps) frame m.parameters args ⟨machine, []⟩ with ⟨e | u, t⟩
  · unfold Machine.runCode
    rw [Eval.bind_error (boundArguments_error (s := ⟨machine, []⟩) ran)]
  · obtain ⟨values, all, -, length, locals⟩ :=
      boundArguments_ok (s := ⟨machine, []⟩) distinct enough (Calls.within_keepLocals steps) ran
    have depthKept := bindParameters_keeps (R := Machine.KeepsAdvice) frame (Calls.within_keep steps) m.parameters args
      ⟨machine, []⟩
    rw [ran] at depthKept
    have stillShallow : depth + 1 ≤ t.machine.maxDepth := depthKept.maxDepth ▸ shallow
    have again := call_full length steps owner this stillShallow
    rw [← locals] at again
    refine again.symm.trans ?_
    unfold Machine.runCode
    rw [Eval.bind_ok all]

end Bound

end AspectProxy
