import AspectProxy.Proofs.Machine.Locals
import AspectProxy.Proofs.Weaving.AdviceRuns
import AspectProxy.Proofs.Weaving.BuiltinAspect
import AspectProxy.Proxy.Weaving
import Mathlib.Data.List.Nodup
import Mathlib.Data.List.Perm.Subperm

/-!
What the body of a wrapper does. Its two variables are named apart from the parameters and from each other, so that
the parameters still hold the arguments when the wrapped method is called; around that call the hooks of the built-in
aspect run the advice.
-/

namespace AspectProxy

open Eval

/-- A name with underscores behind it. -/
def underscored (name : String) (n : Nat) : String :=
  name ++ String.ofList (List.replicate n '_')

theorem underscored_zero (name : String) : underscored name 0 = name := by
  simp [underscored]

theorem underscored_succ (name : String) (n : Nat) : underscored (name ++ "_") n = underscored name (n + 1) := by
  apply String.toList_inj.mp
  simp [underscored, List.replicate_succ]

theorem underscored_inj (name : String) {m n : Nat} (h : underscored name m = underscored name n) : m = n := by
  have := congrArg (·.toList.length) h
  simpa [underscored] using this

/-- A search goes through names that are taken, up to one that is not or to its last step. -/
theorem within_eq_underscored (taken : List String) (n : Nat) (name : String) :
    ∃ k, freshName.within taken n name = underscored name k ∧ (∀ j < k, underscored name j ∈ taken) ∧
      (k = n ∨ underscored name k ∉ taken) := by
  induction n generalizing name with
  | zero => exact ⟨0, (underscored_zero name).symm, nofun, .inl rfl⟩
  | succ n ih =>
    rw [freshName.within]
    split
    case isTrue here =>
      obtain ⟨k, ended, before, last⟩ := ih (name ++ "_")
      simp only [underscored_succ] at ended before last
      refine ⟨k + 1, ended, fun j hj => ?_, last.imp_left (congrArg (· + 1))⟩
      cases j with
      | zero => exact (underscored_zero name).symm ▸ here
      | succ j => exact before j (Nat.lt_of_succ_lt_succ hj)
    case isFalse free =>
      rw [← underscored_zero name] at free
      exact ⟨0, (underscored_zero name).symm, nofun, .inr free⟩

/-- A fresh name has underscores behind it, and each name with fewer of them is taken. -/
theorem freshName_eq_underscored (name : String) (taken : List String) :
    ∃ k, freshName name taken = underscored name k ∧ ∀ j < k, underscored name j ∈ taken := by
  obtain ⟨k, fresh, before, -⟩ := within_eq_underscored taken taken.length name
  exact ⟨k, fresh, before⟩

/-- A fresh name is fresh: of one name more than are taken, one is free. -/
theorem freshName_not_mem (name : String) (taken : List String) : freshName name taken ∉ taken := by
  unfold freshName
  obtain ⟨k, fresh, before, last | free⟩ := within_eq_underscored taken taken.length name
  · intro h
    rw [fresh] at h
    let tried := (List.range (k + 1)).map (underscored name)
    have distinct : tried.Nodup := List.Nodup.map (fun _ _ => underscored_inj name) List.nodup_range
    have allTaken : tried ⊆ taken := by
      intro x hx
      obtain ⟨j, hj, rfl⟩ := List.mem_map.mp hx
      rcases Nat.lt_succ_iff_lt_or_eq.mp (List.mem_range.mp hj) with less | rfl
      · exact before j less
      · exact h
    have tooMany : tried.length ≤ taken.length := (List.subperm_of_subset distinct allTaken).length_le
    rw [List.length_map, List.length_range] at tooMany
    omega
  · rwa [fresh]

/-- The variables for the context and for the result differ, whatever is behind them. -/
theorem context_ne_result (taken : List String) : freshName "__ctx" taken ≠ freshName "__result" taken := by
  obtain ⟨j, hj, -⟩ := freshName_eq_underscored "__ctx" taken
  obtain ⟨k, hk, -⟩ := freshName_eq_underscored "__result" taken
  rw [hj, hk]
  intro same
  have third := congrArg (fun s => s.toList[2]?) same
  simp [underscored] at third

/-- The map that describes a call to the hooks. -/
def JoinPoint.context (p : JoinPoint) : Value :=
  .map [("class", .str p.className), ("method", .str p.method), ("args", .list p.args)]

theorem JoinPoint.ofContext_context (p : JoinPoint) : JoinPoint.ofContext p.context = .ok p := by
  simp [context, ofContext, argsOf, textOf, getEntry, bind, Except.bind, pure, Except.pure]

/-- The machine with further notes. -/
def Machine.noted (m : Machine) (notes : List Note) : Machine :=
  { m with advice := m.advice.noted notes }

/-- What a program sees of the callbacks it ran. -/
def adviceOutcome (answer : α → Value) : Except String α → Except Stop Value
  | .ok a => .ok (answer a)
  | .error e => .error (.failed (.advice e))

section Advise

variable {s : Store} (steady : s.machine.advice.Steady) (p : JoinPoint)
include steady

theorem advise_before (v : Value) :
    advise .before p.context v s =
      (adviceOutcome (fun _ => .null) (p.foldBefore (s.machine.advice.beforeCallbacks p)).1,
        { s with machine := s.machine.noted (p.foldBefore (s.machine.advice.beforeCallbacks p)).2 }) := by
  have point : ofExcept (JoinPoint.ofContext p.context) s = (.ok p, s) := by
    rw [JoinPoint.ofContext_context]
    rfl
  rw [advise, Eval.bind_ok point, Eval.bind_ok (x := Eval.getMachine) rfl]
  dsimp only
  rw [steady.runBefore p]
  rcases p.foldBefore (s.machine.advice.beforeCallbacks p) with ⟨_ | ⟨⟩, notes⟩ <;> rfl

theorem advise_after (v : Value) :
    advise .after p.context v s =
      (adviceOutcome id (p.foldAfter (s.machine.advice.afterCallbacks p) v).1,
        { s with machine := s.machine.noted (p.foldAfter (s.machine.advice.afterCallbacks p) v).2 }) := by
  have point : ofExcept (JoinPoint.ofContext p.context) s = (.ok p, s) := by
    rw [JoinPoint.ofContext_context]
    rfl
  rw [advise, Eval.bind_ok point, Eval.bind_ok (x := Eval.getMachine) rfl]
  dsimp only
  rw [steady.runAfter p v]
  rcases p.foldAfter (s.machine.advice.afterCallbacks p) v with ⟨_ | _, notes⟩ <;> rfl

end Advise

section Hooks

variable {m : Machine} (steady : m.advice.Steady) (p : JoinPoint) (steps : Nat) (owner : LoadedClass)
  (this : Option ObjectRef) {depth : Nat} (shallow : depth + 1 ≤ m.maxDepth)
include steady shallow

theorem call_adviceBefore :
    Machine.runCode (invokeWithin (steps + 1) owner adviceBefore this [p.context] depth) m =
      (adviceOutcome (fun _ => .null) (p.foldBefore (m.advice.beforeCallbacks p)).1,
        m.noted (p.foldBefore (m.advice.beforeCallbacks p)).2) := by
  rw [call_full rfl steps owner this shallow]
  let s : Store := ⟨m, [("ctx", p.context)]⟩
  have asks : Expr.eval (Calls.within steps) ⟨this, owner, depth + 1⟩
      (.functionCall "advise" [.str "before", .var "ctx", .null]) s = advise .before p.context .null s := rfl
  refine (callResult_expr _ _ steps _ [] s).trans ?_
  rw [asks, advise_before steady p .null]
  dsimp only [s]
  cases (p.foldBefore (m.advice.beforeCallbacks p)).1 <;> rfl

theorem call_adviceAfter (v : Value) :
    Machine.runCode (invokeWithin (steps + 1) owner adviceAfter this [p.context, v] depth) m =
      (adviceOutcome id (p.foldAfter (m.advice.afterCallbacks p) v).1,
        m.noted (p.foldAfter (m.advice.afterCallbacks p) v).2) := by
  rw [call_full rfl steps owner this shallow]
  let s : Store := ⟨m, [("ctx", p.context), ("result", v)]⟩
  have asks : Expr.eval (Calls.within steps) ⟨this, owner, depth + 1⟩
      (.functionCall "advise" [.str "after", .var "ctx", .var "result"]) s = advise .after p.context v s := rfl
  refine (callResult_return _ _ steps _ [] s).trans ?_
  rw [asks, advise_after steady p v]

end Hooks

/-- A class `P` over a class `O` that wraps a method of it. -/
structure WrapsMethod (base : ClassName) (P O : LoadedClass) (m : Method) : Prop where
  parent : P.parent? = some O
  wrapped : O.findMethod m.name = some (O, m)
  wrapper : P.findMethod m.name = some (P, m.wrapper base)
  distinct : (m.parameters.map (·.name)).Nodup

/-- A call of a method with the hooks of its object around it: one is told of the call, the other of its result, which
it may replace. -/
def hookedCall (calls : Calls) (o : ObjectRef) (owner : LoadedClass) (m : Method) (p : JoinPoint) (depth : Nat) :
    Eval Value := do
  let _ ← callOn calls o beforeHook [p.context] depth
  let result ← calls.invoke owner m (some o) p.args depth
  callOn calls o afterHook [p.context, result] depth

/-- A call of the parent's method with the hooks around it, in the code of a frame. The values go straight to where they
are used, and no variable has a name. -/
def hookedSuper (calls : Calls) (frame : Frame) (p : JoinPoint) : Eval Value := do
  let _ ← callSelf calls frame beforeHook [p.context]
  let result ← callSuper calls frame p.method p.args
  callSelf calls frame afterHook [p.context, result]

theorem eval_contextExpr (calls : Calls) (frame : Frame) (base : ClassName) (m : Method) {names : List String}
    {args : List Value} {s : Store} (held : names.map (getEntry · s.locals) = args.map some) :
    Expr.eval calls frame (contextExpr base m (names.map .var)) s =
      (.ok (JoinPoint.context ⟨base.text, m.name, args⟩), s) := by
  have list : Expr.eval calls frame (.list (names.map .var)) s = (.ok (.list args), s) := by
    rw [Expr.eval, Eval.bind_ok (evalList_vars calls frame held)]
    rfl
  have entries : Expr.evalEntries calls frame
      [("class", .str base.text), ("method", .str m.name), ("args", .list (names.map .var))] s =
      (.ok [("class", .str base.text), ("method", .str m.name), ("args", .list args)], s) :=
    evalEntries_cons _ _ rfl (evalEntries_cons _ _ rfl (evalEntries_cons _ _ list rfl))
  rw [contextExpr, Expr.eval, Eval.bind_ok entries]
  rfl

/-- The variables of a wrapper hold what it sets them to, and its parameters still hold what they held. -/
theorem wrapper_locals {names : List String} {args : List Value} {start : List (String × Value)}
    (held : names.map (getEntry · start) = args.map some) (context result : Value) :
    let called := setEntry (freshName "__ctx" names) context start
    let returned := setEntry (freshName "__result" names) result called
    names.map (getEntry · called) = args.map some ∧
      [freshName "__ctx" names].map (getEntry · called) = [context].map some ∧
      [freshName "__ctx" names, freshName "__result" names].map (getEntry · returned) = [context, result].map some := by
  intro called returned
  have inContext : getEntry (freshName "__ctx" names) called = some context := getEntry_setEntry_self _ _ _
  have still : getEntry (freshName "__ctx" names) returned = some context :=
    (getEntry_setEntry_of_ne (context_ne_result names).symm _ _).trans inContext
  have inResult : getEntry (freshName "__result" names) returned = some result := getEntry_setEntry_self _ _ _
  refine ⟨(map_getEntry_setEntry (freshName_not_mem _ _) _ _).trans held, ?_, ?_⟩
  · simp only [List.map, inContext]
  · simp only [List.map, still, inResult]

section Variables

variable (frame : Frame) (k : Nat) {names : List String} {values : List Value} {s : Store}
  (held : names.map (getEntry · s.locals) = values.map some)
include held

theorem eval_callSelf_vars (method : String) :
    let call := callSelf (Calls.within k) frame method values
    Expr.eval (Calls.within k) frame (.call .self method (names.map .var)) s =
      ((Machine.runCode call s.machine).1, ⟨(Machine.runCode call s.machine).2, s.locals⟩) :=
  (eval_callSelf _ _ (evalList_vars _ _ held) method).trans (callSelf_detached k frame method values s)

theorem eval_callSuper_vars (method : String) :
    let call := callSuper (Calls.within k) frame method values
    Expr.eval (Calls.within k) frame (.superCall method (names.map .var)) s =
      ((Machine.runCode call s.machine).1, ⟨(Machine.runCode call s.machine).2, s.locals⟩) :=
  (eval_callSuper _ _ (evalList_vars _ _ held) method).trans (callSuper_detached k frame method values s)

end Variables

/-- The body of a wrapper, wherever it runs, does what it would do without variables: each of them is read as what it was
made for. -/
theorem run_wrapper (base : ClassName) (m : Method) (frame : Frame) (k steps : Nat) {args : List Value} {s : Store}
    (held : (m.parameters.map (·.name)).map (getEntry · s.locals) = args.map some) :
    callResult (Statement.runBlock (Calls.within k) frame steps (m.wrapper base).body s) =
      Machine.runCode (hookedSuper (Calls.within k) frame ⟨base.text, m.name, args⟩) s.machine := by
  let p : JoinPoint := ⟨base.text, m.name, args⟩
  have holds := wrapper_locals held p.context
  unfold Method.wrapper
  dsimp only
  generalize m.parameters.map (·.name) = names at held holds ⊢
  let called := setEntry (freshName "__ctx" names) p.context s.locals
  rw [callResult_declare, eval_contextExpr _ _ base m held, hookedSuper, (callSelf_detached _ _ _ _).runCode_bind]
  dsimp only
  have before := eval_callSelf_vars frame k (s := ⟨s.machine, called⟩) (holds .null).2.1 beforeHook
  dsimp only [List.map, p, called] at before
  rw [callResult_expr, before]
  rcases Machine.runCode (callSelf (Calls.within k) frame beforeHook _) s.machine with ⟨e | v, m₁⟩
  · rfl
  have wrapped := eval_callSuper_vars frame k (s := ⟨m₁, called⟩) (holds .null).1 m.name
  dsimp only [called] at wrapped ⊢
  rw [callResult_declare, wrapped, (callSuper_detached _ _ _ _).runCode_bind]
  rcases Machine.runCode (callSuper (Calls.within k) frame m.name args) m₁ with ⟨e | r, m₂⟩
  · rfl
  have after := eval_callSelf_vars frame k (s := ⟨m₂, setEntry (freshName "__result" names) r called⟩) (holds r).2.2
    afterHook
  dsimp only [List.map, p, called] at after ⊢
  rw [callResult_return, after]

section Call

variable {base : ClassName} {P O : LoadedClass} {m : Method} (o : ObjectRef) (steps : Nat) (depth : Nat)

/-- The class, object and depth of the code of a wrapper. -/
def wrapperFrame (P : LoadedClass) (o : ObjectRef) (depth : Nat) : Frame :=
  ⟨some o, P, depth + 1⟩

/-- In the code of a wrapper the parent's method is the wrapped one. -/
theorem WrapsMethod.hookedSuper (wraps : WrapsMethod base P O m) (calls : Calls) (args : List Value) :
    AspectProxy.hookedSuper calls (wrapperFrame P o depth) ⟨base.text, m.name, args⟩ =
      hookedCall calls o O m ⟨base.text, m.name, args⟩ (depth + 1) := by
  have this : thisObject (wrapperFrame P o depth) = .ok o := rfl
  have above : parentClass (wrapperFrame P o depth) = .ok O := by
    unfold parentClass wrapperFrame
    rw [wraps.parent]
  have found : findMethod O m.name = .ok (O, m) := by
    unfold findMethod
    rw [wraps.wrapped]
  simp only [AspectProxy.hookedSuper, callSelf, callSuper, this, above, found, ofExcept_ok_bind]
  rfl

/-- The body of a wrapper calls the wrapped method with the values of the parameters, one call deeper, with the hooks
around it. -/
theorem WrapsMethod.run_body (wraps : WrapsMethod base P O m) {args : List Value}
    (length : args.length = m.parameters.length) (machine : Machine) :
    callResult (Statement.runBlock (Calls.within steps) (wrapperFrame P o depth) steps (m.wrapper base).body
        ⟨machine, setEntries (m.parameters.map (·.name)) args []⟩) =
      Machine.runCode (hookedCall (Calls.within steps) o O m ⟨base.text, m.name, args⟩ (depth + 1)) machine := by
  have held := getEntry_setEntries wraps.distinct (length.trans (List.length_map _).symm) ([] : List (String × Value))
  rw [run_wrapper base m (wrapperFrame P o depth) steps steps held, wraps.hookedSuper]

/-- A call of a wrapper is the call of the wrapped method, one call deeper, with the hooks around it. -/
theorem WrapsMethod.call (wraps : WrapsMethod base P O m) {args : List Value}
    (length : args.length = m.parameters.length) {machine : Machine} (shallow : depth + 1 ≤ machine.maxDepth) :
    Machine.runCode (invokeWithin (steps + 1) P (m.wrapper base) (some o) args depth) machine =
      Machine.runCode (hookedCall (Calls.within steps) o O m ⟨base.text, m.name, args⟩ (depth + 1)) machine := by
  have full : args.length = (m.wrapper base).parameters.length := length
  rw [call_full full steps P (some o) shallow]
  exact wraps.run_body o steps depth length machine

end Call

/-- A call between the callbacks before it and those after it. The first callback that fails ends it; the callbacks
after the call go on with its result. -/
def Machine.advised (m : Machine) (p : JoinPoint) (call : Machine → Except Stop Value × Machine) :
    Except Stop Value × Machine :=
  match p.foldBefore (m.advice.beforeCallbacks p) with
  | (.error e, notes) => (.error (.failed (.advice e)), m.noted notes)
  | (.ok (), notes) =>
    match call (m.noted notes) with
    | (.error e, m') => (.error e, m')
    | (.ok r, m') =>
      match p.foldAfter (m.advice.afterCallbacks p) r with
      | (.error e, notes) => (.error (.failed (.advice e)), m'.noted notes)
      | (.ok v, notes) => (.ok v, m'.noted notes)

/-- A class that wraps a method and has the hooks of the built-in aspect. -/
structure Wraps (base : ClassName) (P O : LoadedClass) (m : Method) : Prop extends WrapsMethod base P O m where
  before : P.findMethod beforeHook = some (P, adviceBefore)
  after : P.findMethod afterHook = some (P, adviceAfter)

/-- A run after which the advice is that of a machine before it. -/
theorem Machine.KeepsAdvice.afterCallbacks {before after : Machine} (h : KeepsAdvice before after)
    (steady : before.advice.Steady) (p : JoinPoint) :
    after.advice.afterCallbacks p = before.advice.afterCallbacks p := by
  unfold AdviceTable.afterCallbacks AdviceTable.matching
  rw [h.advice steady]

/-- A call of a hook by its name. -/
theorem callOn_within {o : ObjectRef} {owner : LoadedClass} {hook : String} {m : Method}
    (found : o.type.findMethod hook = some (owner, m)) (steps : Nat) (args : List Value) (depth : Nat) :
    callOn (Calls.within steps) o hook args depth = invokeWithin steps owner m (some o) args depth := by
  unfold callOn
  rw [findMethod, found]
  rfl

/-- A call of a wrapper is the call of the wrapped method, one call deeper, with the advice around it. -/
theorem Wraps.call {base : ClassName} {P O : LoadedClass} {m : Method} (wraps : Wraps base P O m) {o : ObjectRef}
    (type : o.type = P) (steps depth : Nat) {args : List Value} (length : args.length = m.parameters.length)
    {machine : Machine} (steady : machine.advice.Steady) (shallow : depth + 2 ≤ machine.maxDepth) :
    Machine.runCode (invokeWithin (steps + 2) P (m.wrapper base) (some o) args depth) machine =
      machine.advised ⟨base.text, m.name, args⟩
        (Machine.runCode (invokeWithin (steps + 1) O m (some o) args (depth + 1))) := by
  subst type
  rw [wraps.toWrapsMethod.call o (steps + 1) depth length (Nat.le_of_succ_le shallow), hookedCall,
    callOn_within wraps.before, (invokeWithin_detached _ _ _ _ _ _).runCode_bind,
    call_adviceBefore steady _ steps o.type (some o) shallow]
  unfold Machine.advised
  rcases JoinPoint.foldBefore _ _ with ⟨e | _, notes⟩
  · rfl
  dsimp only [adviceOutcome, Calls.within]
  rw [(invokeWithin_detached _ _ _ _ _ _).runCode_bind]
  have kept : Machine.KeepsAdvice (machine.noted notes)
      (Machine.runCode (invokeWithin (steps + 1) O m (some o) args (depth + 1)) (machine.noted notes)).2 :=
    Machine.runCode_keeps (invokeWithin_keeps _ _ _ _ _ _) _
  generalize Machine.runCode (invokeWithin (steps + 1) O m (some o) args (depth + 1)) (machine.noted notes) = ended
    at kept ⊢
  obtain ⟨e | r, m'⟩ := ended
  · rfl
  dsimp only at kept ⊢
  have after := callOn_within wraps.after (steps + 1)
    [JoinPoint.context ⟨base.text, m.name, args⟩, r] (depth + 1)
  dsimp only [Calls.within] at after
  have same : ∀ p, m'.advice.afterCallbacks p = machine.advice.afterCallbacks p := kept.afterCallbacks steady
  rw [after, call_adviceAfter (kept.steady steady) _ steps o.type (some o) (kept.maxDepth ▸ shallow), same]
  rcases JoinPoint.foldAfter _ _ _ with ⟨e | v, notes⟩ <;> rfl

end AspectProxy
