import AspectProxy.Machine.Host

/-!
Calls and the local variables around them. A call runs on variables of its own, so what it does is what it does to
the machine; a method that is called with a value for each parameter finds each value under its name.
-/

namespace AspectProxy

@[simp]
theorem getEntry_setEntry_self (key : String) (v : α) (entries : List (String × α)) :
    getEntry key (setEntry key v entries) = some v := by
  induction entries with
  | nil => simp [setEntry, getEntry]
  | cons e rest ih =>
    obtain ⟨k, w⟩ := e
    by_cases hk : k = key
    · simp [setEntry, getEntry, hk]
    · simp [setEntry, getEntry, hk, ih]

theorem getEntry_setEntry_of_ne {key other : String} (h : other ≠ key) (v : α) (entries : List (String × α)) :
    getEntry key (setEntry other v entries) = getEntry key entries := by
  induction entries with
  | nil => simp [setEntry, getEntry, h]
  | cons e rest ih =>
    obtain ⟨k, w⟩ := e
    by_cases hk : k = other
    · simp [setEntry, getEntry, hk, h]
    · simp [setEntry, getEntry, hk, ih]

/-- Entries with each key set to the value at its place. -/
def setEntries : List String → List α → List (String × α) → List (String × α)
  | k :: ks, v :: vs, entries => setEntries ks vs (setEntry k v entries)
  | _, _, entries => entries

theorem getEntry_setEntries_of_not_mem {key : String} {keys : List String} (h : key ∉ keys) (values : List α)
    (entries : List (String × α)) : getEntry key (setEntries keys values entries) = getEntry key entries := by
  induction keys generalizing values entries with
  | nil => rfl
  | cons k ks ih =>
    cases values with
    | nil => rfl
    | cons v vs =>
      simp only [List.mem_cons, not_or] at h
      rw [setEntries, ih h.2, getEntry_setEntry_of_ne (Ne.symm h.1)]

/-- Distinct keys that are set to as many values hold these values. -/
theorem getEntry_setEntries {keys : List String} (distinct : keys.Nodup) {values : List α}
    (length : values.length = keys.length) (entries : List (String × α)) :
    keys.map (getEntry · (setEntries keys values entries)) = values.map some := by
  induction keys generalizing values entries with
  | nil => simp_all
  | cons k ks ih =>
    cases values with
    | nil => simp at length
    | cons v vs =>
      obtain ⟨fresh, distinct⟩ := List.nodup_cons.mp distinct
      rw [List.map_cons, List.map_cons, setEntries, getEntry_setEntries_of_not_mem fresh, getEntry_setEntry_self,
        ih distinct (Nat.succ.inj length)]

/-- Setting a further key leaves what other keys hold. -/
theorem map_getEntry_setEntry {keys : List String} {key : String} (h : key ∉ keys) (v : α)
    (entries : List (String × α)) :
    keys.map (getEntry · (setEntry key v entries)) = keys.map (getEntry · entries) :=
  List.map_congr_left fun k hk => getEntry_setEntry_of_ne (show key ≠ k from fun e => h (e ▸ hk)) v entries

namespace Eval

theorem bind_run (x : Eval α) (f : α → Eval β) (s : Store) :
    (x >>= f) s = match x s with
      | (.ok a, t) => f a t
      | (.error e, t) => (.error e, t) := by
  simp only [bind, ExceptT.bind, ExceptT.mk, StateT.bind]
  rcases x s with ⟨_ | _, t⟩ <;> rfl

theorem bind_ok {x : Eval α} {f : α → Eval β} {s t : Store} {a : α} (h : x s = (.ok a, t)) : (x >>= f) s = f a t := by
  rw [bind_run, h]

theorem bind_error {x : Eval α} {f : α → Eval β} {s t : Store} {e : Stop} (h : x s = (.error e, t)) :
    (x >>= f) s = (.error e, t) := by
  rw [bind_run, h]

theorem bind_stopped {x : Eval α} {f : α → Eval β} {s : Store} {e : Stop} (h : (x s).1 = .error e) :
    ((x >>= f) s).1 = .error e := by
  rw [bind_error (Prod.ext h rfl)]

theorem ofExcept_ok_bind (a : α) (f : α → Eval β) : (ofExcept (.ok a) >>= f) = f a :=
  rfl

theorem getLocal_run {name : String} {v : Value} {s : Store} (h : getEntry name s.locals = some v) :
    getLocal name s = (.ok v, s) := by
  simp only [getLocal, h]

end Eval

open Eval

section Code

variable (calls : Calls) (frame : Frame)

/-- A list of variables is evaluated to what they hold. -/
theorem evalList_vars {names : List String} {values : List Value} {s : Store}
    (held : names.map (getEntry · s.locals) = values.map some) :
    Expr.evalList calls frame (names.map .var) s = (.ok values, s) := by
  induction names generalizing values with
  | nil =>
    obtain rfl : values = [] := by simpa using held.symm
    rfl
  | cons n ns ih =>
    cases values with
    | nil => simp at held
    | cons v vs =>
      simp only [List.map_cons, List.cons.injEq] at held
      rw [List.map_cons, Expr.evalList, Expr.eval, Eval.bind_ok (getLocal_run held.1), Eval.bind_ok (ih held.2)]
      rfl

theorem evalEntries_cons {key : String} {e : Expr} {rest : List (String × Expr)} {v : Value}
    {entries : List (String × Value)} {s t r : Store} (first : e.eval calls frame s = (.ok v, t))
    (others : Expr.evalEntries calls frame rest t = (.ok entries, r)) :
    Expr.evalEntries calls frame ((key, e) :: rest) s = (.ok ((key, v) :: entries), r) := by
  rw [Expr.evalEntries, Eval.bind_ok first, Eval.bind_ok others]
  rfl

/-- A call of a method by its name on an object. -/
def callOn (o : ObjectRef) (method : String) (args : List Value) (depth : Nat) : Eval Value := do
  let (owner, m) ← ofExcept (findMethod o.type method)
  calls.invoke owner m (some o) args depth

/-- A call of a method by its name on the object of the frame. -/
def callSelf (method : String) (args : List Value) : Eval Value := do
  let o ← ofExcept (thisObject frame)
  callOn calls o method args frame.depth

/-- A call of a method as the parent of the frame's class has it, on the object of the frame. -/
def callSuper (method : String) (args : List Value) : Eval Value := do
  let o ← ofExcept (thisObject frame)
  let parent ← ofExcept (parentClass frame)
  let (owner, m) ← ofExcept (findMethod parent method)
  calls.invoke owner m (some o) args frame.depth

section Arguments

variable {args : List Expr} {values : List Value} {s : Store}
  (evaluated : Expr.evalList calls frame args s = (.ok values, s))
include evaluated

theorem eval_callSelf (method : String) :
    Expr.eval calls frame (.call .self method args) s = callSelf calls frame method values s := by
  rw [Expr.eval, Expr.eval, callSelf]
  cases thisObject frame with
  | error e => rfl
  | ok o => exact Eval.bind_ok evaluated

theorem eval_callSuper (method : String) :
    Expr.eval calls frame (.superCall method args) s = callSuper calls frame method values s := by
  rw [Expr.eval, callSuper]
  cases thisObject frame with
  | error e => rfl
  | ok o =>
    cases parentClass frame with
    | error e => rfl
    | ok parent =>
      simp only [ofExcept_ok_bind]
      cases findMethod parent method with
      | error e => rfl
      | ok found => exact Eval.bind_ok evaluated

end Arguments

/-- With a value for each parameter no default is used. -/
theorem bindParameters_full {parameters : List Parameter} {args : List Value}
    (length : args.length = parameters.length) (s : Store) :
    bindParameters calls frame parameters args s =
      (.ok (), { s with locals := setEntries (parameters.map (·.name)) args s.locals }) := by
  induction parameters generalizing args s with
  | nil => rfl
  | cons p ps ih =>
    cases args with
    | nil => simp at length
    | cons v vs =>
      rw [bindParameters]
      exact ih (Nat.succ.inj length) { s with locals := setEntry p.name v s.locals }

end Code

theorem invokeOver_run (calls : Calls) (steps : Nat) (owner : LoadedClass) (m : Method) (this : Option ObjectRef)
    (args : List Value) (depth : Nat) (s : Store) :
    invokeOver calls steps owner m this args depth s =
      if s.machine.maxDepth < depth + 1 then (.error (.failed (.callDepth s.machine.maxDepth)), s)
      else
        match checkArity owner m args with
        | .error e => (.error (.failed e), s)
        | .ok () =>
          match m.runBody calls ⟨this, owner, depth + 1⟩ steps args { s with locals := [] } with
          | (r, t) => (r, { t with locals := s.locals }) := by
  unfold invokeOver
  rw [Eval.bind_ok (x := Eval.getMachine) rfl]
  dsimp only
  split
  · rfl
  · cases h : checkArity owner m args with
    | error e => rfl
    | ok => rfl

namespace Eval

/-- Code that leaves the local variables as they are, and does not depend on them. -/
def Detached (code : Eval α) : Prop :=
  ∀ s, code s = ((Machine.runCode code s.machine).1, ⟨(Machine.runCode code s.machine).2, s.locals⟩)

/-- Detached code with other code behind it. -/
theorem Detached.runCode_bind {x : Eval α} (free : x.Detached) (f : α → Eval β) (m : Machine) :
    Machine.runCode (x >>= f) m = match Machine.runCode x m with
      | (.error e, m') => (.error e, m')
      | (.ok a, m') => Machine.runCode (f a) m' := by
  rw [Machine.runCode, bind_run, free { machine := m }]
  dsimp only
  rcases Machine.runCode x m with ⟨_ | a, m'⟩ <;> rfl

/-- Detached code behind a result that is known. -/
theorem Detached.ofExcept_bind (r : Except EvalError α) {f : α → Eval β} (free : ∀ a, (f a).Detached) :
    (ofExcept r >>= f).Detached := by
  cases r with
  | error e => exact fun _ => rfl
  | ok a => exact free a

end Eval

theorem invokeWithin_detached (steps : Nat) (owner : LoadedClass) (m : Method) (this : Option ObjectRef)
    (args : List Value) (depth : Nat) : (invokeWithin steps owner m this args depth).Detached := by
  intro s
  cases steps with
  | zero => rfl
  | succ steps =>
    rw [invokeWithin]
    unfold Machine.runCode
    rw [invokeOver_run, invokeOver_run]
    by_cases deep : s.machine.maxDepth < depth + 1
    · simp only [deep, if_true]
    · simp only [deep, if_false]
      cases checkArity owner m args with
      | error e => rfl
      | ok => rfl

theorem callOn_detached (steps : Nat) (o : ObjectRef) (method : String) (args : List Value) (depth : Nat) :
    (callOn (Calls.within steps) o method args depth).Detached :=
  .ofExcept_bind _ fun found => invokeWithin_detached steps found.1 found.2 (some o) args depth

theorem callSelf_detached (steps : Nat) (frame : Frame) (method : String) (args : List Value) :
    (callSelf (Calls.within steps) frame method args).Detached :=
  .ofExcept_bind _ fun o => callOn_detached steps o method args frame.depth

theorem callSuper_detached (steps : Nat) (frame : Frame) (method : String) (args : List Value) :
    (callSuper (Calls.within steps) frame method args).Detached :=
  .ofExcept_bind _ fun o => .ofExcept_bind _ fun _ => .ofExcept_bind _ fun found =>
    invokeWithin_detached steps found.1 found.2 (some o) args frame.depth

/-- How a call of a method ends whose body ended in some way. -/
def callResult : Except Stop Flow × Store → Except Stop Value × Machine
  | (.ok flow, s) => (flow.result.mapError .failed, s.machine)
  | (.error e, s) => (.error e, s.machine)

section Bodies

variable (calls : Calls) (frame : Frame) (steps : Nat) (e : Expr) (rest : Block) (s : Store)

theorem callResult_declare (name : String) (type : Option TypeRef) :
    callResult (Statement.runBlock calls frame steps (.declare name type e :: rest) s) =
      match e.eval calls frame s with
      | (.error x, t) => (.error x, t.machine)
      | (.ok v, t) =>
        callResult (Statement.runBlock calls frame steps rest { t with locals := setEntry name v t.locals }) := by
  rw [Statement.runBlock, Statement.run, Eval.bind_run, Eval.bind_run]
  rcases e.eval calls frame s with ⟨_ | _, t⟩ <;> rfl

theorem callResult_expr :
    callResult (Statement.runBlock calls frame steps (.expr e :: rest) s) =
      match e.eval calls frame s with
      | (.error x, t) => (.error x, t.machine)
      | (.ok _, t) => callResult (Statement.runBlock calls frame steps rest t) := by
  rw [Statement.runBlock, Statement.run, Eval.bind_run, Eval.bind_run]
  rcases e.eval calls frame s with ⟨_ | _, t⟩ <;> rfl

theorem callResult_return :
    callResult (Statement.runBlock calls frame steps (.return (some e) :: rest) s) =
      ((e.eval calls frame s).1, (e.eval calls frame s).2.machine) := by
  rw [Statement.runBlock, Statement.run, Eval.bind_run, Eval.bind_run]
  rcases e.eval calls frame s with ⟨_ | _, t⟩ <;> rfl

end Bodies

/-- The code of a method binds the parameters and runs the body. -/
theorem runCode_runBody (calls : Calls) (frame : Frame) (steps : Nat) (m : Method) (args : List Value)
    (machine : Machine) :
    Machine.runCode (m.runBody calls frame steps args) machine =
      match bindParameters calls frame m.parameters args ⟨machine, []⟩ with
      | (.error e, t) => (.error e, t.machine)
      | (.ok (), t) => callResult (Statement.runBlock calls frame steps m.body t) := by
  rw [Machine.runCode, Method.runBody, Eval.bind_run]
  rcases bindParameters _ _ _ _ _ with ⟨e | ⟨⟩, t⟩
  · rfl
  · dsimp only
    rw [Eval.bind_run]
    generalize Statement.runBlock _ _ _ _ _ = ended
    obtain ⟨_ | flow, t⟩ := ended <;> rfl

/-- A call binds the parameters and runs the body, if it takes the arguments and calls do not nest too deeply. -/
theorem call_run {m : Method} {args : List Value} {owner : LoadedClass} (arity : checkArity owner m args = .ok ())
    (steps : Nat) (this : Option ObjectRef) {depth : Nat} {machine : Machine}
    (shallow : depth + 1 ≤ machine.maxDepth) :
    Machine.runCode (invokeWithin (steps + 1) owner m this args depth) machine =
      match bindParameters (Calls.within steps) ⟨this, owner, depth + 1⟩ m.parameters args ⟨machine, []⟩ with
      | (.error e, t) => (.error e, t.machine)
      | (.ok (), t) =>
        callResult (Statement.runBlock (Calls.within steps) ⟨this, owner, depth + 1⟩ steps m.body t) := by
  rw [← runCode_runBody]
  unfold Machine.runCode
  rw [invokeWithin, invokeOver_run, if_neg (Nat.not_lt.mpr shallow)]
  simp only [arity]
  rfl

/-- A call with a value for each parameter runs the body on these values, if calls do not nest too deeply. -/
theorem call_full {m : Method} {args : List Value} (length : args.length = m.parameters.length) (steps : Nat)
    (owner : LoadedClass) (this : Option ObjectRef) {depth : Nat} {machine : Machine}
    (shallow : depth + 1 ≤ machine.maxDepth) :
    Machine.runCode (invokeWithin (steps + 1) owner m this args depth) machine =
      callResult (Statement.runBlock (Calls.within steps) ⟨this, owner, depth + 1⟩ steps m.body
        ⟨machine, setEntries (m.parameters.map (·.name)) args []⟩) := by
  have arity : checkArity owner m args = .ok () := by
    rw [checkArity, if_pos]
    exact ⟨length ▸ List.countP_le_length, Nat.le_of_eq length⟩
  rw [call_run arity steps this shallow, bindParameters_full _ _ length]

/-- Making an object, of a class that can be instantiated: its properties are set, and its constructor runs. -/
def makeObject (calls : Calls) (c : LoadedClass) (args : List Value) (depth : Nat) : Eval Value := do
  let o ← Eval.alloc c
  fillFields calls o depth c.lineage
  match c.findMethod constructorName with
  | some (owner, m) =>
    let _ ← calls.invoke owner m (some o) args depth
    return .object o
  | none =>
    if args.isEmpty then return .object o
    else Eval.fail (.arity (c.name.text ++ "::" ++ constructorName) 0 0 args.length)

theorem constructOver_eq (calls : Calls) (c : LoadedClass) (args : List Value) (depth : Nat) :
    constructOver calls c args depth =
      if c.own.isTrait then Eval.fail (.definition (.notInstantiable c.name.text)) >>= fun _ : PUnit =>
        makeObject calls c args depth
      else makeObject calls c args depth :=
  rfl

end AspectProxy
