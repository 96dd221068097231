import AspectProxy.Proofs.Machine.Locals
import AspectProxy.Proofs.Machine.LoadFrame
import AspectProxy.Proofs.Printing.WellFormed

/-!
Runs under different limits. Code that has more steps, fewer calls around it, or room for more calls within each other
does the same unless the limits cut it short. The same holds of an expression in the code of another class, as long as
both classes give its calls the same targets.
-/

namespace AspectProxy

/-- Whether a run stops for a limit: it is out of steps, or its calls nest too deeply. -/
def Stop.AtLimit : Stop → Prop
  | .outOfSteps => True
  | .failed (.callDepth _) => True
  | .failed _ => False

/-- The result of a run that a limit cut short. -/
def CutShort : Except Stop α → Prop
  | .error e => e.AtLimit
  | .ok _ => False

/-- The store with room for more calls within each other. -/
def Store.deepened (k : Nat) (s : Store) : Store :=
  { s with machine := s.machine.deepened k }

namespace Eval

/-- Code that does not depend on how deeply calls may nest. -/
def Unbounded (k : Nat) (x : Eval α) : Prop :=
  ∀ s, x (s.deepened k) = ((x s).1, (x s).2.deepened k)

/-- Code that does with room for `k` more calls what other code does, unless the other is cut short. -/
def Follows (k : Nat) (x y : Eval α) : Prop :=
  ∀ s, CutShort (x s).1 ∨ y (s.deepened k) = ((x s).1, (x s).2.deepened k)

end Eval

open Eval

section Unbounded

variable {k : Nat}

namespace Eval.Unbounded

theorem pure (a : α) : Unbounded k (Pure.pure a : Eval α) :=
  fun _ => rfl

theorem fail (e : EvalError) : Unbounded k (Eval.fail e : Eval α) :=
  fun _ => rfl

theorem ofExcept (r : Except EvalError α) : Unbounded k (Eval.ofExcept r) :=
  fun _ => rfl

theorem bind {x : Eval α} {f : α → Eval β} (first : Unbounded k x) (rest : ∀ a, Unbounded k (f a)) :
    Unbounded k (x >>= f) := by
  intro s
  rw [bind_run, bind_run, first s]
  rcases x s with ⟨_ | a, t⟩
  · rfl
  · exact rest a t

/-- Code that reads of the machine what more room for calls leaves as it is. -/
theorem getMachine_bind {f : Machine → Eval α} (same : ∀ m, f (m.deepened k) = f m) (rest : ∀ m, Unbounded k (f m)) :
    Unbounded k (getMachine >>= f) := by
  intro s
  rw [bind_ok (x := getMachine) rfl, bind_ok (x := getMachine) rfl, ← rest s.machine s]
  exact congrFun (same s.machine) _

theorem getLocal (name : String) : Unbounded k (Eval.getLocal name) := by
  intro s
  have locals : (s.deepened k).locals = s.locals := rfl
  unfold Eval.getLocal
  rw [locals]
  split <;> rfl

theorem setLocal (name : String) (v : Value) : Unbounded k (Eval.setLocal name v) :=
  fun _ => rfl

theorem alloc (c : LoadedClass) : Unbounded k (Eval.alloc c) :=
  fun _ => rfl

theorem setField (o : ObjectRef) (field : String) (v : Value) : Unbounded k (Eval.setField o field v) :=
  fun _ => rfl

theorem loadClass (name : ClassName) : Unbounded k (Eval.loadClass name) := by
  intro s
  have loaded : Machine.load name (s.deepened k).machine = _ := Machine.load_unbounded name s.machine
  unfold Eval.loadClass onMachine
  rw [loaded]
  rfl

end Eval.Unbounded

theorem advise_unbounded (kind : AdviceKind) (context result : Value) : Unbounded k (advise kind context result) := by
  refine .bind (.ofExcept _) fun point => .getMachine_bind (fun _ => rfl) fun m => ?_
  cases kind with
  | before =>
    refine .bind (fun _ => rfl) fun _ => ?_
    split
    · exact .pure _
    · exact .fail _
  | after =>
    refine .bind (fun _ => rfl) fun _ => ?_
    split
    · exact .pure _
    · exact .fail _

theorem callFunction_unbounded (name : String) (args : List Value) : Unbounded k (callFunction name args) := by
  unfold callFunction
  split
  · exact .bind (.ofExcept _) fun _ => advise_unbounded _ _ _
  · exact .bind (.ofExcept _) fun _ => .pure _
  · exact .pure _
  · exact .bind (fun _ => rfl) fun _ => .pure _
  · exact .ofExcept _
  · exact .pure _
  · exact .ofExcept _
  · split
    · exact .fail _
    · split <;> exact .fail _

theorem resolveClass_unbounded (frame : Frame) (reference : String) : Unbounded k (resolveClass frame reference) := by
  unfold resolveClass
  split
  · exact .pure _
  · dsimp only
    split
    · exact .loadClass _
    · exact .fail _

theorem readProperty_unbounded (name : String) (v : Value) : Unbounded k (readProperty name v) := by
  unfold readProperty
  split
  · refine .getMachine_bind (fun _ => rfl) fun m => ?_
    split
    · exact .pure _
    · exact .fail _
  · exact .pure _
  · exact .fail _

end Unbounded

namespace Eval.Follows

variable {k : Nat}

theorem unbounded {x : Eval α} (h : x.Unbounded k) : x.Follows k x :=
  fun s => .inr (h s)

theorem pure (a : α) : Follows k (Pure.pure a : Eval α) (Pure.pure a) :=
  unbounded (.pure a)

theorem fail (e : EvalError) : Follows k (Eval.fail e : Eval α) (Eval.fail e) :=
  unbounded (.fail e)

theorem ofExcept (r : Except EvalError α) : Follows k (Eval.ofExcept r) (Eval.ofExcept r) :=
  unbounded (.ofExcept r)

theorem bind {x y : Eval α} {f g : α → Eval β} (first : x.Follows k y) (rest : ∀ a, (f a).Follows k (g a)) :
    (x >>= f).Follows k (y >>= g) := by
  intro s
  rw [bind_run, bind_run]
  rcases first s with cut | same
  · rcases hx : x s with ⟨e | a, t⟩
    · rw [hx] at cut
      exact .inl cut
    · rw [hx] at cut
      exact cut.elim
  · rw [same]
    rcases x s with ⟨e | a, t⟩
    · exact .inr rfl
    · exact rest a t

/-- The steps that both begin with. -/
theorem after {x : Eval α} {f g : α → Eval β} (first : x.Unbounded k) (rest : ∀ a, (f a).Follows k (g a)) :
    (x >>= f).Follows k (x >>= g) :=
  bind (unbounded first) rest

theorem withLocals {x y : Eval α} (h : x.Follows k y) : (Eval.withLocals x).Follows k (Eval.withLocals y) := by
  intro s
  unfold Eval.withLocals
  rcases h { s with locals := [] } with cut | same
  · exact .inl cut
  · refine .inr ?_
    have cleared : { s.deepened k with locals := [] } = Store.deepened k { s with locals := [] } := rfl
    rw [cleared, same]
    rfl

theorem outOfSteps (y : Eval α) : Follows k (throw .outOfSteps) y :=
  fun _ => .inl trivial

/-- What a run does, it does with more room for calls unless it is cut short. -/
theorem runCode {x y : Eval α} (h : x.Follows k y) (m : Machine) (ends : ¬CutShort (Machine.runCode x m).1) :
    Machine.runCode y (m.deepened k) = ((Machine.runCode x m).1, (Machine.runCode x m).2.deepened k) := by
  have same := (h { machine := m }).resolve_left ends
  have deep : Store.deepened k { machine := m } = { machine := m.deepened k } := rfl
  rw [deep] at same
  unfold Machine.runCode
  rw [same]
  rfl

/-- Two runs that one code follows agree. -/
theorem agree {x y z : Eval α} (first : x.Follows 0 z) (second : y.Follows 0 z) (m : Machine) :
    CutShort (Machine.runCode x m).1 ∨ CutShort (Machine.runCode y m).1 ∨ Machine.runCode x m = Machine.runCode y m := by
  by_cases cut : CutShort (Machine.runCode x m).1
  · exact .inl cut
  by_cases cut' : CutShort (Machine.runCode y m).1
  · exact .inr (.inl cut')
  · exact .inr (.inr ((first.runCode m cut).symm.trans (second.runCode m cut')))

end Eval.Follows

/-- Calls that follow others with room for `k` more calls, and so with at most `k` more calls around them. -/
structure Calls.Follow (k : Nat) (calls calls' : Calls) : Prop where
  invoke : ∀ owner m this args {depth depth'}, depth' ≤ depth + k →
    (calls.invoke owner m this args depth).Follows k (calls'.invoke owner m this args depth')
  construct : ∀ c args {depth depth'}, depth' ≤ depth + k →
    (calls.construct c args depth).Follows k (calls'.construct c args depth')

/-- Frames with one object and one meaning of references, the second under at most `k` more calls. -/
structure Frame.Alike (k : Nat) (f g : Frame) : Prop where
  this : g.this = f.this
  resolve : g.owner.own.scope.resolve = f.owner.own.scope.resolve
  depth : g.depth ≤ f.depth + k

/-- The method that `super` and a name mean in the code of a class. -/
def superMethod (c : LoadedClass) (method : String) : Except EvalError (LoadedClass × Method) := do
  findMethod (← parentClass ⟨none, c, 0⟩) method

/-- Whether an expression by itself means the same class or method in the code of two classes, as far as it depends on
the class that it stands in. -/
def Expr.SameTarget (c d : LoadedClass) : Expr → Prop
  | .superCall method _ => superMethod c method = superMethod d method
  | .staticCall className method _ => className = selfClass → findMethod c method = findMethod d method
  | .create className _ => className = selfClass → c = d
  | _ => True

theorem Expr.SameTarget.refl (c : LoadedClass) (e : Expr) : e.SameTarget c c := by
  cases e <;> first | rfl | exact fun _ => rfl | trivial

theorem resolveClass_eq {k : Nat} {f g : Frame} (alike : f.Alike k g) {reference : String} (other : reference ≠ selfClass) :
    resolveClass g reference = resolveClass f reference := by
  unfold resolveClass
  rw [if_neg other, if_neg other, alike.resolve]

section Code

variable {k : Nat} {calls calls' : Calls} {f g : Frame}

theorem superCall_follows (follow : calls.Follow k calls') (alike : f.Alike k g) {method : String}
    {args args' : Eval (List Value)}
    (same : superMethod f.owner method = superMethod g.owner method) (evaluated : args.Follows k args') :
    Follows k
      (do
        let this ← ofExcept (thisObject f)
        let parent ← ofExcept (parentClass f)
        let (owner, m) ← ofExcept (findMethod parent method)
        let args ← args
        calls.invoke owner m (some this) args f.depth)
      (do
        let this ← ofExcept (thisObject g)
        let parent ← ofExcept (parentClass g)
        let (owner, m) ← ofExcept (findMethod parent method)
        let args ← args'
        calls'.invoke owner m (some this) args g.depth) := by
  have this : thisObject g = thisObject f := by
    unfold thisObject
    rw [alike.this]
  -- Finding the parent and the method in it are one step.
  have joined : ∀ (h : Frame) (call : LoadedClass × Method → Eval Value),
      (do
        let parent ← ofExcept (parentClass h)
        let found ← ofExcept (findMethod parent method)
        call found) = ofExcept (superMethod h.owner method) >>= call := by
    intro h call
    unfold superMethod parentClass
    dsimp only
    cases h.owner.parent? with
    | none => rfl
    | some parent => rfl
  rw [this]
  refine .after (.ofExcept _) fun o => ?_
  rw [joined f, joined g, same]
  exact .after (.ofExcept _) fun found => .bind evaluated fun args => follow.invoke _ _ _ _ alike.depth

mutual

theorem Expr.eval_follows (follow : calls.Follow k calls') (alike : f.Alike k g) :
    ∀ {e : Expr}, e.Every (Expr.SameTarget f.owner g.owner) → (e.eval calls f).Follows k (e.eval calls' g)
  | .int _, _ | .float _, _ | .str _, _ | .bool _, _ | .null, _ => .pure _
  | .var name, _ => .unbounded (.getLocal name)
  | .self, _ => by
    rw [Expr.eval, Expr.eval, thisObject, thisObject, alike.this]
    exact .bind (.ofExcept _) fun _ => .pure _
  | .list _, same => .bind (Expr.evalList_follows follow alike same.2) fun _ => .pure _
  | .map _, same => .bind (Expr.evalEntries_follows follow alike same.2) fun _ => .pure _
  | .binary op left right, same => by
    have hr := Expr.eval_follows follow alike same.2.2
    refine .bind (Expr.eval_follows follow alike same.2.1) fun l => ?_
    split
    · split
      · exact .bind hr fun _ => .pure _
      · exact .pure _
    · split
      · exact .pure _
      · exact .bind hr fun _ => .pure _
    · exact .bind hr fun _ => .ofExcept _
  | .unary _ _, same => .bind (Expr.eval_follows follow alike same.2) fun _ => .ofExcept _
  | .property _ name, same =>
    .bind (Expr.eval_follows follow alike same.2) fun v => .unbounded (readProperty_unbounded name v)
  | .index _ _, same =>
    .bind (Expr.eval_follows follow alike same.2.1) fun _ => .bind (Expr.eval_follows follow alike same.2.2) fun _ =>
      .ofExcept _
  | .call _ _ _, same =>
    .bind (Expr.eval_follows follow alike same.2.1) fun _ =>
      .bind (Expr.evalList_follows follow alike same.2.2) fun _ =>
        .after (.ofExcept _) fun _ => .after (.ofExcept _) fun _ => follow.invoke _ _ _ _ alike.depth
  | .superCall _ _, same => superCall_follows follow alike same.1 (Expr.evalList_follows follow alike same.2)
  | .staticCall className method args, same => by
    have ha := Expr.evalList_follows follow alike same.2
    have call : ∀ found : LoadedClass × Method, Follows k
        (if found.2.modifiers.isStatic then do
          let args ← Expr.evalList calls f args
          calls.invoke found.1 found.2 none args f.depth
        else Eval.fail (.misuse (.notStatic found.1.name.text method)))
        (if found.2.modifiers.isStatic then do
          let args ← Expr.evalList calls' g args
          calls'.invoke found.1 found.2 none args g.depth
        else Eval.fail (.misuse (.notStatic found.1.name.text method))) := by
      intro found
      split
      · exact .bind ha fun _ => follow.invoke _ _ _ _ alike.depth
      · exact .fail _
    by_cases self : className = selfClass
    · subst self
      have found : findMethod f.owner method = findMethod g.owner method := same.1 rfl
      show Follows k (ofExcept (findMethod f.owner method) >>= _) (ofExcept (findMethod g.owner method) >>= _)
      rw [found]
      exact .after (.ofExcept _) call
    · rw [Expr.eval, Expr.eval, resolveClass_eq alike self]
      exact .after (resolveClass_unbounded f className) fun c => .after (.ofExcept _) call
  | .functionCall name _, same =>
    .bind (Expr.evalList_follows follow alike same.2) fun args => .unbounded (callFunction_unbounded name args)
  | .create className args, same => by
    have make : ∀ c, Follows k
        (Expr.evalList calls f args >>= fun args => calls.construct c args f.depth)
        (Expr.evalList calls' g args >>= fun args => calls'.construct c args g.depth) :=
      fun c => .bind (Expr.evalList_follows follow alike same.2) fun _ => follow.construct _ _ alike.depth
    by_cases self : className = selfClass
    · subst self
      have owner : f.owner = g.owner := same.1 rfl
      show Follows k (Pure.pure f.owner >>= _) (Pure.pure g.owner >>= _)
      rw [owner]
      exact .after (.pure _) make
    · rw [Expr.eval, Expr.eval, resolveClass_eq alike self]
      exact .after (resolveClass_unbounded f className) make

theorem Expr.evalList_follows (follow : calls.Follow k calls') (alike : f.Alike k g) :
    ∀ {es : List Expr}, Expr.EveryItem (Expr.SameTarget f.owner g.owner) es →
      (Expr.evalList calls f es).Follows k (Expr.evalList calls' g es)
  | [], _ => .pure _
  | _ :: _, same =>
    .bind (Expr.eval_follows follow alike same.1) fun _ =>
      .bind (Expr.evalList_follows follow alike same.2) fun _ => .pure _

theorem Expr.evalEntries_follows (follow : calls.Follow k calls') (alike : f.Alike k g) :
    ∀ {es : List (String × Expr)}, Expr.EveryEntry (Expr.SameTarget f.owner g.owner) es →
      (Expr.evalEntries calls f es).Follows k (Expr.evalEntries calls' g es)
  | [], _ => .pure _
  | (_, _) :: _, same =>
    .bind (Expr.eval_follows follow alike same.1) fun _ =>
      .bind (Expr.evalEntries_follows follow alike same.2) fun _ => .pure _

end

end Code

/-- The code of one class follows itself. -/
theorem Frame.Alike.deeper (this : Option ObjectRef) (owner : LoadedClass) {k depth depth' : Nat}
    (h : depth' ≤ depth + k) : Frame.Alike k ⟨this, owner, depth⟩ ⟨this, owner, depth'⟩ :=
  ⟨rfl, rfl, h⟩

section Bodies

variable {k steps steps' : Nat} {calls calls' : Calls} {f g : Frame}

section Own

variable (follow : calls.Follow k calls') (alike : f.Alike k g) (owner : g.owner = f.owner)
include follow alike owner

theorem Expr.eval_follows_own (e : Expr) : (e.eval calls f).Follows k (e.eval calls' g) :=
  Expr.eval_follows follow alike (e.every_of_forall (owner ▸ Expr.SameTarget.refl f.owner))

theorem Expr.assign_follows : ∀ (e : Expr) (v : Value), (e.assign calls f v).Follows k (e.assign calls' g v)
  | .var name, v => .after (.getLocal name) fun _ => .unbounded (.setLocal name v)
  | .property object name, v => by
    refine .bind (object.eval_follows_own follow alike owner) fun target => ?_
    cases target with
    | object o => exact .unbounded (.setField o name v)
    | map entries => exact object.assign_follows _
    | _ => exact .fail _
  | .index object key, v =>
    .bind (key.eval_follows_own follow alike owner) fun _ =>
      .bind (object.eval_follows_own follow alike owner) fun _ => .after (.ofExcept _) fun _ => object.assign_follows _
  | .int _, _ | .float _, _ | .str _, _ | .bool _, _ | .null, _ | .self, _ | .list _, _ | .map _, _
  | .binary .., _ | .unary .., _ | .call .., _ | .superCall .., _ | .staticCall .., _ | .functionCall .., _
  | .create .., _ => .fail _

end Own

theorem whileLoop_follows {condition condition' : Eval Value} {body body' : Eval Flow}
    (hc : condition.Follows k condition') (hb : body.Follows k body') (more : steps ≤ steps') :
    (whileLoop condition body steps).Follows k (whileLoop condition' body' steps') := by
  induction steps generalizing steps' with
  | zero => exact .outOfSteps _
  | succ steps ih =>
    obtain ⟨steps', rfl⟩ : ∃ n, steps' = n + 1 := ⟨steps' - 1, by omega⟩
    have again := ih (Nat.le_of_succ_le_succ more)
    refine .bind hc fun v => ?_
    split
    · refine .bind hb fun flow => ?_
      cases flow with
      | «break» => exact .pure _
      | «return» v => exact .pure _
      | next | «continue» => exact again
    · exact .pure _

theorem forLoop_follows (name : String) {body body' : Eval Flow} (hb : body.Follows k body') (vs : List Value) :
    (forLoop name body vs).Follows k (forLoop name body' vs) := by
  induction vs with
  | nil => exact .pure _
  | cons v vs ih =>
    refine .after (.setLocal name v) fun _ => .bind hb fun flow => ?_
    cases flow with
    | «break» => exact .pure _
    | «return» v => exact .pure _
    | next | «continue» => exact ih

mutual

theorem Statement.run_follows (follow : calls.Follow k calls') (alike : f.Alike k g)
    (owner : g.owner = f.owner) (more : steps ≤ steps') :
    ∀ s : Statement, (s.run calls f steps).Follows k (s.run calls' g steps')
  | .declare name _ value =>
    .bind (value.eval_follows_own follow alike owner) fun v => .after (.setLocal name v) fun _ => .pure _
  | .assign target value =>
    .bind (value.eval_follows_own follow alike owner) fun v =>
      .bind (target.toExpr.assign_follows follow alike owner v) fun _ => .pure _
  | .expr e => .bind (e.eval_follows_own follow alike owner) fun _ => .pure _
  | .return none => .pure _
  | .return (some e) => .bind (e.eval_follows_own follow alike owner) fun _ => .pure _
  | .cond condition thenBranch none => by
    have ht := Statement.runBlock_follows follow alike owner more thenBranch
    refine .bind (condition.eval_follows_own follow alike owner) fun _ => ?_
    split
    · exact ht
    · exact .pure _
  | .cond condition thenBranch (some elseBranch) => by
    have ht := Statement.runBlock_follows follow alike owner more thenBranch
    have he := Statement.runBlock_follows follow alike owner more elseBranch
    refine .bind (condition.eval_follows_own follow alike owner) fun _ => ?_
    split
    · exact ht
    · exact he
  | .while condition body =>
    whileLoop_follows (condition.eval_follows_own follow alike owner)
      (Statement.runBlock_follows follow alike owner more body) more
  | .for name iterable body =>
    .bind (iterable.eval_follows_own follow alike owner) fun _ => .after (.ofExcept _) fun items =>
      forLoop_follows name (Statement.runBlock_follows follow alike owner more body) items
  | .break | .continue => .pure _

theorem Statement.runBlock_follows (follow : calls.Follow k calls') (alike : f.Alike k g)
    (owner : g.owner = f.owner) (more : steps ≤ steps') :
    ∀ b : Block, (Statement.runBlock calls f steps b).Follows k (Statement.runBlock calls' g steps' b)
  | [] => .pure _
  | s :: rest => by
    have hr := Statement.runBlock_follows follow alike owner more rest
    refine .bind (s.run_follows follow alike owner more) fun flow => ?_
    cases flow with
    | next => exact hr
    | _ => exact .pure _

end

variable (follow : calls.Follow k calls') (alike : f.Alike k g)
include follow alike

/-- Parameters are bound alike if their defaults have the same targets. -/
theorem bindParameters_follows : ∀ {ps : List Parameter} (args : List Value),
    (∀ p ∈ ps.drop args.length, p.Every (Expr.SameTarget f.owner g.owner)) →
      (bindParameters calls f ps args).Follows k (bindParameters calls' g ps args)
  | [], _, _ => .pure _
  | p :: _, v :: vs, same => .after (.setLocal p.name v) fun _ => bindParameters_follows vs same
  | p :: ps, [], same => by
    have rest : ∀ v, Eval.Follows k
        (do setLocal p.name v; bindParameters calls f ps [])
        (do setLocal p.name v; bindParameters calls' g ps []) :=
      fun v => .after (.setLocal p.name v) fun _ =>
        bindParameters_follows [] fun q hq => same q (List.mem_cons_of_mem _ hq)
    rw [bindParameters, bindParameters]
    cases default : p.default with
    | none => exact .after (.pure _) rest
    | some e => exact .bind (Expr.eval_follows follow alike (same p List.mem_cons_self e default)) rest

variable (owner : g.owner = f.owner)
include owner

theorem setProperties_follows (o : ObjectRef) (ps : List Property) :
    (setProperties calls f o ps).Follows k (setProperties calls' g o ps) := by
  induction ps with
  | nil => exact .pure _
  | cons p ps ih =>
    have rest : ∀ v, Eval.Follows k
        (do setField o p.name v; setProperties calls f o ps)
        (do setField o p.name v; setProperties calls' g o ps) :=
      fun v => .after (.setField o p.name v) fun _ => ih
    rw [setProperties, setProperties]
    cases p.default with
    | none => exact .after (.pure _) rest
    | some e => exact .bind (e.eval_follows_own follow alike owner) rest

theorem Method.runBody_follows (more : steps ≤ steps') (m : Method) (args : List Value) :
    (m.runBody calls f steps args).Follows k (m.runBody calls' g steps' args) :=
  .bind (bindParameters_follows follow alike args fun _ _ e _ => e.every_of_forall (owner ▸ Expr.SameTarget.refl f.owner))
    fun _ => .bind (Statement.runBlock_follows follow alike owner more m.body) fun _ => .ofExcept _

end Bodies

section Calls

variable {k : Nat} {calls calls' : Calls} (follow : calls.Follow k calls')
include follow

theorem invokeOver_follows {steps steps' : Nat} (more : steps ≤ steps') (owner : LoadedClass) (m : Method)
    (this : Option ObjectRef) (args : List Value) {depth depth' : Nat} (within : depth' ≤ depth + k) :
    (invokeOver calls steps owner m this args depth).Follows k (invokeOver calls' steps' owner m this args depth') := by
  intro s
  by_cases deep : s.machine.maxDepth < depth + 1
  · refine .inl ?_
    unfold invokeOver
    rw [Eval.bind_ok (x := Eval.getMachine) rfl]
    dsimp only
    rw [if_pos deep]
    exact trivial
  · have inner : depth' + 1 ≤ depth + 1 + k := by omega
    have room : ¬(s.deepened k).machine.maxDepth < depth' + 1 := by
      have more : (s.deepened k).machine.maxDepth = s.machine.maxDepth + k := rfl
      omega
    have body : Eval.Follows k
        (do
          ofExcept (checkArity owner m args)
          withLocals (m.runBody calls ⟨this, owner, depth + 1⟩ steps args))
        (do
          ofExcept (checkArity owner m args)
          withLocals (m.runBody calls' ⟨this, owner, depth' + 1⟩ steps' args)) :=
      .after (.ofExcept _) fun _ => .withLocals
        (m.runBody_follows follow (.deeper this owner inner) rfl more args)
    unfold invokeOver
    rw [Eval.bind_ok (x := Eval.getMachine) rfl, Eval.bind_ok (x := Eval.getMachine) rfl]
    dsimp only
    rw [if_neg deep, if_neg room]
    exact body s

theorem fillFields_follows (o : ObjectRef) {depth depth' : Nat} (within : depth' ≤ depth + k)
    (lineage : List LoadedClass) : (fillFields calls o depth lineage).Follows k (fillFields calls' o depth' lineage) := by
  induction lineage with
  | nil => exact .pure _
  | cons owner rest ih =>
    exact .bind (.withLocals (setProperties_follows follow (.deeper (some o) owner within) rfl o _)) fun _ => ih

theorem makeObject_follows (c : LoadedClass) (args : List Value) {depth depth' : Nat} (within : depth' ≤ depth + k) :
    (makeObject calls c args depth).Follows k (makeObject calls' c args depth') := by
  refine .after (.alloc c) fun o => .bind (fillFields_follows follow o within c.lineage) fun _ => ?_
  split
  · exact .bind (follow.invoke _ _ _ _ within) fun _ => .pure _
  · split
    · exact .pure _
    · exact .fail _

theorem constructOver_follows (c : LoadedClass) (args : List Value) {depth depth' : Nat} (within : depth' ≤ depth + k) :
    (constructOver calls c args depth).Follows k (constructOver calls' c args depth') := by
  rw [constructOver_eq, constructOver_eq]
  split
  · exact .after (.fail _) fun _ => makeObject_follows follow c args within
  · exact makeObject_follows follow c args within

end Calls

/-- Calls with more steps and room for more calls do the same, unless a limit cuts them short. -/
theorem Calls.within_follow {k steps steps' : Nat} (more : steps ≤ steps') :
    (Calls.within steps).Follow k (Calls.within steps') := by
  induction steps generalizing steps' with
  | zero => exact ⟨fun _ _ _ _ _ _ _ => .outOfSteps _, fun _ _ _ _ _ => .outOfSteps _⟩
  | succ steps ih =>
    obtain ⟨steps', rfl⟩ : ∃ n, steps' = n + 1 := ⟨steps' - 1, by omega⟩
    have more := Nat.le_of_succ_le_succ more
    exact ⟨fun owner m this args _ _ within => invokeOver_follows (ih more) more owner m this args within,
      fun c args _ _ within => constructOver_follows (ih more) c args within⟩

end AspectProxy
