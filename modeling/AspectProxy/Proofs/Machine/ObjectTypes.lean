import AspectProxy.Proofs.Machine.LoadFrame
import AspectProxy.Proofs.Machine.Locals
import AspectProxy.Proofs.Machine.Objects

/-!
The classes of objects through a run. A list gives each object on the heap its class; every reference that a program can
get hold of has the class of the list, and making an object makes the list longer. So no run gives an object that was
there another class.
-/

namespace AspectProxy

/-- Whether a reference has the class that a list gives the object. -/
def ObjectRef.Of (types : List LoadedClass) (o : ObjectRef) : Prop :=
  types[o.id]? = some o.type

theorem ObjectRef.Of.mono {types more : List LoadedClass} {o : ObjectRef} (h : o.Of types) (longer : types <+: more) :
    o.Of more := by
  obtain ⟨rest, rfl⟩ := longer
  obtain ⟨bound, -⟩ := List.getElem?_eq_some_iff.mp h
  unfold Of
  rw [List.getElem?_append_left bound]
  exact h

namespace Value

/-- A value whose objects have the classes of a list. -/
def Typed (types : List LoadedClass) (v : Value) : Prop :=
  v.References (·.Of types)

theorem Typed.mono {types more : List LoadedClass} {v : Value} (h : v.Typed types) (longer : types <+: more) :
    v.Typed more :=
  references_imp (fun _ of => of.mono longer) h

theorem typed_list {types : List LoadedClass} {items : List Value} :
    (list items).Typed types ↔ ∀ v ∈ items, v.Typed types :=
  references_list

theorem typed_map {types : List LoadedClass} {entries : List (String × Value)} :
    (map entries).Typed types ↔ ∀ e ∈ entries, e.2.Typed types :=
  references_map

end Value

/-- A machine whose objects have the classes of a list, in the order they were made; advice adds no others. -/
structure Machine.Typed (types : List LoadedClass) (m : Machine) : Prop where
  size : types.length = m.heap.objects.size
  heap : m.heap.All (Value.Typed types)
  advice : ∀ more, types <+: more → m.advice.All (Callback.Gives (Value.Typed more))

structure Store.Typed (types : List LoadedClass) (s : Store) : Prop where
  machine : s.machine.Typed types
  locals : ∀ e ∈ s.locals, e.2.Typed types

namespace Machine.Typed

variable {types : List LoadedClass} {m m' : Machine}

theorem framed (h : m.Typed types) (same : m.SameRun m') : m'.Typed types :=
  ⟨by rw [same.heap, h.size], by rw [same.heap]; exact h.heap, by rw [same.advice]; exact h.advice⟩

theorem alloc (h : m.Typed types) (c : LoadedClass) :
    Typed (types ++ [c]) { m with heap := (m.heap.alloc c).2 } ∧ (m.heap.alloc c).1.Of (types ++ [c]) := by
  have longer : types <+: types ++ [c] := List.prefix_append types [c]
  constructor
  · constructor
    · simp [Heap.alloc, h.size]
    · exact Heap.All.alloc (fun o field there => (h.heap o field there).mono longer) c
    · exact fun more further => h.advice more (longer.trans further)
  · simp [ObjectRef.Of, Heap.alloc, ← h.size]

theorem set (h : m.Typed types) (o : ObjectRef) (field : String) {v : Value} (hv : v.Typed types) :
    Typed types { m with heap := m.heap.set o field v } where
  size := by simp [Heap.set, h.size]
  heap := h.heap.set o field hv
  advice := h.advice

end Machine.Typed

/-- Code that runs on a store whose objects have the classes of a list, and of any longer one, and leaves a store whose
objects have the same classes, the new ones behind; what it gives is as `Q` says of the longer list. -/
def TypeSafe (types : List LoadedClass) (Q : List LoadedClass → α → Prop) (code : Eval α) : Prop :=
  ∀ now, types <+: now → ∀ s : Store, s.Typed now → ∃ later, now <+: later ∧ (code s).2.Typed later ∧
    ∀ a, (code s).1 = .ok a → Q later a

open Eval

namespace TypeSafe

variable {types : List LoadedClass} {Q : List LoadedClass → α → Prop} {R : List LoadedClass → β → Prop}

theorem mono {more : List LoadedClass} {code : Eval α} (h : TypeSafe types Q code) (longer : types <+: more) :
    TypeSafe more Q code :=
  fun now further => h now (longer.trans further)

/-- Code that leaves the store as it is. -/
theorem still {code : Eval α} (same : ∀ s, (code s).2 = s)
    (gives : ∀ now, types <+: now → ∀ s : Store, s.Typed now → ∀ a, (code s).1 = .ok a → Q now a) : TypeSafe types Q code := by
  intro now longer s typed
  refine ⟨now, List.prefix_rfl, ?_, gives now longer s typed⟩
  rw [same]
  exact typed

theorem pure {a : α} (h : ∀ now, types <+: now → Q now a) : TypeSafe types Q (Pure.pure a) := by
  apply still (fun _ => rfl)
  rintro now longer s - _ ⟨⟩
  exact h now longer

theorem throw (e : Stop) : TypeSafe types Q (MonadExcept.throw e) :=
  still (fun _ => rfl) (by rintro _ _ _ _ _ ⟨⟩)

theorem fail (e : EvalError) : TypeSafe types Q (Eval.fail e) :=
  still (fun _ => rfl) (by rintro _ _ _ _ _ ⟨⟩)

theorem ofExcept {r : Except EvalError α} (h : ∀ now, types <+: now → ∀ a, r = .ok a → Q now a) :
    TypeSafe types Q (Eval.ofExcept r) := by
  apply still (fun _ => rfl)
  rintro now longer s - a given
  cases r with
  | error e => cases given
  | ok b =>
    cases given
    exact h now longer a rfl

theorem bind {x : Eval α} {f : α → Eval β} (first : TypeSafe types Q x)
    (rest : ∀ later, types <+: later → ∀ a, Q later a → TypeSafe later R (f a)) : TypeSafe types R (x >>= f) := by
  intro now longer s typed
  obtain ⟨mid, further, typed', gives⟩ := first now longer s typed
  rw [bind_run]
  rcases ran : x s with ⟨e | a, t⟩ <;> rw [ran] at typed' gives
  · exact ⟨mid, further, typed', nofun⟩
  · obtain ⟨later, beyond, typed'', given⟩ :=
      rest mid (longer.trans further) a (gives a rfl) mid List.prefix_rfl t typed'
    exact ⟨later, further.trans beyond, typed'', given⟩

theorem getMachine : TypeSafe types Machine.Typed Eval.getMachine := by
  apply still (fun _ => rfl)
  rintro now - s typed _ ⟨⟩
  exact typed.machine

theorem getLocal (name : String) : TypeSafe types Value.Typed (Eval.getLocal name) := by
  apply still
  · intro s
    unfold Eval.getLocal
    split <;> rfl
  · intro now _ s typed v given
    unfold Eval.getLocal at given
    split at given
    · next found =>
      cases given
      exact of_getEntry (P := Value.Typed now) typed.locals found
    · cases given

theorem setLocal (name : String) {v : Value} (hv : v.Typed types) :
    TypeSafe types (fun _ _ => True) (Eval.setLocal name v) := by
  intro now longer s typed
  refine ⟨now, List.prefix_rfl, ⟨typed.machine, ?_⟩, fun _ _ => trivial⟩
  exact forall_mem_setEntry (P := Value.Typed now) typed.locals (hv.mono longer)

theorem withLocals {code : Eval α} (h : TypeSafe types Q code) : TypeSafe types Q (Eval.withLocals code) := by
  intro now longer s typed
  obtain ⟨later, further, typed', gives⟩ := h now longer { s with locals := [] } ⟨typed.machine, nofun⟩
  exact ⟨later, further, ⟨typed'.machine, fun e he => (typed.locals e he).mono further⟩, gives⟩

/-- A change of the machine that gives no object another class. -/
theorem modifyMachine {f : Machine → Machine} (h : ∀ now, types <+: now → ∀ m : Machine, m.Typed now → (f m).Typed now) :
    TypeSafe types (fun _ _ => True) (Eval.modifyMachine f) := by
  intro now longer s typed
  exact ⟨now, List.prefix_rfl, ⟨h now longer s.machine typed.machine, typed.locals⟩, fun _ _ => trivial⟩

theorem alloc (c : LoadedClass) : TypeSafe types (fun later o => o.Of later) (Eval.alloc c) := by
  intro now _ s typed
  obtain ⟨machine, of⟩ := typed.machine.alloc c
  have longer : now <+: now ++ [c] := List.prefix_append now [c]
  refine ⟨now ++ [c], longer, ⟨machine, fun e he => (typed.locals e he).mono longer⟩, ?_⟩
  rintro _ ⟨⟩
  exact of

theorem setField (o : ObjectRef) (field : String) {v : Value} (hv : v.Typed types) :
    TypeSafe types (fun _ _ => True) (Eval.setField o field v) :=
  modifyMachine fun _ longer _ typed => typed.set o field (hv.mono longer)

theorem loadClass (name : ClassName) : TypeSafe types (fun _ _ => True) (Eval.loadClass name) := by
  intro now _ s typed
  exact ⟨now, List.prefix_rfl, ⟨typed.machine.framed (Machine.load_framed name s.machine), typed.locals⟩, fun _ _ => trivial⟩

end TypeSafe

section Pieces

variable {types : List LoadedClass}

theorem readProperty_sound (name : String) {v : Value} (hv : v.Typed types) :
    TypeSafe types Value.Typed (readProperty name v) := by
  unfold readProperty
  split
  · refine .bind .getMachine fun later longer m typed => ?_
    split
    · next found => exact .pure fun now further => (typed.heap.get? found).mono further
    · exact .fail _
  · next entries =>
    refine .pure fun now longer => ?_
    cases found : getEntry name entries with
    | none => trivial
    | some w => exact (of_getEntry (P := Value.Typed types) (Value.typed_map.mp hv) found).mono longer
  · exact .fail _

theorem advise_sound (kind : AdviceKind) {context result : Value} (hc : context.Typed types) (hr : result.Typed types) :
    TypeSafe types Value.Typed (advise kind context result) := by
  unfold advise
  refine .bind (.ofExcept (Q := fun now (p : JoinPoint) => ∀ v ∈ p.args, v.Typed now) fun now longer p given v hv =>
    Value.Typed.mono (JoinPoint.references_ofContext hc given v hv) longer) fun later longer p args => ?_
  refine .bind .getMachine fun later' further m typed => ?_
  have table : ∀ more, later' <+: more → m.advice.All (Callback.Gives (Value.Typed more)) := typed.advice
  cases kind with
  | before =>
    dsimp only
    refine .bind (.modifyMachine fun now beyond n typed' => ?_) fun _ _ _ _ => ?_
    · exact ⟨typed'.size, typed'.heap, fun more on => (table more (beyond.trans on)).runBefore p⟩
    · split
      · exact .pure fun _ _ => trivial
      · exact .fail _
  | after =>
    dsimp only
    refine .bind (.modifyMachine fun now beyond n typed' => ?_) fun last beyond _ _ => ?_
    · exact ⟨typed'.size, typed'.heap, fun more on => (table more (beyond.trans on)).runAfter p result⟩
    · split
      · next given =>
        refine .pure fun now on => ?_
        have held := AdviceTable.runAfter_gives (table later' List.prefix_rfl)
          (fun a ha => (args a ha).mono further) (hr.mono (longer.trans further)) given
        exact held.mono (beyond.trans on)
      · exact .fail _

theorem callFunction_sound (name : String) {args : List Value} (held : ∀ v ∈ args, v.Typed types) :
    TypeSafe types Value.Typed (callFunction name args) := by
  unfold callFunction
  split
  · next kind context result =>
    have hc : context.Typed types := held _ (by simp)
    have hr : result.Typed types := held _ (by simp)
    refine .bind (.ofExcept (Q := fun _ _ => True) fun _ _ _ _ => trivial) fun later longer kind _ => ?_
    exact advise_sound kind (hc.mono longer) (hr.mono longer)
  · exact .bind (.ofExcept (Q := fun _ _ => True) fun _ _ _ _ => trivial) fun _ _ _ _ => .pure fun _ _ => trivial
  · exact .pure fun _ _ => trivial
  · refine .bind (.modifyMachine fun _ _ _ typed => ?_) fun _ _ _ _ => .pure fun _ _ => trivial
    exact ⟨typed.size, typed.heap, typed.advice⟩
  · next v =>
    refine .ofExcept fun _ _ w given => ?_
    cases v <;> cases given
    trivial
  · exact .pure fun _ _ => trivial
  · next v =>
    refine .ofExcept fun _ _ w given => ?_
    cases v <;> cases given
    refine Value.typed_list.mpr fun w hw => ?_
    obtain ⟨_, -, rfl⟩ := List.mem_map.mp hw
    trivial
  · split
    · exact .fail _
    · split <;> exact .fail _

theorem resolveClass_sound (frame : Frame) (reference : String) :
    TypeSafe types (fun _ _ => True) (resolveClass frame reference) := by
  unfold resolveClass
  split
  · exact .pure fun _ _ => trivial
  · dsimp only
    split
    · exact .loadClass _
    · exact .fail _

end Pieces

/-- Calls that give no object another class. -/
structure Calls.TypeSafe (calls : Calls) : Prop where
  invoke : ∀ {types : List LoadedClass} (owner : LoadedClass) (m : Method) (this : Option ObjectRef) (args : List Value)
    (depth : Nat), (∀ o ∈ this, o.Of types) → (∀ v ∈ args, v.Typed types) →
      AspectProxy.TypeSafe types Value.Typed (calls.invoke owner m this args depth)
  construct : ∀ {types : List LoadedClass} (c : LoadedClass) (args : List Value) (depth : Nat),
    (∀ v ∈ args, v.Typed types) → AspectProxy.TypeSafe types Value.Typed (calls.construct c args depth)

/-- A frame whose object has the class of a list. -/
def Frame.Typed (types : List LoadedClass) (frame : Frame) : Prop :=
  ∀ o ∈ frame.this, o.Of types

theorem Frame.Typed.mono {types more : List LoadedClass} {frame : Frame} (h : frame.Typed types)
    (longer : types <+: more) : frame.Typed more :=
  fun o ho => (h o ho).mono longer

section Code

variable {types : List LoadedClass} {calls : Calls} {frame : Frame}

theorem thisObject_sound (ready : frame.Typed types) :
    TypeSafe types (fun now (o : ObjectRef) => o.Of now) (ofExcept (thisObject frame)) := by
  refine .ofExcept fun now longer o given => ?_
  unfold thisObject at given
  split at given
  · next there =>
    cases given
    exact (ready o there).mono longer
  · cases given

/-- A step that gives no value with objects. -/
theorem ofExcept_sound (r : Except EvalError α) : TypeSafe types (fun _ _ => True) (ofExcept r) :=
  .ofExcept fun _ _ _ _ => trivial

theorem receiver_sound {target : Value} (typed : target.Typed types) :
    TypeSafe types (fun now (o : ObjectRef) => o.Of now) (ofExcept (receiver target)) := by
  refine .ofExcept fun now longer o given => ?_
  cases target <;> cases given
  exact ObjectRef.Of.mono typed longer

mutual

theorem Expr.eval_sound (kept : calls.TypeSafe) : ∀ (e : Expr) {types : List LoadedClass}, frame.Typed types →
    TypeSafe types Value.Typed (e.eval calls frame)
  | .int _, _, _ | .float _, _, _ | .str _, _, _ | .bool _, _, _ | .null, _, _ => .pure fun _ _ => trivial
  | .var name, _, _ => .getLocal name
  | .self, _, ready => .bind (thisObject_sound ready) fun _ _ _ of => .pure fun _ longer => of.mono longer
  | .list items, _, ready =>
    .bind (Expr.evalList_sound kept items ready) fun _ _ _ held =>
      .pure fun _ longer => Value.typed_list.mpr fun v hv => (held v hv).mono longer
  | .map entries, _, ready =>
    .bind (Expr.evalEntries_sound kept entries ready) fun _ _ _ held =>
      .pure fun now longer => Value.typed_map.mpr (forall_mem_entriesOf fun e he => (held e he).mono longer)
  | .binary op left right, _, ready => by
    refine .bind (left.eval_sound kept ready) fun later longer l hl => ?_
    have hr := right.eval_sound kept (ready.mono longer)
    split
    · split
      · exact .bind hr fun _ _ _ _ => .pure fun _ _ => trivial
      · exact .pure fun _ _ => trivial
    · split
      · exact .pure fun _ _ => trivial
      · exact .bind hr fun _ _ _ _ => .pure fun _ _ => trivial
    · refine .bind hr fun _ further r held => .ofExcept fun now beyond v given => ?_
      exact Value.references_binary (hl.mono (further.trans beyond)) (held.mono beyond) given
  | .unary _ operand, _, ready =>
    .bind (operand.eval_sound kept ready) fun _ _ _ _ => .ofExcept fun _ _ _ given => Value.references_unary given
  | .property object name, _, ready =>
    .bind (object.eval_sound kept ready) fun _ _ _ held => readProperty_sound name held
  | .index object key, _, ready =>
    .bind (object.eval_sound kept ready) fun _ longer _ held =>
      .bind (key.eval_sound kept (ready.mono longer)) fun _ further _ _ =>
        .ofExcept fun _ beyond _ given => Value.references_index (held.mono (further.trans beyond)) given
  | .call object _ args, _, ready => by
    refine .bind (object.eval_sound kept ready) fun _ longer target typed => ?_
    refine .bind (Expr.evalList_sound kept args (ready.mono longer)) fun _ further args held => ?_
    refine .bind (receiver_sound (typed.mono further)) fun _ beyond o of => ?_
    refine .bind (ofExcept_sound _) fun now on found _ => kept.invoke _ _ _ _ _ ?_ ?_
    · rintro _ ⟨⟩
      exact of.mono on
    · exact fun v hv => (held v hv).mono (beyond.trans on)
  | .superCall _ args, _, ready => by
    refine .bind (thisObject_sound ready) fun _ first o of => ?_
    refine .bind (ofExcept_sound _) fun _ second parent _ => .bind (ofExcept_sound _) fun _ third found _ => ?_
    refine .bind (Expr.evalList_sound kept args (ready.mono (first.trans (second.trans third)))) fun _ last args held => ?_
    refine kept.invoke _ _ _ _ _ ?_ held
    rintro _ ⟨⟩
    exact of.mono (second.trans (third.trans last))
  | .staticCall className _ args, _, ready => by
    refine .bind (resolveClass_sound frame className) fun _ first c _ => .bind (ofExcept_sound _) fun _ second found _ => ?_
    have hargs := Expr.evalList_sound kept args (ready.mono (first.trans second))
    dsimp only
    split
    · exact .bind hargs fun _ _ args held => kept.invoke _ _ _ _ _ nofun held
    · exact .fail _
  | .functionCall name args, _, ready =>
    .bind (Expr.evalList_sound kept args ready) fun _ _ _ held => callFunction_sound name held
  | .create className args, _, ready =>
    .bind (resolveClass_sound frame className) fun _ longer c _ =>
      .bind (Expr.evalList_sound kept args (ready.mono longer)) fun _ _ args held => kept.construct c args _ held

theorem Expr.evalList_sound (kept : calls.TypeSafe) : ∀ (es : List Expr) {types : List LoadedClass}, frame.Typed types →
    TypeSafe types (fun now vs => ∀ v ∈ vs, v.Typed now) (Expr.evalList calls frame es)
  | [], _, _ => .pure fun _ _ => nofun
  | e :: es, _, ready =>
    .bind (e.eval_sound kept ready) fun _ longer _ hv =>
      .bind (Expr.evalList_sound kept es (ready.mono longer)) fun _ further _ hvs => .pure fun _ beyond =>
        List.forall_mem_cons.mpr ⟨hv.mono (further.trans beyond), fun v hv => (hvs v hv).mono beyond⟩

theorem Expr.evalEntries_sound (kept : calls.TypeSafe) : ∀ (es : List (String × Expr)) {types : List LoadedClass},
    frame.Typed types → TypeSafe types (fun now entries => ∀ e ∈ entries, e.2.Typed now) (Expr.evalEntries calls frame es)
  | [], _, _ => .pure fun _ _ => nofun
  | (_, e) :: es, _, ready =>
    .bind (e.eval_sound kept ready) fun _ longer _ hv =>
      .bind (Expr.evalEntries_sound kept es (ready.mono longer)) fun _ further _ hes => .pure fun _ beyond =>
        List.forall_mem_cons.mpr ⟨hv.mono (further.trans beyond), fun e he => (hes e he).mono beyond⟩

end

theorem Expr.assign_sound (kept : calls.TypeSafe) : ∀ (e : Expr) {types : List LoadedClass}, frame.Typed types →
    ∀ v : Value, v.Typed types → TypeSafe types (fun _ _ => True) (e.assign calls frame v)
  | .var name, _, _, _, hv => .bind (.getLocal name) fun _ longer _ _ => .setLocal name (hv.mono longer)
  | .property object name, _, ready, v, hv => by
    refine .bind (object.eval_sound kept ready) fun now longer target held => ?_
    cases target with
    | object o => exact .setField o name (hv.mono longer)
    | map entries =>
      have updated : ∀ e ∈ setEntry name v entries, e.2.Typed now :=
        forall_mem_setEntry (Value.typed_map.mp held) (hv.mono longer)
      exact object.assign_sound kept (ready.mono longer) _ (Value.typed_map.mpr updated)
    | _ => exact .fail _
  | .index object key, _, ready, v, hv => by
    refine .bind (key.eval_sound kept ready) fun _ first k _ => ?_
    refine .bind (object.eval_sound kept (ready.mono first)) fun _ second container held => ?_
    refine .bind (.ofExcept (Q := fun now updated => updated.Typed now) fun now third updated given => ?_)
      fun _ third updated hu => object.assign_sound kept (ready.mono (first.trans (second.trans third))) updated hu
    exact Value.references_setIndex (held.mono third) (hv.mono (first.trans (second.trans third))) given
  | .int _, _, _, _, _ | .float _, _, _, _, _ | .str _, _, _, _, _ | .bool _, _, _, _, _ | .null, _, _, _, _
  | .self, _, _, _, _ | .list _, _, _, _, _ | .map _, _, _, _, _ | .binary .., _, _, _, _ | .unary .., _, _, _, _
  | .call .., _, _, _, _ | .superCall .., _, _, _, _ | .staticCall .., _, _, _, _ | .functionCall .., _, _, _, _
  | .create .., _, _, _, _ => .fail _

/-- What a loop or a statement gives when it goes on. -/
def Flow.Typed (types : List LoadedClass) : Flow → Prop
  | .return v => v.Typed types
  | _ => True

theorem Flow.Typed.mono {more : List LoadedClass} {flow : Flow} (h : flow.Typed types) (longer : types <+: more) :
    flow.Typed more := by
  cases flow with
  | «return» v => exact Value.Typed.mono h longer
  | _ => trivial

theorem whileLoop_sound {condition : Eval Value} {body : Eval Flow} (hc : TypeSafe types Value.Typed condition)
    (hb : TypeSafe types Flow.Typed body) (steps : Nat) : TypeSafe types Flow.Typed (whileLoop condition body steps) := by
  induction steps with
  | zero => exact .throw _
  | succ steps ih =>
    refine .bind hc fun _ first v _ => ?_
    split
    · refine .bind (hb.mono first) fun _ second flow held => ?_
      cases flow with
      | «break» => exact .pure fun _ _ => trivial
      | «return» v => exact .pure fun _ longer => held.mono longer
      | next | «continue» => exact ih.mono (first.trans second)
    · exact .pure fun _ _ => trivial

theorem forLoop_sound (name : String) {body : Eval Flow} (hb : TypeSafe types Flow.Typed body) {vs : List Value}
    (held : ∀ v ∈ vs, v.Typed types) : TypeSafe types Flow.Typed (forLoop name body vs) := by
  induction vs generalizing types with
  | nil => exact .pure fun _ _ => trivial
  | cons v vs ih =>
    obtain ⟨hv, others⟩ := List.forall_mem_cons.mp held
    refine .bind (.setLocal name hv) fun _ first _ _ => .bind (hb.mono first) fun now second flow typed => ?_
    have longer : types <+: now := first.trans second
    cases flow with
    | «break» => exact .pure fun _ _ => trivial
    | «return» v => exact .pure fun _ further => typed.mono further
    | next | «continue» => exact ih (hb.mono longer) fun w hw => (others w hw).mono longer

variable (steps : Nat)

mutual

theorem Statement.run_sound (kept : calls.TypeSafe) : ∀ (s : Statement) {types : List LoadedClass}, frame.Typed types →
    TypeSafe types Flow.Typed (s.run calls frame steps)
  | .declare name _ value, _, ready =>
    .bind (value.eval_sound kept ready) fun _ _ v hv => .bind (.setLocal name hv) fun _ _ _ _ => .pure fun _ _ => trivial
  | .assign target value, _, ready =>
    .bind (value.eval_sound kept ready) fun _ longer v hv =>
      .bind (target.toExpr.assign_sound kept (ready.mono longer) v hv) fun _ _ _ _ => .pure fun _ _ => trivial
  | .expr e, _, ready => .bind (e.eval_sound kept ready) fun _ _ _ _ => .pure fun _ _ => trivial
  | .return none, _, _ => .pure fun _ _ => trivial
  | .return (some e), _, ready => .bind (e.eval_sound kept ready) fun _ _ _ hv => .pure fun _ longer => hv.mono longer
  | .cond condition thenBranch none, _, ready => by
    refine .bind (condition.eval_sound kept ready) fun _ longer _ _ => ?_
    split
    · exact Statement.runBlock_sound kept thenBranch (ready.mono longer)
    · exact .pure fun _ _ => trivial
  | .cond condition thenBranch (some elseBranch), _, ready => by
    refine .bind (condition.eval_sound kept ready) fun _ longer _ _ => ?_
    split
    · exact Statement.runBlock_sound kept thenBranch (ready.mono longer)
    · exact Statement.runBlock_sound kept elseBranch (ready.mono longer)
  | .while condition body, _, ready =>
    whileLoop_sound (condition.eval_sound kept ready) (Statement.runBlock_sound kept body ready) steps
  | .for name iterable body, _, ready => by
    refine .bind (iterable.eval_sound kept ready) fun _ longer v held => ?_
    refine .bind (.ofExcept (Q := fun now items => ∀ w ∈ items, w.Typed now) fun now further items given => ?_)
      fun _ further items hitems => ?_
    · exact Value.references_iterated (held.mono further) given
    · exact forLoop_sound name (Statement.runBlock_sound kept body (ready.mono (longer.trans further))) hitems
  | .break, _, _ | .continue, _, _ => .pure fun _ _ => trivial

theorem Statement.runBlock_sound (kept : calls.TypeSafe) : ∀ (b : List Statement) {types : List LoadedClass},
    frame.Typed types → TypeSafe types Flow.Typed (Statement.runBlock calls frame steps b)
  | [], _, _ => .pure fun _ _ => trivial
  | s :: rest, _, ready => by
    refine .bind (s.run_sound kept ready) fun _ longer flow typed => ?_
    cases flow with
    | next => exact Statement.runBlock_sound kept rest (ready.mono longer)
    | «return» v => exact .pure fun _ further => typed.mono further
    | «break» | «continue» => exact .pure fun _ _ => trivial

end

theorem bindParameters_sound (kept : calls.TypeSafe) : ∀ (ps : List Parameter) {types : List LoadedClass},
    frame.Typed types → ∀ args : List Value, (∀ v ∈ args, v.Typed types) →
      TypeSafe types (fun _ _ => True) (bindParameters calls frame ps args)
  | [], _, _, _, _ => .pure fun _ _ => trivial
  | p :: ps, _, ready, v :: vs, held => by
    obtain ⟨hv, others⟩ := List.forall_mem_cons.mp held
    exact .bind (.setLocal p.name hv) fun _ longer _ _ =>
      bindParameters_sound kept ps (ready.mono longer) vs fun w hw => (others w hw).mono longer
  | p :: ps, types, ready, [], _ => by
    have rest : ∀ now, types <+: now → ∀ v : Value, v.Typed now →
        TypeSafe now (fun _ _ => True) (do setLocal p.name v; bindParameters calls frame ps []) :=
      fun now longer v hv => .bind (.setLocal p.name hv) fun _ further _ _ =>
        bindParameters_sound kept ps (ready.mono (longer.trans further)) [] nofun
    rw [bindParameters]
    cases p.default with
    | none => exact .bind (Q := Value.Typed) (.pure fun _ _ => trivial) rest
    | some e => exact .bind (e.eval_sound kept ready) rest

theorem Method.runBody_sound (kept : calls.TypeSafe) (m : Method) (ready : frame.Typed types) {args : List Value}
    (held : ∀ v ∈ args, v.Typed types) : TypeSafe types Value.Typed (m.runBody calls frame steps args) := by
  refine .bind (bindParameters_sound kept m.parameters ready args held) fun _ longer _ _ => ?_
  refine .bind (Statement.runBlock_sound steps kept m.body (ready.mono longer)) fun _ _ flow typed => ?_
  refine .ofExcept fun now further v given => ?_
  cases flow with
  | next =>
    cases given
    trivial
  | «return» v =>
    cases given
    exact Value.Typed.mono typed further
  | «break» | «continue» => cases given

theorem setProperties_sound (kept : calls.TypeSafe) (o : ObjectRef) (ps : List Property) (ready : frame.Typed types) :
    TypeSafe types (fun _ _ => True) (setProperties calls frame o ps) := by
  induction ps generalizing types with
  | nil => exact .pure fun _ _ => trivial
  | cons p ps ih =>
    have rest : ∀ now, types <+: now → ∀ v : Value, v.Typed now →
        TypeSafe now (fun _ _ => True) (do setField o p.name v; setProperties calls frame o ps) :=
      fun now longer v hv => .bind (.setField o p.name hv) fun _ further _ _ => ih (ready.mono (longer.trans further))
    rw [setProperties]
    cases p.default with
    | none => exact .bind (Q := Value.Typed) (.pure fun _ _ => trivial) rest
    | some e => exact .bind (e.eval_sound kept ready) rest

theorem invokeOver_sound (kept : calls.TypeSafe) (owner : LoadedClass) (m : Method) {this : Option ObjectRef}
    {args : List Value} (depth : Nat) (of : ∀ o ∈ this, o.Of types) (held : ∀ v ∈ args, v.Typed types) :
    TypeSafe types Value.Typed (invokeOver calls steps owner m this args depth) := by
  have run : TypeSafe types Value.Typed (do
      ofExcept (checkArity owner m args)
      withLocals (m.runBody calls ⟨this, owner, depth + 1⟩ steps args)) :=
    .bind (ofExcept_sound _) fun _ longer _ _ =>
      .withLocals (m.runBody_sound steps kept (fun o ho => (of o ho).mono longer) fun v hv => (held v hv).mono longer)
  refine .bind .getMachine fun _ longer machine _ => ?_
  dsimp only
  split
  · exact .bind (Q := fun _ _ => True) (.fail _) fun _ further _ _ => run.mono (longer.trans further)
  · exact run.mono longer

theorem fillFields_sound (kept : calls.TypeSafe) {o : ObjectRef} (of : o.Of types) (depth : Nat)
    (lineage : List LoadedClass) :
    TypeSafe types (fun _ _ => True) (fillFields calls o depth lineage) := by
  induction lineage generalizing types with
  | nil => exact .pure fun _ _ => trivial
  | cons owner rest ih =>
    have ready : Frame.Typed types ⟨some o, owner, depth⟩ := by
      rintro _ ⟨⟩
      exact of
    exact .bind (.withLocals (setProperties_sound kept o owner.own.properties ready)) fun _ longer _ _ => ih (of.mono longer)

theorem makeObject_sound (kept : calls.TypeSafe) (c : LoadedClass) {args : List Value} (depth : Nat)
    (held : ∀ v ∈ args, v.Typed types) : TypeSafe types Value.Typed (makeObject calls c args depth) := by
  refine .bind (.alloc c) fun _ first o of => .bind (fillFields_sound kept of depth c.lineage) fun now second _ _ => ?_
  have made : ∀ later, now <+: later → (Value.object o).Typed later := fun later third => of.mono (second.trans third)
  split
  · refine .bind (kept.invoke _ _ _ _ _ ?_ ?_) fun _ third _ _ => .pure fun _ fourth => made _ (third.trans fourth)
    · rintro _ ⟨⟩
      exact of.mono second
    · exact fun v hv => (held v hv).mono (first.trans second)
  · split
    · exact .pure made
    · exact .fail _

theorem constructOver_sound (kept : calls.TypeSafe) (c : LoadedClass) {args : List Value} (depth : Nat)
    (held : ∀ v ∈ args, v.Typed types) : TypeSafe types Value.Typed (constructOver calls c args depth) := by
  have made : ∀ now, types <+: now → TypeSafe now Value.Typed (makeObject calls c args depth) :=
    fun now longer => makeObject_sound kept c depth fun v hv => (held v hv).mono longer
  rw [constructOver_eq]
  split
  · exact .bind (Q := fun _ _ => True) (.fail _) fun now longer _ _ => made now longer
  · exact made types List.prefix_rfl

end Code

theorem Calls.within_sound (steps : Nat) : (Calls.within steps).TypeSafe := by
  induction steps with
  | zero => exact ⟨fun _ _ _ _ _ _ _ => .throw _, fun _ _ _ _ => .throw _⟩
  | succ steps ih =>
    constructor
    · exact fun owner m this args depth of held => invokeOver_sound steps ih owner m depth of held
    · exact fun c args depth held => constructOver_sound ih c depth held

end AspectProxy
