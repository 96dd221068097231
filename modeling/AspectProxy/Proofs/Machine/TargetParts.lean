import AspectProxy.Proofs.Machine.Locals
import AspectProxy.Proofs.Outcomes

/-!
How often an assignment evaluates the parts of its target. A changed list or map is stored in turn where it came
from, and finding that place evaluates what leads there once more: a part is evaluated again for every container
that it leads to and that is stored.
-/

namespace AspectProxy

open Eval

/-- The receiver or the key of one access in a target. Accesses are numbered from the root, the first is 1. What a
key is written with is evaluated when the key is. -/
inductive TargetPart where
  | receiver (access : Nat)
  | key (access : Nat)
  deriving DecidableEq

/-- The number of the access that a part belongs to. -/
def TargetPart.access : TargetPart → Nat
  | receiver n => n
  | key n => n

namespace Expr

/-- How many properties and indexes an expression reads, one from the other. -/
def accesses : Expr → Nat
  | .property object _ => object.accesses + 1
  | .index object _ => object.accesses + 1
  | _ => 0

/-- The parts of all accesses, in the order in which reading evaluates them. -/
def parts : Expr → List TargetPart
  | .property object _ => .receiver (object.accesses + 1) :: object.parts
  | .index object _ => .receiver (object.accesses + 1) :: (object.parts ++ [.key (object.accesses + 1)])
  | _ => []

theorem root_without_parts {e : Expr} (noProperty : ∀ object name, e ≠ .property object name)
    (noIndex : ∀ object key, e ≠ .index object key) : e.accesses = 0 ∧ e.parts = [] := by
  cases e with
  | property object name => exact absurd rfl (noProperty object name)
  | index object key => exact absurd rfl (noIndex object key)
  | _ => exact ⟨rfl, rfl⟩

end Expr

/-- Code that notes the parts it evaluates. -/
abbrev Traced := StateT (List TargetPart) Eval

/-- Evaluates a part and notes that. -/
def Traced.noting (p : TargetPart) (x : Traced α) : Traced α := do
  modify (· ++ [p])
  x

section Code

variable (calls : Calls) (frame : Frame)

/-- `Expr.eval`, noting the parts. -/
def Expr.evalTraced : Expr → Traced Value
  | .property object name => do
    let v ← Traced.noting (.receiver (object.accesses + 1)) object.evalTraced
    readProperty name v
  | .index object key => do
    let container ← Traced.noting (.receiver (object.accesses + 1)) object.evalTraced
    let k ← Traced.noting (.key (object.accesses + 1)) (key.eval calls frame)
    ofExcept (Value.index container k)
  | e => e.eval calls frame

/-- `Expr.assign`, noting the parts. -/
def Expr.assignTraced : Expr → Value → Traced Unit
  | .var name, v => do
    let _ ← getLocal name
    setLocal name v
  | .property object name, v => do
    match ← Traced.noting (.receiver (object.accesses + 1)) (object.evalTraced calls frame) with
    | .object o => setField o name v
    | .map entries => object.assignTraced (.map (setEntry name v entries))
    | other => fail (.operand "property assignment" "object or map" other.typeName)
  | .index object key, v => do
    let k ← Traced.noting (.key (object.accesses + 1)) (key.eval calls frame)
    let container ← Traced.noting (.receiver (object.accesses + 1)) (object.evalTraced calls frame)
    let updated ← ofExcept (Value.setIndex container k v)
    object.assignTraced updated
  | _, _ => fail (.misuse .temporaryTarget)

end Code

namespace Traced

theorem bind_run (x : Traced α) (f : α → Traced β) (log : List TargetPart) :
    (x >>= f) log = x log >>= fun r => f r.1 r.2 :=
  rfl

theorem lift_run (y : Eval α) (log : List TargetPart) : (liftM y : Traced α) log = (fun a => (a, log)) <$> y := by
  rw [map_eq_pure_bind]
  rfl

theorem noting_run (p : TargetPart) (x : Traced α) (log : List TargetPart) : noting p x log = x (log ++ [p]) := by
  show (pure ((), log ++ [p]) >>= fun r => x r.2) = _
  rw [pure_bind]

end Traced

section Code

variable {calls : Calls} {frame : Frame}

/-- Noting the parts leaves an evaluation as it is; it notes each part once. -/
theorem evalTraced_run (e : Expr) (log : List TargetPart) :
    e.evalTraced calls frame log = (fun v => (v, log ++ e.parts)) <$> e.eval calls frame := by
  fun_induction Expr.evalTraced calls frame e generalizing log
  case case1 object name ih =>
    simp only [Traced.bind_run, Traced.noting_run, ih, Traced.lift_run, Expr.eval, Expr.parts, map_bind, bind_map_left,
      List.append_assoc, List.cons_append, List.nil_append]
  case case2 object key ih =>
    simp only [Traced.bind_run, Traced.noting_run, ih, Traced.lift_run, Expr.eval, Expr.parts, map_bind, bind_map_left,
      List.append_assoc, List.cons_append, List.nil_append]
  case case3 e noProperty noIndex =>
    rw [(Expr.root_without_parts noProperty noIndex).2, Traced.lift_run]
    simp only [List.append_nil]

theorem assignTraced_property (object : Expr) (name : String) (v : Value) (log : List TargetPart) :
    (Expr.property object name).assignTraced calls frame v log = object.eval calls frame >>= fun held =>
      match held with
      | .object o => (fun a => (a, log ++ (Expr.property object name).parts)) <$> setField o name v
      | .map entries =>
        object.assignTraced calls frame (.map (setEntry name v entries)) (log ++ (Expr.property object name).parts)
      | other => fail (.operand "property assignment" "object or map" other.typeName) := by
  simp only [Expr.assignTraced, Traced.bind_run, Traced.noting_run, evalTraced_run, bind_map_left, Expr.parts,
    List.append_assoc, List.cons_append, List.nil_append]
  refine bind_congr fun held => ?_
  cases held with
  | object o => exact Traced.lift_run ..
  | map entries => rfl
  | _ => rfl

theorem assignTraced_index (object key : Expr) (v : Value) (log : List TargetPart) :
    (Expr.index object key).assignTraced calls frame v log = key.eval calls frame >>= fun k =>
      object.eval calls frame >>= fun container => ofExcept (Value.setIndex container k v) >>= fun updated =>
        object.assignTraced calls frame updated
          (log ++ .key (object.accesses + 1) :: .receiver (object.accesses + 1) :: object.parts) := by
  simp only [Expr.assignTraced, Traced.bind_run, Traced.noting_run, Traced.lift_run, evalTraced_run, bind_map_left,
    List.append_assoc, List.cons_append, List.nil_append]

/-- Noting the parts leaves an assignment as it is. -/
theorem assignTraced_erase (e : Expr) (v : Value) (log : List TargetPart) :
    Prod.fst <$> e.assignTraced calls frame v log = e.assign calls frame v := by
  fun_induction Expr.assign calls frame e v generalizing log
  case case1 name v =>
    simp only [Expr.assignTraced, Traced.bind_run, Traced.lift_run, bind_map_left, map_bind, Functor.map_map, id_map']
  case case2 object name v ih =>
    rw [assignTraced_property, map_bind]
    refine bind_congr fun held => ?_
    cases held with
    | object o => rw [Functor.map_map, id_map']
    | map entries => exact ih _ _
    | _ => rfl
  case case3 object key v ih =>
    rw [assignTraced_index]
    simp only [map_bind, ih]
  case case4 e v noVar noProperty noIndex =>
    unfold Expr.assignTraced
    split
    · exact absurd rfl (noVar _)
    · exact absurd rfl (noProperty _ _)
    · exact absurd rfl (noIndex _ _)
    · rfl

end Code

namespace Expr

/-- The expression whose value the last access of an expression looks into. -/
def receiver? : Expr → Option Expr
  | .property object _ => some object
  | .index object _ => some object
  | _ => none

/-- What is left of an expression without its last accesses. -/
def outward : Nat → Expr → Expr
  | k + 1, .property object _ => object.outward k
  | k + 1, .index object _ => object.outward k
  | _, e => e

/-- How often a part is evaluated by an assignment that stores `again` containers on the way out: once to find the
place, and once more for each of these containers whose place it leads to. -/
def evaluations (e : Expr) (again : Nat) (p : TargetPart) : Nat :=
  if p ∈ e.parts then 1 + min again (e.accesses - p.access) else 0

variable {e object : Expr} {p : TargetPart} {again : Nat}

theorem parts_access (h : p ∈ e.parts) : 1 ≤ p.access ∧ p.access ≤ e.accesses := by
  fun_induction parts e
  case case1 object name ih =>
    obtain rfl | inner := List.mem_cons.mp h
    · exact ⟨Nat.le_add_left 1 _, Nat.le_refl _⟩
    · exact ⟨(ih inner).1, Nat.le_succ_of_le (ih inner).2⟩
  case case2 object key ih =>
    simp only [List.mem_cons, List.mem_append, List.not_mem_nil, or_false] at h
    obtain rfl | inner | rfl := h
    · exact ⟨Nat.le_add_left 1 _, Nat.le_refl _⟩
    · exact ⟨(ih inner).1, Nat.le_succ_of_le (ih inner).2⟩
    · exact ⟨Nat.le_add_left 1 _, Nat.le_refl _⟩
  case case3 => cases h

theorem receiver_one_mem (h : 1 ≤ e.accesses) : .receiver 1 ∈ e.parts := by
  fun_induction parts e
  case case1 object name ih =>
    cases inner : object.accesses with
    | zero => exact List.mem_cons_self
    | succ n => exact List.mem_cons_of_mem _ (ih (by omega))
  case case2 object key ih =>
    cases inner : object.accesses with
    | zero => exact List.mem_cons_self
    | succ n => exact List.mem_cons_of_mem _ (List.mem_append_left _ (ih (by omega)))
  case case3 e noProperty noIndex =>
    have root := (root_without_parts noProperty noIndex).1
    omega

/-- A part of the next access is no part of what that access looks into. -/
theorem not_mem_parts (h : p.access = e.accesses + 1) : p ∉ e.parts := by
  intro inside
  have := (parts_access inside).2
  omega

theorem nodup_parts (e : Expr) : e.parts.Nodup := by
  fun_induction parts e
  case case1 object name ih => exact List.nodup_cons.mpr ⟨not_mem_parts rfl, ih⟩
  case case2 object key ih =>
    have outer : TargetPart.receiver (object.accesses + 1) ∉ object.parts := not_mem_parts rfl
    have fresh : TargetPart.key (object.accesses + 1) ∉ object.parts := not_mem_parts rfl
    simp only [List.nodup_cons, List.nodup_append, List.mem_append, List.mem_singleton, outer, ih, reduceCtorEq,
      or_self, not_false_eq_true, true_and]
    refine ⟨by simp, fun a inside b last same => ?_⟩
    rw [same, last] at inside
    exact fresh inside
  case case3 => exact List.nodup_nil

theorem accesses_receiver (h : e.receiver? = some object) : e.accesses = object.accesses + 1 := by
  unfold receiver? at h
  split at h <;> cases h <;> rfl

/-- The parts of what the last access looks into are those of the accesses before it. -/
theorem mem_parts_receiver (h : e.receiver? = some object) :
    p ∈ object.parts ↔ p ∈ e.parts ∧ p.access ≤ object.accesses := by
  unfold receiver? at h
  split at h
  · cases h
    simp only [parts, List.mem_cons]
    constructor
    · exact fun inner => ⟨.inr inner, (parts_access inner).2⟩
    · rintro ⟨rfl | inner, before⟩
      · exact absurd before (Nat.not_succ_le_self _)
      · exact inner
  · cases h
    simp only [parts, List.mem_cons, List.mem_append, List.not_mem_nil, or_false]
    constructor
    · exact fun inner => ⟨.inr (.inl inner), (parts_access inner).2⟩
    · rintro ⟨rfl | inner | rfl, before⟩
      · exact absurd before (Nat.not_succ_le_self _)
      · exact inner
      · exact absurd before (Nat.not_succ_le_self _)
  · cases h

theorem count_parts (e : Expr) (p : TargetPart) : e.parts.count p = e.evaluations 0 p := by
  rw [evaluations, (nodup_parts e).count, Nat.zero_min]

/-- Storing a container again evaluates the parts of what leads to it. -/
theorem evaluations_succ (h : e.receiver? = some object) (again : Nat) (p : TargetPart) :
    e.evaluations (again + 1) p = e.parts.count p + object.evaluations again p := by
  have deeper := accesses_receiver h
  rw [count_parts, evaluations, evaluations, evaluations]
  by_cases inside : p ∈ e.parts
  · by_cases inner : p ∈ object.parts
    · have before := ((mem_parts_receiver h).mp inner).2
      rw [if_pos inside, if_pos inside, if_pos inner]
      omega
    · have last : ¬p.access ≤ object.accesses := fun before => inner ((mem_parts_receiver h).mpr ⟨inside, before⟩)
      rw [if_pos inside, if_pos inside, if_neg inner]
      omega
  · have inner : p ∉ object.parts := fun inner => inside ((mem_parts_receiver h).mp inner).1
    rw [if_neg inside, if_neg inside, if_neg inner]

end Expr

section Code

variable {calls : Calls} {frame : Frame}

/-- An assignment to a property of an object. It stores into the heap, and no container on the way out. -/
def EndsAtObject (calls : Calls) (frame : Frame) (s : Store) (e : Expr) : Prop :=
  ∃ object name o t, e = .property object name ∧ object.eval calls frame s = (.ok (.object o), t)

/-- Where storing containers on the way out ends: at a variable, or at a property of an object. -/
def EndsOutward (calls : Calls) (frame : Frame) (e : Expr) : Prop :=
  (∃ name, e = .var name) ∨ ∃ s, EndsAtObject calls frame s e

/-- An assignment that ends has stored some containers on the way out, and noted the parts of what led to each. -/
theorem assignTraced_log {e : Expr} {v : Value} {log log' : List TargetPart} {s t : Store}
    (ran : e.assignTraced calls frame v log s = (.ok ((), log'), t)) :
    ∃ noted again, log' = log ++ noted ∧ again ≤ e.accesses ∧ EndsOutward calls frame (e.outward again) ∧
      (∀ p, noted.count p = e.evaluations again p) ∧ (again = 0 ↔ e.accesses = 0 ∨ EndsAtObject calls frame s e) := by
  fun_induction Expr.assign calls frame e v generalizing log s
  case case1 name v =>
    simp only [Expr.assignTraced, Traced.bind_run, Traced.lift_run, bind_map_left] at ran
    obtain ⟨_, _, _, rest⟩ := of_run_bind ran
    cases rest
    exact ⟨[], 0, (List.append_nil _).symm, Nat.zero_le _, .inl ⟨name, rfl⟩, fun p => rfl, fun _ => .inl rfl,
      fun _ => rfl⟩
  case case2 object name v ih =>
    rw [assignTraced_property] at ran
    obtain ⟨held, s₁, evaluated, rest⟩ := of_run_bind ran
    cases held with
    | object o =>
      cases rest
      have stored : EndsAtObject calls frame s (.property object name) := ⟨_, _, _, _, rfl, evaluated⟩
      exact ⟨_, 0, rfl, Nat.zero_le _, .inr ⟨s, stored⟩, Expr.count_parts _, fun _ => .inr stored, fun _ => rfl⟩
    | map entries =>
      obtain ⟨noted, again, rfl, bound, ends, counted, -⟩ := ih _ rest
      refine ⟨_, again + 1, List.append_assoc .., Nat.succ_le_succ bound, ends, fun p => ?_, nofun, ?_⟩
      · rw [List.count_append, counted, Expr.evaluations_succ rfl]
      · rintro (root | ⟨_, _, o, s', same, ended⟩)
        · cases root
        · cases same
          cases evaluated.symm.trans ended
    | _ => cases rest
  case case3 object key v ih =>
    rw [assignTraced_index] at ran
    obtain ⟨k, s₁, -, ran⟩ := of_run_bind ran
    obtain ⟨container, s₂, -, ran⟩ := of_run_bind ran
    obtain ⟨updated, s₃, -, rest⟩ := of_run_bind ran
    obtain ⟨noted, again, rfl, bound, ends, counted, -⟩ := ih _ rest
    have swapped : (TargetPart.key (object.accesses + 1) :: .receiver (object.accesses + 1) :: object.parts).Perm
        (Expr.index object key).parts :=
      (List.perm_append_singleton ..).symm
    refine ⟨_, again + 1, List.append_assoc .., Nat.succ_le_succ bound, ends, fun p => ?_, nofun, ?_⟩
    · rw [List.count_append, swapped.count_eq, counted, Expr.evaluations_succ rfl]
    · rintro (root | ⟨_, _, _, _, same, -⟩)
      · cases root
      · cases same
  case case4 e v noVar noProperty noIndex =>
    unfold Expr.assignTraced at ran
    split at ran
    · exact absurd rfl (noVar _)
    · exact absurd rfl (noProperty _ _)
    · exact absurd rfl (noIndex _ _)
    · cases ran

/-- An assignment that ends can be run again, noting what it evaluates. -/
theorem exists_assignTraced {e : Expr} {v : Value} {s t : Store} (ran : e.assign calls frame v s = (.ok (), t))
    (log : List TargetPart) : ∃ log', e.assignTraced calls frame v log s = (.ok ((), log'), t) := by
  rw [← assignTraced_erase e v log, map_eq_pure_bind] at ran
  obtain ⟨⟨_, log'⟩, _, traced, rest⟩ := of_run_bind ran
  cases rest
  exact ⟨log', traced⟩

/-- Every part is evaluated once exactly if no container is stored on the way out or there is one access at most. -/
theorem evaluations_once {e : Expr} {again : Nat} :
    (∀ p ∈ e.parts, e.evaluations again p = 1) ↔ again = 0 ∨ e.accesses ≤ 1 := by
  constructor
  · intro once
    by_cases root : e.accesses = 0
    · omega
    · have first : TargetPart.receiver 1 ∈ e.parts := Expr.receiver_one_mem (by omega)
      have counted := once _ first
      rw [Expr.evaluations, if_pos first] at counted
      simp only [TargetPart.access] at counted
      omega
  · intro few p inside
    have bounds := Expr.parts_access inside
    rw [Expr.evaluations, if_pos inside]
    omega

/-- An assignment that ends evaluates each part of its target once, and once more for each container that it stores on
the way out, to a variable or an object, and that the part leads to. That is once in all for every part exactly if the
target has one access at most or names a property of an object. -/
theorem assign_evaluates_parts {target : Target} {value : Expr} {flow : Flow} {steps : Nat} {s t : Store}
    (ran : Statement.run calls frame steps (.assign target value) s = (.ok flow, t)) :
    ∃ v s₁ log again, value.eval calls frame s = (.ok v, s₁) ∧
      target.toExpr.assignTraced calls frame v [] s₁ = (.ok ((), log), t) ∧
      again ≤ target.toExpr.accesses ∧ EndsOutward calls frame (target.toExpr.outward again) ∧
      (∀ p, log.count p = target.toExpr.evaluations again p) ∧
      ((∀ p ∈ target.toExpr.parts, log.count p = 1) ↔
        target.toExpr.accesses ≤ 1 ∨ EndsAtObject calls frame s₁ target.toExpr) := by
  rw [Statement.run] at ran
  obtain ⟨v, s₁, evaluated, ran⟩ := of_run_bind ran
  obtain ⟨_, t', assigned, rest⟩ := of_run_bind ran
  cases rest
  obtain ⟨log, traced⟩ := exists_assignTraced assigned []
  obtain ⟨noted, again, rfl, bound, ends, counted, single⟩ := assignTraced_log traced
  refine ⟨v, s₁, _, again, evaluated, traced, bound, ends, counted, ?_⟩
  simp only [counted, evaluations_once, single]
  constructor
  · rintro ((root | object) | few)
    · exact .inl (by omega)
    · exact .inr object
    · exact .inl few
  · rintro (few | object)
    · exact .inr few
    · exact .inl (.inr object)

end Code

/-- `fn next() { self.spot = self.spot + 1; return self.spot - 1; }` -/
def nextMethod : Method where
  modifiers := {}
  name := "next"
  parameters := []
  returnType := none
  body := [
    .assign (.property .self "spot") (.binary .add (.property .self "spot") (.int 1)),
    .return (some (.binary .subtract (.property .self "spot") (.int 1)))]

def cursorClass : LoadedClass where
  own.name := ⟨"Cursor", by decide⟩
  own.isFinal := false
  own.isTrait := false
  own.scope := {}
  own.methods := [nextMethod]
  own.properties := [⟨{}, "spot", none, some (.int 0)⟩]
  ancestors := []

def cursor : ObjectRef :=
  ⟨0, cursorClass⟩

def cursorFrame : Frame where
  this := some cursor
  owner := cursorClass
  depth := 1

/-- A cursor at the first row, in a list, and two rows of one cell. -/
def cursorStore : Store where
  machine := { heap := ⟨#[[("spot", .int 0)]]⟩ }
  locals := [("cursors", .list [.object cursor]), ("rows", .list [.list [.int 0], .list [.int 0]])]

/-- `rows[self.next()][0]` -/
def nextCell : Target :=
  .index (.index (.var "rows") (.call .self "next" [])) (.int 0)

/-- `cursors[0].spot` -/
def firstSpot : Target :=
  .property (.index (.var "cursors") (.int 0)) "spot"

/-- A list that leads to an object is read once. -/
theorem assign_evaluates_parts_spot :
    ∃ log t, Statement.run (.within 0) cursorFrame 0 (.assign firstSpot (.int 3)) cursorStore = (.ok .next, t) ∧
      firstSpot.toExpr.assignTraced (.within 0) cursorFrame (.int 3) [] cursorStore = (.ok ((), log), t) ∧
      ∀ p ∈ firstSpot.toExpr.parts, log.count p = 1 := by
  obtain ⟨t, ran⟩ : ∃ t, Statement.run (.within 0) cursorFrame 0 (.assign firstSpot (.int 3)) cursorStore =
      (.ok .next, t) := ⟨_, rfl⟩
  obtain ⟨v, s₁, log, again, value, traced, -, -, -, once⟩ := assign_evaluates_parts ran
  cases value
  exact ⟨log, t, ran, traced, once.mpr (.inr ⟨_, _, cursor, _, rfl, rfl⟩)⟩

/-- The cursor moves twice: the cell is taken from the first row, and the changed row replaces the second. -/
theorem nextCell_evaluated_again :
    ∃ log t, Statement.run (.within 1) cursorFrame 0 (.assign nextCell (.int 7)) cursorStore = (.ok .next, t) ∧
      nextCell.toExpr.assignTraced (.within 1) cursorFrame (.int 7) [] cursorStore = (.ok ((), log), t) ∧
      log.count (.key 1) = 2 ∧
      getEntry "rows" t.locals = some (.list [.list [.int 0], .list [.int 7]]) :=
  ⟨_, _, rfl, rfl, rfl, rfl⟩

end AspectProxy
