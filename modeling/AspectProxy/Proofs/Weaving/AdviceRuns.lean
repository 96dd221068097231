import AspectProxy.Proofs.Machine.LoadFrame
import AspectProxy.Proofs.Machine.Steps

/-!
What a table of advice runs, and in which order. Advice stands in the table by descending priority and, within a
priority, in the order of registration. A table whose callbacks remove no advice only gains notes when it is run, so
that before a call and after it, and in every call within it, the same advice runs.
-/

namespace AspectProxy

/-- Advice runs before other advice if its priority is higher, or the same and it was registered first. -/
def Advice.Precedes (a b : Advice) : Prop :=
  b.priority < a.priority ∨ b.priority = a.priority ∧ a.id < b.id

namespace AdviceTable

/-- Tables as they come about: by registering, removing and clearing, and by runs. -/
inductive Arranged : AdviceTable → Prop
  | empty : Arranged {}
  | register (pointcut : Pointcut) (priority : Int) (callback : Callback) :
    Arranged r → Arranged (r.register pointcut priority callback).2
  | remove (id : Nat) : Arranged r → Arranged (r.remove id).2
  | clear : Arranged r → Arranged r.clear
  | takeNotes : Arranged r → Arranged r.takeNotes.2
  | runBefore (p : JoinPoint) : Arranged r → Arranged (r.runBefore p).2
  | runAfter (p : JoinPoint) (v : Value) : Arranged r → Arranged (r.runAfter p v).2

/-- Advice in the order it runs, with ids up to the last one given. -/
structure InOrder (r : AdviceTable) : Prop where
  sorted : r.advice.Pairwise Advice.Precedes
  bounded : ∀ a ∈ r.advice, a.id ≤ r.lastId

theorem mem_byPriority {a : Advice} {advice : List Advice} : a ∈ byPriority advice ↔ a ∈ advice :=
  List.mem_mergeSort

theorem priority_trans (a b c : Advice) (hab : decide (b.priority ≤ a.priority) = true)
    (hbc : decide (c.priority ≤ b.priority) = true) : decide (c.priority ≤ a.priority) = true :=
  decide_eq_true (Int.le_trans (of_decide_eq_true hbc) (of_decide_eq_true hab))

theorem priority_total (a b : Advice) : (decide (b.priority ≤ a.priority) || decide (a.priority ≤ b.priority)) = true := by
  rw [Bool.or_eq_true, decide_eq_true_eq, decide_eq_true_eq]
  exact Int.le_total _ _

theorem byPriority_descends (advice : List Advice) : (byPriority advice).Pairwise fun a b => b.priority ≤ a.priority :=
  (List.pairwise_mergeSort priority_trans priority_total advice).imp of_decide_eq_true

/-- Sorting leaves what has one priority in its order. -/
theorem filter_byPriority (k : Int) (advice : List Advice) :
    (byPriority advice).filter (·.priority = k) = advice.filter (·.priority = k) := by
  have alike : (advice.filter (·.priority = k)).Pairwise fun a b => decide (b.priority ≤ a.priority) = true := by
    refine List.pairwise_of_forall_mem_list fun a ha b hb => decide_eq_true (Int.le_of_eq ?_)
    exact (of_decide_eq_true (List.mem_filter.mp hb).2).trans (of_decide_eq_true (List.mem_filter.mp ha).2).symm
  have kept : (advice.filter (·.priority = k)).Sublist (byPriority advice) :=
    List.sublist_mergeSort priority_trans priority_total alike List.filter_sublist
  have kept := kept.filter (·.priority = k)
  simp only [List.filter_filter, Bool.and_self] at kept
  refine (kept.eq_of_length ?_).symm
  exact ((List.mergeSort_perm advice _).filter _).length_eq.symm

/-- Sorted advice runs in order if within a priority it stood in the order of registration. -/
theorem byPriority_sorted {advice : List Advice}
    (registered : advice.Pairwise fun a b => b.priority = a.priority → a.id < b.id) :
    (byPriority advice).Pairwise Advice.Precedes := by
  refine List.pairwise_iff_forall_sublist.mpr fun {a b} pair => ?_
  have descends := List.pairwise_iff_forall_sublist.mp (byPriority_descends advice) pair
  refine (Int.lt_or_eq_of_le descends).imp_right fun same => ⟨same, ?_⟩
  have within := pair.filter (·.priority = a.priority)
  rw [filter_byPriority, List.filter_cons_of_pos (by simp), List.filter_cons_of_pos (by simpa using same)] at within
  exact List.pairwise_iff_forall_sublist.mp registered (within.trans List.filter_sublist) same

/-- Fewer pieces of advice in the same order are in order. -/
theorem InOrder.sublist {r s : AdviceTable} (h : r.InOrder) (fewer : s.advice.Sublist r.advice)
    (ids : s.lastId = r.lastId) : s.InOrder where
  sorted := h.sorted.sublist fewer
  bounded := fun a ha => ids ▸ h.bounded a (fewer.subset ha)

theorem foldl_remove (removed : List Nat) (r : AdviceTable) :
    (removed.foldl (fun r id => (r.remove id).2) r).advice.Sublist r.advice ∧
      (removed.foldl (fun r id => (r.remove id).2) r).lastId = r.lastId := by
  induction removed generalizing r with
  | nil => exact ⟨List.Sublist.refl _, rfl⟩
  | cons id rest ih =>
    obtain ⟨fewer, ids⟩ := ih (r.remove id).2
    exact ⟨fewer.trans List.filter_sublist, ids⟩

theorem InOrder.absorb {r : AdviceTable} (h : r.InOrder) (reply : Reply α) : (r.absorb reply).InOrder :=
  h.sublist (foldl_remove reply.removed r).1 (foldl_remove reply.removed r).2

theorem InOrder.runBeforeList {r : AdviceTable} (h : r.InOrder) (p : JoinPoint) (advice : List Advice) :
    (runBeforeList p advice r).2.InOrder := by
  fun_induction AdviceTable.runBeforeList p advice r with
  | case1 r => exact h
  | case2 a rest r _ _ ih => exact ih h
  | case3 a rest r _ _ reply e _ => exact h.absorb reply
  | case4 a rest r _ _ reply _ ih => exact ih (h.absorb reply)

theorem InOrder.runAfterList {r : AdviceTable} (h : r.InOrder) (p : JoinPoint) (v : Value) (advice : List Advice) :
    (runAfterList p advice v r).2.InOrder := by
  fun_induction AdviceTable.runAfterList p advice v r with
  | case1 v r => exact h
  | case2 a rest v r _ _ ih => exact ih h
  | case3 a rest v r _ _ reply e _ => exact h.absorb reply
  | case4 a rest v r _ _ reply _ _ ih => exact ih (h.absorb reply)

theorem InOrder.register {r : AdviceTable} (h : r.InOrder) (pointcut : Pointcut) (priority : Int) (callback : Callback) :
    (r.register pointcut priority callback).2.InOrder := by
  constructor
  · refine byPriority_sorted (List.pairwise_append.mpr ⟨?_, List.pairwise_singleton _ _, fun a ha b hb _ => ?_⟩)
    · exact h.sorted.imp fun precedes same => (precedes.resolve_left (by omega)).2
    · rw [List.mem_singleton.mp hb]
      exact Nat.lt_succ_of_le (h.bounded a ha)
  · intro a ha
    rcases List.mem_append.mp (mem_byPriority.mp ha) with ha | ha
    · exact Nat.le_succ_of_le (h.bounded a ha)
    · rw [List.mem_singleton.mp ha]
      exact Nat.le_refl _

theorem Arranged.inOrder {r : AdviceTable} (h : Arranged r) : r.InOrder := by
  induction h with
  | empty => exact ⟨.nil, nofun⟩
  | register pointcut priority callback _ ih => exact ih.register pointcut priority callback
  | remove id _ ih => exact ih.sublist List.filter_sublist rfl
  | clear _ ih => exact ih.sublist (List.nil_sublist _) rfl
  | takeNotes _ ih => exact ih.sublist (List.Sublist.refl _) rfl
  | runBefore p _ ih => exact ih.runBeforeList p _
  | runAfter p v _ ih => exact ih.runAfterList p v _

/-- The advice for a call runs in order. -/
theorem Arranged.matching_sorted {r : AdviceTable} (h : Arranged r) (p : JoinPoint) :
    (r.matching p).Pairwise Advice.Precedes :=
  h.inOrder.sorted.sublist List.filter_sublist

end AdviceTable

/-- A callback that removes no advice. -/
def Callback.Steady : Callback → Prop
  | .before run => ∀ p, (run p).removed = []
  | .after run => ∀ p v, (run p v).removed = []

def Callback.before? : Callback → Option (JoinPoint → Reply Unit)
  | .before run => some run
  | .after _ => none

def Callback.after? : Callback → Option (JoinPoint → Value → Reply (Option Value))
  | .before _ => none
  | .after run => some run

namespace AdviceTable

def Steady (r : AdviceTable) : Prop :=
  ∀ a ∈ r.advice, a.callback.Steady

/-- The table with further notes. -/
def noted (r : AdviceTable) (notes : List Note) : AdviceTable :=
  { r with notes := r.notes ++ notes }

theorem noted_nil (r : AdviceTable) : r.noted [] = r := by
  simp [noted]

theorem noted_noted (r : AdviceTable) (before after : List Note) :
    (r.noted before).noted after = r.noted (before ++ after) := by
  simp [noted]

/-- The callbacks that run before a call, in order. -/
def beforeCallbacks (r : AdviceTable) (p : JoinPoint) : List (JoinPoint → Reply Unit) :=
  (r.matching p).filterMap (·.callback.before?)

/-- The callbacks that run after a call, in order. -/
def afterCallbacks (r : AdviceTable) (p : JoinPoint) : List (JoinPoint → Value → Reply (Option Value)) :=
  (r.matching p).filterMap (·.callback.after?)

end AdviceTable

namespace JoinPoint

/-- What callbacks before a call come to, up to the first that fails, and the notes they leave. -/
def foldBefore (p : JoinPoint) : List (JoinPoint → Reply Unit) → Except String Unit × List Note
  | [] => (.ok (), [])
  | run :: rest =>
    match (run p).outcome with
    | .error e => (.error e, (run p).notes)
    | .ok () => ((p.foldBefore rest).1, (run p).notes ++ (p.foldBefore rest).2)

/-- What callbacks after a call come to, each on the result of the one before it, up to the first that fails, and
the notes they leave. -/
def foldAfter (p : JoinPoint) : List (JoinPoint → Value → Reply (Option Value)) → Value → Except String Value × List Note
  | [], v => (.ok v, [])
  | run :: rest, v =>
    match (run p v).outcome with
    | .error e => (.error e, (run p v).notes)
    | .ok replacement =>
      let result := replacement.getD v
      ((p.foldAfter rest result).1, (run p v).notes ++ (p.foldAfter rest result).2)

end JoinPoint

namespace AdviceTable

theorem absorb_noted {r : AdviceTable} {reply : Reply α} (keeps : reply.removed = []) :
    r.absorb reply = r.noted reply.notes := by
  simp [absorb, noted, keeps]

theorem runBeforeList_noted (p : JoinPoint) (advice : List Advice) (r : AdviceTable)
    (steady : ∀ a ∈ advice, a.callback.Steady) :
    runBeforeList p advice r =
      ((p.foldBefore (advice.filterMap (·.callback.before?))).1,
        r.noted (p.foldBefore (advice.filterMap (·.callback.before?))).2) := by
  fun_induction AdviceTable.runBeforeList p advice r with
  | case1 r => simp [JoinPoint.foldBefore, noted_nil]
  | case2 a rest r run callback ih =>
    rw [ih fun a ha => steady a (List.mem_cons_of_mem _ ha)]
    simp [callback, Callback.before?]
  | case3 a rest r run callback reply e failed =>
    have quiet := steady a List.mem_cons_self
    rw [callback] at quiet
    rw [absorb_noted (quiet p)]
    simp [callback, Callback.before?, JoinPoint.foldBefore, reply, failed]
  | case4 a rest r run callback reply passed ih =>
    have quiet := steady a List.mem_cons_self
    rw [callback] at quiet
    have passed : (run p).outcome = .ok () := passed
    rw [ih fun a ha => steady a (List.mem_cons_of_mem _ ha), absorb_noted (quiet p)]
    simp [callback, Callback.before?, JoinPoint.foldBefore, passed, noted_noted]

theorem runAfterList_noted (p : JoinPoint) (advice : List Advice) (v : Value) (r : AdviceTable)
    (steady : ∀ a ∈ advice, a.callback.Steady) :
    runAfterList p advice v r =
      ((p.foldAfter (advice.filterMap (·.callback.after?)) v).1,
        r.noted (p.foldAfter (advice.filterMap (·.callback.after?)) v).2) := by
  fun_induction AdviceTable.runAfterList p advice v r with
  | case1 v r => simp [JoinPoint.foldAfter, noted_nil]
  | case2 a rest v r run callback ih =>
    rw [ih fun a ha => steady a (List.mem_cons_of_mem _ ha)]
    simp [callback, Callback.after?]
  | case3 a rest v r run callback reply e failed =>
    have quiet := steady a List.mem_cons_self
    rw [callback] at quiet
    rw [absorb_noted (quiet p v)]
    simp [callback, Callback.after?, JoinPoint.foldAfter, reply, failed]
  | case4 a rest v r run callback reply replacement passed ih =>
    have quiet := steady a List.mem_cons_self
    rw [callback] at quiet
    have passed : (run p v).outcome = .ok replacement := passed
    rw [ih fun a ha => steady a (List.mem_cons_of_mem _ ha), absorb_noted (quiet p v)]
    simp [callback, Callback.after?, JoinPoint.foldAfter, passed, noted_noted]

section Runs

variable {r : AdviceTable} (steady : r.Steady) (p : JoinPoint)
include steady

theorem Steady.matching : ∀ a ∈ r.matching p, a.callback.Steady :=
  fun a ha => steady a (List.mem_filter.mp ha).1

/-- The callbacks before a call leave notes and nothing else. -/
theorem Steady.runBefore :
    r.runBefore p = ((p.foldBefore (r.beforeCallbacks p)).1, r.noted (p.foldBefore (r.beforeCallbacks p)).2) :=
  runBeforeList_noted p _ r (steady.matching p)

/-- The callbacks after a call leave notes and nothing else. -/
theorem Steady.runAfter (v : Value) :
    r.runAfter p v = ((p.foldAfter (r.afterCallbacks p) v).1, r.noted (p.foldAfter (r.afterCallbacks p) v).2) :=
  runAfterList_noted p _ v r (steady.matching p)

end Runs

end AdviceTable

theorem AdviceTable.Steady.congr {r s : AdviceTable} (steady : r.Steady) (same : s.advice = r.advice) : s.Steady := by
  unfold AdviceTable.Steady
  rw [same]
  exact steady

namespace Machine

/-- The bound on calls stays, and so does the advice if no callback removes any. -/
structure KeepsAdvice (before after : Machine) : Prop where
  maxDepth : after.maxDepth = before.maxDepth
  advice : before.advice.Steady → after.advice.advice = before.advice.advice

theorem KeepsAdvice.steady {before after : Machine} (h : KeepsAdvice before after) (steady : before.advice.Steady) :
    after.advice.Steady :=
  steady.congr (h.advice steady)

instance : StepRelation KeepsAdvice where
  refl := fun _ => ⟨rfl, fun _ => rfl⟩
  trans := fun first second =>
    ⟨second.maxDepth.trans first.maxDepth,
      fun steady => (second.advice (first.steady steady)).trans (first.advice steady)⟩
  load := fun name m => ⟨(load_framed name m).maxDepth, fun _ => congrArg _ (load_framed name m).advice⟩
  write := fun _ _ => ⟨rfl, fun _ => rfl⟩
  alloc := fun _ _ => ⟨rfl, fun _ => rfl⟩
  set := fun _ _ _ _ => ⟨rfl, fun _ => rfl⟩
  before := fun p _ => ⟨rfl, fun steady => by rw [steady.runBefore p, AdviceTable.noted]⟩
  after := fun p v _ => ⟨rfl, fun steady => by rw [steady.runAfter p v, AdviceTable.noted]⟩

end Machine

end AspectProxy
