import AspectProxy.Proofs.Weaving.AdviceRuns

/-!
What becomes of a table of advice over a whole history of registrations, removals and clears. The table lists what was
registered and not taken away since, in the order it runs; ids are given in the order of registration and never twice; and
a run calls what the table lists for the call, in that order, up to the first callback that fails.
-/

namespace AspectProxy

/-- What a host does to a table of advice. -/
inductive AdviceStep where
  | register (pointcut : Pointcut) (priority : Int) (callback : Callback)
  | remove (id : Nat)
  | clear

def AdviceStep.registers : AdviceStep → Bool
  | register .. => true
  | remove _ | clear => false

/-- What came of a step; registered advice has the id that it was given. -/
inductive AdviceEvent where
  | registered (a : Advice)
  | removed (id : Nat)
  | cleared

namespace AdviceEvent

/-- The id that an event gave. -/
def issued? : AdviceEvent → Option Nat
  | registered a => some a.id
  | removed _ | cleared => none

/-- The ids that were given in a history, in order. -/
def issued (history : List AdviceEvent) : List Nat :=
  history.filterMap issued?

/-- An event that takes advice of an id away. -/
def Drops (id : Nat) : AdviceEvent → Prop
  | registered _ => False
  | removed other => other = id
  | cleared => True

/-- Advice that was registered and not taken away since. -/
def Live (history : List AdviceEvent) (a : Advice) : Prop :=
  ∃ before after, history = before ++ registered a :: after ∧ ∀ e ∈ after, ¬e.Drops a.id

/-- Advice that was registered before other advice. -/
def Earlier (history : List AdviceEvent) (a b : Advice) : Prop :=
  ∃ before between after, history = before ++ registered a :: (between ++ registered b :: after)

/-- After one more event such advice is live as the event registers, or as was live and is not taken away by it. -/
theorem live_concat {history : List AdviceEvent} {e : AdviceEvent} {a : Advice} :
    Live (history ++ [e]) a ↔ e = registered a ∨ Live history a ∧ ¬e.Drops a.id := by
  constructor
  · rintro ⟨before, after, whole, kept⟩
    rcases List.eq_nil_or_concat after with rfl | ⟨after, last, rfl⟩
    · exact .inl (List.cons.inj (List.append_inj' whole rfl).2).1
    · have whole : history ++ [e] = (before ++ registered a :: after) ++ [last] := by simpa using whole
      obtain ⟨rfl, same⟩ := List.append_inj' whole rfl
      obtain rfl := (List.cons.inj same).1
      rw [List.concat_eq_append] at kept
      refine .inr ⟨⟨before, after, rfl, fun x hx => kept x (List.mem_append_left _ hx)⟩, ?_⟩
      exact kept e (List.mem_append_right _ List.mem_cons_self)
  · rintro (rfl | ⟨⟨before, after, rfl, kept⟩, last⟩)
    · exact ⟨history, [], rfl, nofun⟩
    · refine ⟨before, after ++ [e], by simp, fun x hx => ?_⟩
      rcases List.mem_append.mp hx with hx | hx
      · exact kept x hx
      · exact List.mem_singleton.mp hx ▸ last

theorem Live.registered {history : List AdviceEvent} {a : Advice} (h : Live history a) : registered a ∈ history := by
  obtain ⟨before, after, rfl, -⟩ := h
  exact List.mem_append_right _ List.mem_cons_self

theorem mem_issued {history : List AdviceEvent} {a : Advice} (h : registered a ∈ history) : a.id ∈ issued history :=
  List.mem_filterMap.mpr ⟨_, h, rfl⟩

theorem issued_append (history events : List AdviceEvent) : issued (history ++ events) = issued history ++ issued events :=
  List.filterMap_append

theorem earlier_or_earlier {history : List AdviceEvent} {a b : Advice} (ha : registered a ∈ history)
    (hb : registered b ∈ history) : a = b ∨ Earlier history a b ∨ Earlier history b a := by
  obtain ⟨before, after, rfl⟩ := List.append_of_mem ha
  rcases List.mem_append.mp hb with first | behind
  · obtain ⟨start, between, rfl⟩ := List.append_of_mem first
    exact .inr (.inr ⟨start, between, after, by simp⟩)
  · rcases List.mem_cons.mp behind with same | behind
    · exact .inl (registered.inj same).symm
    · obtain ⟨between, rest, rfl⟩ := List.append_of_mem behind
      exact .inr (.inl ⟨before, between, rest, rfl⟩)

theorem Earlier.lt {history : List AdviceEvent} {a b : Advice} (h : Earlier history a b)
    (increasing : (issued history).Pairwise (· < ·)) : a.id < b.id := by
  obtain ⟨before, between, after, rfl⟩ := h
  rw [issued_append] at increasing
  have behind := (List.pairwise_append.mp increasing).2.1
  exact (List.pairwise_cons.mp behind).1 b.id (mem_issued (List.mem_append_right _ List.mem_cons_self))

end AdviceEvent

namespace AdviceTable

open AdviceEvent

/-- What comes of a step, and the table after it. -/
def serve (r : AdviceTable) : AdviceStep → AdviceEvent × AdviceTable
  | .register pointcut priority callback =>
    let (id, s) := r.register pointcut priority callback
    (.registered ⟨id, pointcut, priority, callback⟩, s)
  | .remove id => (.removed id, (r.remove id).2)
  | .clear => (.cleared, r.clear)

/-- What comes of steps, and the table after them. -/
def serveAll (r : AdviceTable) : List AdviceStep → List AdviceEvent × AdviceTable
  | [] => ([], r)
  | step :: rest =>
    let (e, s) := r.serve step
    let (events, t) := s.serveAll rest
    (e :: events, t)

theorem serveAll_append (r : AdviceTable) (steps more : List AdviceStep) :
    r.serveAll (steps ++ more) =
      ((r.serveAll steps).1 ++ ((r.serveAll steps).2.serveAll more).1, ((r.serveAll steps).2.serveAll more).2) := by
  induction steps generalizing r with
  | nil => rfl
  | cons step rest ih => simp only [List.cons_append, serveAll, ih]

/-- A table that lists what a history left: the ids count up from one to the last one given. -/
structure Records (history : List AdviceEvent) (r : AdviceTable) : Prop where
  issued : issued history = List.range' 1 r.lastId
  listed : ∀ a, a ∈ r.advice ↔ Live history a
  inOrder : r.InOrder

theorem records_empty : Records [] {} where
  issued := rfl
  listed := fun _ => ⟨nofun, fun h => nomatch h.registered⟩
  inOrder := Arranged.empty.inOrder

/-- One step keeps the record. -/
theorem Records.serve {history : List AdviceEvent} {r : AdviceTable} (h : Records history r) (step : AdviceStep) :
    Records (history ++ [(r.serve step).1]) (r.serve step).2 := by
  cases step with
  | register pointcut priority callback =>
    refine ⟨?_, fun a => ?_, h.inOrder.register pointcut priority callback⟩
    · have next : (r.serve (.register pointcut priority callback)).2.lastId = r.lastId + 1 := rfl
      rw [issued_append, h.issued, next, List.range'_1_concat, Nat.add_comm 1]
      rfl
    · rw [live_concat, ← h.listed]
      refine mem_byPriority.trans (List.mem_append.trans (or_comm.trans (or_congr ?_ ?_)))
      · exact List.mem_singleton.trans ⟨fun same => same ▸ rfl, fun same => (registered.inj same).symm⟩
      · exact (and_iff_left id).symm
  | remove id =>
    refine ⟨?_, fun a => ?_, h.inOrder.sublist List.filter_sublist rfl⟩
    · rw [issued_append, h.issued]
      exact List.append_nil _
    · rw [live_concat, ← h.listed]
      refine List.mem_filter.trans (Iff.trans ?_ (or_iff_right nofun).symm)
      exact and_congr_right fun _ => decide_eq_true_iff.trans ne_comm
  | clear =>
    refine ⟨?_, fun a => ?_, h.inOrder.sublist (List.nil_sublist _) rfl⟩
    · rw [issued_append, h.issued]
      exact List.append_nil _
    · rw [live_concat, ← h.listed]
      exact ⟨nofun, fun live => (live.resolve_left nofun).2.elim trivial⟩

/-- Steps keep the record. -/
theorem Records.serveAll {history : List AdviceEvent} {r : AdviceTable} (h : Records history r) (steps : List AdviceStep) :
    Records (history ++ (r.serveAll steps).1) (r.serveAll steps).2 := by
  induction steps generalizing history r with
  | nil => exact (List.append_nil history).symm ▸ h
  | cons step rest ih =>
    have whole := ih (h.serve step)
    rw [List.append_assoc] at whole
    exact whole

namespace Records

variable {history : List AdviceEvent} {r : AdviceTable} (h : Records history r)
include h

theorem increasing : (AdviceEvent.issued history).Pairwise (· < ·) :=
  h.issued ▸ List.pairwise_lt_range'

theorem registered {a : Advice} (ha : a ∈ r.advice) : .registered a ∈ history :=
  ((h.listed a).mp ha).registered

theorem distinct : (r.advice.map (·.id)).Nodup := by
  refine List.pairwise_map.mpr (h.inOrder.sorted.imp_of_mem fun {a b} ha hb precedes same => ?_)
  rcases earlier_or_earlier (h.registered ha) (h.registered hb) with rfl | first | first
  · exact precedes.elim (Int.lt_irrefl _) fun precedes => Nat.lt_irrefl _ precedes.2
  · exact absurd same (Nat.ne_of_lt (first.lt h.increasing))
  · exact absurd same (Nat.ne_of_gt (first.lt h.increasing))

/-- Within a priority the ids stand for the order of registration. -/
theorem sorted : r.advice.Pairwise fun a b =>
    b.priority < a.priority ∨ b.priority = a.priority ∧ Earlier history a b := by
  refine h.inOrder.sorted.imp_of_mem fun {a b} ha hb precedes => ?_
  refine precedes.imp_right fun ⟨same, lt⟩ => ⟨same, ?_⟩
  rcases earlier_or_earlier (h.registered ha) (h.registered hb) with rfl | first | first
  · exact absurd lt (Nat.lt_irrefl _)
  · exact first
  · exact absurd lt (Nat.lt_asymm (first.lt h.increasing))

end Records

theorem lastId_serveAll (r : AdviceTable) (steps : List AdviceStep) :
    (r.serveAll steps).2.lastId = r.lastId + steps.countP AdviceStep.registers := by
  induction steps generalizing r with
  | nil => rfl
  | cons step rest ih =>
    refine (ih (r.serve step).2).trans ?_
    cases step with
    | register pointcut priority callback =>
      rw [List.countP_cons_of_pos rfl, Nat.add_comm _ 1, ← Nat.add_assoc]
      rfl
    | remove id => rfl
    | clear => rfl

theorem remove_eq_true_iff {r : AdviceTable} {id : Nat} : (r.remove id).1 = true ↔ ∃ a ∈ r.advice, a.id = id := by
  simp [remove]

theorem mem_remove {r : AdviceTable} {id : Nat} {a : Advice} :
    a ∈ (r.remove id).2.advice ↔ a ∈ r.advice ∧ a.id ≠ id := by
  simp [remove]

/-- Callbacks that are called in turn, each on what the one before it left, up to the first that fails: their replies, and
what is left in the end or the failure. -/
inductive InTurn (call : β → σ → Reply α) (next : σ → α → σ) : List β → σ → List (Reply α) → Except String σ → Prop
  | done (s : σ) : InTurn call next [] s [] (.ok s)
  | failed {b : β} {rest : List β} {s : σ} {e : String} :
    (call b s).outcome = .error e → InTurn call next (b :: rest) s [call b s] (.error e)
  | passed {b : β} {rest : List β} {s : σ} {a : α} {replies : List (Reply α)} {r : Except String σ} :
    (call b s).outcome = .ok a → InTurn call next rest (next s a) replies r →
    InTurn call next (b :: rest) s (call b s :: replies) r

theorem runBeforeList_inTurn (p : JoinPoint) (advice : List Advice) (r : AdviceTable) : ∃ replies,
    InTurn (fun run (_ : Unit) => run p) (fun _ _ => ()) (advice.filterMap (·.callback.before?)) () replies
        (runBeforeList p advice r).1 ∧
      (runBeforeList p advice r).2 = replies.foldl absorb r := by
  fun_induction AdviceTable.runBeforeList p advice r with
  | case1 r => exact ⟨[], .done (), rfl⟩
  | case2 a rest r run callback ih =>
    rw [List.filterMap_cons_none (by rw [callback]; rfl)]
    exact ih
  | case3 a rest r run callback reply e failed =>
    rw [List.filterMap_cons_some (by rw [callback]; rfl)]
    exact ⟨[run p], .failed failed, rfl⟩
  | case4 a rest r run callback reply passed ih =>
    rw [List.filterMap_cons_some (by rw [callback]; rfl)]
    obtain ⟨replies, turns, left⟩ := ih
    exact ⟨run p :: replies, .passed passed turns, left⟩

theorem runAfterList_inTurn (p : JoinPoint) (advice : List Advice) (v : Value) (r : AdviceTable) : ∃ replies,
    InTurn (fun run => run p) (fun v replacement => replacement.getD v) (advice.filterMap (·.callback.after?)) v replies
        (runAfterList p advice v r).1 ∧
      (runAfterList p advice v r).2 = replies.foldl absorb r := by
  fun_induction AdviceTable.runAfterList p advice v r with
  | case1 v r => exact ⟨[], .done v, rfl⟩
  | case2 a rest v r run callback ih =>
    rw [List.filterMap_cons_none (by rw [callback]; rfl)]
    exact ih
  | case3 a rest v r run callback reply e failed =>
    rw [List.filterMap_cons_some (by rw [callback]; rfl)]
    exact ⟨[run p v], .failed failed, rfl⟩
  | case4 a rest v r run callback reply replacement passed ih =>
    rw [List.filterMap_cons_some (by rw [callback]; rfl)]
    obtain ⟨replies, turns, left⟩ := ih
    exact ⟨run p v :: replies, .passed passed turns, left⟩

/-- The removals that replies ask for. -/
def removals (replies : List (Reply α)) : List AdviceStep :=
  replies.flatMap fun reply => reply.removed.map .remove

theorem serveAll_noted (r : AdviceTable) (notes : List Note) (steps : List AdviceStep) :
    ((r.noted notes).serveAll steps).2 = (r.serveAll steps).2.noted notes := by
  induction steps generalizing r with
  | nil => rfl
  | cons step rest ih =>
    have first : ((r.noted notes).serve step).2 = (r.serve step).2.noted notes := by cases step <;> rfl
    exact (congrArg (fun t => (serveAll t rest).2) first).trans (ih _)

theorem serveAll_removes (r : AdviceTable) (ids : List Nat) :
    (r.serveAll (ids.map .remove)).2 = ids.foldl (fun r id => (r.remove id).2) r := by
  induction ids generalizing r with
  | nil => rfl
  | cons id rest ih => exact ih (r.remove id).2

/-- What replies leave of a table: what it would be after the removals that they ask for, with their notes. -/
theorem foldl_absorb (replies : List (Reply α)) (r : AdviceTable) :
    replies.foldl absorb r = (r.serveAll (removals replies)).2.noted (replies.flatMap (·.notes)) := by
  induction replies generalizing r with
  | nil => exact (noted_nil r).symm
  | cons reply rest ih =>
    have first : r.absorb reply = (r.serveAll (reply.removed.map .remove)).2.noted reply.notes := by
      rw [serveAll_removes]
      rfl
    have parts : removals (reply :: rest) = reply.removed.map .remove ++ removals rest := List.flatMap_cons
    rw [List.foldl_cons, ih, first, serveAll_noted, noted_noted, parts, serveAll_append, List.flatMap_cons]

/-- What comes of steps on a table without advice. -/
def historyOf (steps : List AdviceStep) : List AdviceEvent :=
  (serveAll {} steps).1

/-- What steps make of a table without advice. -/
def tableAfter (steps : List AdviceStep) : AdviceTable :=
  (serveAll {} steps).2

theorem records_tableAfter (steps : List AdviceStep) : Records (historyOf steps) (tableAfter steps) :=
  records_empty.serveAll steps

theorem tableAfter_removals (steps : List AdviceStep) (replies : List (Reply α)) :
    replies.foldl absorb (tableAfter steps) =
      (tableAfter (steps ++ removals replies)).noted (replies.flatMap (·.notes)) := by
  rw [foldl_absorb, tableAfter, tableAfter, serveAll_append]

/-- After any steps the ids given have increased, by one with each registration; the table lists the advice that was
registered and not taken away since, that of higher priority first and within a priority what was registered first; removing
says whether the table has the id and takes away that and nothing else. A run calls the callbacks of its kind among the
advice listed whose pointcut covers the call, in turn, on the result so far if they come after it, and leaves what the removals
that they ask for leave, with their notes. -/
theorem tableAfter_history (steps : List AdviceStep) :
    ((issued (historyOf steps)).Pairwise (· < ·) ∧
      ∀ id ∈ issued (historyOf steps), 1 ≤ id ∧ id ≤ steps.countP AdviceStep.registers) ∧
    (∀ a, a ∈ (tableAfter steps).advice ↔ Live (historyOf steps) a) ∧
    ((tableAfter steps).advice.map (·.id)).Nodup ∧
    (tableAfter steps).advice.Pairwise (fun a b =>
      b.priority < a.priority ∨ b.priority = a.priority ∧ Earlier (historyOf steps) a b) ∧
    (∀ id, (((tableAfter steps).remove id).1 = true ↔ ∃ a ∈ (tableAfter steps).advice, a.id = id) ∧
      ∀ a, a ∈ ((tableAfter steps).remove id).2.advice ↔ a ∈ (tableAfter steps).advice ∧ a.id ≠ id) ∧
    (∀ p, ∃ replies,
      InTurn (fun run (_ : Unit) => run p) (fun _ _ => ())
        (((tableAfter steps).advice.filter (·.pointcut.covers p)).filterMap (·.callback.before?)) () replies
        ((tableAfter steps).runBefore p).1 ∧
      ((tableAfter steps).runBefore p).2 =
        (tableAfter (steps ++ removals replies)).noted (replies.flatMap (·.notes))) ∧
    ∀ p v, ∃ replies,
      InTurn (fun run => run p) (fun v replacement => replacement.getD v)
        (((tableAfter steps).advice.filter (·.pointcut.covers p)).filterMap (·.callback.after?)) v replies
        ((tableAfter steps).runAfter p v).1 ∧
      ((tableAfter steps).runAfter p v).2 =
        (tableAfter (steps ++ removals replies)).noted (replies.flatMap (·.notes)) := by
  have records := records_tableAfter steps
  refine ⟨⟨records.increasing, fun id given => ?_⟩, records.listed, records.distinct, records.sorted,
    fun id => ⟨remove_eq_true_iff, fun a => mem_remove⟩, fun p => ?_, fun p v => ?_⟩
  · have last : (tableAfter steps).lastId = steps.countP AdviceStep.registers :=
      (lastId_serveAll {} steps).trans (Nat.zero_add _)
    rw [records.issued, last, List.mem_range'_1] at given
    omega
  · obtain ⟨replies, turns, left⟩ := runBeforeList_inTurn p ((tableAfter steps).matching p) (tableAfter steps)
    exact ⟨replies, turns, left.trans (tableAfter_removals steps replies)⟩
  · obtain ⟨replies, turns, left⟩ := runAfterList_inTurn p ((tableAfter steps).matching p) v (tableAfter steps)
    exact ⟨replies, turns, left.trans (tableAfter_removals steps replies)⟩

/-- The ids tell the order of registration, the list the order of the runs. -/
example (pointcut : Pointcut) (callback : Callback) :
    (tableAfter [.register pointcut 0 callback, .register pointcut 10 callback, .register pointcut 5 callback, .remove 3,
      .register pointcut 0 callback]).advice.map (·.id) = [2, 1, 4] := by
  cbv

end AdviceTable

end AspectProxy
