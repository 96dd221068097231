import AspectProxy.Proofs.ClassTable.WholeUnits
import AspectProxy.Proofs.Machine.Requests

/-!
What runs leave as it is. Whether a run ends in a value or fails, the objects that were there have all their fields, the
lines written stay in front, and so do the classes of the table; what is being loaded is the same, and so is the advice,
where callbacks are functions of the call alone.
-/

namespace AspectProxy

/-- Setting a key keeps the keys in their order, and puts a new one behind them. -/
theorem setEntry_keys (key : String) (v : α) (entries : List (String × α)) :
    entries.map (·.1) <+: (setEntry key v entries).map (·.1) := by
  induction entries with
  | nil => exact List.nil_prefix
  | cons e rest ih =>
    rw [setEntry]
    split
    · next same =>
      simp only [List.map_cons, ← same]
      exact List.prefix_rfl
    · simp only [List.map_cons]
      exact (List.prefix_cons_inj _).mpr ih

theorem key_mem_setEntry (key : String) (v : α) (entries : List (String × α)) :
    key ∈ (setEntry key v entries).map (·.1) := by
  induction entries with
  | nil => exact List.mem_singleton_self key
  | cons e rest ih =>
    rw [setEntry]
    split
    · exact List.mem_cons_self
    · exact List.mem_cons_of_mem _ ih

theorem getEntry_of_key {key : String} {entries : List (String × α)} (there : key ∈ entries.map (·.1)) :
    ∃ v, getEntry key entries = some v := by
  induction entries with
  | nil => cases there
  | cons e rest ih =>
    obtain ⟨k, v⟩ := e
    rw [getEntry]
    by_cases same : k = key
    · exact ⟨v, if_pos same⟩
    · rw [if_neg same]
      exact ih ((List.mem_cons.mp there).resolve_left (Ne.symm same))

namespace Heap

/-- The names of the fields of an object, in the order they were first set. -/
def fieldNames (h : Heap) (id : Nat) : List String :=
  (h.objects[id]?.getD []).map (·.1)

/-- A heap with all objects of another, each with all the fields it had. -/
structure Extends (before after : Heap) : Prop where
  size : before.objects.size ≤ after.objects.size
  fields : ∀ id, before.fieldNames id <+: after.fieldNames id

variable {h h' h'' : Heap}

theorem Extends.refl (h : Heap) : Extends h h :=
  ⟨Nat.le_refl _, fun _ => List.prefix_rfl⟩

theorem Extends.trans (first : Extends h h') (second : Extends h' h'') : Extends h h'' :=
  ⟨Nat.le_trans first.size second.size, fun id => (first.fields id).trans (second.fields id)⟩

theorem extends_alloc (h : Heap) (c : LoadedClass) : Extends h (h.alloc c).2 where
  size := by simp [alloc]
  fields := by
    intro id
    unfold fieldNames alloc
    rw [Array.getElem?_push]
    split
    · next new => simp [new]
    · exact List.prefix_rfl

theorem extends_set (h : Heap) (o : ObjectRef) (field : String) (v : Value) : Extends h (h.set o field v) where
  size := by simp [set]
  fields := by
    intro id
    unfold fieldNames set
    rw [Array.getElem?_modify]
    split
    · cases h.objects[id]? with
      | none => exact List.prefix_rfl
      | some fields => exact setEntry_keys field v fields
    · exact List.prefix_rfl

end Heap

/-- A callback that is a function of the call: it leaves no notes and removes no advice. -/
def Callback.Pure : Callback → Prop
  | .before run => ∀ p, (run p).notes = [] ∧ (run p).removed = []
  | .after run => ∀ p v, (run p v).notes = [] ∧ (run p v).removed = []

namespace AdviceTable

variable {r : AdviceTable}

def Pure (r : AdviceTable) : Prop :=
  ∀ a ∈ r.advice, a.callback.Pure

theorem absorb_pure {reply : Reply α} (pure : reply.notes = [] ∧ reply.removed = []) : r.absorb reply = r := by
  unfold absorb
  rw [pure.1, pure.2]
  simp only [List.foldl_nil, List.append_nil]

theorem runBefore_pure (pure : r.Pure) (p : JoinPoint) : (r.runBefore p).2 = r := by
  have run : ∀ advice : List Advice, (∀ a ∈ advice, a.callback.Pure) → (runBeforeList p advice r).2 = r := by
    intro advice
    induction advice with
    | nil => exact fun _ => rfl
    | cons a rest ih =>
      intro all
      obtain ⟨here, later⟩ := List.forall_mem_cons.mp all
      rw [runBeforeList]
      split
      · exact ih later
      · next run callback =>
        rw [callback] at here
        dsimp only
        rw [absorb_pure (here p)]
        split
        · rfl
        · exact ih later
  exact run _ fun a ha => pure a (List.mem_filter.mp ha).1

theorem runAfter_pure (pure : r.Pure) (p : JoinPoint) (v : Value) : (r.runAfter p v).2 = r := by
  have run : ∀ (advice : List Advice) (v : Value), (∀ a ∈ advice, a.callback.Pure) → (runAfterList p advice v r).2 = r := by
    intro advice
    induction advice with
    | nil => exact fun _ _ => rfl
    | cons a rest ih =>
      intro v all
      obtain ⟨here, later⟩ := List.forall_mem_cons.mp all
      rw [runAfterList]
      split
      · exact ih v later
      · next run callback =>
        rw [callback] at here
        dsimp only
        rw [absorb_pure (here p v)]
        split
        · rfl
        · exact ih _ later
  exact run _ v fun a ha => pure a (List.mem_filter.mp ha).1

end AdviceTable

namespace Machine

/-- Machines that are loading the same. -/
def SameLoading (before after : Machine) : Prop :=
  after.loading = before.loading

instance : RunOrder SameLoading where
  refl := fun _ => rfl
  trans := fun first second => Eq.trans second first

theorem register_loading (names : List ClassName) (built : List LoadedClass) :
    Change.Keeps SameLoading (register names built) := by
  intro m
  unfold register
  split
  · rfl
  · show (List.foldl addClass m _).loading = m.loading
    rw [foldl_addClass_eq]

theorem loadWithin_loading (fuel : Nat) (name : ClassName) : Change.Keeps SameLoading (loadWithin fuel name) := by
  induction fuel generalizing name with
  | zero => exact .throw _
  | succ fuel ih =>
    intro m
    have fetches {store r begun} (fetched : fetchUnit store name (m.beginLoading name) = (r, begun)) :
        begun.loading = name :: m.loading := by
      rw [fetchUnit_eq fetched]
      rfl
    have defines {u begun r after} (defined : defineWith (loadWithin fuel) u begun = (r, after)) :
        after.loading = begun.loading := by
      have same := defineWith_keeps_of_register ih register_loading u begun
      rwa [defined] at same
    have outcome := loadWith_loading (loadWithin fuel) name m
    rw [loadWithin_succ]
    generalize loadWith (loadWithin fuel) name m = result at outcome
    cases outcome with
    | present | unsupplied | busy => rfl
    | unfetched starts fetched => exact endLoading_loading (fetches fetched) starts.idle
    | undefined starts fetched defined | undeclared starts fetched defined | loaded starts fetched defined =>
      exact endLoading_loading ((defines defined).trans (fetches fetched)) starts.idle

/-- A class that is loaded is found under its name from then on. -/
theorem load_found {name : ClassName} {c : LoadedClass} {m m' : Machine} (h : load name m = (.ok c, m')) :
    m'.class? name = some c := by
  unfold load at h
  generalize m.loadBound = bound at h
  cases bound with
  | zero => cases h
  | succ fuel =>
    have outcome := loadWith_loading (loadWithin fuel) name m
    rw [← loadWithin_succ, h] at outcome
    cases outcome with
    | present found => exact found
    | loaded _ _ _ found => exact found

theorem load_loading (name : ClassName) : Change.Keeps SameLoading (load name) :=
  fun m => loadWithin_loading m.loadBound name m

/-- Machines of which the second has all classes of the first, in front. -/
def KeepsClasses (before after : Machine) : Prop :=
  before.classes <+: after.classes

instance : LoadRelation KeepsClasses where
  refl := fun _ => List.prefix_rfl
  trans := fun first second => List.IsPrefix.trans first second
  fetch := fun _ _ _ _ => List.prefix_rfl
  addClass := fun _ m => List.prefix_append m.classes _
  loading := fun _ _ => List.prefix_rfl

/-- A machine with all that another has: each object has the fields it had, each line and each class stands where it stood,
and the same is being loaded. Advice whose callbacks are pure stays as it is. -/
structure Extends (before after : Machine) : Prop where
  heap : before.heap.Extends after.heap
  output : before.output.toList <+: after.output.toList
  classes : before.classes <+: after.classes
  loading : after.loading = before.loading
  advice : before.advice.Pure → after.advice = before.advice

theorem Extends.refl (m : Machine) : Extends m m :=
  ⟨.refl m.heap, List.prefix_rfl, List.prefix_rfl, rfl, fun _ => rfl⟩

theorem Extends.trans {a b c : Machine} (first : Extends a b) (second : Extends b c) : Extends a c where
  heap := first.heap.trans second.heap
  output := first.output.trans second.output
  classes := first.classes.trans second.classes
  loading := second.loading.trans first.loading
  advice := by
    intro pure
    have same := first.advice pure
    rw [← same]
    apply second.advice
    rwa [same]

theorem extends_load (name : ClassName) (m : Machine) : Extends m (load name m).2 := by
  have framed := load_framed name m
  constructor
  · rw [framed.heap]
    exact .refl m.heap
  · exact framed.output ▸ List.prefix_rfl
  · exact load_keeps (R := KeepsClasses) name m
  · exact load_loading name m
  · exact fun _ => framed.advice

/-- Every step of a program only extends a machine. -/
instance : StepRelation Extends where
  refl := .refl
  trans := .trans
  load := extends_load
  write := fun line m => { Extends.refl m with output := by simp [write] }
  alloc := fun c m => { Extends.refl m with heap := m.heap.extends_alloc c }
  set := fun o field v m => { Extends.refl m with heap := m.heap.extends_set o field v }
  before := fun p m => { Extends.refl m with advice := fun pure => AdviceTable.runBefore_pure pure p }
  after := fun p v m => { Extends.refl m with advice := fun pure => AdviceTable.runAfter_pure pure p v }

/-- A class of the table is found under its name as before. -/
theorem Extends.class? {m m' : Machine} (h : Extends m m') {name : ClassName} {c : LoadedClass}
    (found : m.class? name = some c) : m'.class? name = some c := by
  obtain ⟨more, classes⟩ := h.classes
  exact class?_of_append classes.symm found

end Machine

end AspectProxy
