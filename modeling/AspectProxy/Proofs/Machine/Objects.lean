import AspectProxy.Machine.Host

/-!
The classes of the objects that a program can get hold of. Operators, functions and the heap give no object that was
not in what they were given, so a condition on the classes of all objects that a machine and its advice hold is kept.
-/

namespace AspectProxy

namespace Value

mutual

/-- Whether all objects in a value are of classes that meet a condition. -/
def Objects (p : LoadedClass → Prop) : Value → Prop
  | null | bool _ | int _ | float _ | str _ => True
  | list items => ItemObjects p items
  | map entries => EntryObjects p entries
  | object o => p o.type

def ItemObjects (p : LoadedClass → Prop) : List Value → Prop
  | [] => True
  | v :: vs => v.Objects p ∧ ItemObjects p vs

def EntryObjects (p : LoadedClass → Prop) : List (String × Value) → Prop
  | [] => True
  | (_, v) :: es => v.Objects p ∧ EntryObjects p es

end

mutual

/-- Whether all objects that a value refers to meet a condition. -/
def References (p : ObjectRef → Prop) : Value → Prop
  | null | bool _ | int _ | float _ | str _ => True
  | list items => ItemReferences p items
  | map entries => EntryReferences p entries
  | object o => p o

def ItemReferences (p : ObjectRef → Prop) : List Value → Prop
  | [] => True
  | v :: vs => v.References p ∧ ItemReferences p vs

def EntryReferences (p : ObjectRef → Prop) : List (String × Value) → Prop
  | [] => True
  | (_, v) :: es => v.References p ∧ EntryReferences p es

end

theorem references_list {p : ObjectRef → Prop} {items : List Value} :
    (list items).References p ↔ ∀ v ∈ items, v.References p := by
  show ItemReferences p items ↔ _
  induction items with
  | nil => simp [ItemReferences]
  | cons v vs ih => rw [ItemReferences, ih, List.forall_mem_cons]

theorem references_map {p : ObjectRef → Prop} {entries : List (String × Value)} :
    (map entries).References p ↔ ∀ e ∈ entries, e.2.References p := by
  show EntryReferences p entries ↔ _
  induction entries with
  | nil => simp [EntryReferences]
  | cons e es ih => rw [EntryReferences, ih, List.forall_mem_cons]

mutual

theorem references_imp {p q : ObjectRef → Prop} (weaker : ∀ o, p o → q o) : ∀ {v : Value}, v.References p → v.References q
  | null, _ | bool _, _ | int _, _ | float _, _ | str _, _ => trivial
  | list _, h => itemReferences_imp weaker h
  | map _, h => entryReferences_imp weaker h
  | object o, h => weaker o h

theorem itemReferences_imp {p q : ObjectRef → Prop} (weaker : ∀ o, p o → q o) :
    ∀ {vs : List Value}, ItemReferences p vs → ItemReferences q vs
  | [], _ => trivial
  | _ :: _, h => ⟨references_imp weaker h.1, itemReferences_imp weaker h.2⟩

theorem entryReferences_imp {p q : ObjectRef → Prop} (weaker : ∀ o, p o → q o) :
    ∀ {es : List (String × Value)}, EntryReferences p es → EntryReferences q es
  | [], _ => trivial
  | _ :: _, h => ⟨references_imp weaker h.1, entryReferences_imp weaker h.2⟩

end

variable {p : LoadedClass → Prop}

mutual

/-- A condition on the classes of objects is one on the objects. -/
theorem objects_iff : ∀ v : Value, v.Objects p ↔ v.References fun o => p o.type
  | null | bool _ | int _ | float _ | str _ | object _ => Iff.rfl
  | list items => itemObjects_iff items
  | map entries => entryObjects_iff entries

theorem itemObjects_iff : ∀ vs : List Value, ItemObjects p vs ↔ ItemReferences (fun o => p o.type) vs
  | [] => Iff.rfl
  | v :: vs => and_congr (objects_iff v) (itemObjects_iff vs)

theorem entryObjects_iff : ∀ es : List (String × Value), EntryObjects p es ↔ EntryReferences (fun o => p o.type) es
  | [] => Iff.rfl
  | (_, v) :: es => and_congr (objects_iff v) (entryObjects_iff es)

end

theorem objects_list {items : List Value} : (list items).Objects p ↔ ∀ v ∈ items, v.Objects p := by
  simp only [objects_iff, references_list]

theorem objects_map {entries : List (String × Value)} :
    (map entries).Objects p ↔ ∀ e ∈ entries, e.2.Objects p := by
  simp only [objects_iff, references_map]

end Value

section Entries

variable {P : α → Prop} {key : String} {v : α} {entries : List (String × α)}

theorem forall_mem_setEntry (h : ∀ e ∈ entries, P e.2) (hv : P v) : ∀ e ∈ setEntry key v entries, P e.2 := by
  induction entries with
  | nil => simpa [setEntry] using hv
  | cons e rest ih =>
    obtain ⟨first, others⟩ := List.forall_mem_cons.mp h
    rw [setEntry]
    split
    · exact List.forall_mem_cons.mpr ⟨hv, others⟩
    · exact List.forall_mem_cons.mpr ⟨first, ih others⟩

theorem of_getEntry (h : ∀ e ∈ entries, P e.2) (found : getEntry key entries = some v) : P v := by
  induction entries with
  | nil => cases found
  | cons e rest ih =>
    obtain ⟨first, others⟩ := List.forall_mem_cons.mp h
    rw [getEntry] at found
    split at found
    · cases found
      exact first
    · exact ih others found

theorem forall_mem_entriesOf (h : ∀ e ∈ entries, P e.2) : ∀ e ∈ entriesOf entries, P e.2 := by
  have set : ∀ before : List (String × α), (∀ e ∈ before, P e.2) →
      ∀ e ∈ entries.foldl (fun entries e => setEntry e.1 e.2 entries) before, P e.2 := by
    induction entries with
    | nil => exact fun _ h => h
    | cons e rest ih =>
      obtain ⟨first, others⟩ := List.forall_mem_cons.mp h
      exact fun before hb => ih others _ (forall_mem_setEntry hb first)
  exact set [] (by simp)

end Entries

namespace Value

variable {p : ObjectRef → Prop} {a b v : Value}

theorem references_checked {operation : String} {n : Int} (h : checked operation n = .ok v) : v.References p := by
  unfold checked at h
  split at h
  · cases h
    trivial
  · cases h

theorem references_numeric {operation : String} {onInts : Int → Int → Int} {onFloats : Float → Float → Float}
    (h : numeric operation onInts onFloats a b = .ok v) : v.References p := by
  unfold numeric at h
  split at h
  · exact references_checked h
  all_goals cases h; try trivial

theorem references_add (ha : a.References p) (hb : b.References p) (h : add a b = .ok v) : v.References p := by
  unfold add at h
  split at h
  · cases h
    trivial
  · cases h
    exact references_list.mpr fun v hv =>
      (List.mem_append.mp hv).elim (references_list.mp ha v) (references_list.mp hb v)
  · exact references_numeric h

theorem references_comparison {holds : Ordering → Bool} (h : comparison holds a b = .ok v) : v.References p := by
  unfold comparison at h
  cases ordered : order a b with
  | error e =>
    rw [ordered] at h
    cases h
  | ok o =>
    rw [ordered] at h
    cases h
    trivial

theorem references_binary {op : BinaryOp} (ha : a.References p) (hb : b.References p) (h : binary op a b = .ok v) :
    v.References p := by
  cases op with
  | add => exact references_add ha hb h
  | subtract | multiply => exact references_numeric h
  | divide | modulo =>
    unfold binary at h
    dsimp only at h
    split at h
    · cases h
    · exact references_numeric h
  | less | lessEqual | greater | greaterEqual => exact references_comparison h
  | equal | notEqual | and | or =>
    cases h
    trivial

theorem references_unary {op : UnaryOp} (h : unary op a = .ok v) : v.References p := by
  unfold unary at h
  split at h
  · cases h
    trivial
  · exact references_checked h
  · cases h
    trivial
  · cases h

theorem references_index {key : Value} (ha : a.References p) (h : index a key = .ok v) : v.References p := by
  unfold index at h
  split at h
  · split at h
    next items _ v found =>
      cases h
      obtain ⟨n, -, there⟩ := Option.bind_eq_some_iff.mp found
      exact references_list.mp ha _ (List.mem_of_getElem? there)
    next => cases h
  · split at h
    · cases h
      trivial
    · cases h
  next entries key =>
    cases h
    cases found : getEntry key entries with
    | none => trivial
    | some v => exact of_getEntry (P := References p) (references_map.mp ha) found
  · cases h

theorem references_setIndex {container key : Value} (hc : container.References p) (hv : v.References p) {updated : Value}
    (h : setIndex container key v = .ok updated) : updated.References p := by
  unfold setIndex at h
  split at h
  · split at h
    · cases h
      refine references_list.mpr fun w hw => ?_
      rcases List.mem_or_eq_of_mem_set hw with hw | rfl
      · exact references_list.mp hc w hw
      · exact hv
    · cases h
  · cases h
    exact references_map.mpr (forall_mem_setEntry (references_map.mp hc) hv)
  · cases h

theorem references_iterated {items : List Value} (ha : a.References p) (h : a.iterated = .ok items) :
    ∀ v ∈ items, v.References p := by
  unfold iterated at h
  split at h
  · cases h
    exact references_list.mp ha
  · cases h
    intro v hv
    obtain ⟨_, -, rfl⟩ := List.mem_map.mp hv
    trivial
  · cases h
    intro v hv
    obtain ⟨_, -, rfl⟩ := List.mem_map.mp hv
    trivial
  · cases h

section Classes

variable {p : LoadedClass → Prop}

theorem objects_binary {op : BinaryOp} (ha : a.Objects p) (hb : b.Objects p) (h : binary op a b = .ok v) : v.Objects p := by
  rw [objects_iff] at *
  exact references_binary ha hb h

theorem objects_unary {op : UnaryOp} (h : unary op a = .ok v) : v.Objects p :=
  (objects_iff v).mpr (references_unary h)

theorem objects_index {key : Value} (ha : a.Objects p) (h : index a key = .ok v) : v.Objects p := by
  rw [objects_iff] at *
  exact references_index ha h

theorem objects_setIndex {container key : Value} (hc : container.Objects p) (hv : v.Objects p) {updated : Value}
    (h : setIndex container key v = .ok updated) : updated.Objects p := by
  rw [objects_iff] at *
  exact references_setIndex hc hv h

theorem objects_iterated {items : List Value} (ha : a.Objects p) (h : a.iterated = .ok items) :
    ∀ v ∈ items, v.Objects p := by
  simp only [objects_iff] at *
  exact references_iterated ha h

end Classes

end Value

theorem JoinPoint.references_ofContext {p : ObjectRef → Prop} {context : Value} {point : JoinPoint}
    (hc : context.References p) (h : JoinPoint.ofContext context = .ok point) : ∀ v ∈ point.args, v.References p := by
  cases context with
  | map entries =>
    simp only [ofContext, bind, Except.bind, pure, Except.pure] at h
    cases args : argsOf entries with
    | error e =>
      rw [args] at h
      cases h
    | ok items =>
      have held : ∀ v ∈ items, v.References p := by
        unfold argsOf at args
        split at args
        next found =>
          cases args
          exact Value.references_list.mp (of_getEntry (P := Value.References p) (Value.references_map.mp hc) found)
        next =>
          cases args
          simp
        next => cases args
      rw [args] at h
      dsimp only at h
      split at h
      · cases h
      · split at h
        · cases h
        · cases h
          exact held
  | _ => cases h

variable {p : LoadedClass → Prop}

theorem JoinPoint.objects_ofContext {context : Value} {point : JoinPoint} (hc : context.Objects p)
    (h : JoinPoint.ofContext context = .ok point) : ∀ v ∈ point.args, v.Objects p := by
  simp only [Value.objects_iff] at *
  exact references_ofContext hc h

/-- A callback whose results meet a condition that all it is given meets. -/
def Callback.Gives (P : Value → Prop) : Callback → Prop
  | .before _ => True
  | .after run => ∀ (point : JoinPoint) (v w : Value), (∀ a ∈ point.args, P a) → P v →
    (run point v).outcome = .ok (some w) → P w

/-- A callback whose results hold no other objects than those it was given and those of classes that meet a
condition. -/
def Callback.Objects (p : LoadedClass → Prop) : Callback → Prop
  | .before _ => True
  | .after run => ∀ (point : JoinPoint) (v w : Value), (∀ a ∈ point.args, a.Objects p) → v.Objects p →
    (run point v).outcome = .ok (some w) → w.Objects p

theorem Callback.objects_iff {callback : Callback} : callback.Objects p ↔ callback.Gives (Value.Objects p) := by
  cases callback <;> rfl

namespace AdviceTable

/-- Whether a condition on callbacks holds of all advice of a table. -/
def All (Q : Callback → Prop) (r : AdviceTable) : Prop :=
  ∀ a ∈ r.advice, Q a.callback

section Callbacks

variable {Q : Callback → Prop} {P : Value → Prop}

theorem All.absorb {r : AdviceTable} (h : r.All Q) (reply : Reply α) : (r.absorb reply).All Q := by
  have removed : ∀ ids : List Nat, ∀ r : AdviceTable, r.All Q → (ids.foldl (fun r id => (r.remove id).2) r).All Q := by
    intro ids
    induction ids with
    | nil => exact fun _ h => h
    | cons id ids ih => exact fun r h => ih _ fun a ha => h a ((List.mem_filter.mp ha).1)
  exact removed reply.removed r h

theorem All.runBefore {r : AdviceTable} (h : r.All Q) (point : JoinPoint) : (r.runBefore point).2.All Q := by
  have run : ∀ (as : List Advice) (r : AdviceTable), r.All Q → (runBeforeList point as r).2.All Q := by
    intro as
    induction as with
    | nil => exact fun _ h => h
    | cons a rest ih =>
      intro r h
      rw [runBeforeList]
      split
      · exact ih r h
      · dsimp only
        split
        · exact h.absorb _
        · exact ih _ (h.absorb _)
  exact run _ r h

theorem All.runAfter {r : AdviceTable} (h : r.All Q) (point : JoinPoint) (result : Value) :
    (r.runAfter point result).2.All Q := by
  have run : ∀ (as : List Advice) (v : Value) (r : AdviceTable), r.All Q → (runAfterList point as v r).2.All Q := by
    intro as
    induction as with
    | nil => exact fun _ _ h => h
    | cons a rest ih =>
      intro v r h
      rw [runAfterList]
      split
      · exact ih v r h
      · dsimp only
        split
        · exact h.absorb _
        · exact ih _ _ (h.absorb _)
  exact run _ result r h

/-- The result of advice meets what the call and the result before it meet, if all callbacks see to that. -/
theorem runAfter_gives {r : AdviceTable} (h : r.All (Callback.Gives P)) {point : JoinPoint} (args : ∀ a ∈ point.args, P a)
    {result : Value} (held : P result) {v : Value} (given : (r.runAfter point result).1 = .ok v) : P v := by
  have run : ∀ (as : List Advice) (v : Value) (r : AdviceTable), (∀ a ∈ as, a.callback.Gives P) → P v →
      ∀ w, (runAfterList point as v r).1 = .ok w → P w := by
    intro as
    induction as with
    | nil =>
      rintro v r _ hv _ ⟨⟩
      exact hv
    | cons a rest ih =>
      intro v r has hv w given
      obtain ⟨first, others⟩ := List.forall_mem_cons.mp has
      rw [runAfterList] at given
      split at given
      · exact ih v r others hv w given
      next code callback =>
        dsimp only at given
        rw [callback] at first
        split at given
        · cases given
        next replacement outcome =>
          refine ih _ _ others ?_ w given
          cases replacement with
          | none => exact hv
          | some w => exact first point v w args hv outcome
  exact run _ result r (fun a ha => h a ((List.mem_filter.mp ha).1)) held v given

end Callbacks

def Objects (p : LoadedClass → Prop) (r : AdviceTable) : Prop :=
  ∀ a ∈ r.advice, a.callback.Objects p

theorem Objects.runBefore {r : AdviceTable} (h : r.Objects p) (point : JoinPoint) : (r.runBefore point).2.Objects p :=
  All.runBefore h point

theorem Objects.runAfter {r : AdviceTable} (h : r.Objects p) {point : JoinPoint} (args : ∀ a ∈ point.args, a.Objects p)
    {result : Value} (held : result.Objects p) :
    (r.runAfter point result).2.Objects p ∧ ∀ v, (r.runAfter point result).1 = .ok v → v.Objects p :=
  ⟨All.runAfter h point result,
    fun _ given => runAfter_gives (fun a ha => Callback.objects_iff.mp (h a ha)) args held given⟩

end AdviceTable

namespace Heap

/-- Whether all values that objects hold meet a condition. -/
def All (P : Value → Prop) (h : Heap) : Prop :=
  ∀ o, ∀ field ∈ h.fields o, P field.2

variable {P : Value → Prop} {h : Heap}

theorem All.get? (all : h.All P) {o : ObjectRef} {field : String} {v : Value} (found : h.get? o field = some v) : P v :=
  of_getEntry (all o) found

theorem All.alloc (all : h.All P) (c : LoadedClass) : (h.alloc c).2.All P := by
  intro o field there
  refine all o field ?_
  simp only [Heap.fields, Heap.alloc, Array.getElem?_push] at there
  split at there
  · cases there
  · exact there

theorem All.set (all : h.All P) (o : ObjectRef) (name : String) {v : Value} (hv : P v) : (h.set o name v).All P := by
  intro o' field there
  have before := all o'
  simp only [Heap.fields, Heap.set, Array.getElem?_modify] at there before
  split at there
  · cases here : h.objects[o'.id]? with
    | none => simp [here] at there
    | some fields =>
      simp only [here, Option.map_some, Option.getD_some] at there before
      exact forall_mem_setEntry before hv field there
  · exact before field there

end Heap

namespace Machine

/-- Whether all objects that a machine holds, and those that its advice adds, are of classes that meet a condition. -/
structure Objects (p : LoadedClass → Prop) (m : Machine) : Prop where
  heap : ∀ o, ∀ field ∈ m.heap.fields o, field.2.Objects p
  advice : m.advice.Objects p

theorem Objects.get? {m : Machine} (h : m.Objects p) {o : ObjectRef} {field : String} {v : Value}
    (found : m.heap.get? o field = some v) : v.Objects p :=
  Heap.All.get? h.heap found

theorem Objects.alloc {m : Machine} (h : m.Objects p) (c : LoadedClass) :
    Objects p { m with heap := (m.heap.alloc c).2 } :=
  ⟨Heap.All.alloc h.heap c, h.advice⟩

theorem Objects.set {m : Machine} (h : m.Objects p) (o : ObjectRef) (name : String) {v : Value} (hv : v.Objects p) :
    Objects p { m with heap := m.heap.set o name v } :=
  ⟨Heap.All.set h.heap o name hv, h.advice⟩

end Machine

end AspectProxy
