import AspectProxy.Proofs.Machine.Locals
import AspectProxy.Proofs.Machine.Objects
import Mathlib.Data.List.Induction

/-!
Assignments into lists and maps that a local variable holds. A path of names and keys leads from the variable into nested
containers. If each step finds a container that has its place, assigning stores the value there and nowhere else, although
every container on the way is copied and written back; if not, it fails and changes nothing.
-/

namespace AspectProxy

open Eval

/-- A place in a container: an entry of a map or a position in a list. -/
inductive Place where
  | entry (key : String)
  | position (i : Int64)
  deriving DecidableEq

/-- The place that a key names. -/
def Place.ofKey? : Value → Option Place
  | .str key => some (.entry key)
  | .int i => some (.position i)
  | _ => none

namespace Value

/-- A value without objects in it. -/
def ObjectFree (v : Value) : Prop :=
  v.References fun _ => False

/-- Whether a value is a container that has a place: a map has one for every key. -/
def HasPlace : Value → Place → Prop
  | list items, .position i => 0 ≤ i.toInt ∧ i.toInt < items.length
  | map _, .entry _ => True
  | _, _ => False

/-- What stands at a place that a container has; at a key that a map does not hold stands null. -/
def at? : Value → Place → Option Value
  | list items, .position i => (position? i items.length).bind fun n => items[n]?
  | map entries, .entry key => some ((getEntry key entries).getD null)
  | _, _ => none

/-- A container with a value put at a place that it has. -/
def put : Value → Place → Value → Value
  | list items, .position i, v =>
    match position? i items.length with
    | some n => list (items.set n v)
    | none => list items
  | map entries, .entry key, v => map (setEntry key v entries)
  | c, _, _ => c

theorem position?_eq_some_iff {i : Int64} {length n : Nat} :
    position? i length = some n ↔ i.toInt = n ∧ n < length := by
  unfold position?
  split
  case isTrue h =>
    rw [Option.some.injEq]
    omega
  case isFalse h =>
    simp only [reduceCtorEq, false_iff]
    omega

/-- A position in a list, as a number. -/
theorem hasPlace_list {items : List Value} {p : Place} :
    (list items).HasPlace p ↔ ∃ i n, p = .position i ∧ position? i items.length = some n := by
  cases p with
  | entry key => simp [HasPlace]
  | position i =>
    simp only [HasPlace, position?_eq_some_iff, Place.position.injEq]
    constructor
    · rintro ⟨low, high⟩
      exact ⟨i, i.toInt.toNat, rfl, by omega, by omega⟩
    · rintro ⟨_, n, rfl, same, inside⟩
      omega

/-- The two kinds of container that have a place. -/
theorem HasPlace.cases {c : Value} {p : Place} (h : c.HasPlace p) :
    (∃ items i n, c = list items ∧ p = .position i ∧ position? i items.length = some n) ∨
      ∃ entries key, c = map entries ∧ p = .entry key := by
  cases c with
  | list items =>
    obtain ⟨i, n, rfl, found⟩ := hasPlace_list.mp h
    exact .inl ⟨items, i, n, rfl, rfl, found⟩
  | map entries =>
    cases p with
    | entry key => exact .inr ⟨entries, key, rfl, rfl⟩
    | position i => exact h.elim
  | _ => cases p <;> exact h.elim

theorem HasPlace.exists_at? {c : Value} {p : Place} (h : c.HasPlace p) : ∃ v, c.at? p = some v := by
  obtain ⟨items, i, n, rfl, rfl, found⟩ | ⟨entries, key, rfl, rfl⟩ := h.cases
  · have inside : n < items.length := (position?_eq_some_iff.mp found).2
    exact ⟨items[n], by simp [at?, found, inside]⟩
  · exact ⟨_, rfl⟩

theorem HasPlace.put {c : Value} {p : Place} (h : c.HasPlace p) (v : Value) : (c.put p v).HasPlace p := by
  obtain ⟨items, i, n, rfl, rfl, found⟩ | ⟨entries, key, rfl, rfl⟩ := h.cases
  · simp only [Value.put, found]
    exact hasPlace_list.mpr ⟨i, n, rfl, by rw [List.length_set, found]⟩
  · trivial

theorem HasPlace.at?_put {c : Value} {p : Place} (h : c.HasPlace p) (v : Value) : (c.put p v).at? p = some v := by
  obtain ⟨items, i, n, rfl, rfl, found⟩ | ⟨entries, key, rfl, rfl⟩ := h.cases
  · have inside : n < items.length := (position?_eq_some_iff.mp found).2
    simp [Value.put, at?, found, inside]
  · simp [Value.put, at?]

end Value

/-- A key that is written as a literal or as a variable. -/
inductive PathKey where
  | int (n : Int64)
  | float (x : Float)
  | str (s : String)
  | bool (b : Bool)
  | null
  | var (name : String)

/-- A step from a container to what it holds: `.name` or `[key]`. -/
inductive PathStep where
  | field (name : String)
  | key (k : PathKey)

namespace PathKey

def toExpr : PathKey → Expr
  | int n => .int n
  | float x => .float x
  | str s => .str s
  | bool b => .bool b
  | null => .null
  | var name => .var name

/-- What a key comes to under some local variables. -/
def value (locals : List (String × Value)) : PathKey → Except EvalError Value
  | int n => .ok (.int n)
  | float x => .ok (.float x)
  | str s => .ok (.str s)
  | bool b => .ok (.bool b)
  | null => .ok .null
  | var name =>
    match getEntry name locals with
    | some v => .ok v
    | none => .error (.variableNotFound name)

theorem eval (calls : Calls) (frame : Frame) (k : PathKey) (s : Store) :
    k.toExpr.eval calls frame s = ((k.value s.locals).mapError .failed, s) := by
  cases k with
  | var name =>
    simp only [toExpr, Expr.eval, getLocal, value]
    cases getEntry name s.locals <;> rfl
  | _ => rfl

end PathKey

namespace PathStep

/-- The expression that takes the step from what another expression reads. -/
def on : PathStep → Expr → Expr
  | field name, e => .property e name
  | key k, e => .index e k.toExpr

/-- The place that the step leads to, if its key names one. -/
def place? (locals : List (String × Value)) : PathStep → Option Place
  | field name => some (.entry name)
  | key k => (k.value locals).toOption.bind Place.ofKey?

/-- A step whose key is not a given variable. -/
def Avoids (x : String) (step : PathStep) : Prop :=
  step ≠ .key (.var x)

/-- What the step reads from a value. -/
def read (s : Store) : PathStep → Value → Except EvalError Value
  | field name, .object o =>
    match s.machine.heap.get? o name with
    | some v => .ok v
    | none => .error (.propertyNotFound name o.type.name.text)
  | field name, .map entries => .ok ((getEntry name entries).getD .null)
  | field _, v => .error (.operand "property access" "object or map" v.typeName)
  | key k, v => do
    let k ← k.value s.locals
    Value.index v k

/-- The container that the step leaves when it stores a value; not for objects. -/
def store (s : Store) : PathStep → Value → Value → Except EvalError Value
  | field name, .map entries, v => .ok (.map (setEntry name v entries))
  | field _, c, _ => .error (.operand "property assignment" "object or map" c.typeName)
  | key k, c, v => do
    let k ← k.value s.locals
    Value.setIndex c k v

variable {s : Store} {step : PathStep} {c v : Value} {p : Place}

theorem read_key {k : PathKey} {named : Value} (h : k.value s.locals = .ok named) :
    (key k).read s c = Value.index c named := by
  rw [read, h]
  rfl

theorem store_key {k : PathKey} {named : Value} (h : k.value s.locals = .ok named) :
    (key k).store s c v = Value.setIndex c named v := by
  rw [store, h]
  rfl

theorem place?_key {locals : List (String × Value)} {k : PathKey} :
    place? locals (.key k) = some p ↔ ∃ named, k.value locals = .ok named ∧ Place.ofKey? named = some p := by
  unfold place?
  cases h : k.value locals <;> simp [Except.toOption, h]

theorem place?_position {locals : List (String × Value)} {i : Int64} :
    step.place? locals = some (.position i) ↔ ∃ k, step = .key k ∧ k.value locals = .ok (.int i) := by
  cases step with
  | field name => simp [place?]
  | key k =>
    rw [place?_key]
    constructor
    · rintro ⟨named, h, leads⟩
      cases named <;> simp only [Place.ofKey?, reduceCtorEq, Option.some.injEq, Place.position.injEq] at leads
      exact ⟨k, rfl, leads ▸ h⟩
    · rintro ⟨_, same, h⟩
      cases same
      exact ⟨_, h, rfl⟩

theorem place?_entry {locals : List (String × Value)} {name : String} :
    step.place? locals = some (.entry name) ↔
      step = .field name ∨ ∃ k, step = .key k ∧ k.value locals = .ok (.str name) := by
  cases step with
  | field other => simp [place?]
  | key k =>
    rw [place?_key]
    constructor
    · rintro ⟨named, h, leads⟩
      cases named <;> simp only [Place.ofKey?, reduceCtorEq, Option.some.injEq, Place.entry.injEq] at leads
      exact .inr ⟨k, rfl, leads ▸ h⟩
    · rintro (same | ⟨_, same, h⟩)
      · cases same
      · cases same
        exact ⟨_, h, rfl⟩

theorem read_ok (leads : step.place? s.locals = some p) (has : c.HasPlace p) (found : c.at? p = some v) :
    step.read s c = .ok v := by
  obtain ⟨items, i, n, rfl, rfl, inside⟩ | ⟨entries, name, rfl, rfl⟩ := has.cases
  · obtain ⟨k, rfl, h⟩ := place?_position.mp leads
    rw [read_key h, Value.index]
    rw [Value.at?] at found
    rw [found]
  · obtain rfl : (getEntry name entries).getD .null = v := Option.some.inj found
    obtain rfl | ⟨k, rfl, h⟩ := place?_entry.mp leads
    · rfl
    · rw [read_key h, Value.index]

theorem store_ok (leads : step.place? s.locals = some p) (has : c.HasPlace p) (v : Value) :
    step.store s c v = .ok (c.put p v) := by
  obtain ⟨items, i, n, rfl, rfl, inside⟩ | ⟨entries, name, rfl, rfl⟩ := has.cases
  · obtain ⟨k, rfl, h⟩ := place?_position.mp leads
    simp only [store_key h, Value.setIndex, Value.put, inside]
  · obtain rfl | ⟨k, rfl, h⟩ := place?_entry.mp leads
    · rfl
    · simp only [store_key h, Value.setIndex, Value.put]

theorem store_error (h : ∀ p, step.place? s.locals = some p → ¬c.HasPlace p) (v : Value) :
    ∃ e, step.store s c v = .error e := by
  cases stored : step.store s c v with
  | error e => exact ⟨e, rfl⟩
  | ok updated =>
    cases step with
    | field name =>
      cases c with
      | map entries => exact absurd trivial (h (.entry name) rfl)
      | _ => cases stored
    | key k =>
      cases value : k.value s.locals with
      | error e => simp [store, value, bind, Except.bind] at stored
      | ok named =>
        rw [store_key value] at stored
        unfold Value.setIndex at stored
        split at stored
        · split at stored
          next n inside =>
            exact absurd (Value.hasPlace_list.mpr ⟨_, n, rfl, inside⟩) (h _ (place?_key.mpr ⟨_, value, rfl⟩))
          next => cases stored
        · exact absurd trivial (h _ (place?_key.mpr ⟨_, value, rfl⟩))
        · cases stored

/-- What is read is a container only if it was read from a place of a container. -/
theorem hasPlace_of_read (plain : c.ObjectFree) (h : step.read s c = .ok v) {q : Place} (container : v.HasPlace q) :
    ∃ p, step.place? s.locals = some p ∧ c.HasPlace p := by
  cases step with
  | field name =>
    cases c with
    | map entries => exact ⟨.entry name, rfl, trivial⟩
    | object o => exact plain.elim
    | _ => cases h
  | key k =>
    cases value : k.value s.locals with
    | error e => simp [read, value, bind, Except.bind] at h
    | ok named =>
      rw [read_key value] at h
      unfold Value.index at h
      split at h
      · split at h
        next found =>
          obtain ⟨n, inside, -⟩ := Option.bind_eq_some_iff.mp found
          exact ⟨_, place?_key.mpr ⟨_, value, rfl⟩, Value.hasPlace_list.mpr ⟨_, n, rfl, inside⟩⟩
        next => cases h
      · split at h
        · cases h
          cases q <;> exact container.elim
        · cases h
      · exact ⟨_, place?_key.mpr ⟨_, value, rfl⟩, trivial⟩
      · cases h

theorem objectFree_read (plain : c.ObjectFree) (h : step.read s c = .ok v) : v.ObjectFree := by
  cases step with
  | field name =>
    cases c with
    | map entries =>
      cases h
      cases found : getEntry name entries with
      | none => trivial
      | some v => exact of_getEntry (P := Value.ObjectFree) (Value.references_map.mp plain) found
    | object o => exact plain.elim
    | _ => cases h
  | key k =>
    cases value : k.value s.locals with
    | error e => simp [read, value, bind, Except.bind] at h
    | ok named =>
      rw [read_key value] at h
      exact Value.references_index plain h

/-- A step to another place reads what it read before. -/
theorem read_put_of_ne (has : c.HasPlace p) (other : step.place? s.locals ≠ some p) (v : Value) :
    step.read s (c.put p v) = step.read s c := by
  obtain ⟨items, i, n, rfl, rfl, inside⟩ | ⟨entries, name, rfl, rfl⟩ := has.cases
  · simp only [Value.put, inside]
    cases step with
    | field name => rfl
    | key k =>
      cases value : k.value s.locals with
      | error e => simp [read, value, bind, Except.bind]
      | ok named =>
        rw [read_key value, read_key value]
        cases named with
        | int j =>
          have differ : j ≠ i := fun same => other (place?_key.mpr ⟨_, value, same ▸ rfl⟩)
          simp only [Value.index, List.length_set]
          cases position : Value.position? j items.length with
          | none => rfl
          | some m =>
            have apart : n ≠ m := by
              rintro rfl
              rw [Value.position?_eq_some_iff] at inside position
              exact differ (Int64.toInt_inj.mp (position.1.trans inside.1.symm))
            rw [Option.bind_some, Option.bind_some, List.getElem?_set_ne apart]
        | _ => rfl
  · simp only [Value.put]
    cases step with
    | field found =>
      have differ : name ≠ found := fun same => other (same ▸ rfl)
      rw [read, read, getEntry_setEntry_of_ne differ]
    | key k =>
      cases value : k.value s.locals with
      | error e => simp [read, value, bind, Except.bind]
      | ok named =>
        rw [read_key value, read_key value]
        cases named with
        | str found =>
          have differ : name ≠ found := fun same => other (place?_key.mpr ⟨_, value, same ▸ rfl⟩)
          rw [Value.index, Value.index, getEntry_setEntry_of_ne differ]
        | _ => rfl

end PathStep

/-- The expression that reads a path from a variable. -/
def pathExpr (x : String) (path : List PathStep) : Expr :=
  path.foldl (fun e step => step.on e) (.var x)

theorem pathExpr_concat (x : String) (init : List PathStep) (last : PathStep) :
    pathExpr x (init ++ [last]) = last.on (pathExpr x init) := by
  rw [pathExpr, List.foldl_append]
  rfl

/-- What a path reads from a value. -/
def follow (s : Store) (path : List PathStep) (v : Value) : Except EvalError Value :=
  path.foldlM (fun v step => step.read s v) v

theorem follow_concat (s : Store) (init : List PathStep) (last : PathStep) (v : Value) :
    follow s (init ++ [last]) v = follow s init v >>= last.read s := by
  rw [follow, List.foldlM_append]
  simp only [List.foldlM_cons, List.foldlM_nil, bind_pure]
  rfl

theorem follow_cons (s : Store) (step : PathStep) (rest : List PathStep) (v : Value) :
    follow s (step :: rest) v = step.read s v >>= follow s rest :=
  List.foldlM_cons

theorem follow_step {s : Store} {step : PathStep} {v w : Value} (h : step.read s v = .ok w) (rest : List PathStep) :
    follow s (step :: rest) v = follow s rest w := by
  rw [follow_cons, h]
  rfl

theorem of_follow_concat {s : Store} {init : List PathStep} {last : PathStep} {root v : Value}
    (h : follow s (init ++ [last]) root = .ok v) : ∃ c, follow s init root = .ok c ∧ last.read s c = .ok v := by
  rw [follow_concat] at h
  cases found : follow s init root with
  | error e => simp [found, bind, Except.bind] at h
  | ok c => exact ⟨c, rfl, by simpa [found, bind, Except.bind] using h⟩

theorem objectFree_follow {s : Store} {root v : Value} (plain : root.ObjectFree) {path : List PathStep}
    (h : follow s path root = .ok v) : v.ObjectFree := by
  induction path using List.reverseRecOn generalizing v with
  | nil =>
    cases h
    exact plain
  | append_singleton init last ih =>
    obtain ⟨c, found, read⟩ := of_follow_concat h
    exact PathStep.objectFree_read (ih found) read

/-- A path each step of which finds a container that has its place. -/
def Open (s : Store) (root : Value) (path : List PathStep) : Prop :=
  ∀ init step rest, path = init ++ step :: rest →
    ∃ c p, follow s init root = .ok c ∧ step.place? s.locals = some p ∧ c.HasPlace p

theorem open_nil (s : Store) (root : Value) : Open s root [] :=
  fun init step rest h => absurd h (by simp)

theorem open_concat {s : Store} {root : Value} {init : List PathStep} {last : PathStep} :
    Open s root (init ++ [last]) ↔ Open s root init ∧
      ∃ c p, follow s init root = .ok c ∧ last.place? s.locals = some p ∧ c.HasPlace p := by
  constructor
  · intro h
    refine ⟨fun before step rest split => ?_, h init last [] rfl⟩
    exact h before step (rest ++ [last]) (by rw [split]; simp)
  · rintro ⟨open_, ends⟩ before step rest split
    rcases List.eq_nil_or_concat rest with rfl | ⟨rest, z, rfl⟩
    · obtain ⟨rfl, same⟩ := List.append_inj' split rfl
      cases same
      exact ends
    · have split : init ++ [last] = (before ++ step :: rest) ++ [z] := by simpa using split
      exact open_ before step rest (List.append_inj' split rfl).1

theorem Open.cons {s : Store} {root : Value} {step : PathStep} {rest : List PathStep} (h : Open s root (step :: rest)) :
    ∃ p v, step.place? s.locals = some p ∧ root.HasPlace p ∧ root.at? p = some v ∧ Open s v rest := by
  obtain ⟨c, p, same, leads, has⟩ := h [] step rest rfl
  obtain rfl : root = c := Except.ok.inj same
  obtain ⟨v, found⟩ := has.exists_at?
  refine ⟨p, v, leads, has, found, fun init next behind split => ?_⟩
  obtain ⟨c, q, reads, place⟩ := h (step :: init) next behind (by rw [split]; rfl)
  exact ⟨c, q, (follow_step (PathStep.read_ok leads has found) init).symm.trans reads, place⟩

/-- A path to a container is open. -/
theorem open_of_follow {s : Store} {root c : Value} (plain : root.ObjectFree) {path : List PathStep}
    (h : follow s path root = .ok c) {p : Place} (has : c.HasPlace p) : Open s root path := by
  induction path using List.reverseRecOn generalizing c p with
  | nil => exact open_nil s root
  | append_singleton init last ih =>
    obtain ⟨d, found, read⟩ := of_follow_concat h
    obtain ⟨q, leads, within⟩ := PathStep.hasPlace_of_read (objectFree_follow plain found) read has
    exact open_concat.mpr ⟨ih found within, d, q, found, leads, within⟩

/-- A value with another put at the end of a path: each container on the way with the changed one in its place. -/
def putAt (s : Store) : List PathStep → Value → Value → Value
  | [], _, v => v
  | step :: rest, c, v =>
    match step.place? s.locals with
    | some p => c.put p (putAt s rest ((c.at? p).getD .null) v)
    | none => c

theorem putAt_concat {s : Store} {init : List PathStep} {last : PathStep} {root c : Value} (open_ : Open s root init)
    (found : follow s init root = .ok c) {p : Place} (leads : last.place? s.locals = some p) (v : Value) :
    putAt s (init ++ [last]) root v = putAt s init root (c.put p v) := by
  induction init generalizing root with
  | nil =>
    cases found
    simp only [List.nil_append, putAt, leads]
  | cons step rest ih =>
    obtain ⟨q, next, place, has, there, open_⟩ := open_.cons
    rw [follow_step (PathStep.read_ok place has there)] at found
    simp only [List.cons_append, putAt, place, there, Option.getD_some]
    rw [ih open_ found]

/-- What was put at the end of an open path is read there. -/
theorem follow_putAt {s : Store} {path : List PathStep} {root : Value} (open_ : Open s root path) (v : Value) :
    follow s path (putAt s path root v) = .ok v := by
  induction path generalizing root with
  | nil => rfl
  | cons step rest ih =>
    obtain ⟨p, next, leads, has, found, open_⟩ := open_.cons
    simp only [putAt, leads, found, Option.getD_some]
    rw [follow_step (PathStep.read_ok leads (has.put _) (has.at?_put _)), ih open_]

/-- Paths that lead to different places from some step on. -/
inductive Diverge (locals : List (String × Value)) : List PathStep → List PathStep → Prop
  | here {a b : PathStep} {as bs : List PathStep} :
    a.place? locals ≠ b.place? locals → Diverge locals (a :: as) (b :: bs)
  | there {a b : PathStep} {as bs : List PathStep} :
    a.place? locals = b.place? locals → Diverge locals as bs → Diverge locals (a :: as) (b :: bs)

/-- A path that diverges from an open one reads what it read before. -/
theorem follow_putAt_of_diverge {s : Store} {path other : List PathStep} {root : Value} (open_ : Open s root path)
    (apart : Diverge s.locals path other) (v : Value) : follow s other (putAt s path root v) = follow s other root := by
  induction apart generalizing root with
  | here differ =>
    obtain ⟨p, next, leads, has, -, -⟩ := open_.cons
    simp only [putAt, leads]
    rw [follow_cons, follow_cons, PathStep.read_put_of_ne has fun same => differ (leads.trans same.symm)]
  | there same _ ih =>
    obtain ⟨p, next, leads, has, found, open_⟩ := open_.cons
    have alike := same.symm.trans leads
    simp only [putAt, leads, found, Option.getD_some]
    rw [follow_step (PathStep.read_ok alike (has.put _) (has.at?_put _)),
      follow_step (PathStep.read_ok alike has found), ih open_]

/-- Stores that differ at most in one local variable. -/
structure Store.AlikeBut (x : String) (s t : Store) : Prop where
  machine : t.machine = s.machine
  locals : ∀ y ≠ x, getEntry y t.locals = getEntry y s.locals

theorem Store.alikeBut_setEntry (x : String) (v : Value) (s : Store) :
    Store.AlikeBut x s { s with locals := setEntry x v s.locals } where
  machine := rfl
  locals := fun _ other => getEntry_setEntry_of_ne other.symm v s.locals

theorem PathStep.read_congr {x : String} {s t : Store} (alike : s.AlikeBut x t) {step : PathStep} (avoids : step.Avoids x)
    (v : Value) : step.read t v = step.read s v := by
  cases step with
  | field name => cases v <;> simp only [read, alike.machine]
  | key k =>
    have value : k.value t.locals = k.value s.locals := by
      cases k with
      | var y => simp only [PathKey.value, alike.locals y fun same => avoids (same ▸ rfl)]
      | _ => rfl
    rw [read, read, value]

theorem follow_congr {x : String} {s t : Store} (alike : s.AlikeBut x t) {path : List PathStep}
    (avoids : ∀ step ∈ path, step.Avoids x) (v : Value) : follow t path v = follow s path v := by
  induction path generalizing v with
  | nil => rfl
  | cons step rest ih =>
    obtain ⟨first, others⟩ := List.forall_mem_cons.mp avoids
    rw [follow_cons, follow_cons, PathStep.read_congr alike first, funext (ih others)]

section Runs

variable (calls : Calls) (frame : Frame) {s : Store} {x : String} {root : Value}

theorem readProperty_run (name : String) (v : Value) :
    readProperty name v s = (((PathStep.field name).read s v).mapError .failed, s) := by
  cases v with
  | object o =>
    rw [readProperty, bind_ok (x := getMachine) rfl, PathStep.read]
    cases s.machine.heap.get? o name <;> rfl
  | _ => rfl

theorem PathStep.eval_on (step : PathStep) {e : Expr} {r : Except EvalError Value}
    (evaluated : e.eval calls frame s = (r.mapError .failed, s)) :
    (step.on e).eval calls frame s = ((r >>= step.read s).mapError .failed, s) := by
  cases step with
  | field name =>
    rw [on, Expr.eval]
    cases r with
    | error err => exact bind_error evaluated
    | ok v => exact (bind_ok evaluated).trans (readProperty_run name v)
  | key k =>
    rw [on, Expr.eval]
    cases r with
    | error err => exact bind_error evaluated
    | ok v =>
      have read : (.ok v >>= (PathStep.key k).read s) = (k.value s.locals >>= fun k => Value.index v k) := rfl
      rw [bind_ok evaluated, bind_run, k.eval, read]
      cases k.value s.locals <;> rfl

/-- A path is evaluated to what it reads, and changes nothing. -/
theorem eval_pathExpr (held : getEntry x s.locals = some root) (path : List PathStep) :
    (pathExpr x path).eval calls frame s = ((follow s path root).mapError .failed, s) := by
  induction path using List.reverseRecOn with
  | nil => exact getLocal_run held
  | append_singleton init last ih => rw [pathExpr_concat, follow_concat, last.eval_on calls frame ih]

/-- A step stores by storing the changed container where it was read from. -/
theorem PathStep.assign_on {step : PathStep} {e : Expr} {c : Value} (plain : c.ObjectFree)
    (evaluated : e.eval calls frame s = (.ok c, s)) (v : Value) :
    (step.on e).assign calls frame v s = match step.store s c v with
      | .ok updated => e.assign calls frame updated s
      | .error err => (.error (.failed err), s) := by
  cases step with
  | field name =>
    rw [on, Expr.assign, bind_ok evaluated]
    cases c with
    | object o => exact plain.elim
    | _ => rfl
  | key k =>
    rw [on, Expr.assign, bind_run, k.eval, store]
    cases k.value s.locals with
    | error err => rfl
    | ok named =>
      dsimp only [Except.mapError]
      rw [bind_ok evaluated]
      cases stored : Value.setIndex c named v with
      | error err => simp only [bind, Except.bind, stored]; rfl
      | ok updated => simp only [bind, Except.bind, stored]; rfl

theorem PathStep.assign_on_error {step : PathStep} {e : Expr} {err : EvalError}
    (failed : e.eval calls frame s = (.error (.failed err), s)) (v : Value) :
    ∃ err, (step.on e).assign calls frame v s = (.error (.failed err), s) := by
  cases step with
  | field name => exact ⟨err, bind_error failed⟩
  | key k =>
    rw [on, Expr.assign, bind_run, k.eval]
    cases k.value s.locals with
    | error err => exact ⟨err, rfl⟩
    | ok named => exact ⟨err, bind_error failed⟩

/-- Assigning to an open path stores the variable's value with the new one put at the end of the path; assigning to any
other path fails and changes nothing. -/
theorem assign_pathExpr (held : getEntry x s.locals = some root) (plain : root.ObjectFree) (path : List PathStep)
    (v : Value) :
    (Open s root path → (pathExpr x path).assign calls frame v s =
      (.ok (), { s with locals := setEntry x (putAt s path root v) s.locals })) ∧
    (¬Open s root path → ∃ e, (pathExpr x path).assign calls frame v s = (.error (.failed e), s)) := by
  induction path using List.reverseRecOn generalizing v with
  | nil => exact ⟨fun _ => bind_ok (getLocal_run held), fun closed => absurd (open_nil s root) closed⟩
  | append_singleton init last ih =>
    rw [pathExpr_concat]
    have evaluated := eval_pathExpr calls frame held init
    cases found : follow s init root with
    | error e =>
      rw [found] at evaluated
      refine ⟨fun open_ => ?_, fun _ => last.assign_on_error calls frame evaluated v⟩
      obtain ⟨-, c, -, reads, -⟩ := open_concat.mp open_
      cases found.symm.trans reads
    | ok c =>
      rw [found] at evaluated
      rw [PathStep.assign_on calls frame (objectFree_follow plain found) evaluated]
      by_cases place : ∃ p, last.place? s.locals = some p ∧ c.HasPlace p
      · obtain ⟨p, leads, has⟩ := place
        have whole := open_of_follow plain found has
        rw [PathStep.store_ok leads has, putAt_concat whole found leads]
        refine ⟨fun _ => (ih _).1 whole, fun closed => ?_⟩
        exact absurd (open_concat.mpr ⟨whole, c, p, found, leads, has⟩) closed
      · obtain ⟨e, stored⟩ := PathStep.store_error (fun p leads has => place ⟨p, leads, has⟩) v
        rw [stored]
        refine ⟨fun open_ => ?_, fun _ => ⟨e, rfl⟩⟩
        obtain ⟨-, d, p, reads, leads, has⟩ := open_concat.mp open_
        obtain rfl : c = d := Except.ok.inj (found.symm.trans reads)
        exact absurd ⟨p, leads, has⟩ place

/-- A path from a variable each step of which finds a container of the kind it needs: a list with the position, or a
map. -/
def Reaches (s : Store) (x : String) (path : List PathStep) : Prop :=
  ∀ init step rest, path = init ++ step :: rest →
    ∃ c p, (pathExpr x init).eval calls frame s = (.ok c, s) ∧ step.place? s.locals = some p ∧ c.HasPlace p

theorem eval_pathExpr_eq_ok {path : List PathStep} (held : getEntry x s.locals = some root) {v : Value} :
    (pathExpr x path).eval calls frame s = (.ok v, s) ↔ follow s path root = .ok v := by
  rw [eval_pathExpr calls frame held]
  cases follow s path root with
  | error e => exact ⟨nofun, nofun⟩
  | ok w => exact ⟨fun h => congrArg _ (Except.ok.inj (Prod.mk.inj h).1), fun h => by rw [h]; rfl⟩

theorem reaches_iff_open (held : getEntry x s.locals = some root) (path : List PathStep) :
    Reaches calls frame s x path ↔ Open s root path := by
  simp only [Reaches, Open, eval_pathExpr_eq_ok calls frame held]

/-- Assigning a value along a path into the lists and maps that a variable holds. If each step finds a container of the
kind it needs, the last one a list with the position or a map, with the key or not, the assignment succeeds: the path reads
the value, every path from the variable that leads elsewhere reads what it read, and the other variables and the machine are
as they were. If not, it fails and nothing has changed. -/
theorem assign_storeLaws (held : getEntry x s.locals = some root) (plain : root.ObjectFree) {path : List PathStep}
    (apart : ∀ step ∈ path, step.Avoids x) {target : Target} (written : target.toExpr = pathExpr x path) {value : Expr}
    {v : Value} (quiet : value.eval calls frame s = (.ok v, s)) (steps : Nat) :
    (Reaches calls frame s x path →
      ∃ t, Statement.run calls frame steps (.assign target value) s = (.ok .next, t) ∧
        (pathExpr x path).eval calls frame t = (.ok v, t) ∧
        (∀ other : List PathStep, (∀ step ∈ other, step.Avoids x) → Diverge s.locals path other →
          ∃ r, (pathExpr x other).eval calls frame s = (r, s) ∧ (pathExpr x other).eval calls frame t = (r, t)) ∧
        (∀ y ≠ x, getEntry y t.locals = getEntry y s.locals) ∧ t.machine = s.machine) ∧
    (¬Reaches calls frame s x path →
      ∃ e, Statement.run calls frame steps (.assign target value) s = (.error (.failed e), s)) := by
  obtain ⟨stores, fails⟩ := assign_pathExpr calls frame held plain path v
  rw [reaches_iff_open calls frame held, Statement.run, bind_ok quiet, written]
  refine ⟨fun open_ => ?_, fun closed => ?_⟩
  · let t : Store := { s with locals := setEntry x (putAt s path root v) s.locals }
    have alike : s.AlikeBut x t := s.alikeBut_setEntry x _
    have holds : getEntry x t.locals = some (putAt s path root v) := getEntry_setEntry_self ..
    refine ⟨t, bind_ok (stores open_), ?_, fun other avoids leads => ?_, alike.locals, rfl⟩
    · rw [eval_pathExpr_eq_ok calls frame holds, follow_congr alike apart, follow_putAt open_]
    · refine ⟨_, eval_pathExpr calls frame held other, ?_⟩
      rw [eval_pathExpr calls frame holds, follow_congr alike avoids, follow_putAt_of_diverge open_ leads]
  · obtain ⟨e, failed⟩ := fails closed
    exact ⟨e, bind_error failed⟩

end Runs

def tableFrame : Frame where
  this := none
  owner := ⟨⟨⟨"Table", by decide⟩, false, false, {}, [], []⟩, []⟩
  depth := 1

def tableRows : Value :=
  .list [.list [.int 1, .int 2], .list [.int 3]]

/-- A variable that holds rows, and one that holds the number of a row. -/
def tableStore : Store where
  machine := {}
  locals := [("table", .map [("rows", tableRows)]), ("row", .int 1)]

/-- The path of `table.rows[row][0]`. -/
def cellPath : List PathStep :=
  [.field "rows", .key (.var "row"), .key (.int 0)]

def cellTarget : Target :=
  .index (.index (.property (.var "table") "rows") (.var "row")) (.int 0)

theorem open_cellPath : Open tableStore (.map [("rows", tableRows)]) cellPath := by
  have rows : Open tableStore (.map [("rows", tableRows)]) ([] ++ [.field "rows"]) :=
    open_concat.mpr ⟨open_nil _ _, _, .entry "rows", rfl, rfl, trivial⟩
  have row : Open tableStore (.map [("rows", tableRows)]) ([.field "rows"] ++ [.key (.var "row")]) :=
    open_concat.mpr ⟨rows, tableRows, .position 1, rfl, rfl, by decide, by decide⟩
  have cell : Open tableStore (.map [("rows", tableRows)]) ([.field "rows", .key (.var "row")] ++ [.key (.int 0)]) :=
    open_concat.mpr ⟨row, .list [.int 3], .position 0, rfl, rfl, by decide, by decide⟩
  exact cell

/-- `table.rows[row][0] = "new"` stores the text in its row, and a cell of the other row is as it was. -/
theorem assign_storeLaws_cell :
    ∃ t, Statement.run (.within 0) tableFrame 0 (.assign cellTarget (.str "new")) tableStore = (.ok .next, t) ∧
      (pathExpr "table" cellPath).eval (.within 0) tableFrame t = (.ok (.str "new"), t) ∧
      (pathExpr "table" [.key (.str "rows"), .key (.int 0), .key (.int 1)]).eval (.within 0) tableFrame t =
        (.ok (.int 2), t) ∧
      t.machine = tableStore.machine := by
  have plain : (Value.map [("rows", tableRows)]).ObjectFree := by
    simp [Value.ObjectFree, tableRows, Value.References, Value.ItemReferences, Value.EntryReferences]
  have held : getEntry "table" tableStore.locals = some (.map [("rows", tableRows)]) := rfl
  have apart : ∀ step ∈ cellPath, step.Avoids "table" := by simp [cellPath, PathStep.Avoids]
  have written : cellTarget.toExpr = pathExpr "table" cellPath := rfl
  have quiet : (Expr.str "new").eval (.within 0) tableFrame tableStore = (.ok (.str "new"), tableStore) := rfl
  have laws := assign_storeLaws (.within 0) tableFrame held plain apart written quiet 0
  obtain ⟨t, ran, stored, kept, -, machine⟩ := laws.1 ((reaches_iff_open _ _ rfl cellPath).mpr open_cellPath)
  obtain ⟨r, before, after⟩ := kept [.key (.str "rows"), .key (.int 0), .key (.int 1)] (by simp [PathStep.Avoids])
    (.there rfl (.here (by decide)))
  obtain rfl : Except.ok (.int 2) = r := (Prod.mk.inj before).1
  exact ⟨t, ran, stored, after, machine⟩

end AspectProxy
