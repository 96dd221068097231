import AspectProxy.Value.Json
import Mathlib.Data.List.Induction
import Mathlib.Data.List.Nodup
import Mathlib.Data.String.Basic

/-!
The parts of values and of JSON. Values and JSON are taken apart by items and by entries. The members of a JSON object are
sorted by name: sorting keeps the last value of each name and nothing else, so a sorted object is known by the values of
its names; members that are sorted stay as they are, and members without a repeated name are only put in another order.
-/

namespace AspectProxy

/-- A property of values that passes from the parts of a list and of a map to the whole. -/
@[elab_as_elim]
theorem Value.nested_induction {P : Value → Prop} (null : P null) (bool : ∀ b, P (bool b)) (int : ∀ n, P (int n))
    (float : ∀ x, P (float x)) (str : ∀ s, P (str s)) (list : ∀ items, (∀ v ∈ items, P v) → P (list items))
    (map : ∀ entries, (∀ e ∈ entries, P e.2) → P (map entries)) (object : ∀ o, P (object o)) (v : Value) : P v :=
  @Value.rec P (fun items => ∀ v ∈ items, P v) (fun entries => ∀ e ∈ entries, P e.2) (fun e => P e.2) null bool int float
    str list map object nofun (fun _ _ here later => List.forall_mem_cons.mpr ⟨here, later⟩) nofun
    (fun _ _ here later => List.forall_mem_cons.mpr ⟨here, later⟩) (fun _ _ here => here) v

/-- A property of JSON that passes from the parts of an array and of an object to the whole. -/
@[elab_as_elim]
theorem Json.nested_induction {P : Json → Prop} (null : P null) (bool : ∀ b, P (bool b)) (int : ∀ n, P (int n))
    (float : ∀ x, P (float x)) (str : ∀ s, P (str s)) (arr : ∀ items, (∀ j ∈ items, P j) → P (arr items))
    (obj : ∀ members, (∀ m ∈ members, P m.2) → P (obj members)) (j : Json) : P j :=
  @Json.rec P (fun items => ∀ j ∈ items, P j) (fun members => ∀ m ∈ members, P m.2) (fun m => P m.2) null bool int float
    str arr obj nofun (fun _ _ here later => List.forall_mem_cons.mpr ⟨here, later⟩) nofun
    (fun _ _ here later => List.forall_mem_cons.mpr ⟨here, later⟩) (fun _ _ here => here) j

namespace Value

theorem shallowItems_eq : ∀ items : List Value, shallowItems items = items.map shallowJson
  | [] => rfl
  | v :: vs => by rw [shallowItems, shallowItems_eq vs, List.map_cons]

theorem shallowEntries_eq : ∀ entries : List (String × Value),
    shallowEntries entries = entries.map fun e => (e.1, shallowJson e.2)
  | [] => rfl
  | (k, v) :: es => by rw [shallowEntries, shallowEntries_eq es, List.map_cons]

theorem ofPlainItems_eq : ∀ items : List Json, ofPlainItems items = items.map ofPlainJson
  | [] => rfl
  | j :: js => by rw [ofPlainItems, ofPlainItems_eq js, List.map_cons]

theorem ofPlainMembers_eq : ∀ members : List (String × Json),
    ofPlainMembers members = members.map fun m => (m.1, ofPlainJson m.2)
  | [] => rfl
  | (n, j) :: js => by rw [ofPlainMembers, ofPlainMembers_eq js, List.map_cons]

variable {h : Heap} {levels : Nat} {o : ObjectRef}

theorem jsonWithin_float (x : Float) : jsonWithin h levels (float x) = floatJson x := by
  cases levels <;> rfl

/-- Lists and maps are converted alike on every level, also where none is left. -/
theorem jsonWithin_list (items : List Value) :
    jsonWithin h levels (list items) = .arr (items.map (jsonWithin h (levels - 1))) := by
  cases levels with
  | zero => exact congrArg Json.arr (shallowItems_eq items)
  | succ levels => rfl

theorem jsonWithin_map (entries : List (String × Value)) :
    jsonWithin h levels (map entries) =
      .obj (Json.sortMembers (entries.map fun e => (e.1, jsonWithin h (levels - 1) e.2))) := by
  cases levels with
  | zero => exact congrArg (fun members => Json.obj (Json.sortMembers members)) (shallowEntries_eq entries)
  | succ levels => rfl

theorem jsonWithin_object (shows : 0 < levels) : jsonWithin h levels (object o) =
    .obj (Json.sortMembers (classMember o :: (h.fields o).map fun e => (e.1, jsonWithin h (levels - 1) e.2))) := by
  cases levels with
  | zero => exact absurd shows (Nat.lt_irrefl 0)
  | succ levels => rfl

end Value

namespace Json

theorem plainItems_eq : ∀ items : List Json, plainItems items = items.map plain
  | [] => rfl
  | j :: js => by rw [plainItems, plainItems_eq js, List.map_cons]

theorem plainMembers_eq : ∀ members : List (String × Json), plainMembers members = members.map fun m => (m.1, m.2.plain)
  | [] => rfl
  | (n, j) :: js => by rw [plainMembers, plainMembers_eq js, List.map_cons]

end Json

open Json

variable {α β : Type} {name k : String} {value v : α} {members entries : List (String × α)}

theorem mem_of_getEntry (found : getEntry k entries = some v) : (k, v) ∈ entries := by
  induction entries with
  | nil => cases found
  | cons e rest ih =>
    rw [getEntry] at found
    split at found
    · rename_i same
      cases found
      subst same
      exact List.mem_cons_self
    · exact List.mem_cons_of_mem _ (ih found)

theorem getEntry_of_mem (distinct : (entries.map (·.1)).Nodup) (there : (k, v) ∈ entries) :
    getEntry k entries = some v := by
  induction entries with
  | nil => cases there
  | cons e rest ih =>
    obtain ⟨key, w⟩ := e
    rw [List.map_cons, List.nodup_cons] at distinct
    rw [getEntry]
    rcases List.mem_cons.mp there with same | later
    · cases same
      exact if_pos rfl
    · rw [if_neg, ih distinct.2 later]
      rintro rfl
      exact distinct.1 (List.mem_map.mpr ⟨_, later, rfl⟩)

theorem getEntry_eq_some_iff (distinct : (entries.map (·.1)).Nodup) : getEntry k entries = some v ↔ (k, v) ∈ entries :=
  ⟨mem_of_getEntry, getEntry_of_mem distinct⟩

theorem getEntry_eq_none_iff : getEntry k entries = none ↔ k ∉ entries.map (·.1) := by
  induction entries with
  | nil => exact ⟨fun _ => List.not_mem_nil, fun _ => rfl⟩
  | cons e rest ih =>
    obtain ⟨key, w⟩ := e
    rw [getEntry, List.map_cons, List.mem_cons, not_or, ← ih, eq_comm (a := k)]
    split
    · rename_i same
      exact ⟨nofun, fun other => absurd same other.1⟩
    · rename_i other
      exact (and_iff_right other).symm

theorem getEntry_reverse_eq_none_iff : getEntry k entries.reverse = none ↔ k ∉ entries.map (·.1) := by
  rw [getEntry_eq_none_iff, List.map_reverse, List.mem_reverse]

theorem getEntry_append (front : List (String × α)) :
    getEntry k (front ++ entries) = (getEntry k front).or (getEntry k entries) := by
  induction front with
  | nil => rfl
  | cons e rest ih =>
    obtain ⟨key, w⟩ := e
    rw [List.cons_append, getEntry, getEntry]
    split
    · rfl
    · exact ih

theorem getEntry_map (f : α → β) : getEntry k (entries.map fun e => (e.1, f e.2)) = (getEntry k entries).map f := by
  induction entries with
  | nil => rfl
  | cons e rest ih =>
    rw [List.map_cons, getEntry, getEntry]
    split
    · rfl
    · exact ih

namespace Json

/-- Members sorted by name, no name twice. -/
def Ascends (members : List (String × α)) : Prop :=
  members.Pairwise fun a b => a.1 < b.1

theorem getEntry_insertMember :
    getEntry k (insertMember name value members) = if name = k then some value else getEntry k members := by
  induction members with
  | nil => rfl
  | cons e rest ih =>
    obtain ⟨n, w⟩ := e
    rw [insertMember]
    split
    · rw [getEntry]
    · split
      · rename_i same
        subst same
        rw [getEntry, getEntry]
        split <;> rfl
      · rename_i other
        rw [getEntry, ih, getEntry]
        by_cases same : name = k
        · subst same
          rw [if_neg (Ne.symm other), if_pos rfl, if_pos rfl]
        · rw [if_neg same, if_neg same]

theorem mem_insertMember {e : String × α} (h : e ∈ insertMember name value members) : e = (name, value) ∨ e ∈ members := by
  induction members with
  | nil => exact .inl (List.mem_singleton.mp h)
  | cons first rest ih =>
    rw [insertMember] at h
    split at h
    · exact List.mem_cons.mp h
    · split at h
      · exact (List.mem_cons.mp h).imp id (List.mem_cons_of_mem _)
      · rcases List.mem_cons.mp h with rfl | later
        · exact .inr List.mem_cons_self
        · exact (ih later).imp id (List.mem_cons_of_mem _)

theorem Ascends.insertMember (h : Ascends members) : Ascends (insertMember name value members) := by
  induction members with
  | nil => exact List.pairwise_singleton _ _
  | cons first rest ih =>
    obtain ⟨least, sorted⟩ := List.pairwise_cons.mp h
    rw [Json.insertMember]
    split
    · rename_i before
      refine List.pairwise_cons.mpr ⟨fun e he => ?_, h⟩
      rcases List.mem_cons.mp he with rfl | later
      · exact before
      · exact lt_trans before (least e later)
    · rename_i after
      split
      · rename_i same
        subst same
        exact List.pairwise_cons.mpr ⟨least, sorted⟩
      · rename_i other
        refine List.pairwise_cons.mpr ⟨fun e he => ?_, ih sorted⟩
        rcases mem_insertMember he with rfl | later
        · exact lt_of_le_of_ne (not_lt.mp after) (Ne.symm other)
        · exact least e later

theorem insertMember_map (f : α → β) (members : List (String × α)) :
    insertMember name (f value) (members.map fun e => (e.1, f e.2)) =
      (insertMember name value members).map fun e => (e.1, f e.2) := by
  induction members with
  | nil => rfl
  | cons first rest ih =>
    rw [List.map_cons, insertMember, insertMember]
    split
    · rfl
    · split
      · rfl
      · rw [ih, List.map_cons]

theorem insertMember_perm (fresh : name ∉ members.map (·.1)) :
    (insertMember name value members).Perm ((name, value) :: members) := by
  induction members with
  | nil => exact .refl _
  | cons first rest ih =>
    rw [List.map_cons, List.mem_cons, not_or] at fresh
    rw [insertMember]
    split
    · exact .refl _
    · rw [if_neg fresh.1]
      exact ((ih fresh.2).cons first).trans (.swap _ _ _)

theorem Ascends.nodup (h : Ascends members) : (members.map (·.1)).Nodup :=
  List.pairwise_map.mpr (h.imp ne_of_lt)

/-- Sorted members are the same if their names have the same values. -/
theorem Ascends.ext {others : List (String × α)} (h : Ascends members) (h' : Ascends others)
    (same : ∀ k, getEntry k members = getEntry k others) : members = others := by
  have each : ∀ e, e ∈ members ↔ e ∈ others := by
    rintro ⟨k, v⟩
    rw [← getEntry_eq_some_iff h.nodup, same, getEntry_eq_some_iff h'.nodup]
  have perm := (List.perm_ext_iff_of_nodup h.nodup.of_map h'.nodup.of_map).mpr each
  exact perm.eq_of_pairwise (fun _ _ _ _ less greater => absurd less (lt_asymm greater)) h h'

theorem sortMembers_concat (members : List (String × α)) (e : String × α) :
    sortMembers (members ++ [e]) = insertMember e.1 e.2 (sortMembers members) := by
  rw [sortMembers, List.foldl_append]
  rfl

theorem ascends_sortMembers (members : List (String × α)) : Ascends (sortMembers members) := by
  induction members using List.reverseRecOn with
  | nil => exact .nil
  | append_singleton front e ih =>
    rw [sortMembers_concat]
    exact ih.insertMember

/-- A name has the last of its values. -/
theorem getEntry_sortMembers : getEntry k (sortMembers members) = getEntry k members.reverse := by
  induction members using List.reverseRecOn with
  | nil => rfl
  | append_singleton front e ih =>
    rw [sortMembers_concat, getEntry_insertMember, ih, List.reverse_append]
    rfl

/-- Sorting gives sorted members of the same names, each with its last value, and nothing else does. -/
theorem sortMembers_eq_iff {sorted : List (String × α)} : sortMembers members = sorted ↔
    Ascends sorted ∧ (∀ k, k ∈ sorted.map (·.1) ↔ k ∈ members.map (·.1)) ∧
      ∀ k v w, getEntry k members.reverse = some v → (k, w) ∈ sorted → v = w := by
  constructor
  · rintro rfl
    refine ⟨ascends_sortMembers _, fun k => ?_, fun k v w last there => ?_⟩
    · rw [← not_iff_not, ← getEntry_eq_none_iff, getEntry_sortMembers, getEntry_reverse_eq_none_iff]
    · have found := getEntry_of_mem (ascends_sortMembers _).nodup there
      rw [getEntry_sortMembers, last] at found
      exact Option.some.inj found
  · rintro ⟨ascends, names, values⟩
    refine (ascends_sortMembers _).ext ascends fun k => ?_
    rw [getEntry_sortMembers]
    cases last : getEntry k members.reverse with
    | none =>
      have absent := getEntry_reverse_eq_none_iff.mp last
      exact (getEntry_eq_none_iff.mpr (mt (names k).mp absent)).symm
    | some v =>
      have named : k ∈ members.map (·.1) := by
        by_contra absent
        rw [getEntry_reverse_eq_none_iff.mpr absent] at last
        cases last
      obtain ⟨⟨_, w⟩, there, rfl⟩ := List.mem_map.mp ((names k).mpr named)
      rw [values _ v w last there, getEntry_of_mem ascends.nodup there]

theorem sortMembers_map (f : α → β) (members : List (String × α)) :
    sortMembers (members.map fun e => (e.1, f e.2)) = (sortMembers members).map fun e => (e.1, f e.2) := by
  induction members using List.reverseRecOn with
  | nil => rfl
  | append_singleton front e ih =>
    rw [List.map_append, List.map_singleton, sortMembers_concat, sortMembers_concat, ih]
    exact insertMember_map f _

theorem sortMembers_perm (distinct : (members.map (·.1)).Nodup) : (sortMembers members).Perm members := by
  induction members using List.reverseRecOn with
  | nil => exact .refl _
  | append_singleton front e ih =>
    rw [List.map_append, List.nodup_append'] at distinct
    have sorted := ih distinct.1
    have fresh : e.1 ∉ (sortMembers front).map (·.1) := fun there =>
      distinct.2.2 ((sorted.map (·.1)).mem_iff.mp there) (List.mem_singleton_self _)
    rw [sortMembers_concat]
    exact (insertMember_perm fresh).trans ((sorted.cons e).trans (List.perm_append_singleton e front).symm)

theorem Ascends.sortMembers_eq (h : Ascends members) : sortMembers members = members :=
  (sortMembers_perm h.nodup).eq_of_pairwise (fun _ _ _ _ less greater => absurd less (lt_asymm greater))
    (ascends_sortMembers members) h

end Json

end AspectProxy
