import AspectProxy.Proofs.Values.Parts
import Mathlib.Order.WellFounded

/-!
The JSON of object graphs. A value is finite, but objects refer to each other in cycles. Every step of the conversion goes
one level deeper: above a bound that alone comes to an end, and from the bound on objects are not entered any more, so
that every step goes to a part of a finite value. What the JSON shows is said by a relation that counts the depth from the
value that is converted and does not say how the JSON is made; it holds of one JSON, which is the one that is made.
-/

namespace AspectProxy.Value

open Json

/-- The values that the conversion of a value at a depth goes on to, one level deeper: items of lists and entries of maps at
any depth, fields of objects above the bound only. -/
inductive Enters (h : Heap) (bound : Nat) : Nat × Value → Nat × Value → Prop
  | item {depth : Nat} {items : List Value} {v : Value} (there : v ∈ items) :
      Enters h bound (depth, list items) (depth + 1, v)
  | entry {depth : Nat} {entries : List (String × Value)} {k : String} {v : Value} (there : (k, v) ∈ entries) :
      Enters h bound (depth, map entries) (depth + 1, v)
  | field {depth : Nat} {o : ObjectRef} {k : String} {v : Value} (above : depth < bound) (there : (k, v) ∈ h.fields o) :
      Enters h bound (depth, object o) (depth + 1, v)

variable {h : Heap} {bound depth : Nat} {v : Value} {o : ObjectRef} {items : List Value}
  {entries : List (String × Value)} {j : Json} {shown : List Json} {members : List (String × Json)} {k : String}

theorem sizeOf_item_lt (there : v ∈ items) : sizeOf v < sizeOf (list items) := by
  have smaller := List.sizeOf_lt_of_mem there
  rw [list.sizeOf_spec]
  omega

theorem sizeOf_entry_lt (there : (k, v) ∈ entries) : sizeOf v < sizeOf (map entries) := by
  have smaller := List.sizeOf_lt_of_mem there
  rw [Prod.mk.sizeOf_spec] at smaller
  rw [map.sizeOf_spec]
  omega

/-- A step comes nearer to the bound, or it is below and goes to a smaller value. -/
theorem Enters.descends {outer inner : Nat × Value} (enters : Enters h bound outer inner) :
    Prod.Lex (· < ·) (· < ·) (bound - inner.1, sizeOf inner.2) (bound - outer.1, sizeOf outer.2) := by
  have deeper (depth : Nat) {small large : Nat} (smaller : small < large) :
      Prod.Lex (· < ·) (· < ·) (bound - (depth + 1), small) (bound - depth, large) := by
    rw [Prod.lex_def]
    omega
  cases enters with
  | item there => exact deeper _ (sizeOf_item_lt there)
  | entry there => exact deeper _ (sizeOf_entry_lt there)
  | field above there => exact .left _ _ (by omega)

/-- The steps come to an end from every value, at every depth. -/
theorem wellFounded_enters (h : Heap) (bound : Nat) : WellFounded fun inner outer => Enters h bound outer inner :=
  Subrelation.wf Enters.descends
    (InvImage.wf (fun place : Nat × Value => (bound - place.1, sizeOf place.2))
      (WellFounded.prod_lex Nat.lt_wfRel.wf Nat.lt_wfRel.wf))

/-- The JSON shows a value that the conversion met at a depth. Lists and maps are shown completely. An object above the bound
is shown with all its fields and with its class under `__class`, unless it has a field of that name; at the bound and below,
with its class only. Where a key is repeated its last value counts. -/
inductive Renders (h : Heap) (bound : Nat) : Nat → Value → Json → Prop
  | null {depth : Nat} : Renders h bound depth null .null
  | bool {depth : Nat} {b : Bool} : Renders h bound depth (bool b) (.bool b)
  | int {depth : Nat} {n : Int64} : Renders h bound depth (int n) (.int n.toInt)
  | finite {depth : Nat} {x : Float} (isFinite : x.isFinite = true) : Renders h bound depth (float x) (.float x)
  | nonfinite {depth : Nat} {x : Float} (noNumber : x.isFinite = false) : Renders h bound depth (float x) .null
  | str {depth : Nat} {s : String} : Renders h bound depth (str s) (.str s)
  | list {depth : Nat} {items : List Value} {shown : List Json} (complete : shown.length = items.length)
      (each : ∀ (i : Nat) (v : Value) (j : Json), items[i]? = some v → shown[i]? = some j →
        Renders h bound (depth + 1) v j) :
      Renders h bound depth (list items) (.arr shown)
  | map {depth : Nat} {entries : List (String × Value)} {members : List (String × Json)} (sorted : Ascends members)
      (complete : ∀ k, k ∈ members.map (·.1) ↔ k ∈ entries.map (·.1))
      (each : ∀ (k : String) (v : Value) (j : Json), getEntry k entries.reverse = some v → (k, j) ∈ members →
        Renders h bound (depth + 1) v j) :
      Renders h bound depth (map entries) (.obj members)
  | whole {depth : Nat} {o : ObjectRef} {members : List (String × Json)} (above : depth < bound) (sorted : Ascends members)
      (complete : ∀ k, k ∈ members.map (·.1) ↔ k = "__class" ∨ k ∈ (h.fields o).map (·.1))
      (tag : "__class" ∉ (h.fields o).map (·.1) → ("__class", .str o.type.name.text) ∈ members)
      (each : ∀ (k : String) (v : Value) (j : Json), getEntry k (h.fields o).reverse = some v → (k, j) ∈ members →
        Renders h bound (depth + 1) v j) :
      Renders h bound depth (object o) (.obj members)
  | cut {depth : Nat} {o : ObjectRef} (below : bound ≤ depth) :
      Renders h bound depth (object o) (.obj [("__class", .str o.type.name.text)])

/-- The last value of a key is converted like any other. -/
theorem last_shown (f : Value → Json) :
    getEntry k (entries.map fun e => (e.1, f e.2)).reverse = (getEntry k entries.reverse).map f := by
  rw [← List.map_reverse, getEntry_map]

theorem sorted_map_eq_iff (f : Value → Json) :
    sortMembers (entries.map fun e => (e.1, f e.2)) = members ↔
      Ascends members ∧ (∀ k, k ∈ members.map (·.1) ↔ k ∈ entries.map (·.1)) ∧
        ∀ k v j, getEntry k entries.reverse = some v → (k, j) ∈ members → f v = j := by
  rw [sortMembers_eq_iff]
  refine and_congr_right fun _ => and_congr ?_ (forall_congr' fun k => ?_)
  · rw [List.map_map]
    rfl
  · rw [last_shown]
    simp only [Option.map_eq_some_iff]
    constructor
    · exact fun each v j last => each _ j ⟨v, last, rfl⟩
    · rintro each _ j ⟨v, last, rfl⟩
      exact each v j last

theorem sorted_object_eq_iff (f : Value → Json) :
    sortMembers (classMember o :: (h.fields o).map fun e => (e.1, f e.2)) = members ↔
      Ascends members ∧ (∀ k, k ∈ members.map (·.1) ↔ k = "__class" ∨ k ∈ (h.fields o).map (·.1)) ∧
        ("__class" ∉ (h.fields o).map (·.1) → ("__class", .str o.type.name.text) ∈ members) ∧
          ∀ k v j, getEntry k (h.fields o).reverse = some v → (k, j) ∈ members → f v = j := by
  have names : (classMember o :: (h.fields o).map fun e => (e.1, f e.2)).map (·.1) =
      "__class" :: (h.fields o).map (·.1) := by
    rw [List.map_cons, List.map_map]
    rfl
  have last (k : String) : getEntry k (classMember o :: (h.fields o).map fun e => (e.1, f e.2)).reverse =
      ((getEntry k (h.fields o).reverse).map f).or (getEntry k [classMember o]) := by
    rw [List.reverse_cons, getEntry_append, last_shown]
  rw [sortMembers_eq_iff, names]
  simp only [List.mem_cons]
  refine and_congr_right fun sorted => and_congr_right fun complete => ?_
  constructor
  · intro each
    refine ⟨fun untagged => ?_, fun k v j field => each k (f v) j (by rw [last, field]; rfl)⟩
    obtain ⟨⟨_, j⟩, there, rfl⟩ := List.mem_map.mp ((complete "__class").mpr (.inl rfl))
    have tag : Json.str o.type.name.text = j :=
      each _ _ j (by rw [last, getEntry_reverse_eq_none_iff.mpr untagged]; rfl) there
    rwa [tag]
  · rintro ⟨tag, each⟩ k v w shown there
    rw [last] at shown
    cases field : getEntry k (h.fields o).reverse with
    | some u =>
      rw [field] at shown
      cases shown
      exact each k u w field there
    | none =>
      rw [field, Option.map_none, Option.none_or] at shown
      cases List.mem_singleton.mp (mem_of_getEntry shown)
      have tagged := tag (getEntry_reverse_eq_none_iff.mp field)
      exact Option.some.inj ((getEntry_of_mem sorted.nodup tagged).symm.trans (getEntry_of_mem sorted.nodup there))

/-- Only the JSON that is made shows a value. -/
theorem Renders.eq (renders : Renders h bound depth v j) : jsonWithin h (bound - depth) v = j := by
  induction renders with
  | null | bool | int | str => cases bound - _ <;> rfl
  | finite isFinite => rw [jsonWithin_float, floatJson, if_pos isFinite]
  | nonfinite noNumber => rw [jsonWithin_float, floatJson, noNumber, if_neg Bool.false_ne_true]
  | @list depth items shown complete each ih =>
    rw [jsonWithin_list, Nat.sub_sub]
    refine congrArg Json.arr (List.ext_getElem (by rw [List.length_map, complete]) fun i inside inside' => ?_)
    rw [List.getElem_map]
    exact ih i _ _ (List.getElem?_eq_getElem _) (List.getElem?_eq_getElem _)
  | @map depth entries members sorted complete each ih =>
    rw [jsonWithin_map, Nat.sub_sub, (sorted_map_eq_iff _).mpr ⟨sorted, complete, ih⟩]
  | @whole depth o members above sorted complete tag each ih =>
    rw [jsonWithin_object (Nat.sub_pos_of_lt above), Nat.sub_sub,
      (sorted_object_eq_iff _).mpr ⟨sorted, complete, tag, ih⟩]
  | cut below =>
    rw [Nat.sub_eq_zero_of_le below]
    rfl

/-- The JSON that is made shows the value: at every step so do the parts that it goes on to. -/
theorem renders_jsonWithin (h : Heap) (bound depth : Nat) (v : Value) :
    Renders h bound depth v (jsonWithin h (bound - depth) v) := by
  -- on the steps of the conversion: a field of an object is no part of the object as a value
  refine (wellFounded_enters h bound).induction (C := fun outer => Renders h bound outer.1 outer.2
    (jsonWithin h (bound - outer.1) outer.2)) (depth, v) ?_
  rintro ⟨depth, v⟩ ih
  dsimp only at ih ⊢
  cases v with
  | null => cases bound - depth <;> exact .null
  | bool b => cases bound - depth <;> exact .bool
  | int n => cases bound - depth <;> exact .int
  | str s => cases bound - depth <;> exact .str
  | float x =>
    rw [jsonWithin_float, floatJson]
    split
    · rename_i finite
      exact .finite finite
    · rename_i noNumber
      exact .nonfinite (Bool.eq_false_of_not_eq_true noNumber)
  | list items =>
    rw [jsonWithin_list, Nat.sub_sub]
    refine .list (List.length_map _) fun i v j there shown => ?_
    rw [List.getElem?_map, there] at shown
    cases shown
    exact ih _ (.item (List.mem_of_getElem? there))
  | map entries =>
    rw [jsonWithin_map, Nat.sub_sub]
    obtain ⟨sorted, complete, each⟩ := (sorted_map_eq_iff (jsonWithin h (bound - (depth + 1)))).mp rfl
    refine .map sorted complete fun k v j last there => ?_
    rw [← each k v j last there]
    exact ih (depth + 1, v) (.entry (List.mem_reverse.mp (mem_of_getEntry last)))
  | object o =>
    by_cases above : depth < bound
    · rw [jsonWithin_object (Nat.sub_pos_of_lt above), Nat.sub_sub]
      obtain ⟨sorted, complete, tag, each⟩ := (sorted_object_eq_iff (jsonWithin h (bound - (depth + 1)))).mp rfl
      refine .whole above sorted complete tag fun k v j last there => ?_
      rw [← each k v j last there]
      exact ih (depth + 1, v) (.field above (List.mem_reverse.mp (mem_of_getEntry last)))
    · have below := Nat.le_of_not_lt above
      rw [Nat.sub_eq_zero_of_le below]
      exact .cut below

/-- The conversion of a value ends on every heap, and the JSON that it gives is the one that shows the value: lists and maps
completely, objects above depth 32 with their class and all fields, objects at depth 32 and below with their class only. -/
theorem toJson_renders (h : Heap) :
    (WellFounded fun inner outer => Enters h 32 outer inner) ∧ ∀ v j, Renders h 32 0 v j ↔ v.toJson h = j := by
  refine ⟨wellFounded_enters h 32, fun v j => ⟨Renders.eq, ?_⟩⟩
  rintro rfl
  exact renders_jsonWithin h 32 0 v

end AspectProxy.Value
