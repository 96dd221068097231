import AspectProxy.Proofs.Machine.NestedStores
import AspectProxy.Proofs.Values.Parts
import AspectProxy.Proofs.Weaving.Sameness

/-!
Values taken to JSON and back, and JSON taken to values and back. A value without objects whose floats are finite comes back
the same, however deep it is nested, since the bound on the depth stops objects only; and JSON whose numbers are integers
of programs or finite floats comes back as it is when its objects are sorted by name.
-/

namespace AspectProxy

namespace Value

/-- A value is another one or stands in it. -/
inductive OccursIn (w : Value) : Value → Prop
  | self : OccursIn w w
  | item {items : List Value} {v : Value} (there : v ∈ items) (within : OccursIn w v) : OccursIn w (list items)
  | entry {entries : List (String × Value)} {e : String × Value} (there : e ∈ entries) (within : OccursIn w e.2) :
      OccursIn w (map entries)

/-- Values that JSON can hold: no objects, and only floats that are finite. A map repeats no key. -/
structure Portable (v : Value) : Prop where
  objectFree : v.ObjectFree
  finite : ∀ x, (float x).OccursIn v → x.isFinite = true
  distinct : ∀ entries, (map entries).OccursIn v → (entries.map (·.1)).Nodup

variable {v w : Value} {items : List Value} {entries : List (String × Value)} {h : Heap}

theorem portable_list : (list items).Portable ↔ ∀ v ∈ items, v.Portable where
  mp plain v there :=
    { objectFree := references_list.mp plain.objectFree v there
      finite := fun x within => plain.finite x (.item there within)
      distinct := fun entries within => plain.distinct entries (.item there within) }
  mpr each :=
    { objectFree := references_list.mpr fun v there => (each v there).objectFree
      finite := fun | x, .item there within => (each _ there).finite x within
      distinct := fun | entries, .item there within => (each _ there).distinct entries within }

theorem portable_map : (map entries).Portable ↔ (entries.map (·.1)).Nodup ∧ ∀ e ∈ entries, e.2.Portable where
  mp plain :=
    ⟨plain.distinct entries .self, fun e there =>
      { objectFree := references_map.mp plain.objectFree e there
        finite := fun x within => plain.finite x (.entry there within)
        distinct := fun entries within => plain.distinct entries (.entry there within) }⟩
  mpr each :=
    { objectFree := references_map.mpr fun e there => (each.2 e there).objectFree
      finite := fun | x, .entry there within => (each.2 _ there).finite x within
      distinct := fun
        | _, .self => each.1
        | entries, .entry there within => (each.2 _ there).distinct entries within }

theorem sameItems_map {f : Value → Value} (each : ∀ v ∈ items, (f v).same v = true) :
    sameItems (items.map f) items = true := by
  induction items with
  | nil => rfl
  | cons v rest ih =>
    obtain ⟨here, later⟩ := List.forall_mem_cons.mp each
    rw [List.map_cons, sameItems, here, ih later]
    rfl

theorem sameEntries_iff {others : List (String × Value)} :
    sameEntries entries others = true ↔ ∀ e ∈ entries, ∃ v, getEntry e.1 others = some v ∧ e.2.same v = true := by
  induction entries with
  | nil => simp [sameEntries]
  | cons e rest ih =>
    obtain ⟨k, a⟩ := e
    rw [sameEntries, Bool.and_eq_true, ih, List.forall_mem_cons]
    refine and_congr_left fun _ => ?_
    cases getEntry k others with
    | none => simp
    | some b => simp

/-- Without objects the depth of a value does not matter. -/
theorem jsonWithin_eq (plain : v.ObjectFree) (levels : Nat) : jsonWithin h levels v = shallowJson v := by
  induction v using nested_induction generalizing levels with
  | list items ih =>
    rw [jsonWithin_list, shallowJson, shallowItems_eq]
    exact congrArg Json.arr (List.map_congr_left fun w hw => ih w hw (references_list.mp plain w hw) _)
  | map entries ih =>
    have each : ∀ e ∈ entries, (e.1, jsonWithin h (levels - 1) e.2) = (e.1, shallowJson e.2) := fun e he => by
      rw [ih e he (references_map.mp plain e he)]
    rw [jsonWithin_map, shallowJson, shallowEntries_eq, List.map_congr_left each]
  | object o => exact plain.elim
  | null | bool | int | float | str => cases levels <;> rfl

theorem toJson_eq (plain : v.ObjectFree) : v.toJson h = shallowJson v :=
  jsonWithin_eq plain jsonDepth

/-- The JSON of a value is sorted as it stands. -/
theorem plain_shallowJson (v : Value) : (shallowJson v).plain = shallowJson v := by
  induction v using nested_induction with
  | null | bool | int | str | object => rfl
  | float x =>
    rw [shallowJson, floatJson]
    split <;> rfl
  | list items ih =>
    rw [shallowJson, shallowItems_eq, Json.plain, Json.plainItems_eq, List.map_map]
    exact congrArg Json.arr (List.map_congr_left ih)
  | map entries ih =>
    have settled : (shallowEntries entries).map (fun m => (m.1, m.2.plain)) = shallowEntries entries := by
      rw [shallowEntries_eq, List.map_map]
      exact List.map_congr_left fun e he => congrArg (Prod.mk e.1) (ih e he)
    rw [shallowJson, Json.plain, Json.plainMembers_eq, ← Json.sortMembers_map, settled,
      (Json.ascends_sortMembers _).sortMembers_eq]

theorem fitsInt_toInt (n : Int64) : fitsInt n.toInt = true := by
  have least := n.le_toInt
  have greatest := n.toInt_lt
  simp only [fitsInt, Bool.and_eq_true, decide_eq_true_eq]
  omega

/-- A value comes back from its JSON. -/
theorem same_ofPlainJson (plain : v.Portable) : (ofPlainJson (shallowJson v)).same v = true := by
  induction v using nested_induction with
  | null => rfl
  | bool b => exact beq_self_eq_true b
  | int n =>
    rw [shallowJson, ofPlainJson, if_pos (fitsInt_toInt n), Int64.ofInt_toInt]
    exact beq_self_eq_true n
  | float x =>
    have finite := plain.finite x .self
    rw [shallowJson, floatJson, if_pos finite]
    exact Float.beq_self finite
  | str s => exact beq_self_eq_true s
  | list items ih =>
    rw [shallowJson, ofPlainJson, ofPlainItems_eq, shallowItems_eq, List.map_map, same]
    exact sameItems_map fun v hv => ih v hv (portable_list.mp plain v hv)
  | map entries ih =>
    obtain ⟨distinct, each⟩ := portable_map.mp plain
    have sorted := Json.sortMembers_perm distinct
    rw [shallowJson, ofPlainJson, ofPlainMembers_eq, shallowEntries_eq, Json.sortMembers_map, List.map_map, same,
      List.length_map, sorted.length_eq, beq_self_eq_true, Bool.true_and, sameEntries_iff, List.forall_mem_map]
    intro e he
    have there := sorted.mem_iff.mp he
    exact ⟨e.2, getEntry_of_mem distinct there, ih e there (each e there)⟩
  | object o => exact plain.objectFree.elim

end Value

namespace Json

/-- A JSON value is another one or stands in it. -/
inductive OccursIn (k : Json) : Json → Prop
  | self : OccursIn k k
  | item {items : List Json} {j : Json} (there : j ∈ items) (within : OccursIn k j) : OccursIn k (arr items)
  | member {members : List (String × Json)} {m : String × Json} (there : m ∈ members) (within : OccursIn k m.2) :
      OccursIn k (obj members)

/-- JSON whose numbers are integers of programs or finite floats. -/
structure Fits (j : Json) : Prop where
  ints : ∀ n, (int n).OccursIn j → Value.fitsInt n = true
  finite : ∀ x, (float x).OccursIn j → x.isFinite = true

/-- JSON whose objects are sorted by name, no name twice. -/
def Sorted (j : Json) : Prop :=
  ∀ members, (obj members).OccursIn j → Ascends members

variable {j : Json} {items : List Json} {members : List (String × Json)}

theorem fits_arr : (arr items).Fits ↔ ∀ j ∈ items, j.Fits where
  mp fits _ there := ⟨fun n within => fits.ints n (.item there within), fun x within => fits.finite x (.item there within)⟩
  mpr each :=
    { ints := fun | n, .item there within => (each _ there).ints n within
      finite := fun | x, .item there within => (each _ there).finite x within }

theorem fits_obj : (obj members).Fits ↔ ∀ m ∈ members, m.2.Fits where
  mp fits _ there :=
    ⟨fun n within => fits.ints n (.member there within), fun x within => fits.finite x (.member there within)⟩
  mpr each :=
    { ints := fun | n, .member there within => (each _ there).ints n within
      finite := fun | x, .member there within => (each _ there).finite x within }

theorem sorted_arr : (arr items).Sorted ↔ ∀ j ∈ items, j.Sorted where
  mp sorted _ there members within := sorted members (.item there within)
  mpr each := fun | members, .item there within => each _ there members within

theorem sorted_obj : (obj members).Sorted ↔ Ascends members ∧ ∀ m ∈ members, m.2.Sorted where
  mp sorted := ⟨sorted members .self, fun _ there inner within => sorted inner (.member there within)⟩
  mpr each := fun
    | _, .self => each.1
    | inner, .member there within => each.2 _ there inner within

theorem Sorted.plain_eq (sorted : j.Sorted) : j.plain = j := by
  induction j using nested_induction with
  | null | bool | int | float | str => rfl
  | arr items ih =>
    have settled := List.map_congr_left fun k hk => ih k hk (sorted_arr.mp sorted k hk)
    rw [plain, plainItems_eq, settled, List.map_id']
  | obj members ih =>
    obtain ⟨ascends, each⟩ := sorted_obj.mp sorted
    have settled : members.map (fun m => (m.1, m.2.plain)) = members :=
      (List.map_congr_left fun m hm => congrArg (Prod.mk m.1) (ih m hm (each m hm))).trans (List.map_id members)
    rw [plain, plainMembers_eq, settled, ascends.sortMembers_eq]

end Json

namespace Value

variable {j : Json} {h : Heap}

theorem objectFree_ofPlainJson (j : Json) : (ofPlainJson j).ObjectFree := by
  induction j using Json.nested_induction with
  | null | bool | float | str => trivial
  | int n =>
    rw [ofPlainJson]
    split <;> trivial
  | arr items ih =>
    rw [ofPlainJson, ofPlainItems_eq]
    exact references_list.mpr (List.forall_mem_map.mpr ih)
  | obj members ih =>
    rw [ofPlainJson, ofPlainMembers_eq]
    exact references_map.mpr (List.forall_mem_map.mpr ih)

/-- Sorted JSON comes back from the value made of it. -/
theorem shallowJson_ofPlainJson (fits : j.Fits) : shallowJson (ofPlainJson j.plain) = j.plain := by
  induction j using Json.nested_induction with
  | null | bool | str => rfl
  | int n =>
    have bounded := fits.ints n .self
    simp only [fitsInt, Bool.and_eq_true, decide_eq_true_eq] at bounded
    rw [Json.plain, ofPlainJson, if_pos (fits.ints n .self), shallowJson, Int64.toInt_ofInt_of_le bounded.1 bounded.2]
    all_goals nofun
  | float x =>
    rw [Json.plain, ofPlainJson, shallowJson, floatJson, if_pos (fits.finite x .self)]
    all_goals nofun
  | arr items ih =>
    rw [Json.plain, Json.plainItems_eq, ofPlainJson, ofPlainItems_eq, shallowJson, shallowItems_eq, List.map_map,
      List.map_map]
    exact congrArg Json.arr (List.map_congr_left fun k hk => ih k hk (Json.fits_arr.mp fits k hk))
  | obj members ih =>
    have settled : (members.map fun m => (m.1, m.2.plain)).map (fun m => (m.1, shallowJson (ofPlainJson m.2))) =
        members.map fun m => (m.1, m.2.plain) := by
      rw [List.map_map]
      exact List.map_congr_left fun m hm => congrArg (Prod.mk m.1) (ih m hm (Json.fits_obj.mp fits m hm))
    rw [Json.plain, Json.plainMembers_eq, ofPlainJson, ofPlainMembers_eq, shallowJson, shallowEntries_eq, List.map_map]
    have back := (Json.sortMembers_map (fun k => shallowJson (ofPlainJson k)) _).symm.trans
      (congrArg Json.sortMembers settled)
    exact congrArg Json.obj ((congrArg Json.sortMembers back).trans (Json.ascends_sortMembers _).sortMembers_eq)

/-- A value that JSON can hold comes back the same from its JSON; JSON with such numbers comes back from its value with
its objects sorted, so as it is if they are. -/
theorem json_round_trip (h : Heap) :
    (∀ v : Value, v.Portable → (ofJson (v.toJson h)).same v = true) ∧
    ∀ j : Json, j.Fits → (ofJson j).toJson h = j.plain ∧ (j.Sorted → (ofJson j).toJson h = j) := by
  have back (j : Json) (fits : j.Fits) : (ofJson j).toJson h = j.plain := by
    rw [ofJson, toJson_eq (objectFree_ofPlainJson _), shallowJson_ofPlainJson fits]
  refine ⟨fun v plain => ?_, fun j fits => ⟨back j fits, fun sorted => (back j fits).trans sorted.plain_eq⟩⟩
  rw [toJson_eq plain.objectFree, ofJson, plain_shallowJson]
  exact same_ofPlainJson plain

/-- A map with the later key first, and with two numbers that differ in kind only. -/
def bellMap : Value :=
  map [("rings", list [int 1, float 1]), ("name", str "bell")]

def bellJson : Json :=
  .obj [("name", .str "bell"), ("rings", .arr [.int 1, .float 1])]

theorem isFinite_one : Float.isFinite 1 = true := by
  decide

theorem json_round_trip_bell :
    (ofJson (bellMap.toJson {})).same bellMap = true ∧ (ofJson bellJson).toJson {} = bellJson := by
  obtain ⟨values, texts⟩ := json_round_trip {}
  have portable : bellMap.Portable := by
    refine portable_map.mpr ⟨by decide, List.forall_mem_cons.mpr ⟨portable_list.mpr ?_, List.forall_mem_singleton.mpr ?_⟩⟩
    · refine List.forall_mem_cons.mpr ⟨⟨trivial, nofun, nofun⟩, List.forall_mem_singleton.mpr ⟨trivial, ?_, nofun⟩⟩
      rintro _ ⟨⟩
      exact isFinite_one
    · exact ⟨trivial, nofun, nofun⟩
  have fits : bellJson.Fits := by
    refine Json.fits_obj.mpr (List.forall_mem_cons.mpr ⟨⟨nofun, nofun⟩, List.forall_mem_singleton.mpr ?_⟩)
    refine Json.fits_arr.mpr (List.forall_mem_cons.mpr ⟨⟨?_, nofun⟩, List.forall_mem_singleton.mpr ⟨nofun, ?_⟩⟩)
    · rintro _ ⟨⟩
      rfl
    · rintro _ ⟨⟩
      exact isFinite_one
  have sorted : bellJson.Sorted := by
    refine Json.sorted_obj.mpr ⟨List.pairwise_pair.mpr (by decide), List.forall_mem_cons.mpr ⟨nofun, ?_⟩⟩
    refine List.forall_mem_singleton.mpr (Json.sorted_arr.mpr ?_)
    exact List.forall_mem_cons.mpr ⟨nofun, List.forall_mem_singleton.mpr nofun⟩
  exact ⟨values _ portable, (texts _ fits).2 sorted⟩

end Value

end AspectProxy
