import AspectProxy.Proofs.References.Renaming
import AspectProxy.Proofs.Weaving.ProxyNames

/-!
Which classes the references of a retargeted method mean. A reference becomes the full name of its class in the unit
of the method, so it means that class in every unit, unless the full name has no package: then a unit that has a
package, or imports another class by the name, takes it for a name of its own.
-/

namespace AspectProxy

theorem mem_trimWhiteSpace {cs : List Char} {c : Char} (shown : isWhiteSpace c = false) :
    c ∈ trimWhiteSpace cs ↔ c ∈ cs := by
  have kept : ∀ ds : List Char, c ∈ ds.dropWhile isWhiteSpace ↔ c ∈ ds := by
    intro ds
    refine ⟨fun h => (List.dropWhile_sublist _).subset h, fun h => ?_⟩
    rw [← List.takeWhile_append_dropWhile (p := isWhiteSpace) (l := ds), List.mem_append] at h
    refine h.resolve_left fun blank => ?_
    have blank := List.mem_takeWhile_imp blank
    rw [shown] at blank
    cases blank
  rw [trimWhiteSpace, List.mem_reverse, kept, List.mem_reverse, kept]

theorem ClassName.parse_eq_error {s : String} {e : InvalidClassName} (h : parse s = .error e) : e.text = s := by
  unfold parse at h
  dsimp only at h
  split at h
  · cases h
  · cases h
    rfl

theorem ClassName.dot_mem_key_of_parse {s : String} {c : ClassName} (h : parse s = .ok c) :
    '.' ∈ c.key.toList ↔ '.' ∈ s.toList := by
  unfold parse at h
  dsimp only at h
  split at h
  · cases h
    rw [key, dot_mem_asciiLower, String.toList_ofList, mem_trimWhiteSpace (by decide)]
  · cases h

/-- Texts that name the same class; a text that names none is like itself only. -/
def SameClass (s t : String) : Prop :=
  (ClassName.parse s).map ClassName.key = (ClassName.parse t).map ClassName.key

/-- A name in a package names no class without one. -/
theorem not_sameClass_packaged {name : String} (bare : '.' ∉ name.toList) (package : String) :
    ¬SameClass (package ++ "." ++ name) name := by
  intro same
  have dotted : '.' ∈ (package ++ "." ++ name).toList := by simp
  unfold SameClass at same
  cases whole : ClassName.parse (package ++ "." ++ name) with
  | error e =>
    cases short : ClassName.parse name with
    | error e' =>
      rw [whole, short] at same
      obtain rfl : e = e' := Except.error.inj same
      rw [← ClassName.parse_eq_error short, ClassName.parse_eq_error whole] at bare
      exact bare dotted
    | ok c =>
      rw [whole, short] at same
      cases same
  | ok c =>
    cases short : ClassName.parse name with
    | error e =>
      rw [whole, short] at same
      cases same
    | ok d =>
      rw [whole, short] at same
      have keys : c.key = d.key := Except.ok.inj same
      rw [← ClassName.dot_mem_key_of_parse short, ← keys, ClassName.dot_mem_key_of_parse whole] at bare
      exact bare dotted

namespace SourceUnit

/-- Whether a unit takes a full name for another class: the name has no package, and the unit imports another class
by that name or has a package. -/
def Reinterprets (u : SourceUnit) (name : String) : Prop :=
  '.' ∉ name.toList ∧
    match u.imports.find? fun i => i.visibleName = name with
    | some i => ¬SameClass i.path name
    | none => u.package ≠ none

theorem sameClass_resolve_iff (u : SourceUnit) (name : String) :
    SameClass (u.resolve name) name ↔ ¬u.Reinterprets name := by
  unfold resolve Reinterprets
  by_cases dot : '.' ∈ name.toList
  · rw [if_pos (by simpa using dot)]
    exact iff_of_true rfl fun taken => taken.1 dot
  · rw [if_neg (by simpa using dot)]
    cases u.imports.find? fun i => i.visibleName = name with
    | some i => simp [dot]
    | none =>
      cases u.package with
      | none => exact iff_of_true rfl fun taken => taken.2 rfl
      | some p => exact iff_of_false (not_sameClass_packaged dot p) fun free => free ⟨dot, nofun⟩

end SourceUnit

/-- Whether a reference means a class that depends on the unit it is written in. -/
def Reference.FollowsUnit (r : Reference) : Prop :=
  r.name ≠ selfClass ∧ ¬(r.kind = .typeUse ∧ r.name ∈ primitiveTypes)

theorem Reference.renamed_retargetIn {u : SourceUnit} {r : Reference} (follows : r.FollowsUnit) :
    r.renamed (Reference.retargetIn u) = ⟨r.kind, u.resolve r.name⟩ := by
  rw [renamed, retargetIn, if_neg follows.1, if_neg follows.2]
  dsimp only
  split
  case isTrue same =>
    rw [same]
    rfl
  case isFalse => rfl

/-- Each reference of a method means the same class in any unit, once it is retargeted, unless that unit takes the
full name of the class for another. -/
theorem retarget_keeps_classes (u : SourceUnit) (m : Method) :
    List.Forall₂ (fun r r' : Reference => r'.kind = r.kind ∧
        (r.FollowsUnit → ∀ p : SourceUnit,
          SameClass (p.resolve r'.name) (u.resolve r.name) ↔ ¬p.Reinterprets (u.resolve r.name)))
      m.references (m.retarget u).references := by
  rw [Method.retarget, Method.references_renameReferences]
  refine List.forall₂_map_right_iff.mpr (List.forall₂_same.mpr fun r _ => ⟨rfl, fun follows p => ?_⟩)
  rw [Reference.renamed_retargetIn follows]
  exact p.sameClass_resolve_iff (u.resolve r.name)

def auditHook : Method :=
  ⟨{}, beforeHook, [⟨"ctx", none, none⟩], none,
    [.declare "audit" none (.create "Audit" [.staticCall "Clock" "now" []])]⟩

def auditUnit : SourceUnit where
  package := some "lib.aop"
  imports := [⟨"lib.time.Clock", none⟩]
  declarations := [.trait ⟨"Audited", [.method auditHook]⟩]

/-- A unit in which the names that the hook uses are taken. -/
def clockShop : SourceUnit where
  package := some "shop"
  imports := [⟨"shop.parts.Clock", none⟩, ⟨"shop.books.Audit", none⟩]

theorem retarget_keeps_classes_audit :
    ∃ audit clock, (auditHook.retarget auditUnit).references = [audit, clock] ∧
      SameClass (clockShop.resolve audit.name) (auditUnit.resolve "Audit") ∧
      SameClass (clockShop.resolve clock.name) (auditUnit.resolve "Clock") := by
  have kept := retarget_keeps_classes auditUnit auditHook
  have written : auditHook.references = [⟨.create, "Audit"⟩, ⟨.staticCall, "Clock"⟩] := rfl
  rw [written] at kept
  obtain ⟨audit, others, ⟨-, auditMeans⟩, keptOthers, references⟩ := List.forall₂_cons_left_iff.mp kept
  obtain ⟨clock, none, ⟨-, clockMeans⟩, keptNone, rfl⟩ := List.forall₂_cons_left_iff.mp keptOthers
  obtain rfl := List.forall₂_nil_left_iff.mp keptNone
  refine ⟨audit, clock, references, (auditMeans ⟨by decide, nofun⟩ clockShop).mpr ?_,
    (clockMeans ⟨by decide, nofun⟩ clockShop).mpr ?_⟩
  · exact fun taken => taken.1 (by decide)
  · exact fun taken => taken.1 (by decide)

def markHook : Method :=
  ⟨{}, afterHook, [⟨"ctx", none, none⟩, ⟨"result", none, none⟩], none,
    [.return (some (.staticCall "Helper" "mark" []))]⟩

def markUnit : SourceUnit where
  declarations := [.trait ⟨"Hooks", [.method markHook]⟩]

theorem markUnit_read :
    SourceUnit.ofString? "trait Hooks { fn __after(ctx, result) { return Helper::mark(); } }" = .ok markUnit :=
  SourceUnit.eq_ok_of_beq (by decide +kernel)

/-- In a unit of a package a retargeted reference to a class without a package means a class of that package. -/
theorem retarget_moves_bare_class :
    SourceUnit.ofString? "trait Hooks { fn __after(ctx, result) { return Helper::mark(); } }" = .ok markUnit ∧
      SourceUnit.ofString? "package app; class Clock { }" = .ok clockUnit ∧
      markUnit.methods = [markHook] ∧ markHook.references = [⟨.staticCall, "Helper"⟩] ∧
      (markHook.retarget markUnit).references = [⟨.staticCall, "Helper"⟩] ∧
      markUnit.resolve "Helper" = "Helper" ∧ clockUnit.resolve "Helper" = "app.Helper" ∧
      ¬SameClass (clockUnit.resolve "Helper") (markUnit.resolve "Helper") :=
  ⟨markUnit_read, clock_read, rfl, rfl, rfl, rfl, rfl,
    show ¬SameClass ("app" ++ "." ++ "Helper") "Helper" from not_sameClass_packaged (by decide) "app"⟩

end AspectProxy
