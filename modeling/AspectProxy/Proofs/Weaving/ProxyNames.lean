import AspectProxy.Proofs.Weaving.Parentage

/-!
Names of classes up to the case of their letters. A class is called in full by the package of its unit and its short
name; a suffix without dots, as a proxy has, leaves the package of a name as it is and makes the short name longer.
-/

namespace AspectProxy

/-- Only a letter is the lower case of another character. -/
theorem eq_of_toLower {c d : Char} (h : c.toLower = d) (other : d.isLower = false) : c = d := by
  subst h
  unfold Char.toLower at other ⊢
  split at other
  case isTrue upper =>
    have least : 65 ≤ c.val.toNat := upper.1
    have greatest : c.val.toNat ≤ 90 := upper.2
    have shift : ('a'.val - 'A'.val).toNat = 32 := rfl
    have first : 'a'.val.toNat = 97 := rfl
    have last : 'z'.val.toNat = 122 := rfl
    change (decide ('a'.val ≤ c.val + ('a'.val - 'A'.val)) && decide (c.val + ('a'.val - 'A'.val) ≤ 'z'.val)) = false at other
    simp only [Bool.and_eq_false_imp, decide_eq_true_eq, decide_eq_false_iff_not, UInt32.le_iff_toNat_le,
      UInt32.toNat_add] at other
    omega
  case isFalse notUpper => rw [dif_neg notUpper]

theorem eq_dot_of_toLower {c : Char} (h : c.toLower = '.') : c = '.' :=
  eq_of_toLower h rfl

theorem toLower_ne_dot (c : Char) : (decide (c.toLower ≠ '.')) = decide (c ≠ '.') :=
  decide_eq_decide.mpr (not_congr ⟨eq_dot_of_toLower, by rintro rfl; rfl⟩)

theorem toList_asciiLower (s : String) : (asciiLower s).toList = s.toList.map Char.toLower := by
  rw [asciiLower, String.toList_ofList]

theorem dot_mem_asciiLower {s : String} : '.' ∈ (asciiLower s).toList ↔ '.' ∈ s.toList := by
  rw [toList_asciiLower, List.mem_map]
  constructor
  · rintro ⟨c, hc, lower⟩
    rwa [← eq_dot_of_toLower lower]
  · exact fun dot => ⟨'.', dot, rfl⟩

theorem asciiLower_append (s t : String) : asciiLower (s ++ t) = asciiLower s ++ asciiLower t := by
  refine String.toList_inj.mp ?_
  simp only [toList_asciiLower, String.toList_append, List.map_append]

theorem asciiLower_afterLastDot (s : String) : asciiLower (afterLastDot s) = afterLastDot (asciiLower s) := by
  refine String.toList_inj.mp ?_
  simp only [afterLastDot, toList_asciiLower, String.toList_ofList, ← List.map_reverse, List.takeWhile_map]
  congr 3
  funext c
  exact (toLower_ne_dot c).symm

/-- The names of a class have the same short names. -/
theorem ClassName.short_congr {c d : ClassName} (same : (c == d) = true) : asciiLower c.short = asciiLower d.short := by
  have keys : asciiLower c.text = asciiLower d.text := ClassName.beq_iff.mp same
  rw [short, short, asciiLower_afterLastDot, asciiLower_afterLastDot, keys]

theorem SourceUnit.declaration?_congr {c d : ClassName} (same : (c == d) = true) (u : SourceUnit) :
    u.declaration? c.short = u.declaration? d.short := by
  rw [declaration?, declaration?, ClassName.short_congr same]

section Parts

variable {s t : String} (plain : '.' ∉ t.toList)
include plain

theorem notDot_of_mem_reverse {c : Char} (hc : c ∈ t.toList.reverse) : decide (c ≠ '.') = true :=
  decide_eq_true fun same => plain (same ▸ List.mem_reverse.mp hc)

theorem afterLastDot_suffix : afterLastDot (s ++ t) = afterLastDot s ++ t := by
  have passed : (t.toList.reverse ++ s.toList.reverse).takeWhile (· ≠ '.') =
      t.toList.reverse ++ s.toList.reverse.takeWhile (· ≠ '.') :=
    List.takeWhile_append_of_pos fun c => notDot_of_mem_reverse plain (c := c)
  refine String.toList_inj.mp ?_
  simp only [afterLastDot, String.toList_ofList, String.toList_append, List.reverse_append, passed, List.reverse_reverse]

theorem beforeLastDot?_suffix : beforeLastDot? (s ++ t) = beforeLastDot? s := by
  have passed : (t.toList.reverse ++ s.toList.reverse).dropWhile (· ≠ '.') = s.toList.reverse.dropWhile (· ≠ '.') :=
    List.dropWhile_append_of_pos fun c => notDot_of_mem_reverse plain (c := c)
  rw [beforeLastDot?, beforeLastDot?, String.toList_append, List.reverse_append, passed]

end Parts

namespace ClassName

/-- A name is its short name, or its package and its short name with a dot between them. -/
theorem parts (c : ClassName) :
    c.package? = none ∧ c.text = c.short ∨ ∃ p, c.package? = some p ∧ c.text = p ++ "." ++ c.short := by
  by_cases dot : '.' ∈ c.text.toList.reverse
  · obtain ⟨behind, before, split, plain⟩ := List.eq_append_cons_of_mem dot
    have passed : ∀ x ∈ behind, decide (x ≠ '.') = true := fun x hx => decide_eq_true fun same => plain (same ▸ hx)
    have package : c.package? = some (String.ofList before.reverse) := by
      rw [package?, beforeLastDot?, split, List.dropWhile_append_of_pos passed]
      rfl
    have short : c.short = String.ofList behind.reverse := by
      rw [ClassName.short, afterLastDot, split, List.takeWhile_append_of_pos passed, List.takeWhile_cons_of_neg (by decide),
        List.append_nil]
    refine .inr ⟨_, package, String.toList_inj.mp ?_⟩
    rw [short, ← List.reverse_reverse c.text.toList, split]
    simp
  · have plain : '.' ∉ c.text.toList := fun mem => dot (List.mem_reverse.mpr mem)
    have whole := afterLastDot_suffix (s := "") plain
    rw [String.empty_append, show afterLastDot "" = "" from rfl, String.empty_append] at whole
    exact .inl ⟨c.package?_eq_none_iff.mpr plain, whole.symm⟩

end ClassName

theorem dotSegments_append_dots (cs ds : List Char) : dotSegments (cs ++ '.' :: ds) = dotSegments cs ++ dotSegments ds := by
  induction cs with
  | nil => rfl
  | cons c cs ih =>
    by_cases dot : c = '.'
    · subst dot
      rw [List.cons_append, dotSegments, dotSegments, ih, List.cons_append]
    · rw [List.cons_append, dotSegments.eq_3 _ _ dot, dotSegments.eq_3 _ _ dot, ih]
      cases split : dotSegments cs with
      | nil => exact absurd split (dotSegments_ne_nil cs)
      | cons first rest => rfl

theorem isDottedName_append_dots (cs ds : List Char) :
    isDottedName (cs ++ '.' :: ds) = (isDottedName cs && isDottedName ds) := by
  rw [isDottedName, dotSegments_append_dots, List.all_append]
  rfl

/-- The short name of a class is an identifier. -/
theorem ClassName.isIdentifier_short (c : ClassName) : isIdentifier c.short.toList = true := by
  have plain : '.' ∉ c.short.toList := by
    rw [short, afterLastDot, String.toList_ofList]
    intro dot
    exact absurd (List.mem_takeWhile_imp (List.mem_reverse.mp dot)) (by simp)
  have valid := c.valid
  rcases c.parts with ⟨-, whole⟩ | ⟨p, -, text⟩
  · rw [whole, isDottedName, dotSegments_of_not_dot plain] at valid
    simpa using valid
  · have chars : (p ++ "." ++ c.short).toList = p.toList ++ '.' :: c.short.toList := by simp
    rw [text, chars, isDottedName_append_dots, Bool.and_eq_true] at valid
    have last := valid.2
    rw [isDottedName, dotSegments_of_not_dot plain] at last
    simpa using last

/-- A name is full behind the package of its unit. -/
theorem SourceUnit.qualified_eq {u : SourceUnit} {c : ClassName} {p short : String} (package : u.package = some p)
    (full : p ≠ "") (text : p ++ "." ++ short = c.text) : u.qualified short = .ok c := by
  rw [qualified, package]
  simp only [ClassName.qualify, full, if_false, text]
  exact ClassName.parse_of_isDottedName c.valid

/-- A class is called in full by the package of its unit and its short name. -/
theorem SourceUnit.qualified_short {u : SourceUnit} {c : ClassName} (named : ∀ p ∈ u.package, IsDotted p)
    (same : asciiLower (u.package.getD "") = asciiLower (c.package?.getD "")) :
    ∃ n, u.qualified c.short = .ok n ∧ (n == c) = true := by
  have valid := c.valid
  rcases c.parts with ⟨noPackage, whole⟩ | ⟨q, inPackage, text⟩
  · have bare : u.package = none := package_eq_none named same noPackage
    refine ⟨c, ?_, ClassName.beq_self c⟩
    rw [qualified, bare, ← whole]
    exact ClassName.parse_of_isDottedName valid
  · have chars : (q ++ "." ++ c.short).toList = q.toList ++ '.' :: c.short.toList := by simp
    rw [text, chars, isDottedName_append_dots, Bool.and_eq_true] at valid
    have full : q ≠ "" := by
      rintro rfl
      exact absurd valid.1 (by decide)
    rw [inPackage, Option.getD_some] at same
    cases package : u.package with
    | none =>
      rw [package] at same
      exact absurd (eq_empty_of_asciiLower same.symm) full
    | some p =>
      have dotted : IsDotted p := named p package
      have here : isDottedName (p ++ "." ++ c.short).toList = true := by
        have chars : (p ++ "." ++ c.short).toList = p.toList ++ '.' :: c.short.toList := by simp
        rw [chars, isDottedName_append_dots, dotted.isDottedName, valid.2]
        rfl
      refine ⟨⟨p ++ "." ++ c.short, here⟩, qualified_eq package dotted.ne_empty rfl, ClassName.beq_iff.mpr ?_⟩
      rw [package, Option.getD_some] at same
      rw [ClassName.key, ClassName.key, text]
      simp only [asciiLower_append, same]

/-- Names of different lengths are names of different classes. -/
theorem ClassName.ne_of_length {c d : ClassName} (other : c.text.length ≠ d.text.length) : (c == d) = false := by
  rw [← Bool.not_eq_true, ClassName.beq_iff]
  intro same
  have lengths := congrArg (·.toList.length) same
  simp only [ClassName.key, toList_asciiLower, List.length_map, String.length_toList] at lengths
  exact other lengths

/-- An identifier with an underscore in it is not reserved. -/
theorem isName_of_underscore {s : String} (identifier : isIdentifier s.toList = true) (mem : '_' ∈ s.toList) :
    IsName s := by
  have plain : ∀ w ∈ reservedWords, '_' ∉ w.toList := by decide
  exact ⟨identifier, fun reserved => plain s reserved mem⟩

theorem isIdentifier_append {cs ds : List Char} (h : isIdentifier cs = true) (parts : ds.all isNamePart = true) :
    isIdentifier (cs ++ ds) = true := by
  cases cs with
  | nil => cases h
  | cons c cs =>
    obtain ⟨start, rest⟩ := Bool.and_eq_true_iff.mp h
    rw [List.cons_append, isIdentifier, start, List.all_append, rest, parts]
    rfl

theorem plain_of_parts {suffix : String} (parts : suffix.toList.all isNamePart = true) : '.' ∉ ("_" ++ suffix).toList := by
  intro dot
  have mem : '.' ∈ '_' :: suffix.toList := by simpa using dot
  rcases List.mem_cons.mp mem with other | part
  · cases other
  · exact absurd (List.all_eq_true.mp parts _ part) (by decide)

/-- The short name of a proxy. -/
theorem proxyShort_eq {c proxy : ClassName} {suffix : String} (parts : suffix.toList.all isNamePart = true)
    (made : proxy.text = Identity.proxyText c suffix) : proxy.short = c.short ++ ("_" ++ suffix) := by
  rw [ClassName.short, made, Identity.proxyText, String.append_assoc, afterLastDot_suffix (plain_of_parts parts),
    ClassName.short]

theorem isName_proxyShort {c proxy : ClassName} {suffix : String} (parts : suffix.toList.all isNamePart = true)
    (made : proxy.text = Identity.proxyText c suffix) : IsName proxy.short := by
  rw [proxyShort_eq parts made]
  refine isName_of_underscore ?_ (by simp)
  rw [String.toList_append]
  exact isIdentifier_append c.isIdentifier_short (by simpa using ⟨by decide, by simpa using parts⟩)

theorem Identity.serialSuffix_parts (n : Nat) : (serialSuffix n).toList.all isNamePart = true := by
  rw [serialSuffix, String.toList_ofList]
  exact List.all_eq_true.mpr fun _ => isNamePart_of_mem_serialDigits

end AspectProxy
