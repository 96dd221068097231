import AspectProxy.Proofs.Reading.Declared
import AspectProxy.Proofs.Weaving.ProxyNames

/-!
What the declarations of a text are called outside it: by the package of the unit and by their own names, so that a class
of that package and of the short name of a declaration is the class that it declares.
-/

namespace AspectProxy

namespace ClassName

variable {c d : ClassName}

theorem asciiLower_beforeLastDot? (s : String) :
    (beforeLastDot? s).map asciiLower = beforeLastDot? (asciiLower s) := by
  have lower : (fun c : Char => decide (c ≠ '.')) ∘ Char.toLower = fun c => decide (c ≠ '.') :=
    funext toLower_ne_dot
  unfold beforeLastDot?
  rw [toList_asciiLower, ← List.map_reverse, List.dropWhile_map, lower]
  cases s.toList.reverse.dropWhile (· ≠ '.') with
  | nil => rfl
  | cons c rest => simp [asciiLower, List.map_reverse]

/-- The names of a class have the same packages. -/
theorem package?_congr (same : (c == d) = true) : c.package?.map asciiLower = d.package?.map asciiLower := by
  have keys : asciiLower c.text = asciiLower d.text := ClassName.beq_iff.mp same
  rw [package?, package?, asciiLower_beforeLastDot?, asciiLower_beforeLastDot?, keys]

/-- Names of one package and one short name are names of the same class. -/
theorem beq_of_parts (package : c.package?.map asciiLower = d.package?.map asciiLower)
    (short : asciiLower c.short = asciiLower d.short) : (c == d) = true := by
  rw [beq_iff, key, key]
  rcases c.parts with ⟨noPackage, text⟩ | ⟨p, inPackage, text⟩ <;>
    rcases d.parts with ⟨noPackage', text'⟩ | ⟨p', inPackage', text'⟩
  · rw [text, text', short]
  · rw [noPackage, inPackage'] at package
    cases package
  · rw [inPackage, noPackage'] at package
    cases package
  · rw [inPackage, inPackage'] at package
    rw [text, text', asciiLower_append, asciiLower_append, asciiLower_append, asciiLower_append, short,
      Option.some.inj package]

theorem package?_ne_empty {p : String} (inPackage : c.package? = some p) : p ≠ "" := by
  rintro rfl
  rcases c.parts with ⟨noPackage, -⟩ | ⟨q, inPackage', text⟩
  · rw [inPackage] at noPackage
    cases noPackage
  · obtain rfl : "" = q := Option.some.inj (inPackage.symm.trans inPackage')
    have valid := c.valid
    have chars : ("" ++ "." ++ c.short).toList = [] ++ '.' :: c.short.toList := by simp
    rw [text, chars, isDottedName_append_dots, Bool.and_eq_true] at valid
    exact absurd valid.1 (by decide)

/-- No package has the name that stands for none. -/
theorem package?_congr_of_getD (same : asciiLower (c.package?.getD "") = asciiLower (d.package?.getD "")) :
    c.package?.map asciiLower = d.package?.map asciiLower := by
  cases inPackage : c.package? with
  | none =>
    cases inPackage' : d.package? with
    | none => rfl
    | some p =>
      rw [inPackage, inPackage'] at same
      exact absurd (eq_empty_of_asciiLower same.symm) (package?_ne_empty inPackage')
  | some p =>
    cases inPackage' : d.package? with
    | none =>
      rw [inPackage, inPackage'] at same
      exact absurd (eq_empty_of_asciiLower same) (package?_ne_empty inPackage)
    | some q =>
      rw [inPackage, inPackage'] at same
      exact congrArg some same

end ClassName

namespace SourceUnit

variable {source : String} {u : SourceUnit} {d e : Declaration} {c n : ClassName}

/-- A declaration of a unit is called by a name outside the unit. -/
def Names (u : SourceUnit) (d : Declaration) (c : ClassName) : Prop :=
  ∃ n, u.qualified d.name = .ok n ∧ (n == c) = true

theorem names_of_qualified (h : u.qualified d.name = .ok n) : u.Names d n :=
  ⟨n, h, ClassName.beq_self n⟩

theorem Names.congr (h : u.Names d c) (same : (c == n) = true) : u.Names d n := by
  obtain ⟨k, qualified, named⟩ := h
  exact ⟨k, qualified, ClassName.beq_trans named same⟩

theorem Names.unique (h : u.Names d c) (h' : u.Names d n) : (c == n) = true := by
  obtain ⟨k, qualified, named⟩ := h
  obtain ⟨k', qualified', named'⟩ := h'
  obtain rfl := Except.ok.inj (qualified.symm.trans qualified')
  exact ClassName.beq_trans (ClassName.beq_symm named) named'

/-- The names of all that a unit declares. -/
def names (u : SourceUnit) : List ClassName :=
  u.declarations.filterMap fun d => (u.qualified d.name).toOption

theorem mem_names : n ∈ u.names ↔ ∃ d ∈ u.declarations, u.qualified d.name = .ok n := by
  have each : ∀ d ∈ u.declarations, (u.qualified d.name).toOption = some n ↔ u.qualified d.name = .ok n := by
    intro d _
    cases u.qualified d.name <;> simp [Except.toOption]
  rw [names, List.mem_filterMap]
  exact exists_congr fun d => and_congr_right (each d)

/-- What is declared in a text has a name outside, of the package of the unit and its own name. -/
theorem qualified_of_ofString? (h : ofString? source = .ok u) (hd : d ∈ u.declarations) :
    ∃ n, u.qualified d.name = .ok n ∧ n.short = d.name ∧ n.package? = u.package := by
  have isName := isName_of_ofString? h d hd
  have plain : '.' ∉ d.name.toList := fun dot => absurd (mem_of_isIdentifier isName.1 dot) (by decide)
  have valid : isDottedName d.name.toList = true := by
    rw [isDottedName, dotSegments_of_not_dot plain]
    simpa using isName.1
  cases package : u.package with
  | none =>
    refine ⟨⟨d.name, valid⟩, ?_, ?_, (ClassName.package?_eq_none_iff _).mpr plain⟩
    · rw [qualified, package]
      exact ClassName.parse_of_isDottedName valid
    · have whole := afterLastDot_suffix (s := "") plain
      rwa [String.empty_append, show afterLastDot "" = "" from rfl, String.empty_append] at whole
  | some p =>
    have dotted : IsDotted p := (heading_of_ofString? h).1 p package
    have here : isDottedName (p ++ "." ++ d.name).toList = true := (dotted.append isName.isDotted).isDottedName
    refine ⟨⟨p ++ "." ++ d.name, here⟩, ?_, ?_, ?_⟩
    · rw [qualified, package]
      simp only [ClassName.qualify, dotted.ne_empty, if_false]
      exact ClassName.parse_of_isDottedName here
    · have none : afterLastDot (p ++ ".") = "" := by simp [afterLastDot]
      rw [ClassName.short, afterLastDot_suffix plain, none, String.empty_append]
    · have before : beforeLastDot? (p ++ ".") = some p := by simp [beforeLastDot?]
      rw [ClassName.package?, beforeLastDot?_suffix plain, before]

/-- A declaration that a short name finds, in a unit of the package of a class. -/
theorem names_of_declaration? (h : ofString? source = .ok u) (found : u.declaration? c.short = some d)
    (same : asciiLower (u.package.getD "") = asciiLower (c.package?.getD "")) : u.Names d c := by
  obtain ⟨n, qualified, short, package⟩ := qualified_of_ofString? h (List.mem_of_find?_eq_some found)
  have shorts : asciiLower d.name = asciiLower c.short := by simpa using List.find?_some found
  refine ⟨n, qualified, ClassName.beq_of_parts (ClassName.package?_congr_of_getD ?_) ?_⟩
  · rw [package, same]
  · rw [short, shorts]

/-- A class finds its declaration by its short name, where no other is called as it is. -/
theorem declaration?_of_names (h : ofString? source = .ok u) (hd : d ∈ u.declarations) (named : u.Names d c)
    (only : ∀ e ∈ u.declarations, u.Names e c → e = d) : u.declaration? c.short = some d := by
  obtain ⟨n, qualified, short, package⟩ := qualified_of_ofString? h hd
  have same : (n == c) = true := (names_of_qualified qualified).unique named
  have shorts : asciiLower d.name = asciiLower c.short := short ▸ ClassName.short_congr same
  cases found : u.declaration? c.short with
  | none => exact absurd shorts (by simpa using List.find?_eq_none.mp found d hd)
  | some e =>
    have he : e ∈ u.declarations := List.mem_of_find?_eq_some found
    obtain ⟨k, qualified', short', package'⟩ := qualified_of_ofString? h he
    have shorts' : asciiLower e.name = asciiLower c.short := by simpa using List.find?_some found
    have equal : (k == n) = true := by
      refine ClassName.beq_of_parts ?_ ?_
      · rw [package, package']
      · rw [short, short', shorts, shorts']
    rw [only e he (((names_of_qualified qualified').congr equal).congr same)]

end SourceUnit

end AspectProxy
