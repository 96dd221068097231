import AspectProxy.ClassName

/-!
What a proxy is called: the name of its base class, an underscore and a suffix that tells the proxies of a class
apart. A suffix of digits makes a class name of every class name.
-/

namespace AspectProxy

/-- A text of name parts behind a dotted name makes its last segment longer. -/
theorem dotSegments_append (cs ds : List Char) (h : '.' ∉ ds) :
    ∃ front last, dotSegments cs = front ++ [last] ∧ dotSegments (cs ++ ds) = front ++ [last ++ ds] := by
  induction cs with
  | nil =>
    refine ⟨[], [], rfl, ?_⟩
    induction ds with
    | nil => rfl
    | cons d ds ih =>
      have hd : d ≠ '.' := fun e => h (e ▸ List.mem_cons_self)
      have step := ih fun m => h (List.mem_cons_of_mem _ m)
      simp only [List.nil_append] at step ⊢
      rw [dotSegments.eq_3 _ _ hd, step]
  | cons c cs ih =>
    obtain ⟨front, last, before, after⟩ := ih
    by_cases hc : c = '.'
    · subst hc
      exact ⟨[] :: front, last, by simp [dotSegments, before], by simp [dotSegments, after]⟩
    · cases front with
      | nil => exact ⟨[], c :: last, by simp [dotSegments.eq_3 _ _ hc, before], by simp [dotSegments.eq_3 _ _ hc, after]⟩
      | cons segment front =>
        exact ⟨(c :: segment) :: front, last, by simp [dotSegments.eq_3 _ _ hc, before],
          by simp [dotSegments.eq_3 _ _ hc, after]⟩

theorem isDottedName_append {cs ds : List Char} (h : isDottedName cs = true) (parts : ds.all isNamePart = true) :
    isDottedName (cs ++ ds) = true := by
  have noDot : '.' ∉ ds := fun m => by
    have := List.all_eq_true.mp parts _ m
    simp [isNamePart] at this
  obtain ⟨front, last, before, after⟩ := dotSegments_append cs ds noDot
  rw [isDottedName, before] at h
  rw [isDottedName, after]
  simp only [List.all_append, List.all_cons, List.all_nil, Bool.and_true, Bool.and_eq_true] at h ⊢
  refine ⟨h.1, ?_⟩
  cases last with
  | nil => simp [isIdentifier] at h
  | cons c last =>
    simp only [isIdentifier, List.cons_append, List.all_append, Bool.and_eq_true] at h ⊢
    exact ⟨h.2.1, h.2.2, parts⟩

/-- The names of one proxy. -/
structure Identity where
  base : ClassName
  suffix : String
  proxy : ClassName

namespace Identity

/-- The name of a class with a suffix. -/
def proxyText (base : ClassName) (suffix : String) : String :=
  base.text ++ "_" ++ suffix

/-- The names of a proxy with a chosen suffix. -/
def withSuffix (base : ClassName) (suffix : String) : Except InvalidClassName Identity :=
  (ClassName.parse (proxyText base suffix)).map fun proxy => ⟨base, suffix, proxy⟩

/-- A number with at least 32 digits. -/
def serialDigits (n : Nat) : List Char :=
  let digits := Nat.toDigits 10 n
  List.replicate (32 - digits.length) '0' ++ digits

def serialSuffix (n : Nat) : String :=
  String.ofList (serialDigits n)

theorem isNamePart_of_mem_serialDigits {n : Nat} {c : Char} (h : c ∈ serialDigits n) : isNamePart c = true := by
  rcases List.mem_append.mp h with h | h
  · rw [List.eq_of_mem_replicate h]
    decide
  · have := Nat.isDigit_of_mem_toDigits (by decide) (by decide) h
    simp [isNamePart, Char.isAlphanum, this]

theorem valid_serial (base : ClassName) (n : Nat) :
    isDottedName (proxyText base (serialSuffix n)).toList = true := by
  have text : (proxyText base (serialSuffix n)).toList =
      base.text.toList ++ '_' :: serialDigits n := by
    simp [proxyText, serialSuffix]
  rw [text]
  refine isDottedName_append base.valid (List.all_eq_true.mpr fun c hc => ?_)
  rcases List.mem_cons.mp hc with rfl | hc
  · decide
  · exact isNamePart_of_mem_serialDigits hc

/-- The names of the proxy of a number. -/
def numbered (base : ClassName) (n : Nat) : Identity :=
  ⟨base, serialSuffix n, ⟨proxyText base (serialSuffix n), valid_serial base n⟩⟩

end Identity

end AspectProxy
