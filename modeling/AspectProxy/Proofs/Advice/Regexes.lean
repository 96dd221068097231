import AspectProxy.Text.Regex
import Mathlib.Data.List.Basic

/-!
What a library of regular expressions promises of the expressions that patterns of advice are written in. An expression
spells its parts, and the text is searched for a place where they match one after another. The standard library keeps the
promise: for every end of the text it knows whether the rest of the parts match there.
-/

namespace AspectProxy

/-- What an expression stands for. Nothing spells a part that begins with a star, so that a dot with a star behind it is
always a run. -/
inductive Spells : List Char → List RegexPart → Prop
  | nil : Spells [] []
  | start : Spells cs ps → Spells ('^' :: cs) (.start :: ps)
  | stop : Spells cs ps → Spells ('$' :: cs) (.stop :: ps)
  | dot : Spells cs ps → Spells ('.' :: cs) (.dot :: ps)
  | dots : Spells cs ps → Spells ('.' :: '*' :: cs) (.dots :: ps)
  | literal : isMetaCharacter c = false → Spells cs ps → Spells (c :: cs) (.literal c :: ps)
  | escaped : isMetaCharacter c = true → Spells cs ps → Spells ('\\' :: c :: cs) (.literal c :: ps)

/-- A match of the parts begins between what stands before and behind. -/
inductive MatchAt (alike : Char → Char → Prop) : List RegexPart → List Char → List Char → Prop
  | nil : MatchAt alike [] before behind
  | start : MatchAt alike ps [] behind → MatchAt alike (.start :: ps) [] behind
  | stop : MatchAt alike ps before [] → MatchAt alike (.stop :: ps) before []
  | dot : c ≠ '\n' → MatchAt alike ps (before ++ [c]) behind → MatchAt alike (.dot :: ps) before (c :: behind)
  | dots : '\n' ∉ run → MatchAt alike ps (before ++ run) behind → MatchAt alike (.dots :: ps) before (run ++ behind)
  | literal : alike d c → MatchAt alike ps (before ++ [c]) behind → MatchAt alike (.literal d :: ps) before (c :: behind)

/-- How an expression compares characters. -/
def SameUpTo (anyCase : Bool) (a b : Char) : Prop :=
  if anyCase then foldCase a = foldCase b else a = b

/-- A library that does what is documented of it: escaping takes each character for itself, and an expression that
compiles finds the texts with a match somewhere. -/
structure RegexLibrary.Documented (lib : RegexLibrary) : Prop where
  escape : ∀ text, lib.escape text = String.ofList (text.toList.flatMap escaped)
  isMatch : ∀ {pattern : String} {regex : Regex} {anyCase : Bool} {cs : List Char} {ps : List RegexPart},
    lib.compile pattern = .ok regex → pattern.toList = (if anyCase then "(?i)".toList else []) ++ cs → Spells cs ps →
    ∀ text, regex.isMatch text = true ↔
      ∃ before behind, text.toList = before ++ behind ∧ MatchAt (SameUpTo anyCase) ps before behind

section Parts

variable {alike : Char → Char → Prop} {ps : List RegexPart} {before behind : List Char} {c d : Char}

theorem matchAt_start : MatchAt alike (.start :: ps) before behind ↔ before = [] ∧ MatchAt alike ps before behind := by
  constructor
  · intro h
    cases h with
    | start h => exact ⟨rfl, h⟩
  · rintro ⟨rfl, h⟩
    exact .start h

theorem matchAt_stop : MatchAt alike (.stop :: ps) before behind ↔ behind = [] ∧ MatchAt alike ps before behind := by
  constructor
  · intro h
    cases h with
    | stop h => exact ⟨rfl, h⟩
  · rintro ⟨rfl, h⟩
    exact .stop h

theorem matchAt_dot_cons :
    MatchAt alike (.dot :: ps) before (c :: behind) ↔ c ≠ '\n' ∧ MatchAt alike ps (before ++ [c]) behind := by
  constructor
  · intro h
    cases h with
    | dot inLine h => exact ⟨inLine, h⟩
  · exact fun ⟨inLine, h⟩ => .dot inLine h

theorem matchAt_literal_cons :
    MatchAt alike (.literal d :: ps) before (c :: behind) ↔ alike d c ∧ MatchAt alike ps (before ++ [c]) behind := by
  constructor
  · intro h
    cases h with
    | literal same h => exact ⟨same, h⟩
  · exact fun ⟨same, h⟩ => .literal same h

theorem matchAt_dots : MatchAt alike (.dots :: ps) before behind ↔
    ∃ run rest, behind = run ++ rest ∧ '\n' ∉ run ∧ MatchAt alike ps (before ++ run) rest := by
  constructor
  · intro h
    cases h with
    | dots oneLine h => exact ⟨_, _, rfl, oneLine, h⟩
  · rintro ⟨run, rest, rfl, oneLine, h⟩
    exact .dots oneLine h

/-- A run takes up nothing, or the first character and more. -/
theorem matchAt_dots_cons : MatchAt alike (.dots :: ps) before (c :: behind) ↔
    MatchAt alike ps before (c :: behind) ∨ c ≠ '\n' ∧ MatchAt alike (.dots :: ps) (before ++ [c]) behind := by
  simp only [matchAt_dots]
  constructor
  · rintro ⟨_ | ⟨d, run⟩, rest, whole, oneLine, h⟩
    · rw [List.append_nil] at h
      exact .inl (whole ▸ h)
    · obtain ⟨rfl, rfl⟩ := List.cons.inj whole
      rw [List.mem_cons, not_or] at oneLine
      exact .inr ⟨Ne.symm oneLine.1, run, rest, rfl, oneLine.2, by simpa using h⟩
  · rintro (h | ⟨inLine, run, rest, rfl, oneLine, h⟩)
    · exact ⟨[], _, rfl, List.not_mem_nil, by simpa using h⟩
    · refine ⟨c :: run, rest, rfl, ?_, by simpa using h⟩
      rw [List.mem_cons, not_or]
      exact ⟨Ne.symm inLine, oneLine⟩

theorem matchAt_dots_nil : MatchAt alike (.dots :: ps) before [] ↔ MatchAt alike ps before [] := by
  simp [matchAt_dots, eq_comm]

end Parts

namespace RegexPart

/-- For each end of a text, the whole first, whether it has a property there. -/
inductive Tells (P : List Char → List Char → Prop) : List Bool → List Char → List Char → Prop
  | last : (b = true ↔ P before []) → Tells P [b] before []
  | next : (b = true ↔ P before (c :: behind)) → Tells P bs (before ++ [c]) behind → Tells P (b :: bs) before (c :: behind)

variable {P : List Char → List Char → Prop} {same : Char → Char → Bool} {ps : List RegexPart} {bs rest : List Bool}
  {before behind : List Char}

theorem Tells.head (h : Tells P bs before behind) : bs.head?.getD false = true ↔ P before behind := by
  cases h with
  | last told => exact told
  | next told => exact told

/-- Whether there is a place behind where the property holds. -/
theorem Tells.any (h : Tells P bs before behind) :
    bs.any id = true ↔ ∃ passed left, behind = passed ++ left ∧ P (before ++ passed) left := by
  induction h with
  | last told =>
    simp [told, eq_comm]
  | @next b before c behind bs told _ ih =>
    rw [List.any_cons, Bool.or_eq_true, ih, id, told]
    constructor
    · rintro (here | ⟨passed, left, rfl, there⟩)
      · exact ⟨[], _, rfl, by rwa [List.append_nil]⟩
      · exact ⟨c :: passed, left, rfl, by simpa using there⟩
    · rintro ⟨_ | ⟨d, passed⟩, left, whole, found⟩
      · rw [List.append_nil] at found
        exact .inl (whole ▸ found)
      · obtain ⟨rfl, rfl⟩ := List.cons.inj whole
        exact .inr ⟨passed, left, rfl, by simpa using found⟩

/-- The matches of parts, for each end of a text, from those of all but the first part. -/
theorem column_tells (p : RegexPart) {first : Bool} (opens : first = true ↔ before = [])
    (h : Tells (MatchAt (fun a b => same a b = true) ps) rest before behind) :
    Tells (MatchAt (fun a b => same a b = true) (p :: ps)) (column same p first behind rest) before behind := by
  induction h generalizing first with
  | last told =>
    cases p with
    | start => exact .last (by simp [matchAt_start, told, opens])
    | stop => exact .last (by simp [matchAt_stop, told])
    | dots => exact .last (by simp [matchAt_dots_nil, told])
    | dot => exact .last (iff_of_false Bool.false_ne_true nofun)
    | literal d => exact .last (iff_of_false Bool.false_ne_true nofun)
  | @next b before c behind bs told more ih =>
    have inside : false = true ↔ before ++ [c] = [] := by simp
    have below := ih inside
    have behind' := more.head
    cases p with
    | start => exact .next (by simp [matchAt_start, told, opens]) below
    | stop => exact .next (by simp [matchAt_stop]) below
    | dots => exact .next (by simp [matchAt_dots_cons, told, below.head]) below
    | dot => exact .next (by simp [matchAt_dot_cons, behind']) below
    | literal d => exact .next (by simp [matchAt_literal_cons, behind']) below

theorem columns_tell (same : Char → Char → Bool) (ps : List RegexPart) (text : List Char) :
    Tells (MatchAt (fun a b => same a b = true) ps) (columns same ps text) [] text := by
  induction ps with
  | nil =>
    have everywhere : ∀ before, Tells (MatchAt (fun a b => same a b = true) [])
        (List.replicate (text.length + 1) true) before text := by
      induction text with
      | nil => exact fun before => .last (iff_of_true rfl .nil)
      | cons c cs ih => exact fun before => .next (iff_of_true rfl .nil) (ih _)
    exact everywhere []
  | cons p ps ih => exact column_tells p (iff_of_true rfl rfl) ih

/-- What spells parts is read as these parts. -/
theorem parse_spells {cs : List Char} (h : Spells cs ps) : parse cs = some ps := by
  induction h with
  | nil => rfl
  | start _ ih => simp [parse, ih]
  | stop _ ih => simp [parse, ih]
  | @dot cs ps h ih =>
    have single : ∀ rest, cs ≠ '*' :: rest := by
      rintro rest rfl
      cases h with
      | literal plain => exact absurd plain (by decide)
    rw [parse.eq_4 '.' cs (fun rest _ => single rest) (fun _ _ slash => absurd slash (by decide))]
    simp [ih]
  | dots _ ih =>
    rw [parse, ih]
    rfl
  | @literal c cs ps plain _ ih =>
    have other : ∀ {d}, isMetaCharacter d = true → c ≠ d := by
      rintro d special rfl
      exact Bool.false_ne_true (plain.symm.trans special)
    rw [parse.eq_4 c cs (fun _ dot => absurd dot (other (by decide))) (fun _ _ slash => absurd slash (other (by decide))),
      if_neg (other (by decide)), if_neg (other (by decide)), if_neg (other (by decide)), plain, ih]
    rfl
  | escaped special _ ih => simp [parse, special, ih]

end RegexPart

namespace RegexLibrary

theorem flagged_eq {pattern : String} {anyCase : Bool} {cs : List Char} {ps : List RegexPart}
    (text : pattern.toList = (if anyCase then "(?i)".toList else []) ++ cs) (h : Spells cs ps) :
    flagged pattern = (anyCase, cs) := by
  rw [flagged, text]
  cases anyCase with
  | true => rfl
  | false =>
    -- an expression that spells parts does not begin with a bracket
    cases h with
    | literal plain =>
      split
      · rename_i opened
        obtain ⟨rfl, -⟩ := List.cons.inj opened
        exact absurd plain (by decide)
      · rfl
    | _ => rfl

/-- The standard library does what is documented. -/
theorem standard_documented : standard.Documented where
  escape := fun _ => rfl
  isMatch := by
    intro pattern regex anyCase cs ps compiled text spelt subject
    have parts := RegexPart.parse_spells spelt
    simp only [standard, flagged_eq text spelt, parts, Except.ok.injEq] at compiled
    rw [← compiled]
    have told := (RegexPart.columns_tell (if anyCase then alikeInCase else (· == ·)) ps subject.toList).any
    have same : SameUpTo anyCase = fun a b => (if anyCase then alikeInCase else (· == ·)) a b = true := by
      cases anyCase <;> funext a b <;> simp [SameUpTo, alikeInCase]
    rw [same]
    simpa using told

end RegexLibrary

end AspectProxy
