import AspectProxy.Proofs.Printing.FloatTexts
import AspectProxy.Proofs.Reading.Yields

/-!
What the scanner takes off the front of a text. A lexeme is read from its own characters: cut off from all that stands
behind, they give the same token. What gives no token is blank space, a comment, or the beginning of a lexeme or comment
that is not whole.
-/

namespace AspectProxy

/-- The characters of a kind at the front of a text, and the rest, which begins with none. -/
theorem takeWhile_split (p : Char → Bool) (cs : List Char) : ∃ rest, cs = cs.takeWhile p ++ rest ∧
    ∀ c ∈ rest.head?, p c = false := by
  refine ⟨cs.dropWhile p, List.takeWhile_append_dropWhile.symm, ?_⟩
  intro c first
  cases behind : cs.dropWhile p with
  | nil => simp [behind] at first
  | cons d ds =>
    have stops := List.head_dropWhile_not p (l := cs) (by simp [behind])
    simp only [behind, List.head_cons] at stops
    simp only [behind, List.head?_cons, Option.mem_def, Option.some.injEq] at first
    rw [← first, stops]

/-- The digits at the front of a text that begins with one. -/
theorem IsDigits.ofFront {c : Char} (first : c.isDigit = true) (cs : List Char) :
    IsDigits ((c :: cs).takeWhile Char.isDigit) where
  nonempty := by simp [first]
  digits := fun _ => List.mem_takeWhile_imp

namespace Scan

/-- The character that a backslash before another stands for. -/
def escapeOf : Char → Option Char
  | '"' => some '"'
  | '\\' => some '\\'
  | 'n' => some '\n'
  | 'r' => some '\r'
  | 't' => some '\t'
  | _ => none

/-- What stands between the quotes of a literal, with its value. -/
inductive StringBody : List Char → List Char → Prop
  | nil : StringBody [] []
  | plain {c : Char} {body value : List Char} : c ≠ '"' → c ≠ '\\' → StringBody body value →
      StringBody (c :: body) (c :: value)
  | escape {e c : Char} {body value : List Char} : escapeOf e = some c → StringBody body value →
      StringBody ('\\' :: e :: body) (c :: value)

/-- Whether a line ends in front of a text: the text is empty or begins with a line feed, before which a carriage return
may stand. -/
def EndsLine (rest : List Char) : Prop :=
  rest = [] ∨ (∃ more, rest = '\n' :: more) ∨ ∃ more, rest = '\r' :: '\n' :: more

/-- Whether a text has a line end and the first is a carriage return alone. -/
def LoneReturn (cs : List Char) : Prop :=
  ∃ line more, cs = line ++ '\r' :: more ∧ '\n' ∉ line ∧ '\r' ∉ line ∧ ∀ c ∈ more.head?, c ≠ '\n'

/-- A piece that gives no token, in front of a text: a blank character or a comment. -/
inductive Gap : List Char → List Char → Prop
  | blank {c : Char} {rest : List Char} : isBlank c = true → Gap [c] rest
  | line {body rest : List Char} : '\n' ∉ body → '\r' ∉ body → EndsLine rest → Gap ('/' :: '/' :: body) rest
  | block {body rest : List Char} : ¬['*', '/'] <:+: body → Gap ('/' :: '*' :: (body ++ ['*', '/'])) rest

/-- A text at the front of which nothing can be read, and why. -/
inductive Unreadable : List Char → Fault → Prop
  | comment {rest : List Char} : ¬['*', '/'] <:+: rest → Unreadable ('/' :: '*' :: rest) .unterminatedComment
  | string {rest : List Char} : (∀ body value more, rest = body ++ '"' :: more → ¬StringBody body value) →
      Unreadable ('"' :: rest) .malformedString
  | number {ds rest : List Char} : IsDigits ds → 2 ^ 63 ≤ digitsValue ds → (∀ c ∈ rest.head?, c.isDigit = false) →
      fraction rest = none → power rest = none → Unreadable (ds ++ rest) .numberOutOfRange
  | character {c : Char} {rest : List Char} : c.isDigit = false → c ≠ '"' → isNameStart c = false → isBlank c = false →
      (∀ s : Symbol, ¬s.chars <+: c :: rest) → Unreadable (c :: rest) (.unexpectedCharacter c)

variable {cs rest : List Char} {t : Token} {n : Nat}

/-- A sign, or none where none stands. -/
def IsSign (sign rest : List Char) : Prop :=
  sign = ['+'] ∨ sign = ['-'] ∨ sign = [] ∧ ∀ c ∈ rest.head?, c ≠ '+' ∧ c ≠ '-'

theorem exists_sign (cs : List Char) : ∃ sign digits, cs = sign ++ digits ∧ IsSign sign digits := by
  cases cs with
  | nil => exact ⟨[], [], rfl, .inr (.inr ⟨rfl, by simp⟩)⟩
  | cons c cs =>
    by_cases plus : c = '+'
    · exact ⟨['+'], cs, by rw [plus]; rfl, .inl rfl⟩
    · by_cases minus : c = '-'
      · exact ⟨['-'], cs, by rw [minus]; rfl, .inr (.inl rfl)⟩
      · exact ⟨[], c :: cs, rfl, .inr (.inr ⟨rfl, by simp [plus, minus]⟩)⟩

/-- The value of a power of ten with a sign, or none, and digits, if there are any. -/
def powerOf (sign ds : List Char) : Option (Int × Nat) :=
  if ds = [] then none
  else some (if sign = ['-'] then -(digitsValue ds : Int) else digitsValue ds, 1 + sign.length + ds.length)

/-- Behind its mark a power of ten is a sign, or none, and the digits behind it. -/
theorem power_signed {c : Char} (mark : c = 'e' ∨ c = 'E') {sign digits : List Char} (signed : IsSign sign digits) :
    power (c :: (sign ++ digits)) = powerOf sign (digits.takeWhile Char.isDigit) := by
  have marked : (decide (c = 'e') || decide (c = 'E')) = true := by simpa using mark
  unfold powerOf
  rcases signed with rfl | rfl | ⟨rfl, unsigned⟩
  · simp only [List.cons_append, List.nil_append, power, marked, if_true]
    split
    next none => rw [if_pos none]
    next some => rw [if_neg some]; simp
  · simp only [List.cons_append, List.nil_append, power, marked, if_true]
    split
    next none => rw [if_pos none]
    next some => rw [if_neg some]; simp
  · cases digits with
    | nil => simp [power, marked]
    | cons d ds =>
      obtain ⟨plus, minus⟩ := unsigned d rfl
      rw [List.nil_append, power_unsigned marked minus plus]
      split
      next none => rw [if_pos none]
      next some => rw [if_neg some]; simp

theorem power_unmarked {c : Char} (other : ¬(c = 'e' ∨ c = 'E')) : power (c :: cs) = none := by
  simp [power, not_or.mp other]

/-- A power of ten, if there is one, is read from its own characters, which begin with its mark. -/
theorem power_alone (cs : List Char) : ∃ l rest, cs = l ++ rest ∧ power l = power cs ∧
    l.length = (power cs).elim 0 (·.2) ∧ ∀ c ∈ l.head?, c = 'e' ∨ c = 'E' := by
  cases h : power cs with
  | none => exact ⟨[], cs, rfl, rfl, rfl, nofun⟩
  | some found =>
    cases cs with
    | nil => cases h
    | cons c cs =>
      by_cases mark : c = 'e' ∨ c = 'E'
      case neg => rw [power_unmarked mark] at h; cases h
      case pos =>
        obtain ⟨sign, digits, rfl, signed⟩ := exists_sign cs
        obtain ⟨rest, whole, -⟩ := takeWhile_split Char.isDigit digits
        rw [power_signed mark signed] at h
        have alone : IsSign sign (digits.takeWhile Char.isDigit) := by
          refine signed.imp_right fun h => h.imp_right fun ⟨unsigned, apart⟩ => ⟨unsigned, fun d first => apart d ?_⟩
          rw [List.head?_takeWhile] at first
          exact (Option.mem_filter_iff.mp first).1
        refine ⟨c :: (sign ++ digits.takeWhile Char.isDigit), rest, ?_, ?_, ?_, ?_⟩
        · rw [List.cons_append, List.append_assoc, ← whole]
        · rw [power_signed mark alone, List.takeWhile_idem, h]
        · unfold powerOf at h
          split at h <;> cases h
          simp only [List.length_cons, List.length_append, Option.elim_some]
          omega
        · rintro _ ⟨⟩
          exact mark

/-- A fraction is a point and the digits behind it. -/
theorem fraction_alone {ds : List Char} (h : fraction cs = some ds) : IsDigits ds ∧ ∃ rest, cs = '.' :: ds ++ rest := by
  unfold fraction at h
  split at h
  case h_2 => cases h
  case h_1 cs =>
    split at h
    case h_1 => cases h
    case h_2 some =>
      obtain rfl := Option.some.inj h
      obtain ⟨rest, whole, -⟩ := takeWhile_split Char.isDigit cs
      exact ⟨⟨some, fun _ => List.mem_takeWhile_imp⟩, rest, by rw [List.cons_append, ← whole]⟩

theorem not_digit_of_mark {c : Char} (mark : c = 'e' ∨ c = 'E') : c.isDigit = false := by
  rcases mark with rfl | rfl <;> decide

/-- How many characters the fraction at the front of a text has, with its point. -/
def dotted (cs : List Char) : Nat :=
  (fraction cs).elim 0 (·.length + 1)

/-- What is read behind the digits of a number is read from its own characters. -/
theorem tail_alone (tail : List Char) : ∃ used rest, tail = used ++ rest ∧ (∀ c ∈ used.head?, c.isDigit = false) ∧
    fraction used = fraction tail ∧ power (used.drop (dotted tail)) = power (tail.drop (dotted tail)) ∧
      used.length = dotted tail + (power (tail.drop (dotted tail))).elim 0 (·.2) := by
  unfold dotted
  cases decimals : fraction tail with
  | none =>
    obtain ⟨used, rest, rfl, again, size, mark⟩ := power_alone tail
    refine ⟨used, rest, rfl, fun c hc => not_digit_of_mark (mark c hc), ?_, again, by simpa using size⟩
    unfold fraction
    split
    case h_1 => rcases mark '.' rfl with same | same <;> exact absurd same (by decide)
    case h_2 => rfl
  | some fs =>
    obtain ⟨digits, behind, rfl⟩ := fraction_alone decimals
    obtain ⟨used, rest, rfl, again, size, mark⟩ := power_alone behind
    have dropped : ∀ l : List Char, ('.' :: fs ++ l).drop (fs.length + 1) = l := fun l => List.drop_left' (by simp)
    refine ⟨'.' :: fs ++ used, rest, by simp, by simp, ?_, ?_, ?_⟩
    · exact fraction_point digits fun c hc => not_digit_of_mark (mark c hc)
    · rw [Option.elim_some, dropped, dropped, again]
    · rw [Option.elim_some, dropped, ← size, List.length_append]
      rfl

/-- A number is read from its own characters. -/
theorem number_alone {c : Char} (first : c.isDigit = true) (h : number (c :: cs) = .token t n) :
    ∃ l rest, c :: cs = l ++ rest ∧ l.length = n ∧ (∃ d ∈ l.head?, d.isDigit = true) ∧ number l = .token t n := by
  have digits := IsDigits.ofFront first cs
  obtain ⟨tail, whole, ends⟩ := takeWhile_split Char.isDigit (c :: cs)
  generalize (c :: cs).takeWhile Char.isDigit = ds at digits whole
  rw [whole] at h ⊢
  obtain ⟨used, rest, same, last, decimals, exponent, size⟩ := tail_alone tail
  refine ⟨ds ++ used, rest, by rw [same, List.append_assoc], ?_, digits.head _, ?_⟩
  · rw [number_digits digits ends] at h
    unfold dotted at size
    rw [List.length_append, size]
    cases read : fraction tail with
    | some fs =>
      simp only [read, Option.elim_some] at h ⊢
      cases raised : power (tail.drop (fs.length + 1)) with
      | none =>
        simp only [raised] at h
        cases h
        rfl
      | some found =>
        simp only [raised] at h
        cases h
        exact (Nat.add_assoc _ _ _).symm
    | none =>
      simp only [read, Option.elim_none, List.drop_zero] at h ⊢
      cases raised : power tail with
      | some found =>
        simp only [raised] at h
        cases h
        simp
      | none =>
        simp only [raised] at h
        split at h <;> cases h
        rfl
  · rw [← h, number_digits digits last, number_digits digits ends, decimals]
    unfold dotted at exponent
    cases read : fraction tail <;> simp only [read, Option.elim_some, Option.elim_none, List.drop_zero] at exponent ⊢ <;>
      rw [exponent]

/-- A number that cannot be read is an integer beyond the greatest, with no more to it. -/
theorem number_unreadable {c : Char} {f : Fault} (first : c.isDigit = true) (h : number (c :: cs) = .fault f) :
    Unreadable (c :: cs) f := by
  have digits := IsDigits.ofFront first cs
  obtain ⟨tail, whole, ends⟩ := takeWhile_split Char.isDigit (c :: cs)
  generalize (c :: cs).takeWhile Char.isDigit = ds at digits whole
  rw [whole] at h ⊢
  rw [number_digits digits ends] at h
  cases decimals : fraction tail with
  | some fs =>
    simp only [decimals] at h
    cases raised : power (tail.drop (fs.length + 1)) <;> simp only [raised] at h <;> cases h
  | none =>
    cases raised : power tail with
    | some found =>
      simp only [decimals, raised] at h
      cases h
    | none =>
      simp only [decimals, raised] at h
      split at h <;> cases h
      exact .number digits (Nat.not_lt.mp ‹_›) ends decimals raised

theorem stringRest_escape {e c : Char} (h : escapeOf e = some c) (cs : List Char) :
    stringRest ('\\' :: e :: cs) = (stringRest cs).map fun (s, n) => (c :: s, n + 2) := by
  unfold escapeOf at h
  split at h <;> cases h <;> rfl

theorem stringRest_no_escape {e : Char} (h : escapeOf e = none) (cs : List Char) : stringRest ('\\' :: e :: cs) = none := by
  unfold escapeOf at h
  split at h <;> simp_all [stringRest]

theorem stringRest_plain {c : Char} (quote : c ≠ '"') (backslash : c ≠ '\\') (cs : List Char) :
    stringRest (c :: cs) = (stringRest cs).map fun (s, n) => (c :: s, n + 1) := by
  rw [stringRest.eq_9 _ _ quote] <;> simp_all

theorem stringRest_complete {body value : List Char} (h : StringBody body value) (rest : List Char) :
    stringRest (body ++ '"' :: rest) = some (value, body.length + 1) := by
  induction h with
  | nil => rfl
  | plain quote backslash _ ih => simp [stringRest_plain quote backslash, ih]
  | escape stands _ ih => simp [stringRest_escape stands, ih]

theorem stringRest_sound {value : List Char} (h : stringRest cs = some (value, n)) :
    ∃ body rest, cs = body ++ '"' :: rest ∧ n = body.length + 1 ∧ StringBody body value := by
  induction size : cs.length using Nat.strongRecOn generalizing cs value n with
  | ind k ih =>
    subst size
    cases cs with
    | nil => cases h
    | cons c cs =>
      by_cases quote : c = '"'
      · subst quote
        cases h
        exact ⟨[], cs, rfl, rfl, .nil⟩
      · by_cases backslash : c = '\\'
        · subst backslash
          cases cs with
          | nil => cases h
          | cons e cs =>
            cases stands : escapeOf e with
            | none => rw [stringRest_no_escape stands] at h; cases h
            | some c =>
              rw [stringRest_escape stands] at h
              obtain ⟨⟨s, n⟩, behind, same⟩ := Option.map_eq_some_iff.mp h
              cases same
              obtain ⟨body, rest, rfl, rfl, read⟩ := ih _ (by simp only [List.length_cons]; omega) behind rfl
              exact ⟨'\\' :: e :: body, rest, rfl, rfl, .escape stands read⟩
        · rw [stringRest_plain quote backslash] at h
          obtain ⟨⟨s, n⟩, behind, same⟩ := Option.map_eq_some_iff.mp h
          cases same
          obtain ⟨body, rest, rfl, rfl, read⟩ := ih _ (by simp) behind rfl
          exact ⟨c :: body, rest, rfl, rfl, .plain quote backslash read⟩

/-- The end of a comment stands at the front of a text or behind its first character. -/
theorem no_end_cons {c : Char} (front : ∀ more, c = '*' → cs ≠ '/' :: more) (behind : ¬['*', '/'] <:+: cs) :
    ¬['*', '/'] <:+: c :: cs := by
  intro inside
  rcases List.infix_cons_iff.mp inside with ⟨more, whole⟩ | inside
  · simp only [List.cons_append, List.nil_append, List.cons.injEq] at whole
    exact front more whole.1.symm whole.2.symm
  · exact behind inside

theorem blockCommentEnd_sound (h : blockCommentEnd cs = some n) :
    ∃ body rest, cs = body ++ '*' :: '/' :: rest ∧ n = body.length + 2 ∧ ¬['*', '/'] <:+: body := by
  induction cs generalizing n with
  | nil => cases h
  | cons c cs ih =>
    unfold blockCommentEnd at h
    split at h
    case h_1 rest same =>
      cases h
      cases same
      exact ⟨[], rest, rfl, rfl, by simp⟩
    case h_2 other same =>
      obtain ⟨rfl, rfl⟩ := List.cons.inj same
      obtain ⟨k, behind, rfl⟩ := Option.map_eq_some_iff.mp h
      obtain ⟨body, rest, rfl, rfl, free⟩ := ih behind
      refine ⟨c :: body, rest, rfl, rfl, no_end_cons (fun more star slash => ?_) free⟩
      exact other (more ++ '*' :: '/' :: rest) star (by rw [slash]; rfl)
    case h_3 same => cases same

theorem blockCommentEnd_none (h : blockCommentEnd cs = none) : ¬['*', '/'] <:+: cs := by
  induction cs with
  | nil => simp
  | cons c cs ih =>
    unfold blockCommentEnd at h
    split at h
    case h_1 => cases h
    case h_2 other same =>
      obtain ⟨rfl, rfl⟩ := List.cons.inj same
      exact no_end_cons other (ih (Option.map_eq_none_iff.mp h))
    case h_3 same => cases same

theorem blockCommentEnd_complete {body : List Char} (free : ¬['*', '/'] <:+: body) (rest : List Char) :
    blockCommentEnd (body ++ '*' :: '/' :: rest) = some (body.length + 2) := by
  induction body with
  | nil => rfl
  | cons c body ih =>
    have behind := ih fun inside => free (List.infix_cons_iff.mpr (.inr inside))
    rw [List.cons_append, blockCommentEnd, behind]
    · rfl
    · intro more star same
      subst star
      cases body with
      | nil => simp at same
      | cons d body =>
        obtain ⟨rfl, -⟩ := List.cons.inj same
        exact free ⟨[], body, rfl⟩

/-- A line goes on to the first of its line ends. -/
theorem takeWhile_line {line rest : List Char} (feed : '\n' ∉ line) (carriage : '\r' ∉ line)
    (ends : ∀ c ∈ rest.head?, c = '\n' ∨ c = '\r') :
    (line ++ rest).takeWhile (fun c => c ≠ '\n' && c ≠ '\r') = line := by
  rw [takeWhile_append_of_head, List.takeWhile_eq_self_iff]
  · intro c hc
    have noFeed : c ≠ '\n' := fun same => feed (same ▸ hc)
    have noReturn : c ≠ '\r' := fun same => carriage (same ▸ hc)
    simp [noFeed, noReturn]
  · intro c first
    rcases ends c first with rfl | rfl <;> rfl

theorem lineComment_complete {body rest : List Char} (feed : '\n' ∉ body) (carriage : '\r' ∉ body)
    (ends : EndsLine rest) : lineComment (body ++ rest) = some (body.length + 2) := by
  have whole : (body ++ rest).takeWhile (fun c => c ≠ '\n' && c ≠ '\r') = body := by
    apply takeWhile_line feed carriage
    rcases ends with rfl | ⟨more, rfl⟩ | ⟨more, rfl⟩ <;> simp
  unfold lineComment
  simp only [whole, List.drop_left]
  rcases ends with rfl | ⟨more, rfl⟩ | ⟨more, rfl⟩ <;> rfl

/-- A text is free of line ends, or has a first one. -/
theorem line_cases (cs : List Char) : '\n' ∉ cs ∧ '\r' ∉ cs ∨
    ∃ line c more, cs = line ++ c :: more ∧ '\n' ∉ line ∧ '\r' ∉ line ∧ (c = '\n' ∨ c = '\r') := by
  obtain ⟨rest, whole, stops⟩ := takeWhile_split (fun c => c ≠ '\n' && c ≠ '\r') cs
  have inside : ∀ c ∈ cs.takeWhile (fun c => c ≠ '\n' && c ≠ '\r'), c ≠ '\n' ∧ c ≠ '\r' := fun c hc => by
    simpa using List.mem_takeWhile_imp hc
  generalize cs.takeWhile (fun c => c ≠ '\n' && c ≠ '\r') = line at whole inside
  have feed : '\n' ∉ line := fun hc => (inside _ hc).1 rfl
  have carriage : '\r' ∉ line := fun hc => (inside _ hc).2 rfl
  cases rest with
  | nil =>
    rw [whole, List.append_nil]
    exact .inl ⟨feed, carriage⟩
  | cons c more =>
    have stop := stops c rfl
    simp only [Bool.and_eq_false_iff, decide_eq_false_iff_not, not_not] at stop
    exact .inr ⟨line, c, more, whole, feed, carriage, stop⟩

/-- A line that ends in a carriage return alone is no comment. -/
theorem lineComment_lone (h : LoneReturn cs) : lineComment cs = none := by
  obtain ⟨line, more, rfl, feed, carriage, alone⟩ := h
  have whole := @takeWhile_line line ('\r' :: more) feed carriage (by simp)
  unfold lineComment
  simp only [whole, List.drop_left]
  split
  next same =>
    obtain ⟨-, rfl⟩ := List.cons.inj same
    exact absurd rfl (alone '\n' rfl)
  next => rfl
  next other => exact absurd rfl (other more)

/-- Any other line is a comment up to its end. -/
theorem lineComment_cases (cs : List Char) : LoneReturn cs ∨ ∃ body rest, cs = body ++ rest ∧ '\n' ∉ body ∧ '\r' ∉ body ∧
    EndsLine rest := by
  rcases line_cases cs with ⟨feed, carriage⟩ | ⟨line, c, more, rfl, feed, carriage, rfl | rfl⟩
  · exact .inr ⟨cs, [], by simp, feed, carriage, .inl rfl⟩
  · exact .inr ⟨line, _, rfl, feed, carriage, .inr (.inl ⟨more, rfl⟩)⟩
  · by_cases alone : ∀ c ∈ more.head?, c ≠ '\n'
    · exact .inl ⟨line, more, rfl, feed, carriage, alone⟩
    · simp only [Classical.not_forall, not_not] at alone
      obtain ⟨c, first, rfl⟩ := alone
      obtain ⟨behind, rfl⟩ := List.head?_eq_some_iff.mp first
      exact .inr ⟨line, _, rfl, feed, carriage, .inr (.inr ⟨behind, rfl⟩)⟩

/-- Two slashes are no comment exactly if the first line end behind them is a carriage return alone. -/
theorem lineComment_eq_none_iff : lineComment cs = none ↔ LoneReturn cs := by
  refine ⟨fun none => ?_, lineComment_lone⟩
  rcases lineComment_cases cs with lone | ⟨body, rest, rfl, feed, carriage, ends⟩
  · exact lone
  · rw [lineComment_complete feed carriage ends] at none
    cases none

theorem lineComment_sound (h : lineComment cs = some n) :
    ∃ body rest, cs = body ++ rest ∧ n = body.length + 2 ∧ '\n' ∉ body ∧ '\r' ∉ body ∧ EndsLine rest := by
  rcases lineComment_cases cs with lone | ⟨body, rest, rfl, feed, carriage, ends⟩
  · rw [lineComment_lone lone] at h
    cases h
  · rw [lineComment_complete feed carriage ends] at h
    cases h
    exact ⟨body, rest, rfl, rfl, feed, carriage, ends⟩

/-- A gap is scanned as a whole. -/
theorem Gap.scanned (h : Gap l rest) : ofChars (l ++ rest) = .blank l.length := by
  cases h with
  | blank blank => exact ofChars_blank blank rest
  | line feed carriage ends =>
    simp only [List.cons_append, ofChars, lineComment_complete feed carriage ends]
    rfl
  | @block body _ free =>
    have whole : '/' :: '*' :: (body ++ ['*', '/']) ++ rest = '/' :: '*' :: (body ++ '*' :: '/' :: rest) := by simp
    rw [whole]
    simp only [ofChars, blockCommentEnd_complete free]
    simp

theorem Gap.nonempty (h : Gap l rest) : l ≠ [] := by
  cases h <;> nofun

/-- What the scanner may say of a text: that a gap is at its front, or a lexeme, which it also reads without the rest, or
that nothing can be read there. -/
inductive Front (cs : List Char) : Scan → Prop
  | gap {l rest : List Char} : cs = l ++ rest → l ≠ [] → Gap l rest → Front cs (.blank l.length)
  | lexeme {l rest : List Char} {t : Token} : cs = l ++ rest → l ≠ [] → ofChars l = .token t l.length →
      Front cs (.token t l.length)
  | fault {f : Fault} : Unreadable cs f → Front cs (.fault f)

theorem number_ne_blank : number cs ≠ .blank n := by
  unfold number
  intro h
  dsimp only at h
  repeat' split at h
  all_goals cases h

theorem front_number {c : Char} (digit : c.isDigit = true) : Front (c :: cs) (number (c :: cs)) := by
  cases h : number (c :: cs) with
  | blank k => exact absurd h number_ne_blank
  | token t n =>
    obtain ⟨l, rest, same, rfl, first, alone⟩ := number_alone digit h
    have nonempty : l ≠ [] := by
      rintro rfl
      simp at first
    apply Front.lexeme same nonempty
    have scanned : ofChars (l ++ []) = _ := ofChars_number ⟨nofun, nofun⟩ first alone
    rwa [List.append_nil] at scanned
  | fault f => exact .fault (number_unreadable digit h)

theorem front_string (cs : List Char) : Front ('"' :: cs) (match stringRest cs with
    | some (s, n) => .token (.str (String.ofList s)) (n + 1)
    | none => .fault .malformedString) := by
  have scans : ∀ l, ofChars ('"' :: l) = lexeme ('"' :: l) := fun l => ofChars_eq_lexeme (by decide) (by decide)
  cases h : stringRest cs with
  | none =>
    refine .fault (.string fun body value more same read => ?_)
    rw [same, stringRest_complete read] at h
    cases h
  | some found =>
    obtain ⟨value, n⟩ := found
    obtain ⟨body, rest, rfl, rfl, read⟩ := stringRest_sound h
    have whole : '"' :: (body ++ '"' :: rest) = '"' :: (body ++ ['"']) ++ rest := by simp
    have length : body.length + 1 + 1 = ('"' :: (body ++ ['"'])).length := by simp
    dsimp only
    rw [length]
    apply Front.lexeme whole nofun
    rw [scans, lexeme, if_neg (by decide), if_pos rfl, stringRest_complete read]
    rw [← length]

theorem front_name {c : Char} (start : isNameStart c = true) : Front (c :: cs)
    (.token (.name (String.ofList ((c :: cs).takeWhile isNamePart))) ((c :: cs).takeWhile isNamePart).length) := by
  obtain ⟨rest, whole, -⟩ := takeWhile_split isNamePart (c :: cs)
  have name : isIdentifier ((c :: cs).takeWhile isNamePart) = true := isIdentifier_takeWhile start cs
  apply Front.lexeme whole
  · intro none
    rw [none] at name
    cases name
  · have scanned : ofChars (_ ++ []) = _ := ofChars_name name nofun
    rwa [List.append_nil] at scanned

theorem Symbol.mem_all (s : Symbol) : s ∈ Symbol.all := by
  cases s <;> decide

theorem front_symbol {c : Char} (digit : c.isDigit = false) (quote : c ≠ '"') (start : isNameStart c = false)
    (noBlank : isBlank c = false) : Front (c :: cs) (match Symbol.all.find? fun s => s.chars.isPrefixOf (c :: cs) with
    | some s => .token (.symbol s) s.chars.length
    | none => .fault (.unexpectedCharacter c)) := by
  cases found : Symbol.all.find? fun s => s.chars.isPrefixOf (c :: cs) with
  | none =>
    refine .fault (.character digit quote start noBlank fun s front => ?_)
    exact List.find?_eq_none.mp found s (Symbol.mem_all s) (List.isPrefixOf_iff_prefix.mpr front)
  | some s =>
    have front := List.find?_some found
    obtain ⟨rest, whole⟩ := List.isPrefixOf_iff_prefix.mp front
    refine .lexeme whole.symm (by cases s <;> nofun) ?_
    have scanned : ofChars (s.chars ++ []) = _ := ofChars_symbol s nofun
    rwa [List.append_nil] at scanned

theorem front_lexeme {c : Char} (noBlank : isBlank c = false) : Front (c :: cs) (lexeme (c :: cs)) := by
  by_cases digit : c.isDigit = true
  · rw [lexeme, if_pos digit]
    exact front_number digit
  by_cases quote : c = '"'
  · subst quote
    exact front_string cs
  by_cases start : isNameStart c = true
  · rw [lexeme, if_neg digit, if_neg quote, if_pos start]
    exact front_name start
  · rw [lexeme, if_neg digit, if_neg quote, if_neg start]
    exact front_symbol (Bool.eq_false_iff.mpr digit) quote (Bool.eq_false_iff.mpr start) noBlank

/-- What the scanner says of a text is so. -/
theorem front_ofChars (nonempty : cs ≠ []) : Front cs (ofChars cs) := by
  unfold ofChars
  split
  case h_1 rest =>
    cases ends : lineComment rest with
    | none => exact front_lexeme (by decide)
    | some n =>
      obtain ⟨body, rest, rfl, rfl, feed, carriage, line⟩ := lineComment_sound ends
      exact .gap (l := '/' :: '/' :: body) rfl nofun (.line feed carriage line)
  case h_2 rest =>
    cases ends : blockCommentEnd rest with
    | none => exact .fault (.comment (blockCommentEnd_none ends))
    | some n =>
      obtain ⟨body, rest, rfl, rfl, inside⟩ := blockCommentEnd_sound ends
      have whole : '/' :: '*' :: (body ++ '*' :: '/' :: rest) = '/' :: '*' :: (body ++ ['*', '/']) ++ rest := by simp
      have length : body.length + 2 + 2 = ('/' :: '*' :: (body ++ ['*', '/'])).length := by simp
      dsimp only
      rw [length]
      exact .gap whole nofun (.block inside)
  case h_3 c cs _ _ =>
    cases blank : isBlank c with
    | true => exact .gap (l := [c]) rfl nofun (.blank blank)
    | false => exact front_lexeme blank
  case h_4 => exact absurd rfl nonempty

end Scan

end AspectProxy
