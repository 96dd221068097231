import AspectProxy.Proofs.Reading.Lexemes

/-!
A text cut apart by a space. What the scanner takes off the front of a text it also takes off when all that stands behind
some later place is put away and a space stands there instead; the space goes on with no lexeme. Only two slashes that
were no comment can become one, since a comment looks for the end of its line.
-/

namespace AspectProxy

/-- A run of characters of a kind that ends before a place ends there too if the text goes on with another kind. -/
theorem takeWhile_cut {p : α → Bool} {s rest : List α} {a : α} (other : p a = false)
    (fits : ((s ++ rest).takeWhile p).length ≤ s.length) (more : List α) :
    (s ++ a :: more).takeWhile p = (s ++ rest).takeWhile p := by
  induction s with
  | nil => simp_all
  | cons b s ih =>
    rw [List.cons_append, List.cons_append, List.takeWhile_cons, List.takeWhile_cons]
    split
    next same =>
      rw [ih]
      simpa [same] using fits
    next => rfl

namespace Scan

variable {s rest : List Char} {t : Token} {n : Nat}

theorem digits_cut (fits : ((s ++ rest).takeWhile Char.isDigit).length ≤ s.length) (more : List Char) :
    (s ++ ' ' :: more).takeWhile Char.isDigit = (s ++ rest).takeWhile Char.isDigit :=
  takeWhile_cut (by decide) fits more

theorem fraction_cut (fits : dotted (s ++ rest) ≤ s.length) (more : List Char) :
    fraction (s ++ ' ' :: more) = fraction (s ++ rest) := by
  unfold dotted at fits
  cases s with
  | nil =>
    cases read : fraction rest with
    | none => exact read.symm
    | some ds => simp [read] at fits
  | cons c s =>
    by_cases point : c = '.'
    · subst point
      have same : (s ++ ' ' :: more).takeWhile Char.isDigit = (s ++ rest).takeWhile Char.isDigit := by
        apply digits_cut
        cases digits : (s ++ rest).takeWhile Char.isDigit with
        | nil => exact Nat.zero_le _
        | cons d ds =>
          simp only [List.cons_append, fraction, digits, Option.elim_some, List.length_cons] at fits ⊢
          omega
      simp only [List.cons_append, fraction, same]
    · rw [List.cons_append, List.cons_append, fraction_of_ne point, fraction_of_ne point]

theorem IsSign.append {sign digits : List Char} (signed : IsSign sign digits) (nonempty : sign ++ digits ≠ [])
    (more : List Char) : IsSign sign (digits ++ more) := by
  rcases signed with plus | minus | ⟨rfl, apart⟩
  · exact .inl plus
  · exact .inr (.inl minus)
  · cases digits with
    | nil => exact absurd rfl nonempty
    | cons d ds => exact .inr (.inr ⟨rfl, apart⟩)

/-- A power of ten has its mark and a digit at least. -/
theorem two_le_of_power {cs : List Char} {found : Int × Nat} (h : power cs = some found) : 2 ≤ found.2 := by
  cases cs with
  | nil => cases h
  | cons c cs =>
    by_cases mark : c = 'e' ∨ c = 'E'
    case neg => rw [power_unmarked mark] at h; cases h
    case pos =>
      obtain ⟨sign, digits, rfl, signed⟩ := exists_sign cs
      rw [power_signed mark signed] at h
      unfold powerOf at h
      split at h <;> cases h
      next some =>
        have := List.length_pos_iff.mpr some
        dsimp only
        omega

theorem power_cut (fits : (power (s ++ rest)).elim 0 (·.2) ≤ s.length) (more : List Char) :
    power (s ++ ' ' :: more) = power (s ++ rest) := by
  have none_of_short : s.length < 2 → power (s ++ rest) = none := by
    intro short
    cases read : power (s ++ rest) with
    | none => rfl
    | some found =>
      have := two_le_of_power read
      rw [read, Option.elim_some] at fits
      omega
  cases s with
  | nil =>
    rw [none_of_short (by simp)]
    rfl
  | cons c s =>
    by_cases mark : c = 'e' ∨ c = 'E'
    case neg => rw [List.cons_append, List.cons_append, power_unmarked mark, power_unmarked mark]
    case pos =>
      by_cases alone : s = []
      · subst alone
        have unsigned : IsSign [] (' ' :: more) := .inr (.inr ⟨rfl, by simp⟩)
        rw [none_of_short (by simp)]
        exact power_signed mark unsigned
      · obtain ⟨sign, digits, rfl, signed⟩ := exists_sign s
        have read : ∀ behind, power (c :: (sign ++ digits) ++ behind) =
            powerOf sign ((digits ++ behind).takeWhile Char.isDigit) := by
          intro behind
          rw [List.cons_append, List.append_assoc, power_signed mark (signed.append alone behind)]
        rw [read] at fits
        rw [read, read, digits_cut]
        unfold powerOf at fits
        split at fits
        next none => simp [none]
        next =>
          simp only [Option.elim_some, List.length_cons, List.length_append] at fits
          omega

/-- What stands behind the digits at the front of a text. -/
def behindDigits (cs : List Char) : List Char :=
  cs.drop (cs.takeWhile Char.isDigit).length

/-- The number with some digits, a fraction and a power of ten. -/
def numberOf (whole : List Char) (decimals : Option (List Char)) (raised : Option (Int × Nat)) : Scan :=
  match decimals, raised with
  | some ds, some (p, length) =>
    .token (.float (Decimal.ofParts whole ds p).toFloat) (whole.length + (ds.length + 1) + length)
  | some ds, none => .token (.float (Decimal.ofParts whole ds 0).toFloat) (whole.length + (ds.length + 1))
  | none, some (p, length) => .token (.float (Decimal.ofParts whole [] p).toFloat) (whole.length + length)
  | none, none =>
    if digitsValue whole < Nat.pow 2 63 then .token (.int (Int64.ofNat (digitsValue whole))) whole.length
    else .fault .numberOutOfRange

theorem number_eq (cs : List Char) : number cs = numberOf (cs.takeWhile Char.isDigit) (fraction (behindDigits cs))
    (power ((behindDigits cs).drop (dotted (behindDigits cs)))) := by
  unfold number dotted numberOf
  dsimp only
  rw [show cs.drop (cs.takeWhile Char.isDigit).length = behindDigits cs from rfl]
  cases fraction (behindDigits cs) with
  | some ds =>
    dsimp only [Option.elim_some]
    cases power ((behindDigits cs).drop (ds.length + 1)) <;> simp
  | none =>
    dsimp only [Option.elim_none]
    cases power ((behindDigits cs).drop 0) <;> simp

theorem length_of_numberOf {whole : List Char} {decimals : Option (List Char)} {raised : Option (Int × Nat)}
    (h : numberOf whole decimals raised = .token t n) :
    n = whole.length + decimals.elim 0 (·.length + 1) + raised.elim 0 (·.2) := by
  unfold numberOf at h
  split at h
  case h_4 =>
    split at h <;> cases h
    rfl
  all_goals
    cases h
    rfl

/-- A number that ends before a place is read the same if the text goes on with a space there. -/
theorem number_cut (h : number (s ++ rest) = .token t n) (fits : n ≤ s.length) (more : List Char) :
    number (s ++ ' ' :: more) = .token t n := by
  rw [number_eq] at h
  have size := length_of_numberOf h
  have digits : (s ++ ' ' :: more).takeWhile Char.isDigit = (s ++ rest).takeWhile Char.isDigit :=
    digits_cut (by omega) more
  -- The tails of both texts begin with the same characters, and so do they behind the fraction.
  obtain ⟨tail, whole⟩ : ∃ tail, tail = s.drop ((s ++ rest).takeWhile Char.isDigit).length := ⟨_, rfl⟩
  have before : behindDigits (s ++ rest) = tail ++ rest := by
    rw [behindDigits, List.drop_append_of_le_length (by omega), whole]
  have after : behindDigits (s ++ ' ' :: more) = tail ++ ' ' :: more := by
    rw [behindDigits, digits, List.drop_append_of_le_length (by omega), whole]
  have length : tail.length = s.length - ((s ++ rest).takeWhile Char.isDigit).length := by rw [whole, List.length_drop]
  rw [before] at h size
  have decimals : fraction (tail ++ ' ' :: more) = fraction (tail ++ rest) := fraction_cut (by unfold dotted; omega) more
  have dots : dotted (tail ++ ' ' :: more) = dotted (tail ++ rest) := by rw [dotted, dotted, decimals]
  have within : dotted (tail ++ rest) ≤ tail.length := by unfold dotted at *; omega
  have behind : ∀ l, (tail ++ l).drop (dotted (tail ++ rest)) = tail.drop (dotted (tail ++ rest)) ++ l :=
    fun l => List.drop_append_of_le_length within
  rw [behind] at h size
  have raised : power (tail.drop (dotted (tail ++ rest)) ++ ' ' :: more) =
      power (tail.drop (dotted (tail ++ rest)) ++ rest) := by
    apply power_cut
    rw [List.length_drop]
    unfold dotted at *
    omega
  rw [number_eq, after, digits, decimals, dots, behind, raised, h]

theorem stringRest_cut {value : List Char} (h : stringRest (s ++ rest) = some (value, n)) (fits : n ≤ s.length)
    (more : List Char) : stringRest (s ++ more) = some (value, n) := by
  obtain ⟨body, behind, whole, rfl, read⟩ := stringRest_sound h
  have front : body ++ ['"'] <+: s := by
    have within : body ++ ['"'] <+: s ++ rest := ⟨behind, by simp [whole]⟩
    exact List.prefix_of_prefix_length_le within (List.prefix_append s rest) (by simpa using fits)
  obtain ⟨left, rfl⟩ := front
  simpa using stringRest_complete read (left ++ more)

theorem symbol_cut {y : Symbol} (h : (Symbol.all.find? fun z => z.chars.isPrefixOf (s ++ rest)) = some y)
    (fits : y.chars.length ≤ s.length) (more : List Char) :
    (Symbol.all.find? fun z => z.chars.isPrefixOf (s ++ ' ' :: more)) = some y := by
  have matched : y.chars.isPrefixOf (s ++ rest) = true :=
    List.find?_some (p := fun z : Symbol => z.chars.isPrefixOf (s ++ rest)) h
  have front : y.chars <+: s :=
    List.prefix_of_prefix_length_le (List.isPrefixOf_iff_prefix.mp matched) (List.prefix_append s rest) fits
  match s with
  | [] => cases y <;> simp [Symbol.chars] at front
  | [c] =>
    have whole : y.chars = [c] := by
      apply front.eq_of_length_le
      show 1 ≤ y.chars.length
      cases y <;> decide
    rw [← whole]
    exact Symbol.find?_chars y fun d hd => by
      obtain rfl : ' ' = d := by simpa using hd
      exact y.isExtendedBy_eq_false (by decide)
  | c :: d :: s =>
    -- No symbol has a third character.
    have two : ∀ l, (fun z : Symbol => z.chars.isPrefixOf (c :: d :: l)) = fun z => z.chars.isPrefixOf [c, d] := by
      intro l
      funext z
      cases z <;> simp [Symbol.chars, List.isPrefixOf]
    rw [List.cons_append, List.cons_append, two] at h ⊢
    exact h

theorem lexeme_cut (h : lexeme (s ++ rest) = .token t n) (nonempty : s ≠ []) (fits : n ≤ s.length) (more : List Char) :
    lexeme (s ++ ' ' :: more) = .token t n := by
  cases s with
  | nil => exact absurd rfl nonempty
  | cons c s =>
    rw [List.cons_append, lexeme] at h ⊢
    by_cases digit : c.isDigit = true
    · rw [if_pos digit] at h ⊢
      exact number_cut (s := c :: s) h fits more
    rw [if_neg digit] at h ⊢
    by_cases quote : c = '"'
    · rw [if_pos quote] at h ⊢
      cases read : stringRest (s ++ rest) with
      | none => rw [read] at h; cases h
      | some found =>
        rw [read] at h
        cases h
        rw [stringRest_cut read (Nat.le_of_succ_le_succ fits)]
    rw [if_neg quote] at h ⊢
    by_cases start : isNameStart c = true
    · rw [if_pos start] at h ⊢
      cases h
      rw [← List.cons_append, ← List.cons_append, takeWhile_cut (by decide) fits]
    rw [if_neg start] at h ⊢
    cases found : Symbol.all.find? fun z => z.chars.isPrefixOf (c :: (s ++ rest)) with
    | none => rw [found] at h; cases h
    | some y =>
      rw [found] at h
      cases h
      have again := symbol_cut (s := c :: s) found fits more
      rw [List.cons_append] at again
      rw [again]

/-- A token is a lexeme. -/
theorem lexeme_of_token {cs : List Char} (h : ofChars cs = .token t n) : lexeme cs = .token t n := by
  unfold ofChars at h
  split at h
  case h_1 =>
    split at h
    · cases h
    · exact h
  case h_2 => split at h <;> cases h
  case h_3 =>
    split at h
    · cases h
    · exact h
  case h_4 => cases h

/-- What is scanned as a token before a place is scanned so if the text goes on with a space there; two slashes must not
become a comment by it. -/
theorem ofChars_cut (h : ofChars (s ++ rest) = .token t n) (nonempty : s ≠ []) (fits : n ≤ s.length) {more : List Char}
    (noComment : ∀ b, s = '/' :: '/' :: b → lineComment (b ++ ' ' :: more) = none) :
    ofChars (s ++ ' ' :: more) = .token t n := by
  rw [← lexeme_cut (lexeme_of_token h) nonempty fits more]
  cases s with
  | nil => exact absurd rfl nonempty
  | cons c s =>
    rw [List.cons_append] at h ⊢
    by_cases slash : c = '/'
    case neg =>
      apply ofChars_eq_lexeme slash (not_isBlank fun blank => ?_)
      rw [ofChars_blank blank] at h
      cases h
    case pos =>
      subst slash
      cases s with
      | nil => rfl
      | cons d b =>
        rw [List.cons_append] at h ⊢
        by_cases line : d = '/'
        · subst line
          simp only [ofChars, noComment b rfl]
        · by_cases block : d = '*'
          · subst block
            rw [ofChars] at h
            split at h <;> cases h
          · rw [ofChars]
            · rfl
            · exact fun _ _ same => line (List.cons.inj same).1
            · exact fun _ _ same => block (List.cons.inj same).1

end Scan

end AspectProxy
