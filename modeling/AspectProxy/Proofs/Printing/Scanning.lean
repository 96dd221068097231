import AspectProxy.Tree.Printer
import Mathlib.Data.List.TakeWhile

/-!
What the scanner sees at the front of a printed piece, whatever stands behind it: the piece as a whole, if the next
character is not one that makes more of it.
-/

namespace AspectProxy

/-- A run of characters of a kind ends where it ended before, if what is put behind begins with another kind. -/
theorem takeWhile_append_of_head {p : α → Bool} {l rest : List α} (h : ∀ a ∈ rest.head?, p a = false) :
    (l ++ rest).takeWhile p = l.takeWhile p := by
  induction l with
  | nil =>
    cases rest with
    | nil => rfl
    | cons a as => simp [h a rfl]
  | cons b bs ih => by_cases hb : p b = true <;> simp [hb, ih]

theorem drop_takeWhile_append (p : α → Bool) (l rest : List α) :
    (l ++ rest).drop (l.takeWhile p).length = l.drop (l.takeWhile p).length ++ rest :=
  List.drop_append_of_le_length (List.takeWhile_prefix p).length_le

/-- Characters that no name and no number goes on with; a point goes on with a number if a digit is behind it. -/
def EndsNumber (rest : List Char) : Prop :=
  (∀ c ∈ rest.head?, isNamePart c = false) ∧ ∀ c cs, rest = '.' :: c :: cs → c.isDigit = false

theorem isNamePart_of_isDigit {c : Char} (h : c.isDigit = true) : isNamePart c = true := by
  simp [isNamePart, Char.isAlphanum, h]

/-- A fraction begins with a point. -/
theorem Scan.fraction_of_ne {c : Char} (other : c ≠ '.') (cs : List Char) : Scan.fraction (c :: cs) = none := by
  unfold Scan.fraction
  split
  next same => exact absurd (List.cons.inj same).1 other
  next => rfl

namespace EndsNumber

variable {rest : List Char} (ends : EndsNumber rest)
include ends

theorem not_digit : ∀ c ∈ rest.head?, c.isDigit = false := by
  intro c hc
  have := ends.1 c hc
  cases digit : c.isDigit with
  | false => rfl
  | true => simp [isNamePart_of_isDigit digit] at this

theorem fraction_eq_none : Scan.fraction rest = none := by
  unfold Scan.fraction
  split
  case h_1 cs =>
    cases cs with
    | nil => rfl
    | cons c cs => simp [ends.2 c cs rfl]
  case h_2 => rfl

theorem power_eq_none : Scan.power rest = none := by
  cases rest with
  | nil => rfl
  | cons c cs =>
    have other : (decide (c = 'e') || decide (c = 'E')) = false := by
      have part := ends.1 c rfl
      by_cases he : c = 'e'
      · subst he
        exact absurd part (by decide)
      · by_cases hE : c = 'E'
        · subst hE
          exact absurd part (by decide)
        · simp [he, hE]
    simp [Scan.power, other]

theorem fraction_append (cs : List Char) : Scan.fraction (cs ++ rest) = Scan.fraction cs := by
  cases cs with
  | nil => exact ends.fraction_eq_none
  | cons c cs =>
    by_cases point : c = '.'
    · subst point
      simp only [List.cons_append, Scan.fraction, takeWhile_append_of_head ends.not_digit]
    · rw [List.cons_append, Scan.fraction_of_ne point, Scan.fraction_of_ne point]

end EndsNumber

namespace Scan

theorem length_of_fraction {cs ds : List Char} (h : fraction cs = some ds) : ds.length + 1 ≤ cs.length := by
  unfold fraction at h
  split at h
  case h_1 cs =>
    split at h
    case h_1 => cases h
    case h_2 =>
      obtain rfl := Option.some.inj h
      exact Nat.succ_le_succ (List.takeWhile_prefix _).length_le
  case h_2 => cases h

/-- A power of ten without a sign of its own. -/
theorem power_unsigned {c d : Char} (mark : (decide (c = 'e') || decide (c = 'E')) = true) (minus : d ≠ '-')
    (plus : d ≠ '+') (l : List Char) : power (c :: d :: l) =
      match (d :: l).takeWhile Char.isDigit with
      | [] => none
      | ds => some ((digitsValue ds : Int), 1 + 0 + ds.length) := by
  simp only [power, mark, if_true]
  split <;> simp_all

/-- A power of ten is read the same with more behind it, unless that begins with a digit. -/
theorem power_append {cs rest : List Char} {n : Int} {length : Nat} (ends : EndsNumber rest)
    (h : power cs = some (n, length)) : power (cs ++ rest) = some (n, length) := by
  cases cs with
  | nil => cases h
  | cons c cs =>
    by_cases mark : (decide (c = 'e') || decide (c = 'E')) = true
    · cases cs with
      | nil => simp [power, mark] at h
      | cons d ds =>
        rw [← h, List.cons_append, List.cons_append]
        by_cases minus : d = '-'
        · subst minus
          simp only [power, mark, if_true, takeWhile_append_of_head ends.not_digit]
        · by_cases plus : d = '+'
          · subst plus
            simp only [power, mark, if_true, takeWhile_append_of_head ends.not_digit]
          · rw [power_unsigned mark minus plus, power_unsigned mark minus plus, ← List.cons_append,
              takeWhile_append_of_head ends.not_digit]
    · simp [power, mark] at h

/-- What is left of a number behind its digits and its fraction is a power of ten or nothing, and in both cases it is
read the same with more behind it. -/
theorem power_tail_append {tail rest : List Char} (ends : EndsNumber rest) (whole : power tail = none → tail = []) :
    power (tail ++ rest) = power tail := by
  cases h : power tail with
  | none =>
    rw [whole h, List.nil_append]
    exact ends.power_eq_none
  | some found => exact power_append ends h

/-- A text that is read as one number is read so with more behind it. -/
theorem number_append {cs rest : List Char} {t : Token} (ends : EndsNumber rest)
    (h : number cs = .token t cs.length) : number (cs ++ rest) = .token t cs.length := by
  have lengths : (cs.takeWhile Char.isDigit).length + (cs.drop (cs.takeWhile Char.isDigit).length).length = cs.length := by
    have := (List.takeWhile_prefix (l := cs) Char.isDigit).length_le
    simp only [List.length_drop]
    omega
  unfold number at h ⊢
  dsimp only at h
  simp only [takeWhile_append_of_head ends.not_digit, drop_takeWhile_append, ends.fraction_append]
  generalize cs.drop (cs.takeWhile Char.isDigit).length = behind at h lengths ⊢
  generalize cs.takeWhile Char.isDigit = whole at h lengths ⊢
  cases decimals : fraction behind with
  | some ds =>
    simp only [decimals] at h ⊢
    have fits : ds.length + 1 ≤ behind.length := length_of_fraction decimals
    rw [List.drop_append_of_le_length fits, power_tail_append ends]
    · exact h
    · intro none
      simp only [none, Nat.add_one_ne_zero, ne_eq, not_false_eq_true, if_true, Scan.token.injEq] at h
      exact List.drop_eq_nil_of_le (by omega)
  | none =>
    simp only [decimals, List.drop_zero] at h ⊢
    rw [power_tail_append ends]
    · exact h
    · intro none
      simp only [none, ne_eq, not_true_eq_false, if_false] at h
      split at h
      · simp only [Scan.token.injEq] at h
        exact List.eq_nil_of_length_eq_zero (by omega)
      · cases h

end Scan

theorem digitsValue_decimalDigits (n : Nat) : digitsValue (decimalDigits n) = n := by
  have := Nat.ofDigitChars_ten_toDigits (n := n)
  rw [Nat.ofDigitChars_eq_foldl] at this
  simpa only [digitsValue, decimalDigits, Nat.mul_comm] using this

theorem isDigit_of_mem_decimalDigits {n : Nat} {c : Char} (h : c ∈ decimalDigits n) : c.isDigit = true :=
  Nat.isDigit_of_mem_toDigits (by decide) (by decide) h

namespace Scan

theorem number_decimalDigits {n : Nat} (h : n < Nat.pow 2 63) :
    number (decimalDigits n) = .token (.int (Int64.ofNat n)) (decimalDigits n).length := by
  have digits : (decimalDigits n).takeWhile Char.isDigit = decimalDigits n := by
    rw [List.takeWhile_eq_self_iff]
    exact fun c => isDigit_of_mem_decimalDigits
  unfold number
  simp only [digits, List.drop_length]
  simp [fraction, power, digitsValue_decimalDigits, h]

/-- A character as it stands in a literal is read as the character. -/
theorem stringRest_escapeChar (c : Char) (rest : List Char) :
    stringRest (escapeChar c ++ rest) = (stringRest rest).map fun (s, n) => (c :: s, n + (escapeChar c).length) := by
  unfold escapeChar
  split
  case h_6 _ notQuote notBackslash _ _ _ =>
    rw [List.singleton_append, stringRest.eq_9 _ _ notQuote]
    · rfl
    all_goals simp_all
  all_goals rfl

/-- The characters of a string, each as it stands in a literal, up to the closing quote. -/
theorem stringRest_escaped (cs rest : List Char) :
    stringRest (cs.flatMap escapeChar ++ '"' :: rest) = some (cs, (cs.flatMap escapeChar).length + 1) := by
  induction cs with
  | nil => simp [stringRest]
  | cons c cs ih =>
    rw [List.flatMap_cons, List.append_assoc, stringRest_escapeChar, ih]
    simp only [Option.map_some, List.length_append]
    congr 2
    omega

end Scan

/-- Whether a character right behind a symbol makes it another symbol or the beginning of a comment. -/
def Symbol.isExtendedBy : Symbol → Char → Bool
  | .colon, ':' | .minus, '>' | .equal, '=' | .bang, '=' | .less, '=' | .greater, '=' | .slash, '/' | .slash, '*' => true
  | _, _ => false

theorem Symbol.chars_eq_cons (s : Symbol) : ∃ c cs, s.chars = c :: cs := by
  cases s <;> exact ⟨_, _, rfl⟩

theorem Symbol.find?_chars (s : Symbol) {rest : List Char} (h : ∀ c ∈ rest.head?, s.isExtendedBy c = false) :
    (Symbol.all.find? fun t => t.chars.isPrefixOf (s.chars ++ rest)) = some s := by
  cases rest with
  | nil => cases s <;> decide
  | cons c cs =>
    have := h c rfl
    cases s <;> simp_all [Symbol.all, Symbol.chars, List.isPrefixOf]
    all_goals
      intro same
      subst same
      exact absurd this (by decide)

theorem not_isBlank {c : Char} (h : isBlank c = true → False) : isBlank c = false := by
  cases blank : isBlank c with
  | false => rfl
  | true => exact (h blank).elim

theorem isBlank_cases {c : Char} (h : isBlank c = true) : c = ' ' ∨ c = '\t' ∨ c = '\r' ∨ c = '\n' := by
  simpa [isBlank, or_assoc] using h

theorem isDigit_eq_false_of_isNameStart {c : Char} (h : isNameStart c = true) : c.isDigit = false := by
  have nine : '9'.val.toNat = 57 := rfl
  have upper : 'A'.val.toNat = 65 := rfl
  have lower : 'a'.val.toNat = 97 := rfl
  have letter : (decide ('A'.val ≤ c.val ∧ c.val ≤ 'Z'.val) || (decide ('a'.val ≤ c.val) && decide (c.val ≤ 'z'.val)) ||
      decide (c = '_')) = true := h
  simp only [Bool.or_eq_true, Bool.and_eq_true, decide_eq_true_eq, UInt32.le_iff_toNat_le] at letter
  simp only [Char.isDigit, Bool.and_eq_false_imp, decide_eq_true_eq, decide_eq_false_iff_not, UInt32.le_iff_toNat_le]
  rcases letter with letter | rfl
  · omega
  · decide

/-- The characters of names are ASCII letters, digits and the underscore. -/
theorem isNamePart_cases {c : Char} (h : isNamePart c = true) : (65 ≤ c.toNat ∧ c.toNat ≤ 90) ∨
    (97 ≤ c.toNat ∧ c.toNat ≤ 122) ∨ (48 ≤ c.toNat ∧ c.toNat ≤ 57) ∨ c = '_' := by
  have part : (decide ('A'.val ≤ c.val ∧ c.val ≤ 'Z'.val) || (decide ('a'.val ≤ c.val) && decide (c.val ≤ 'z'.val)) ||
      (decide ('0'.val ≤ c.val) && decide (c.val ≤ '9'.val)) || decide (c = '_')) = true := h
  simp only [Bool.or_eq_true, Bool.and_eq_true, decide_eq_true_eq, UInt32.le_iff_toNat_le, or_assoc] at part
  exact part

theorem isNamePart_of_isNameStart {c : Char} (h : isNameStart c = true) : isNamePart c = true := by
  simp only [isNameStart, isNamePart, Char.isAlphanum, Bool.or_eq_true] at h ⊢
  exact h.imp_left .inl

theorem mem_of_isIdentifier {cs : List Char} (h : isIdentifier cs = true) {c : Char} (hc : c ∈ cs) :
    isNamePart c = true := by
  cases cs with
  | nil => cases hc
  | cons d cs =>
    obtain ⟨start, parts⟩ := Bool.and_eq_true_iff.mp h
    rcases List.mem_cons.mp hc with rfl | hc
    · exact isNamePart_of_isNameStart start
    · exact List.all_eq_true.mp parts c hc

namespace Scan

theorem ofChars_eq_lexeme {c : Char} {cs : List Char} (noComment : c ≠ '/') (noBlank : isBlank c = false) :
    ofChars (c :: cs) = lexeme (c :: cs) := by
  rw [ofChars]
  · simp [noBlank]
  · exact fun _ same _ => noComment same
  · exact fun _ same _ => noComment same

theorem ofChars_blank {c : Char} (h : isBlank c = true) (cs : List Char) : ofChars (c :: cs) = .blank 1 := by
  have noComment : c ≠ '/' := by
    intro same
    subst same
    exact absurd h (by decide)
  rw [ofChars]
  · simp [h]
  · exact fun _ same _ => noComment same
  · exact fun _ same _ => noComment same

/-- The first character of a lexeme of a kind is neither blank nor a slash, if no such character is of that kind. -/
theorem ofChars_of_kind {kind : Char → Bool} (apart : kind '/' = false ∧ ([' ', '\t', '\r', '\n'].any kind) = false)
    {c : Char} (h : kind c = true) (cs : List Char) : ofChars (c :: cs) = lexeme (c :: cs) := by
  refine ofChars_eq_lexeme ?_ (not_isBlank fun blank => ?_)
  · intro same
    subst same
    simp [apart.1] at h
  · have := apart.2
    rcases isBlank_cases blank with rfl | rfl | rfl | rfl <;> simp_all

theorem ofChars_name {cs rest : List Char} (name : isIdentifier cs = true)
    (ends : ∀ c ∈ rest.head?, isNamePart c = false) :
    ofChars (cs ++ rest) = .token (.name (String.ofList cs)) cs.length := by
  cases cs with
  | nil => cases name
  | cons c cs =>
    obtain ⟨start, parts⟩ := Bool.and_eq_true_iff.mp name
    have whole : (c :: (cs ++ rest)).takeWhile isNamePart = c :: cs := by
      rw [← List.cons_append, takeWhile_append_of_head ends, List.takeWhile_eq_self_iff]
      intro d hd
      rcases List.mem_cons.mp hd with rfl | hd
      · exact isNamePart_of_isNameStart start
      · exact List.all_eq_true.mp parts d hd
    have noQuote : c ≠ '"' := by
      intro same
      subst same
      exact absurd start (by decide)
    rw [List.cons_append, ofChars_of_kind (by decide) start, lexeme]
    simp only [isDigit_eq_false_of_isNameStart start, Bool.false_eq_true, if_false, if_neg noQuote, start, if_true, whole]

theorem ofChars_number {cs rest : List Char} {t : Token} (ends : EndsNumber rest)
    (first : ∃ c ∈ cs.head?, c.isDigit = true) (h : number cs = .token t cs.length) :
    ofChars (cs ++ rest) = .token t cs.length := by
  cases cs with
  | nil => simp at first
  | cons c cs =>
    have digit : c.isDigit = true := by simpa using first
    rw [← number_append ends h, List.cons_append, ofChars_of_kind (by decide) digit, lexeme, if_pos digit]

theorem ofChars_quoted (s : String) (rest : List Char) :
    ofChars (quotedText s ++ rest) = .token (.str s) (quotedText s).length := by
  have text : quotedText s ++ rest = '"' :: (s.toList.flatMap escapeChar ++ '"' :: rest) := by
    simp [quotedText]
  rw [text, ofChars_eq_lexeme (by decide) (by decide), lexeme, if_neg (by decide), if_pos rfl, stringRest_escaped]
  simp [quotedText]

/-- No symbol begins with a character of another lexeme, and a slash before a comment is no symbol. -/
theorem ofChars_symbol (s : Symbol) {rest : List Char} (h : ∀ c ∈ rest.head?, s.isExtendedBy c = false) :
    ofChars (s.chars ++ rest) = .token (.symbol s) s.chars.length := by
  have found := Symbol.find?_chars s h
  obtain ⟨c, cs, spelt⟩ := s.chars_eq_cons
  obtain ⟨noDigit, noQuote, noName, noBlank⟩ :
      c.isDigit = false ∧ c ≠ '"' ∧ isNameStart c = false ∧ isBlank c = false := by
    cases s <;> obtain ⟨rfl, rfl⟩ := List.cons.inj spelt.symm <;> decide
  have scanned : ofChars (s.chars ++ rest) = lexeme (s.chars ++ rest) := by
    by_cases slash : s = .slash
    · subst slash
      cases rest with
      | nil => rfl
      | cons d ds =>
        have extended := h d rfl
        show ofChars ('/' :: d :: ds) = _
        rw [ofChars]
        · simp [isBlank, Symbol.chars]
        · rintro _ - same
          obtain ⟨rfl, -⟩ := List.cons.inj same
          exact absurd extended (by decide)
        · rintro _ - same
          obtain ⟨rfl, -⟩ := List.cons.inj same
          exact absurd extended (by decide)
    · have noComment : c ≠ '/' := by
        rintro rfl
        revert spelt slash
        cases s <;> simp [Symbol.chars]
      rw [spelt, List.cons_append]
      exact ofChars_eq_lexeme noComment noBlank
  rw [scanned]
  rw [spelt, List.cons_append] at found ⊢
  simp only [lexeme, noDigit, Bool.false_eq_true, if_false, noQuote, noName, found]
  rw [spelt]

end Scan

end AspectProxy
