import AspectProxy.Proofs.Printing.Scanning

/-!
The texts of floats. Whatever the digits of a decimal are and wherever its point lies, its source text is scanned as one
float literal: there is always a fraction or a power of ten behind the digits.
-/

namespace AspectProxy

/-- Digits, at least one. -/
structure IsDigits (ds : List Char) : Prop where
  nonempty : ds ≠ []
  digits : ∀ c ∈ ds, c.isDigit = true

namespace IsDigits

variable {ds rest : List Char}

theorem takeWhile (h : IsDigits ds) (ends : ∀ c ∈ rest.head?, c.isDigit = false) :
    (ds ++ rest).takeWhile Char.isDigit = ds := by
  rw [takeWhile_append_of_head ends, List.takeWhile_eq_self_iff]
  exact h.digits

theorem head (h : IsDigits ds) (rest : List Char) : ∃ c ∈ (ds ++ rest).head?, c.isDigit = true := by
  cases ds with
  | nil => exact absurd rfl h.nonempty
  | cons c cs => exact ⟨c, rfl, h.digits c List.mem_cons_self⟩

theorem append (h : IsDigits ds) (more : ∀ c ∈ rest, c.isDigit = true) : IsDigits (ds ++ rest) where
  nonempty := by simp [h.nonempty]
  digits := fun c hc => (List.mem_append.mp hc).elim (h.digits c) (more c)

theorem zero : IsDigits ['0'] :=
  ⟨nofun, List.forall_mem_singleton.mpr rfl⟩

theorem decimalDigits (n : Nat) : IsDigits (decimalDigits n) where
  nonempty := Nat.toDigits_ne_nil
  digits := fun _ => isDigit_of_mem_decimalDigits

theorem zeros_append (h : IsDigits ds) (n : Nat) : IsDigits (List.replicate n '0' ++ ds) where
  nonempty := by simp [h.nonempty]
  digits := by
    intro c hc
    rcases List.mem_append.mp hc with hc | hc
    · rw [List.eq_of_mem_replicate hc]
      rfl
    · exact h.digits c hc

theorem take (h : IsDigits ds) {n : Nat} (some : 0 < n) : IsDigits (ds.take n) where
  nonempty := by simp [h.nonempty]; omega
  digits := fun c hc => h.digits c (List.mem_of_mem_take hc)

theorem drop (h : IsDigits ds) {n : Nat} (more : n < ds.length) : IsDigits (ds.drop n) where
  nonempty := by simpa using more
  digits := fun c hc => h.digits c (List.mem_of_mem_drop hc)

end IsDigits

namespace Scan

variable {whole ds behind : List Char}

theorem fraction_point (h : IsDigits ds) (ends : ∀ c ∈ behind.head?, c.isDigit = false) :
    fraction ('.' :: (ds ++ behind)) = some ds := by
  rw [fraction, h.takeWhile ends]
  split
  · exact absurd rfl h.nonempty
  · rfl

/-- A mark, with a minus or without, and digits are a power of ten. -/
theorem power_mark (h : IsDigits ds) {sign : List Char} (signed : sign = [] ∨ sign = ['-']) :
    ∃ n, power ('e' :: (sign ++ ds)) = some (n, 1 + sign.length + ds.length) := by
  have digits : ds.takeWhile Char.isDigit = ds := List.takeWhile_eq_self_iff.mpr h.digits
  cases ds with
  | nil => exact absurd rfl h.nonempty
  | cons d ds =>
    rcases signed with rfl | rfl
    · have minus : d ≠ '-' := fun same => absurd (h.digits d List.mem_cons_self) (by subst same; decide)
      have plus : d ≠ '+' := fun same => absurd (h.digits d List.mem_cons_self) (by subst same; decide)
      rw [List.nil_append, power_unsigned (by decide) minus plus, digits]
      exact ⟨_, rfl⟩
    · exact ⟨-(digitsValue (d :: ds) : Int), by simp [power, digits]⟩

/-- What is read behind the digits of a number. -/
theorem number_digits (h : IsDigits whole) (ends : ∀ c ∈ behind.head?, c.isDigit = false) :
    number (whole ++ behind) =
      match fraction behind with
      | some ds =>
        match power (behind.drop (ds.length + 1)) with
        | some (p, length) =>
          .token (.float (Decimal.ofParts whole ds p).toFloat) (whole.length + (ds.length + 1) + length)
        | none => .token (.float (Decimal.ofParts whole ds 0).toFloat) (whole.length + (ds.length + 1))
      | none =>
        match power behind with
        | some (p, length) => .token (.float (Decimal.ofParts whole [] p).toFloat) (whole.length + length)
        | none =>
          if digitsValue whole < Nat.pow 2 63 then .token (.int (Int64.ofNat (digitsValue whole))) whole.length
          else .fault .numberOutOfRange := by
  unfold number
  simp only [h.takeWhile ends, List.drop_left]
  cases decimals : fraction behind with
  | some ds =>
    dsimp only
    cases power (behind.drop (ds.length + 1)) <;> simp
  | none =>
    simp only [List.drop_zero]
    cases power behind <;> simp

/-- A text that is scanned as one float literal as a whole. -/
def IsFloat (cs : List Char) : Prop :=
  (∃ c ∈ cs.head?, c.isDigit = true) ∧ ∃ y, number cs = .token (.float y) cs.length

theorem isFloat_fraction (h : IsDigits whole) (fractional : IsDigits ds) : IsFloat (whole ++ '.' :: ds) := by
  refine ⟨h.head _, ?_⟩
  have decimals : fraction ('.' :: (ds ++ [])) = some ds := fraction_point fractional nofun
  rw [List.append_nil] at decimals
  rw [number_digits h (by simp), decimals]
  simp [power]

theorem isFloat_power (h : IsDigits whole) (digits : IsDigits ds) {sign : List Char} (signed : sign = [] ∨ sign = ['-']) :
    IsFloat (whole ++ 'e' :: (sign ++ ds)) := by
  refine ⟨h.head _, ?_⟩
  obtain ⟨n, read⟩ := power_mark digits signed
  have none : fraction ('e' :: (sign ++ ds)) = none := rfl
  rw [number_digits h (by simp), none]
  dsimp only
  rw [read]
  refine ⟨(Decimal.ofParts whole [] n).toFloat, congrArg (Scan.token _) ?_⟩
  simp only [List.length_append, List.length_cons]
  omega

theorem isFloat_fraction_power {es : List Char} (h : IsDigits whole) (fractional : IsDigits ds) (digits : IsDigits es)
    {sign : List Char} (signed : sign = [] ∨ sign = ['-']) :
    IsFloat (whole ++ '.' :: (ds ++ 'e' :: (sign ++ es))) := by
  refine ⟨h.head _, ?_⟩
  obtain ⟨n, read⟩ := power_mark digits signed
  rw [number_digits h (by simp), fraction_point fractional (by simp)]
  dsimp only
  rw [List.drop_succ_cons, List.drop_left, read]
  refine ⟨(Decimal.ofParts whole ds n).toFloat, congrArg (Scan.token _) ?_⟩
  simp only [List.length_append, List.length_cons]
  omega

end Scan

namespace FloatStyle

open Scan

/-- The digits of a decimal with a point among them or in front of them are a float literal; so are they with a fraction
that is zero behind them. -/
theorem isFloat_positionalText {digits : List Char} (h : IsDigits digits) (point : Int) :
    IsFloat (source.positionalText digits point) := by
  have zero := IsDigits.zero
  unfold positionalText
  dsimp only
  split
  case isTrue => exact isFloat_fraction zero (h.zeros_append _)
  case isFalse positive =>
    split
    case isTrue inside =>
      exact isFloat_fraction (h.take (by omega)) (h.drop (by omega))
    case isFalse =>
      refine isFloat_fraction (h.append fun c hc => ?_) zero
      rw [List.eq_of_mem_replicate hc]
      rfl

theorem isFloat_exponentText {digits : List Char} (h : IsDigits digits) (point : Int) :
    IsFloat (source.exponentText digits point) := by
  have first : IsDigits (digits.take 1) := h.take Nat.one_pos
  have power := IsDigits.decimalDigits (point - 1).natAbs
  have signed : (if point - 1 < 0 then ['-'] else if source.plusSign then ['+'] else []) = [] ∨
      (if point - 1 < 0 then ['-'] else if source.plusSign then ['+'] else []) = ['-'] := by
    split
    · exact .inr rfl
    · exact .inl rfl
  unfold exponentText
  dsimp only
  split
  case isTrue => simpa using isFloat_power first power signed
  case isFalse more =>
    have rest : IsDigits (digits.drop 1) := h.drop (by omega)
    simpa using isFloat_fraction_power first rest power signed

/-- The text of every decimal is a float literal. -/
theorem isFloat_decimalText (d : Decimal) : IsFloat (source.decimalText d) := by
  unfold decimalText
  split
  case isTrue =>
    exact isFloat_fraction .zero .zero
  case isFalse =>
    have digits := IsDigits.decimalDigits d.digits
    dsimp only
    split
    · exact isFloat_positionalText digits _
    · exact isFloat_exponentText digits _

end FloatStyle

end AspectProxy
