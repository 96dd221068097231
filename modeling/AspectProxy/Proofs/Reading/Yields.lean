import AspectProxy.Proofs.Floats.Binary64
import AspectProxy.Proofs.Reading.Leads

/-!
Conditions on what a reader yields, for the tokens of a text whose floats are finite. A reader takes tokens off and adds
none, so a condition on all tokens is one on the tokens of every step.
-/

namespace AspectProxy

theorem neg_ne_minValue {n : Int64} (h : n ≠ Int64.minValue) : -n ≠ Int64.minValue := by
  intro same
  have back : n = -Int64.minValue := by rw [← same, Int64.neg_neg]
  exact h (back.trans (by decide))

/-- A name is an identifier, and an integer has a magnitude that can be written. -/
def Token.Lexical : Token → Prop
  | .name n => isIdentifier n.toList = true
  | .int n => n ≠ Int64.minValue
  | _ => True

/-- Not a number that overflowed. -/
def Token.Finite : Token → Prop
  | .float x => x.isFinite = true
  | _ => True

instance : DecidablePred Token.Finite
  | .float x => inferInstanceAs (Decidable (x.isFinite = true))
  | .name _ | .int _ | .str _ | .symbol _ => .isTrue trivial

/-- A condition on the float that a token may be. -/
def Token.FloatIn (N : Float → Prop) : Token → Prop
  | .float x => N x
  | _ => True

theorem Token.Finite.floatIn {t : Token} (h : t.Finite) : t.FloatIn (·.isFinite = true) := by
  cases t <;> exact h

/-- A token of a text whose floats meet a condition. -/
def Token.SoundWith (N : Float → Prop) (t : Token) : Prop :=
  t.Lexical ∧ t.FloatIn N

/-- No float literal of a text overflows. -/
def FiniteFloats (source : String) : Prop :=
  ∀ ts ∈ (TokenStream.ofString? source).toOption, ∀ t ∈ ts.tokens, t.Finite

instance : DecidablePred FiniteFloats :=
  fun source => inferInstanceAs
    (Decidable (∀ ts ∈ (TokenStream.ofString? source).toOption, ∀ t ∈ ts.tokens, t.Finite))

namespace Scan

variable {cs : List Char} {t : Token} {n : Nat}

theorem int_lexical {k : Nat} (h : k < Nat.pow 2 63) : (Token.int (.ofNat k)).Lexical := by
  intro same
  have value := congrArg Int64.toInt same
  rw [Int64.toInt_ofNat_of_lt h] at value
  exact absurd value (by simp)

theorem number_lexical (h : number cs = .token t n) : t.Lexical := by
  unfold number at h
  dsimp only at h
  split at h
  · cases h
    trivial
  · split at h
    all_goals
      split at h
      · cases h
        trivial
      · split at h
        · cases h
          exact int_lexical ‹_›
        · cases h

theorem isIdentifier_takeWhile {c : Char} (h : isNameStart c = true) (cs : List Char) :
    isIdentifier ((c :: cs).takeWhile isNamePart) = true := by
  rw [List.takeWhile_cons_of_pos (isNamePart_of_isNameStart h), isIdentifier, h, Bool.true_and]
  exact List.all_takeWhile

theorem lexeme_lexical (h : lexeme cs = .token t n) : t.Lexical := by
  cases cs with
  | nil => cases h
  | cons c rest =>
    unfold lexeme at h
    dsimp only at h
    split at h
    · exact number_lexical h
    · split at h
      · split at h <;> cases h
        trivial
      · split at h
        case isTrue start =>
          cases h
          show isIdentifier (String.ofList _).toList = true
          rw [String.toList_ofList]
          exact isIdentifier_takeWhile start rest
        case isFalse =>
          split at h <;> cases h
          trivial

theorem ofChars_lexical (h : ofChars cs = .token t n) : t.Lexical := by
  unfold ofChars at h
  split at h
  · split at h
    · cases h
    · exact lexeme_lexical h
  · split at h <;> cases h
  · split at h
    · cases h
    · exact lexeme_lexical h
  · cases h

end Scan

namespace TokenStream

theorem tokens_cons (t : Located) (ts : TokenStream) : (cons t ts).tokens = t.token :: ts.tokens :=
  rfl

theorem ofChars?_lexical {cs : List Char} {skip : Nat} {p : Position} {ts : TokenStream}
    (h : ofChars? skip p cs = .ok ts) : ∀ t ∈ ts.tokens, t.Lexical := by
  induction cs generalizing skip p ts with
  | nil =>
    cases h
    nofun
  | cons c cs ih =>
    cases skip with
    | succ skip => exact ih h
    | zero =>
      simp only [ofChars?] at h
      split at h
      · exact ih h
      case h_2 t n scanned =>
        cases rest : ofChars? (n - 1) (p.next c) cs with
        | error f =>
          rw [rest] at h
          cases h
        | ok ts' =>
          rw [rest] at h
          cases h
          rw [tokens_cons]
          exact List.forall_mem_cons.mpr ⟨Scan.ofChars_lexical scanned, ih rest⟩
      · cases h

/-- The tokens of a text are lexical. -/
theorem ofString?_lexical {source : String} {ts : TokenStream} (h : ofString? source = .ok ts) :
    ∀ t ∈ ts.tokens, t.Lexical :=
  ofChars?_lexical h

theorem ofString?_sound {source : String} {ts : TokenStream} (h : ofString? source = .ok ts)
    (finite : FiniteFloats source) : ∀ t ∈ ts.tokens, t.SoundWith (·.isFinite = true) :=
  fun t ht => ⟨ofString?_lexical h t ht, Token.Finite.floatIn (finite ts (by rw [h]; rfl) t ht)⟩

end TokenStream

namespace Parse

/-- What a reader makes of tokens that meet a condition meets another; the tokens left still meet the first. -/
def Yields (S : Token → Prop) (p : Parse α) (Q : α → Prop) : Prop :=
  ∀ (ts : TokenStream) (a : α) (ts' : TokenStream), (∀ t ∈ ts.tokens, S t) → p ts = .ok (a, ts') →
    Q a ∧ ∀ t ∈ ts'.tokens, S t

/-- Among the tokens that meet a condition, each name is an identifier. -/
def Identifying (S : Token → Prop) : Prop :=
  ∀ n, S (.name n) → isIdentifier n.toList = true

theorem identifying_lexical : Identifying Token.Lexical :=
  fun _ lexical => lexical

theorem identifying_sound {N : Float → Prop} : Identifying (Token.SoundWith N) :=
  fun _ sound => sound.1

variable {S : Token → Prop} {p q : Parse α} {f : α → Parse β} {P Q : α → Prop} {R : β → Prop}

namespace Yields

theorem pure {a : α} (h : Q a) : Yields S (Pure.pure a) Q := by
  rintro ts _ _ kept ⟨⟩
  exact ⟨h, kept⟩

theorem bind (first : Yields S p P) (next : ∀ a, P a → Yields S (f a) R) : Yields S (p >>= f) R := by
  intro ts b ts' kept run
  obtain ⟨a, ts₁, read, rest⟩ := of_bind run
  obtain ⟨here, kept⟩ := first ts a ts₁ kept read
  exact next a here ts₁ b ts' kept rest

/-- A step that the result does not depend on. -/
theorem skip (first : Yields S p P) (next : ∀ a, Yields S (f a) R) : Yields S (p >>= f) R :=
  first.bind fun a _ => next a

theorem imp (h : Yields S p P) (weaker : ∀ a, P a → Q a) : Yields S p Q := by
  intro ts a ts' kept run
  obtain ⟨here, kept⟩ := h ts a ts' kept run
  exact ⟨weaker a here, kept⟩

theorem map (h : Yields S p P) (g : α → β) (image : ∀ a, P a → R (g a)) : Yields S (g <$> p) R := by
  rw [map_eq_pure_bind]
  exact h.bind fun a here => .pure (image a here)

theorem error (h : ∀ ts, ∃ e, p ts = .error e) : Yields S p Q := by
  intro ts a ts' _ run
  obtain ⟨e, fails⟩ := h ts
  rw [fails] at run
  cases run

theorem unexpected (what : Expectation) : Yields S (unexpected what) Q :=
  .error fun _ => ⟨_, rfl⟩

theorem ite {c : Prop} [Decidable c] (yes : c → Yields S p Q) (no : ¬c → Yields S q Q) :
    Yields S (if c then p else q) Q := by
  split
  case isTrue holds => exact yes holds
  case isFalse fails => exact no fails

theorem bounded {p : Nat → Parse α} (h : ∀ fuel, Yields S (p fuel) Q) : Yields S (bounded p) Q :=
  fun ts a ts' kept run => h _ ts a ts' kept run

end Yields

theorem tail_kept {ts : TokenStream} (h : ∀ t ∈ ts.tokens, S t) : ∀ t ∈ ts.tail.tokens, S t := by
  intro t ht
  rw [ts.tokens_tail] at ht
  exact h t (List.mem_of_mem_tail ht)

theorem eat_yields (t : Token) : Yields S (eat t) fun _ => True := by
  intro ts a ts' kept run
  unfold eat at run
  split at run <;> cases run
  · exact ⟨trivial, tail_kept kept⟩
  · exact ⟨trivial, kept⟩

theorem peek_yields : Yields S peek fun next => ∀ t ∈ next, S t := by
  rintro ts _ _ kept ⟨⟩
  refine ⟨fun t ht => kept t ?_, kept⟩
  rw [ts.head?_eq] at ht
  exact List.mem_of_mem_head? ht

theorem advance_yields : Yields S advance fun _ => True := by
  rintro ts _ _ kept ⟨⟩
  exact ⟨trivial, tail_kept kept⟩

theorem next_yields (t : Token) : Yields S (next t) fun _ => True := by
  rintro ts _ _ kept ⟨⟩
  exact ⟨trivial, kept⟩

theorem get_yields : Yields S (get : Parse TokenStream) fun _ => True := by
  rintro ts _ _ kept ⟨⟩
  exact ⟨trivial, kept⟩

theorem expectSymbol_yields (s : Symbol) : Yields S (expectSymbol s) fun _ => True :=
  (eat_yields _).skip fun _ => .ite (fun _ => .pure trivial) fun _ => .unexpected _

theorem expectWord_yields (w : String) : Yields S (expectWord w) fun _ => True :=
  (eat_yields _).skip fun _ => .ite (fun _ => .pure trivial) fun _ => .unexpected _

/-- A choice on the next token. -/
theorem Yields.ifEat {t : Token} (yes : Yields S p Q) (no : Yields S q Q) :
    Yields S (do if ← eat t then p else q) Q :=
  (eat_yields t).skip fun _ => .ite (fun _ => yes) fun _ => no

theorem Yields.ifNext {t : Token} (yes : Yields S p Q) (no : Yields S q Q) :
    Yields S (do if ← next t then p else q) Q :=
  (next_yields t).skip fun _ => .ite (fun _ => yes) fun _ => no

theorem atStaticCall_yields : Yields S atStaticCall fun _ => True := by
  rintro ts _ _ kept ⟨⟩
  exact ⟨trivial, kept⟩

theorem binaryOperator_yields : Yields S binaryOperator fun _ => True := by
  refine peek_yields.skip fun next => ?_
  split <;> exact .pure trivial

theorem after?_yields {s : Symbol} (h : Yields S p Q) : Yields S (after? s p) fun o => ∀ a ∈ o, Q a :=
  .ifEat (h.bind fun a here => .pure (by simpa using here)) (.pure nofun)

section Names

variable (named : Identifying S)
include named

theorem identifierFor_yields (what : Expectation) : Yields S (identifierFor what) IsName := by
  refine peek_yields.bind fun next kept => ?_
  split
  case h_1 n =>
    exact .ite (fun _ => .unexpected _) fun free => advance_yields.skip fun _ => .pure ⟨named n (kept _ rfl), free⟩
  case h_2 => exact .unexpected _

theorem identifier_yields : Yields S identifier IsName :=
  identifierFor_yields named _

theorem dottedRest_yields (fuel : Nat) :
    Yields S (dottedRest fuel) fun s => ∃ ns, (∀ x ∈ ns, IsName x) ∧ s = dotted ns := by
  induction fuel with
  | zero => exact .pure ⟨[], nofun, rfl⟩
  | succ fuel ih =>
    refine .ifEat ((identifier_yields named).bind fun n name => ih.bind fun s rest => .pure ?_) (.pure ⟨[], nofun, rfl⟩)
    obtain ⟨ns, names, rfl⟩ := rest
    exact ⟨n :: ns, List.forall_mem_cons.mpr ⟨name, names⟩, rfl⟩

theorem dottedName_yields : Yields S dottedName IsDotted := by
  refine (identifier_yields named).bind fun n name => ?_
  refine (Yields.bounded (dottedRest_yields named)).bind fun s rest => .pure ?_
  obtain ⟨ns, names, rfl⟩ := rest
  exact ⟨n, ns, List.forall_mem_cons.mpr ⟨name, names⟩, rfl⟩

theorem typeRef_yields : Yields S typeRef TypeRef.WellFormed :=
  (dottedName_yields named).bind fun _ name => (eat_yields _).skip fun _ => .pure name

end Names

theorem commaItems_yields (h : Yields S p Q) (close : Symbol) (fuel : Nat) :
    Yields S (commaItems p close fuel) fun xs => ∀ x ∈ xs, Q x := by
  induction fuel with
  | zero => exact .unexpected _
  | succ fuel ih =>
    refine .ifEat (.pure nofun) (h.bind fun x here => .ifEat (ih.bind fun xs rest => .pure ?_) ?_)
    · exact List.forall_mem_cons.mpr ⟨here, rest⟩
    · exact (expectSymbol_yields _).skip fun _ => .pure (by simpa using here)

theorem bracedItems_yields (h : Yields S p Q) (fuel : Nat) : Yields S (bracedItems p fuel) fun xs => ∀ x ∈ xs, Q x := by
  induction fuel with
  | zero => exact .unexpected _
  | succ fuel ih =>
    have items : Yields S (do return (← p) :: (← bracedItems p fuel)) fun xs => ∀ x ∈ xs, Q x :=
      h.bind fun x here => ih.bind fun xs rest => .pure (List.forall_mem_cons.mpr ⟨here, rest⟩)
    refine .ifEat (.pure nofun) (peek_yields.skip fun _ => ?_)
    exact .ite (fun _ => .error fun _ => ⟨_, rfl⟩) fun _ => items

theorem braced_yields (h : Yields S p Q) : Yields S (braced p) fun xs => ∀ x ∈ xs, Q x :=
  (expectSymbol_yields _).skip fun _ => .bounded (bracedItems_yields h)

end Parse

end AspectProxy
