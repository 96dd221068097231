import AspectProxy.ClassName
import AspectProxy.Proofs.Printing.Scanning
import Mathlib.Data.List.Chain

/-!
What the text of some pieces is read as. Each piece is read as its own tokens if no piece runs into the piece behind
it, which is a matter of two pieces at a time; only blank space of no width lets a third one touch, and it stands behind
a line end.
-/

namespace AspectProxy

/-- A text that is read as some tokens, wherever it begins. -/
def Lexes (cs : List Char) (tokens : List Token) : Prop :=
  ∀ p, ∃ items stop, TokenStream.ofChars? 0 p cs = .ok ⟨items, stop⟩ ∧ items.map (·.token) = tokens

theorem TokenStream.ofChars?_skip (front rest : List Char) (p : Position) :
    ofChars? front.length p (front ++ rest) = ofChars? 0 (p.after front) rest := by
  induction front generalizing p with
  | nil => rfl
  | cons c cs ih => exact ih (p.next c)

theorem TokenStream.ofChars?_blank {l rest : List Char} {p : Position} (nonempty : l ≠ [])
    (scanned : Scan.ofChars (l ++ rest) = .blank l.length) : ofChars? 0 p (l ++ rest) = ofChars? 0 (p.after l) rest := by
  cases l with
  | nil => exact absurd rfl nonempty
  | cons c l =>
    rw [List.cons_append] at scanned ⊢
    rw [ofChars?]
    simp only [scanned, List.length_cons, Nat.add_sub_cancel]
    exact ofChars?_skip l rest (p.next c)

theorem TokenStream.ofChars?_token {l rest : List Char} {p : Position} {t : Token} (nonempty : l ≠ [])
    (scanned : Scan.ofChars (l ++ rest) = .token t l.length) :
    ofChars? 0 p (l ++ rest) = (ofChars? 0 (p.after l) rest).map (cons ⟨t, p⟩) := by
  cases l with
  | nil => exact absurd rfl nonempty
  | cons c l =>
    rw [List.cons_append] at scanned ⊢
    rw [ofChars?]
    simp only [scanned, List.length_cons, Nat.add_sub_cancel]
    rw [ofChars?_skip l rest (p.next c)]
    rfl

/-- Puts tokens in front. -/
def TokenStream.prepend (front : List Located) (ts : TokenStream) : TokenStream :=
  ⟨front ++ ts.items, ts.stop⟩

/-- A text that is read as some tokens, which stand at the same places whatever of a kind comes behind the text. -/
def Gives (cs : List Char) (Ends : List Char → Prop) (tokens : List Token) : Prop :=
  ∀ p, ∃ items : List Located, items.map (·.token) = tokens ∧ ∀ rest, Ends rest →
    TokenStream.ofChars? 0 p (cs ++ rest) = (TokenStream.ofChars? 0 (p.after cs) rest).map (·.prepend items)

namespace Gives

variable {cs ds rest : List Char} {E F : List Char → Prop} {xs ys : List Token}

theorem nil : Gives [] E [] := by
  intro p
  refine ⟨[], rfl, fun rest _ => ?_⟩
  show TokenStream.ofChars? 0 p rest = (TokenStream.ofChars? 0 p rest).map _
  cases TokenStream.ofChars? 0 p rest <;> rfl

theorem blank {c : Char} (h : isBlank c = true) : Gives [c] E [] := by
  intro p
  refine ⟨[], rfl, fun rest _ => ?_⟩
  rw [TokenStream.ofChars?_blank (List.cons_ne_nil c []) (Scan.ofChars_blank h rest)]
  cases TokenStream.ofChars? 0 (p.after [c]) rest <;> rfl

theorem token {t : Token} (nonempty : cs ≠ []) (scanned : ∀ rest, E rest → Scan.ofChars (cs ++ rest) = .token t cs.length) :
    Gives cs E [t] :=
  fun p => ⟨[⟨t, p⟩], rfl, fun rest ends => TokenStream.ofChars?_token nonempty (scanned rest ends)⟩

theorem symbol (s : Symbol) : Gives s.chars (fun rest => ∀ c ∈ rest.head?, s.isExtendedBy c = false) [.symbol s] :=
  token (by cases s <;> nofun) fun _ => Scan.ofChars_symbol s

theorem mono (h : Gives cs E xs) (weaker : ∀ rest, F rest → E rest) : Gives cs F xs := by
  intro p
  obtain ⟨items, same, goes⟩ := h p
  exact ⟨items, same, fun rest ends => goes rest (weaker rest ends)⟩

theorem append (first : Gives cs E xs) (second : Gives ds F ys) (apart : ∀ rest, F rest → E (ds ++ rest)) :
    Gives (cs ++ ds) F (xs ++ ys) := by
  intro p
  obtain ⟨front, rfl, here⟩ := first p
  obtain ⟨back, rfl, there⟩ := second (p.after cs)
  have after : p.after (cs ++ ds) = (p.after cs).after ds := List.foldl_append
  refine ⟨front ++ back, List.map_append, fun rest ends => ?_⟩
  rw [List.append_assoc, here _ (apart rest ends), there rest ends, after]
  cases TokenStream.ofChars? 0 ((p.after cs).after ds) rest with
  | error f => rfl
  | ok ts => simp only [Except.map, TokenStream.prepend, List.append_assoc]

theorem lexes (h : Gives cs E xs) (ends : E rest) (next : Lexes rest ys) : Lexes (cs ++ rest) (xs ++ ys) := by
  intro p
  obtain ⟨front, rfl, goes⟩ := h p
  obtain ⟨items, stop, read, rfl⟩ := next (p.after cs)
  refine ⟨front ++ items, stop, ?_, List.map_append⟩
  rw [goes rest ends, read]
  rfl

end Gives

/-- The tokens of names joined by dots. -/
def dotTokens : List (List Char) → List Token
  | [] => []
  | [cs] => [.name (String.ofList cs)]
  | cs :: rest => .name (String.ofList cs) :: .symbol .dot :: dotTokens rest

theorem dotSegments_ne_nil (cs : List Char) : dotSegments cs ≠ [] := by
  unfold dotSegments
  split
  · nofun
  · nofun
  · split <;> nofun

/-- A text is its parts between its dots with the dots between them. -/
theorem dotSegments_cases {cs segment : List Char} {segments : List (List Char)}
    (h : dotSegments cs = segment :: segments) :
    segments = [] ∧ cs = segment ∨
      ∃ next more rest, segments = next :: more ∧ cs = segment ++ '.' :: rest ∧ dotSegments rest = segments := by
  induction cs generalizing segment with
  | nil =>
    cases h
    exact .inl ⟨rfl, rfl⟩
  | cons c cs ih =>
    by_cases dot : c = '.'
    · subst dot
      obtain ⟨rfl, here⟩ := List.cons.inj h
      cases segments with
      | nil => exact absurd here (dotSegments_ne_nil cs)
      | cons next more => exact .inr ⟨next, more, cs, rfl, rfl, here⟩
    · rw [dotSegments.eq_3 _ _ dot] at h
      cases split : dotSegments cs with
      | nil => exact absurd split (dotSegments_ne_nil cs)
      | cons s ss =>
        rw [split] at h
        obtain ⟨rfl, rfl⟩ := List.cons.inj h
        rcases ih split with ⟨none, whole⟩ | ⟨next, more, rest, some, text, here⟩
        · exact .inl ⟨none, by rw [whole]⟩
        · exact .inr ⟨next, more, rest, some, by rw [text]; rfl, here⟩

theorem Gives.dotted {segments : List (List Char)} {cs : List Char} (parts : dotSegments cs = segments)
    (valid : segments.all isIdentifier = true) :
    Gives cs (fun rest => ∀ c ∈ rest.head?, isNamePart c = false) (dotTokens segments) := by
  induction segments generalizing cs with
  | nil => exact absurd parts (dotSegments_ne_nil cs)
  | cons segment segments ih =>
    obtain ⟨name, valid⟩ := Bool.and_eq_true_iff.mp valid
    have nonempty : segment ≠ [] := by
      rintro rfl
      cases name
    have here := Gives.token nonempty fun rest => Scan.ofChars_name name
    rcases dotSegments_cases parts with ⟨rfl, rfl⟩ | ⟨_, more, behind, rfl, rfl, others⟩
    · exact here
    · have dot := (Gives.symbol .dot).append (ih others valid) fun _ _ => by simp [Symbol.isExtendedBy]
      apply here.append dot
      rintro rest - c hc
      obtain rfl : '.' = c := by simpa [Symbol.chars] using hc
      decide

theorem Symbol.isExtendedBy_eq_false (s : Symbol) {c : Char} (h : c ∉ [':', '>', '=', '/', '*']) :
    s.isExtendedBy c = false := by
  simp only [List.mem_cons, List.not_mem_nil, or_false, not_or] at h
  unfold Symbol.isExtendedBy
  split <;> simp_all

theorem Symbol.isExtendedBy_isNamePart (s : Symbol) {c : Char} (h : isNamePart c = true) : s.isExtendedBy c = false := by
  refine s.isExtendedBy_eq_false fun mark => ?_
  have apart : ([':', '>', '=', '/', '*'].all fun d => !isNamePart d) = true := by decide
  have other := List.all_eq_true.mp apart c mark
  simp [h] at other

namespace Piece

/-- The tokens that the text of a number is read as. -/
def numberTokens : List Char → List Token
  | '-' :: cs =>
    match Scan.lexeme cs with
    | .token t _ => [.symbol .minus, t]
    | _ => [.symbol .minus]
  | cs =>
    match Scan.lexeme cs with
    | .token t _ => [t]
    | _ => []

def tokens : Piece → List Token
  | word s => dotTokens (dotSegments s.toList)
  | number s => numberTokens s.toList
  | quoted s => [.str s]
  | symbol s => [.symbol s]
  | space _ => []
  | newline => []

@[simp]
theorem tokens_quoted (s : String) : (quoted s).tokens = [.str s] :=
  rfl

@[simp]
theorem tokens_symbol (s : Symbol) : (symbol s).tokens = [.symbol s] :=
  rfl

@[simp]
theorem tokens_space (width : Nat) : (space width).tokens = [] :=
  rfl

@[simp]
theorem tokens_newline : newline.tokens = [] :=
  rfl

/-- A text that is read as one token wherever neither a name nor a number goes on with it. -/
structure IsMagnitude (cs : List Char) (t : Token) : Prop where
  first : ∃ c ∈ cs.head?, isNamePart c = true
  lexeme : Scan.lexeme cs = .token t cs.length
  scanned : ∀ rest, EndsNumber rest → Scan.ofChars (cs ++ rest) = .token t cs.length

theorem IsMagnitude.nonempty {cs : List Char} {t : Token} (h : IsMagnitude cs t) : cs ≠ [] := by
  rintro rfl
  simpa using h.first

theorem IsMagnitude.isNamePart_head {cs : List Char} {t : Token} (h : IsMagnitude cs t) {rest : List Char} :
    ∀ c ∈ (cs ++ rest).head?, isNamePart c = true := by
  obtain ⟨c, first, part⟩ := h.first
  intro d hd
  cases cs with
  | nil => simp at first
  | cons x xs =>
    obtain rfl : x = c := by simpa using first
    obtain rfl : x = d := by simpa using hd
    exact part

theorem IsMagnitude.ofNumber {cs : List Char} {t : Token} (first : ∃ c ∈ cs.head?, c.isDigit = true)
    (scanned : Scan.number cs = .token t cs.length) : IsMagnitude cs t where
  first := first.imp fun _ h => ⟨h.1, isNamePart_of_isDigit h.2⟩
  lexeme := by
    cases cs with
    | nil => simp at first
    | cons c cs =>
      have digit : c.isDigit = true := by simpa using first
      rw [Scan.lexeme, if_pos digit, scanned]
  scanned := fun _ ends => Scan.ofChars_number ends first scanned

/-- The words that stand for floats that are no finite numbers. -/
theorem IsMagnitude.ofName {cs : List Char} (name : isIdentifier cs = true) :
    IsMagnitude cs (.name (String.ofList cs)) := by
  have scanned : ∀ rest, EndsNumber rest → Scan.ofChars (cs ++ rest) = .token (.name (String.ofList cs)) cs.length :=
    fun rest ends => Scan.ofChars_name name ends.1
  cases cs with
  | nil => cases name
  | cons c cs =>
    have start : isNameStart c = true := (Bool.and_eq_true_iff.mp name).1
    refine ⟨⟨c, rfl, isNamePart_of_isNameStart start⟩, ?_, scanned⟩
    have alone := scanned [] ⟨nofun, nofun⟩
    rwa [List.append_nil, Scan.ofChars_of_kind (by decide) start] at alone

/-- Words are names joined by dots, and numbers are numbers. -/
def Valid : Piece → Prop
  | word s => isDottedName s.toList = true
  | number s => ∃ cs t, (s.toList = cs ∨ s.toList = '-' :: cs) ∧ IsMagnitude cs t
  | _ => True

theorem numberTokens_magnitude {cs : List Char} {t : Token} (h : IsMagnitude cs t) : numberTokens cs = [t] := by
  rw [numberTokens.eq_2, h.lexeme]
  rintro ds rfl
  obtain ⟨c, head, part⟩ := h.first
  obtain rfl := Option.some.inj head
  exact absurd part (by decide)

theorem numberTokens_minus {cs : List Char} {t : Token} (h : IsMagnitude cs t) :
    numberTokens ('-' :: cs) = [.symbol .minus, t] := by
  rw [numberTokens, h.lexeme]

/-- Whether a piece may stand right behind another. -/
def joins : Piece → Piece → Bool
  | newline, _ => true
  | space _, _ => true
  | symbol .dot, q =>
    match q with
    | word _ => true
    | _ => false
  | _, space width => width ≠ 0
  | _, newline => true
  | quoted _, _ => true
  | symbol s, symbol t => t.chars.all fun c => !s.isExtendedBy c
  | symbol _, _ => true
  | _, word _ => false
  | _, number _ => false
  | _, _ => true

/-- Characters that a piece may stand in front of. -/
def EndsBefore : Piece → List Char → Prop
  | word _, rest => ∀ c ∈ rest.head?, isNamePart c = false
  | number _, rest => EndsNumber rest
  | symbol s, rest => ∀ c ∈ rest.head?, s.isExtendedBy c = false
  | _, _ => True

/-- A piece is read as its own tokens. -/
theorem gives {q : Piece} (valid : q.Valid) : Gives q.chars q.EndsBefore q.tokens := by
  cases q with
  | word s => exact .dotted rfl valid
  | number s =>
    obtain ⟨cs, t, text, magnitude⟩ := valid
    have read : Gives cs EndsNumber [t] := .token magnitude.nonempty magnitude.scanned
    show Gives s.toList EndsNumber (numberTokens s.toList)
    rcases text with plain | signed
    · rw [plain, numberTokens_magnitude magnitude]
      exact read
    · rw [signed, numberTokens_minus magnitude]
      apply (Gives.symbol .minus).append read
      rintro rest - c hc
      exact Symbol.isExtendedBy_isNamePart .minus (magnitude.isNamePart_head c hc)
  | quoted s => exact .token (List.cons_ne_nil _ _) fun rest _ => Scan.ofChars_quoted s rest
  | symbol s => exact .symbol s
  | space width =>
    clear valid
    induction width with
    | zero => exact .nil
    | succ width ih => exact (Gives.blank (E := fun _ => True) (by decide)).append ih fun _ _ => trivial
  | newline => exact .blank (by decide)

theorem isNameStart_of_word {s : String} (valid : (word s).Valid) {rest : List Char} :
    ∀ c ∈ (s.toList ++ rest).head?, isNameStart c = true := by
  intro c hc
  have parts : (dotSegments s.toList).all isIdentifier = true := valid
  cases split : dotSegments s.toList with
  | nil => exact absurd split (dotSegments_ne_nil _)
  | cons segment segments =>
    rw [split] at parts
    obtain ⟨name, -⟩ := Bool.and_eq_true_iff.mp parts
    cases segment with
    | nil => cases name
    | cons d ds =>
      have front : ∃ more, s.toList = d :: more := by
        rcases dotSegments_cases split with ⟨-, whole⟩ | ⟨_, _, behind, -, whole, -⟩
        · exact ⟨ds, whole⟩
        · exact ⟨ds ++ '.' :: behind, whole⟩
      obtain ⟨more, text⟩ := front
      rw [text] at hc
      obtain rfl : d = c := by simpa using hc
      exact (Bool.and_eq_true_iff.mp name).1

theorem head_space {width : Nat} (wide : width ≠ 0) {rest : List Char} :
    ∀ c ∈ ((space width).chars ++ rest).head?, c = ' ' := by
  cases width with
  | zero => exact absurd rfl wide
  | succ width =>
    intro c hc
    exact Eq.symm (by simpa [chars, List.replicate_succ] using hc)

/-- No name and no number goes on with a piece that may stand behind it. -/
theorem not_isNamePart_of_joins {p q : Piece} (solid : (∃ s, p = word s) ∨ ∃ s, p = number s) (h : p.joins q = true)
    {rest : List Char} : ∀ c ∈ (q.chars ++ rest).head?, isNamePart c = false := by
  have h : (word "").joins q = true := by
    rcases solid with ⟨s, rfl⟩ | ⟨s, rfl⟩ <;> cases q <;> exact h
  intro c hc
  cases q with
  | word s => cases h
  | number s => cases h
  | quoted s =>
    obtain rfl : '"' = c := by simpa [chars, quotedText] using hc
    decide
  | symbol t =>
    obtain ⟨d, ds, spelt⟩ := t.chars_eq_cons
    obtain rfl : d = c := by simpa [chars, spelt] using hc
    cases t <;> obtain ⟨rfl, rfl⟩ := List.cons.inj spelt.symm <;> decide
  | space width =>
    obtain rfl := head_space (by simpa [joins] using h) c hc
    decide
  | newline =>
    obtain rfl : '\n' = c := by simpa [chars] using hc
    decide

/-- No symbol goes on with a piece that may stand behind it. -/
theorem isExtendedBy_of_joins {s : Symbol} {q : Piece} (h : (symbol s).joins q = true) (valid : q.Valid)
    {rest : List Char} : ∀ c ∈ (q.chars ++ rest).head?, s.isExtendedBy c = false := by
  intro c hc
  cases q with
  | word t => exact s.isExtendedBy_isNamePart (isNamePart_of_isNameStart (isNameStart_of_word valid c hc))
  | number t =>
    obtain ⟨cs, t', plain | signed, magnitude⟩ := valid
    · exact s.isExtendedBy_isNamePart (magnitude.isNamePart_head c (by simpa only [chars, plain] using hc))
    · obtain rfl : '-' = c := by simpa [chars, signed] using hc
      exact s.isExtendedBy_eq_false (by decide)
  | quoted t =>
    obtain rfl : '"' = c := by simpa [chars, quotedText] using hc
    exact s.isExtendedBy_eq_false (by decide)
  | symbol t =>
    have apart : (t.chars.all fun c => !s.isExtendedBy c) = true := by
      unfold joins at h
      split at h <;> simp_all
    obtain ⟨d, ds, spelt⟩ := t.chars_eq_cons
    obtain rfl : d = c := by simpa [chars, spelt] using hc
    simpa using List.all_eq_true.mp apart d (by simp [spelt])
  | space width =>
    have wide : width ≠ 0 := by
      unfold joins at h
      split at h <;> simp_all
    obtain rfl := head_space wide c hc
    exact s.isExtendedBy_eq_false (by decide)
  | newline =>
    obtain rfl : '\n' = c := by simpa [chars] using hc
    exact s.isExtendedBy_eq_false (by decide)

/-- What starts with a dot behind a number starts with the dot itself, and a name is all that joins a dot. -/
theorem not_isDigit_of_joins_number {s : String} {q : Piece} {ps : List Piece}
    (chain : (number s :: q :: ps).IsChain (joins · · = true)) (valid : ∀ r ∈ q :: ps, r.Valid) {c : Char}
    {cs : List Char} (text : q.chars ++ ps.flatMap chars = '.' :: c :: cs) : c.isDigit = false := by
  obtain ⟨here, more⟩ := List.isChain_cons_cons.mp chain
  cases q with
  | word t => cases here
  | number t => cases here
  | quoted t => simp [chars, quotedText] at text
  | newline => simp [chars] at text
  | space width =>
    have first : '.' ∈ ((space width).chars ++ ps.flatMap chars).head? := by
      rw [text]
      rfl
    exact absurd (head_space (by simpa [joins] using here) '.' first) (by decide)
  | symbol t =>
    cases t <;> simp only [chars, Symbol.chars, List.cons_append, List.cons.injEq, Char.reduceEq, false_and,
      List.nil_append, true_and] at text
    cases ps with
    | nil => cases text
    | cons r ps =>
      obtain ⟨name, -⟩ := List.isChain_cons_cons.mp more
      cases r with
      | word t =>
        rw [List.flatMap_cons] at text
        have first : c ∈ (t.toList ++ ps.flatMap chars).head? := by
          show c ∈ ((word t).chars ++ ps.flatMap chars).head?
          rw [text]
          rfl
        exact isDigit_eq_false_of_isNameStart (isNameStart_of_word (valid (word t) (by simp)) c first)
      | _ => cases name

/-- What stands behind a piece in a list that holds together. -/
theorem endsBefore_of_joins {p q : Piece} {ps : List Piece} (chain : (p :: q :: ps).IsChain (joins · · = true))
    (valid : ∀ r ∈ q :: ps, r.Valid) : p.EndsBefore ((q :: ps).flatMap chars) := by
  have here : p.joins q = true := (List.isChain_cons_cons.mp chain).1
  rw [List.flatMap_cons]
  cases p with
  | word s => exact not_isNamePart_of_joins (.inl ⟨s, rfl⟩) here
  | number s =>
    exact ⟨not_isNamePart_of_joins (.inr ⟨s, rfl⟩) here, fun _ _ text => not_isDigit_of_joins_number chain valid text⟩
  | symbol s => exact isExtendedBy_of_joins here (valid q List.mem_cons_self)
  | quoted s => trivial
  | space width => trivial
  | newline => trivial

/-- Pieces are read each as its own tokens, at the same places whatever pieces they hold together with. -/
theorem gives_front {front : List Piece} (valid : ∀ q ∈ front, q.Valid) : Gives (front.flatMap chars) (fun rest =>
    ∃ ps : List Piece, (front ++ ps).IsChain (joins · · = true) ∧ (∀ q ∈ ps, q.Valid) ∧ rest = ps.flatMap chars)
    (front.flatMap tokens) := by
  induction front with
  | nil => exact .nil
  | cons p front ih =>
    obtain ⟨here, more⟩ := List.forall_mem_cons.mp valid
    apply (gives here).append ((ih more).mono fun _ => Exists.imp fun _ => And.imp_left List.IsChain.tail)
    rintro rest ⟨ps, chain, last, rfl⟩
    have whole : ∀ q ∈ front ++ ps, q.Valid := List.forall_mem_append.mpr ⟨more, last⟩
    rw [← List.flatMap_append]
    rw [List.cons_append] at chain
    cases joined : front ++ ps with
    | nil => cases p <;> simp [EndsBefore, EndsNumber]
    | cons q qs =>
      rw [joined] at chain whole
      exact endsBefore_of_joins chain whole

/-- Pieces that hold together are read each as its own tokens. -/
theorem lexes_of_chain {ps : List Piece} (chain : ps.IsChain (joins · · = true)) (valid : ∀ q ∈ ps, q.Valid) :
    Lexes (ps.flatMap chars) (ps.flatMap tokens) := by
  have nothing : Lexes [] [] := fun p => ⟨[], p, rfl, rfl⟩
  have whole := (gives_front valid).lexes ⟨[], by rwa [List.append_nil], nofun, rfl⟩ nothing
  rwa [List.flatMap_nil, List.append_nil, List.append_nil] at whole

end Piece

end AspectProxy
