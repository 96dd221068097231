import AspectProxy.Proofs.Printing.Pieces
import AspectProxy.Proofs.Reading.Lexemes

/-!
How the tokens of a text lie in it. A text that is read is its lexemes with gaps between them, and each token stands where
its lexeme begins; a text that is not read is so up to the place of the fault, where nothing can be read.
-/

namespace AspectProxy

namespace Position

variable {p q r : Position}

/-- The place behind a text: one line for each line feed and one column for each character since the last. -/
def ofPrefix (before : List Char) : Position :=
  ⟨before.count '\n' + 1, (before.reverse.takeWhile (· ≠ '\n')).length + 1⟩

theorem next_ofPrefix (before : List Char) (c : Char) : (ofPrefix before).next c = ofPrefix (before ++ [c]) := by
  unfold next ofPrefix
  by_cases feed : c = '\n'
  · simp [feed]
  · simp [feed]

theorem after_ofPrefix (before cs : List Char) : (ofPrefix before).after cs = ofPrefix (before ++ cs) := by
  induction cs generalizing before with
  | nil => rw [List.append_nil]; rfl
  | cons c cs ih =>
    show ((ofPrefix before).next c).after cs = _
    rw [next_ofPrefix, ih, List.append_assoc, List.singleton_append]

/-- The order of places in a text. -/
def Before (p q : Position) : Prop :=
  p.line < q.line ∨ p.line = q.line ∧ p.column < q.column

theorem Before.trans (first : p.Before q) (second : q.Before r) : p.Before r := by
  unfold Before at *
  omega

theorem before_next (p : Position) (c : Char) : p.Before (p.next c) := by
  unfold Before next
  split
  · exact .inl (Nat.lt_succ_self _)
  · exact .inr ⟨rfl, Nat.lt_succ_self _⟩

/-- The place behind a text comes before the place behind a longer one. -/
theorem ofPrefix_before (before : List Char) {l : List Char} (nonempty : l ≠ []) :
    (ofPrefix before).Before (ofPrefix (before ++ l)) := by
  induction l generalizing before with
  | nil => exact absurd rfl nonempty
  | cons c l ih =>
    have here := before_next (ofPrefix before) c
    rw [next_ofPrefix] at here
    rw [List.append_cons]
    cases l with
    | nil => rwa [List.append_nil]
    | cons d l => exact here.trans (ih (before ++ [c]) nofun)

end Position

/-- A text that is read as one token. -/
def IsLexeme (l : List Char) (t : Token) : Prop :=
  TokenStream.ofString? (String.ofList l) = .ok ⟨[⟨t, .start⟩], .ofPrefix l⟩

/-- Blank characters and comments one behind the other, in front of a text. -/
inductive Trivia (rest : List Char) : List Char → Prop
  | nil : Trivia rest []
  | gap {l t : List Char} : Scan.Gap l (t ++ rest) → Trivia rest t → Trivia rest (l ++ t)

/-- How a text between two others lies: as lexemes with trivia between them. Each lexeme alone is read as its token, and
its first character stands at the place of the token. -/
inductive LaidOut (rest : List Char) : (before : List Char) → List Located → (text : List Char) → Prop
  | done {before t : List Char} : Trivia rest t → LaidOut rest before [] t
  | token {before t l text : List Char} {token : Token} {items : List Located} : Trivia (l ++ text ++ rest) t →
      IsLexeme l token → LaidOut rest (before ++ t ++ l) items text →
      LaidOut rest before (⟨token, .ofPrefix (before ++ t)⟩ :: items) (t ++ l ++ text)

theorem IsLexeme.nonempty {l : List Char} {t : Token} (h : IsLexeme l t) : l ≠ [] := by
  rintro rfl
  cases h

namespace LaidOut

variable {rest before text l : List Char} {items : List Located}

theorem gap (here : Scan.Gap l (text ++ rest)) (behind : LaidOut rest (before ++ l) items text) :
    LaidOut rest before items (l ++ text) := by
  cases behind with
  | done trivia => exact .done (.gap here trivia)
  | @token _ t lexeme text token items trivia alone more =>
    have longer : Trivia (lexeme ++ text ++ rest) (l ++ t) := by
      apply Trivia.gap _ trivia
      simpa only [List.append_assoc] using here
    rw [List.append_assoc before] at more ⊢
    have laidOut : LaidOut rest before _ _ := .token longer alone more
    simpa only [List.append_assoc] using laidOut

theorem lexeme {t : Token} (alone : IsLexeme l t) (behind : LaidOut rest (before ++ l) items text) :
    LaidOut rest before (⟨t, .ofPrefix before⟩ :: items) (l ++ text) := by
  rw [← List.append_nil before] at behind
  have laidOut := LaidOut.token .nil alone behind
  rwa [List.append_nil] at laidOut

/-- A token stands at the place of a character of the text. -/
theorem position_eq (h : LaidOut rest before items text) :
    ∀ x ∈ items, ∃ front behind, text = front ++ behind ∧ behind ≠ [] ∧ x.position = .ofPrefix (before ++ front) := by
  induction h with
  | done => nofun
  | @token before t l text token items _ alone _ ih =>
    intro x hx
    rcases List.mem_cons.mp hx with rfl | hx
    · refine ⟨t, l ++ text, by rw [List.append_assoc], ?_, rfl⟩
      exact List.append_ne_nil_of_left_ne_nil alone.nonempty _
    · obtain ⟨front, behind, rfl, nonempty, place⟩ := ih x hx
      refine ⟨t ++ l ++ front, behind, by simp, nonempty, ?_⟩
      rw [place]
      simp

/-- Tokens stand one behind the other, and the end of the text behind them. -/
theorem ordered (h : LaidOut rest before items text) :
    (items.map Located.position ++ [Position.ofPrefix (before ++ text)]).Pairwise Position.Before := by
  induction h with
  | done => exact List.pairwise_singleton _ _
  | @token before t l text token items _ alone behind ih =>
    have later : ∀ more, (Position.ofPrefix (before ++ t)).Before (.ofPrefix (before ++ t ++ l ++ more)) := by
      intro more
      rw [List.append_assoc _ l]
      exact Position.ofPrefix_before _ (List.append_ne_nil_of_left_ne_nil alone.nonempty _)
    have whole : before ++ (t ++ l ++ text) = before ++ t ++ l ++ text := by simp
    rw [whole, List.map_cons, List.cons_append]
    refine List.pairwise_cons.mpr ⟨fun q hq => ?_, ih⟩
    rcases List.mem_append.mp hq with hq | hq
    · obtain ⟨x, hx, rfl⟩ := List.mem_map.mp hq
      obtain ⟨front, more, -, -, place⟩ := behind.position_eq x hx
      rw [place]
      exact later front
    · rw [List.mem_singleton.mp hq]
      exact later text

end LaidOut

namespace TokenStream

variable {cs l rest before text : List Char} {p : Position}

theorem ofChars?_fault {f : Fault} (nonempty : cs ≠ []) (scanned : Scan.ofChars cs = .fault f) :
    ofChars? 0 p cs = .error ⟨p, f⟩ := by
  cases cs with
  | nil => exact absurd rfl nonempty
  | cons c cs =>
    rw [ofChars?]
    simp only [scanned]

/-- What the scanner reads of the whole of a text is a lexeme. -/
theorem isLexeme_of_scanned {t : Token} (nonempty : l ≠ []) (scanned : Scan.ofChars l = .token t l.length) :
    IsLexeme l t := by
  have read : ofChars? 0 .start (l ++ []) = (ofChars? 0 (Position.start.after l) []).map (cons ⟨t, .start⟩) :=
    ofChars?_token nonempty (by rwa [List.append_nil])
  have place : Position.start.after l = .ofPrefix l := Position.after_ofPrefix [] l
  rw [List.append_nil, place] at read
  unfold IsLexeme ofString?
  rw [String.toList_ofList, read]
  rfl

/-- What reading a text behind another comes to. -/
def Faithful (before text : List Char) : Except SourceFault TokenStream → Prop
  | .ok ts => LaidOut [] before ts.items text ∧ ts.stop = .ofPrefix (before ++ text)
  | .error fault => ∃ items front rest, text = front ++ rest ∧ LaidOut rest before items front ∧
      fault.position = .ofPrefix (before ++ front) ∧ Scan.Unreadable rest fault.fault

theorem Faithful.gap {r : Except SourceFault TokenStream} (here : Scan.Gap l text)
    (behind : Faithful (before ++ l) text r) :
    Faithful before (l ++ text) r := by
  cases r with
  | ok ts =>
    obtain ⟨laidOut, stop⟩ := behind
    rw [← List.append_nil text] at here
    exact ⟨laidOut.gap here, by rw [stop, List.append_assoc]⟩
  | error fault =>
    obtain ⟨items, front, rest, rfl, laidOut, place, unreadable⟩ := behind
    refine ⟨items, l ++ front, rest, by rw [List.append_assoc], laidOut.gap here, ?_, unreadable⟩
    rw [place, List.append_assoc]

theorem Faithful.lexeme {r : Except SourceFault TokenStream} {t : Token} (alone : IsLexeme l t)
    (behind : Faithful (before ++ l) text r) : Faithful before (l ++ text) (r.map (cons ⟨t, .ofPrefix before⟩)) := by
  cases r with
  | ok ts =>
    obtain ⟨laidOut, stop⟩ := behind
    exact ⟨laidOut.lexeme alone, by rw [← List.append_assoc, ← stop]; rfl⟩
  | error fault =>
    obtain ⟨items, front, rest, rfl, laidOut, place, unreadable⟩ := behind
    refine ⟨_, l ++ front, rest, by rw [List.append_assoc], laidOut.lexeme alone, ?_, unreadable⟩
    rw [← List.append_assoc, ← place]

theorem length_lt_append (nonempty : l ≠ []) (rest : List Char) : rest.length < (l ++ rest).length := by
  rw [List.length_append]
  exact Nat.lt_add_of_pos_left (List.length_pos_iff.mpr nonempty)

theorem faithful_ofChars? (before text : List Char) : Faithful before text (ofChars? 0 (.ofPrefix before) text) := by
  -- The text behind the piece at the front is shorter, so the induction is on the length.
  induction size : text.length using Nat.strongRecOn generalizing before text with
  | ind n ih =>
    subst size
    by_cases empty : text = []
    · subst empty
      exact ⟨.done .nil, by rw [List.append_nil]⟩
    · generalize scanned : Scan.ofChars text = scan
      have front := Scan.front_ofChars empty
      rw [scanned] at front
      cases front with
      | @gap l rest whole nonempty here =>
        subst whole
        rw [ofChars?_blank nonempty scanned, Position.after_ofPrefix]
        exact (ih _ (length_lt_append nonempty rest) _ rest rfl).gap here
      | @lexeme l rest t whole nonempty alone =>
        subst whole
        rw [ofChars?_token nonempty scanned, Position.after_ofPrefix]
        exact (ih _ (length_lt_append nonempty rest) _ rest rfl).lexeme (isLexeme_of_scanned nonempty alone)
      | @fault f unreadable =>
        rw [ofChars?_fault empty scanned]
        exact ⟨[], [], text, rfl, .done .nil, by rw [List.append_nil], unreadable⟩

/-- A text that is read lies as its lexemes with trivia between them, from its beginning to its end: each lexeme alone is
read as its token, which has the place of its first character, and the end has the place behind the text; so the places
come one behind the other. Of a text that is not read, all up to the place of the fault lies so, and there begins a lexeme
or a comment that cannot be read. -/
theorem ofString?_layout (source : String) :
    match ofString? source with
    | .ok ts => LaidOut [] [] ts.items source.toList ∧ ts.stop = .ofPrefix source.toList ∧
        (ts.items.map Located.position ++ [ts.stop]).Pairwise Position.Before
    | .error fault => ∃ items front rest, source.toList = front ++ rest ∧ LaidOut rest [] items front ∧
        fault.position = .ofPrefix front ∧ Scan.Unreadable rest fault.fault := by
  have faithful := faithful_ofChars? [] source.toList
  have same : ofString? source = ofChars? 0 (.ofPrefix []) source.toList := rfl
  rw [same]
  cases read : ofChars? 0 (.ofPrefix []) source.toList with
  | error fault =>
    rw [read] at faithful
    exact faithful
  | ok ts =>
    rw [read] at faithful
    obtain ⟨laidOut, stop⟩ := faithful
    refine ⟨laidOut, stop, ?_⟩
    rw [stop]
    exact laidOut.ordered

end TokenStream

end AspectProxy
