import AspectProxy.Proofs.Reading.Cutting
import AspectProxy.Proofs.Reading.Layout

/-!
Blank space and comments put between two tokens. The text in front of a token is scanned piece by piece; with a space,
blank characters and comments in front of the token it is scanned in the same pieces, and what is put in is skipped. The
scanner ends a line comment at a line feed only if no carriage return stands in the line before, so a comment put in must
have none, and no two slashes that were read as tokens for such a return may find the end of their line.
-/

namespace AspectProxy

/-- A blank character, a line comment up to its line feed, or a block comment, by what stands in it. -/
inductive Filling where
  | blank (c : Char)
  | line (body : List Char)
  | block (body : List Char)

namespace Filling

def chars : Filling → List Char
  | blank c => [c]
  | line body => '/' :: '/' :: (body ++ ['\n'])
  | block body => '/' :: '*' :: (body ++ ['*', '/'])

/-- Whether it is blank, or a comment that ends only where it should. -/
def IsWhole : Filling → Prop
  | blank c => isBlank c = true
  | line body => '\n' ∉ body
  | block body => ¬['*', '/'] <:+: body

/-- Whether no carriage return stands in a line comment but right before its line feed. -/
def ReturnsAtEnd : Filling → Prop
  | line body => '\r' ∉ body.dropLast
  | blank _ | block _ => True

instance : DecidablePred IsWhole
  | blank c => inferInstanceAs (Decidable (isBlank c = true))
  | line body => inferInstanceAs (Decidable ('\n' ∉ body))
  | block body => inferInstanceAs (Decidable ¬['*', '/'] <:+: body)

instance : DecidablePred ReturnsAtEnd
  | line body => inferInstanceAs (Decidable ('\r' ∉ body.dropLast))
  | blank _ | block _ => inferInstanceAs (Decidable True)

end Filling

namespace Scan

/-- Whether a text has a line end and the first ends a comment. -/
def BreaksLine (cs : List Char) : Prop :=
  ∃ line more, cs = line ++ more ∧ '\n' ∉ line ∧ '\r' ∉ line ∧ more ≠ [] ∧ EndsLine more

variable {l cs front rest more : List Char}

/-- A text at the front of which a token stands. -/
def StartsToken (cs : List Char) : Prop :=
  cs ≠ [] ∧ ∀ c ∈ cs.head?, isBlank c = false

theorem startsToken_of_scanned {t : Token} {n : Nat} (h : ofChars cs = .token t n) : StartsToken cs := by
  cases cs with
  | nil => cases h
  | cons c cs =>
    refine ⟨nofun, ?_⟩
    rintro _ ⟨⟩
    exact not_isBlank fun blank => by
      rw [ofChars_blank blank] at h
      cases h

theorem StartsToken.ne_cons (h : StartsToken rest) {c : Char} (blank : isBlank c = true) : rest ≠ c :: more := by
  rintro rfl
  rw [h.2 c rfl] at blank
  cases blank

/-- A gap in front of a token is one too if a space stands before the token; the end of a line is no token. -/
theorem Gap.cut (h : Gap l (front ++ rest)) (token : StartsToken rest) (more : List Char) :
    Gap l (front ++ ' ' :: more) := by
  cases h with
  | blank blank => exact .blank blank
  | block free => exact .block free
  | line feed carriage ends =>
    refine .line feed carriage ?_
    rcases ends with none | ⟨behind, whole⟩ | ⟨behind, whole⟩
    · exact absurd (List.append_eq_nil_iff.mp none).2 token.1
    · cases front with
      | nil => exact absurd whole (token.ne_cons (by decide))
      | cons c front =>
        obtain ⟨rfl, -⟩ := List.cons.inj whole
        exact .inr (.inl ⟨_, rfl⟩)
    · match front with
      | [] => exact absurd whole (token.ne_cons (by decide))
      | [c] => exact absurd (List.cons.inj whole).2 (token.ne_cons (by decide))
      | c :: d :: front =>
        obtain ⟨rfl, same⟩ := List.cons.inj whole
        obtain ⟨rfl, -⟩ := List.cons.inj same
        exact .inr (.inr ⟨_, rfl⟩)

/-- A carriage return that is the first line end stays so if a space and a text are put in behind, or in front of it if the
text breaks no line. -/
theorem LoneReturn.cut (h : LoneReturn (front ++ rest)) (token : StartsToken rest) {fill : List Char}
    (unbroken : '\n' ∉ front → '\r' ∉ front → ¬BreaksLine fill) : LoneReturn (front ++ ' ' :: (fill ++ rest)) := by
  obtain ⟨line, behind, whole, feed, carriage, alone⟩ := h
  have noFeed : ∀ c ∈ rest.head?, c ≠ '\n' := by
    rintro c first rfl
    exact absurd (token.2 _ first) (by decide)
  rcases List.append_eq_append_iff.mp whole with ⟨left, rfl, same⟩ | ⟨left, rfl, same⟩
  · simp only [List.mem_append, not_or] at feed carriage
    have kept := unbroken feed.1 carriage.1
    rcases line_cases fill with ⟨fillFeed, fillReturn⟩ | ⟨start, c, end', rfl, startFeed, startReturn, rfl | rfl⟩
    · refine ⟨front ++ ' ' :: (fill ++ left), behind, by simp [same], ?_, ?_, alone⟩
      · simp [feed, fillFeed]
      · simp [carriage, fillReturn]
    · exact absurd ⟨start, _, rfl, startFeed, startReturn, nofun, .inr (.inl ⟨_, rfl⟩)⟩ kept
    · refine ⟨front ++ ' ' :: start, end' ++ rest, by simp, by simp [feed, startFeed], by simp [carriage, startReturn], ?_⟩
      cases end' with
      | nil => exact noFeed
      | cons d end' =>
        rintro _ ⟨⟩ rfl
        exact kept ⟨start, _, rfl, startFeed, startReturn, nofun, .inr (.inr ⟨_, rfl⟩)⟩
  · cases left with
    | nil => exact absurd same.symm (token.ne_cons (by decide))
    | cons c left =>
      obtain ⟨rfl, rfl⟩ := List.cons.inj same
      refine ⟨line, left ++ ' ' :: (fill ++ rest), by simp, feed, carriage, ?_⟩
      cases left with
      | nil => simp
      | cons d left => exact alone

/-- Two slashes at the front of a token are no comment for a lone return in their line; the first is the token. -/
theorem slashes_of_scanned {t : Token} {n : Nat} (h : ofChars ('/' :: '/' :: cs) = .token t n) :
    t = .symbol .slash ∧ LoneReturn cs := by
  have read := lexeme_of_token h
  simp only [ofChars] at h
  split at h
  · cases h
  · next none =>
    cases read
    exact ⟨rfl, lineComment_eq_none_iff.mp none⟩

end Scan

namespace TokenStream

open Scan

variable {rest before front more text : List Char} {items : List Located} {p : Position}

/-- How a text in front of another is scanned: as gaps and tokens, one behind the other. -/
inductive Scans (rest : List Char) : (before : List Char) → List Located → (front : List Char) → Prop
  | done {before : List Char} : Scans rest before [] []
  | gap {before l front : List Char} {items : List Located} : Gap l (front ++ rest) → Scans rest (before ++ l) items front →
      Scans rest before items (l ++ front)
  | token {before l front : List Char} {t : Token} {items : List Located} : l ≠ [] →
      Scan.ofChars (l ++ (front ++ rest)) = .token t l.length → Scans rest (before ++ l) items front →
      Scans rest before (⟨t, .ofPrefix before⟩ :: items) (l ++ front)

/-- What is read of a text up to a token is scanned in front of the token. -/
theorem scans_of_mem {ts : TokenStream} {x : Located} (read : ofChars? 0 (.ofPrefix before) text = .ok ts)
    (here : x ∈ ts.items) : ∃ front rest items later n, text = front ++ rest ∧ x.position = .ofPrefix (before ++ front) ∧
      ts.items = items ++ x :: later ∧ Scans rest before items front ∧ Scan.ofChars rest = .token x.token n ∧
      ofChars? 0 x.position rest = .ok ⟨x :: later, ts.stop⟩ := by
  induction size : text.length using Nat.strongRecOn generalizing before text ts with
  | ind k ih =>
    subst size
    by_cases empty : text = []
    · subst empty
      cases read
      cases here
    · have shown := Scan.front_ofChars empty
      generalize scanned : Scan.ofChars text = scan at shown
      cases shown with
      | @gap l rest whole nonempty gap =>
        subst whole
        rw [ofChars?_blank nonempty scanned, Position.after_ofPrefix] at read
        obtain ⟨front, rest, items, later, n, rfl, place, split, scans, token, behind⟩ :=
          ih _ (length_lt_append nonempty rest) read here rfl
        refine ⟨l ++ front, rest, items, later, n, by simp, by rw [place, List.append_assoc], split, ?_, token, behind⟩
        exact .gap gap scans
      | @lexeme l rest t whole nonempty alone =>
        subst whole
        have whole := read
        rw [ofChars?_token nonempty scanned, Position.after_ofPrefix] at read
        cases behind : ofChars? 0 (.ofPrefix (before ++ l)) rest with
        | error f => rw [behind] at read; cases read
        | ok ts =>
          rw [behind] at read
          cases read
          rcases List.mem_cons.mp here with rfl | here
          · exact ⟨[], _, [], _, _, rfl, by rw [List.append_nil], rfl, .done, scanned, whole⟩
          · obtain ⟨front, rest, items, later, n, rfl, place, split, scans, token, behind⟩ :=
              ih _ (length_lt_append nonempty rest) behind here rfl
            refine ⟨l ++ front, rest, ⟨t, .ofPrefix before⟩ :: items, later, n, by simp, ?_, ?_, ?_, token, behind⟩
            · rw [place, List.append_assoc]
            · rw [cons, split, List.cons_append]
            · exact .token nonempty scanned scans
      | fault =>
        rw [ofChars?_fault empty scanned] at read
        cases read

/-- The tokens of a text that is scanned in front of another stand in front of those of the other. -/
theorem Scans.ofChars? (h : Scans rest before items front) : TokenStream.ofChars? 0 (.ofPrefix before) (front ++ rest) =
    (TokenStream.ofChars? 0 (.ofPrefix (before ++ front)) rest).map (·.prepend items) := by
  induction h with
  | @done before =>
    rw [List.append_nil, List.nil_append]
    cases TokenStream.ofChars? 0 (.ofPrefix before) rest <;> rfl
  | @gap before l front items gap _ ih =>
    rw [List.append_assoc, ofChars?_blank gap.nonempty gap.scanned, Position.after_ofPrefix, ih, List.append_assoc]
  | @token before l front t items nonempty scanned _ ih =>
    rw [List.append_assoc, ofChars?_token nonempty scanned, Position.after_ofPrefix, ih, List.append_assoc]
    cases TokenStream.ofChars? 0 (.ofPrefix (before ++ (l ++ front))) rest <;> rfl

/-- What is scanned in front of a token is scanned the same if a space stands before it, unless two slashes read as tokens
become a comment by what comes behind the space. -/
theorem Scans.cut (h : Scans rest before items front) (token : StartsToken rest)
    (slashes : ∀ a b, front = a ++ '/' :: '/' :: b → ⟨.symbol .slash, .ofPrefix (before ++ a)⟩ ∈ items →
      LoneReturn (b ++ rest) → LoneReturn (b ++ ' ' :: more)) : Scans (' ' :: more) before items front := by
  induction h with
  | done => exact .done
  | @gap before l front items gap _ ih =>
    refine .gap (gap.cut token more) (ih fun a b whole here => ?_)
    rw [List.append_assoc] at here
    exact slashes (l ++ a) b (by rw [whole, List.append_assoc]) here
  | @token before l front t items nonempty scanned _ ih =>
    refine .token nonempty ?_ (ih fun a b whole here => ?_)
    · rw [← List.append_assoc] at scanned ⊢
      refine ofChars_cut scanned (List.append_ne_nil_of_left_ne_nil nonempty front) (by simp) fun b whole => ?_
      rw [whole] at scanned
      obtain ⟨rfl, lone⟩ := slashes_of_scanned scanned
      rw [lineComment_eq_none_iff]
      exact slashes [] b whole (by simp) lone
    · rw [List.append_assoc] at here
      exact slashes (l ++ a) b (by rw [whole, List.append_assoc]) (.tail _ here)

/-- Where a text stands makes no difference to its tokens. -/
theorem ofChars?_elsewhere {ts : TokenStream} {skip : Nat} (read : ofChars? skip p text = .ok ts) (q : Position) :
    ∃ ts', ofChars? skip q text = .ok ts' ∧ ts'.tokens = ts.tokens := by
  induction text generalizing skip p q ts with
  | nil =>
    cases read
    exact ⟨⟨[], q⟩, by cases skip <;> rfl, rfl⟩
  | cons c cs ih =>
    cases skip with
    | succ skip => exact ih read (q.next c)
    | zero =>
      simp only [ofChars?] at read ⊢
      split at read
      · exact ih read (q.next c)
      · next t n _ =>
        cases behind : ofChars? (n - 1) (p.next c) cs with
        | error f => rw [behind] at read; cases read
        | ok ts =>
          rw [behind] at read
          cases read
          obtain ⟨ts', again, same⟩ := ih behind (q.next c)
          exact ⟨cons ⟨t, q⟩ ts', by rw [again]; rfl, congrArg (t :: ·) same⟩
      · cases read

end TokenStream

namespace Trivia

variable {rest t t' : List Char}

theorem append (first : Trivia (t' ++ rest) t) (second : Trivia rest t') : Trivia rest (t ++ t') := by
  induction first with
  | nil => exact second
  | gap here _ ih =>
    rw [List.append_assoc]
    exact .gap (by rwa [List.append_assoc]) ih

theorem blank {c : Char} (h : isBlank c = true) : Trivia rest [c] :=
  .gap (.blank h) .nil

/-- Trivia are skipped. -/
theorem skipped (h : Trivia rest t) (p : Position) :
    TokenStream.ofChars? 0 p (t ++ rest) = TokenStream.ofChars? 0 (p.after t) rest := by
  induction h generalizing p with
  | nil => rfl
  | @gap l t here _ ih =>
    have after : p.after (l ++ t) = (p.after l).after t := List.foldl_append
    rw [List.append_assoc, TokenStream.ofChars?_blank here.nonempty here.scanned, ih, after]

end Trivia

namespace Filling

variable {rest : List Char}

/-- A line comment up to its line feed, with a carriage return before it or none. -/
theorem trivia_line {body : List Char} (feed : '\n' ∉ body) (carriage : '\r' ∉ body.dropLast) :
    Trivia rest (line body).chars := by
  rcases List.eq_nil_or_concat body with rfl | ⟨start, c, rfl⟩
  · exact .gap (l := ['/', '/']) (.line nofun nofun (.inr (.inl ⟨_, rfl⟩))) (.blank (by decide))
  · rw [List.concat_eq_append] at *
    rw [List.dropLast_concat] at carriage
    have startFeed : '\n' ∉ start := fun inside => feed (List.mem_append_left _ inside)
    by_cases last : c = '\r'
    · subst last
      have closed : Trivia rest ('/' :: '/' :: start ++ (['\r'] ++ ['\n'])) :=
        .gap (.line startFeed carriage (.inr (.inr ⟨_, rfl⟩))) (.gap (.blank (by decide)) (.blank (by decide)))
      simpa [chars] using closed
    · have closed : Trivia rest ('/' :: '/' :: (start ++ [c]) ++ ['\n']) := by
        refine .gap (.line feed ?_ (.inr (.inl ⟨_, rfl⟩))) (.blank (by decide))
        simp [carriage, Ne.symm last]
      simpa [chars] using closed

theorem trivia {f : Filling} (whole : f.IsWhole) (returns : f.ReturnsAtEnd) : Trivia rest f.chars := by
  cases f with
  | blank c => exact .blank whole
  | line body => exact trivia_line whole returns
  | block body =>
    have closed : Trivia rest ((block body).chars ++ []) := .gap (.block whole) .nil
    rwa [List.append_nil] at closed

theorem trivia_flatMap {fill : List Filling} (whole : ∀ f ∈ fill, f.IsWhole ∧ f.ReturnsAtEnd) :
    Trivia rest (fill.flatMap chars) := by
  induction fill with
  | nil => exact .nil
  | cons f fill ih =>
    obtain ⟨here, behind⟩ := List.forall_mem_cons.mp whole
    exact (trivia here.1 here.2).append (ih behind)

end Filling

namespace TokenStream

open Scan

/-- A place in a text is the place behind one beginning of it. -/
theorem eq_of_ofPrefix_eq {front front' rest rest' : List Char} (same : front ++ rest = front' ++ rest')
    (place : Position.ofPrefix front = .ofPrefix front') : front = front' := by
  have apart : ∀ {a l : List Char}, Position.ofPrefix a = .ofPrefix (a ++ l) → l = [] := by
    intro a l place
    by_contra longer
    have before := Position.ofPrefix_before a longer
    rw [← place] at before
    unfold Position.Before at before
    omega
  rcases List.append_eq_append_iff.mp same with ⟨l, rfl, -⟩ | ⟨l, rfl, -⟩
  · rw [apart place, List.append_nil]
  · rw [apart place.symm, List.append_nil]

/-- Whether a place lies behind two slashes that are read as tokens, and in their line. -/
def BehindSlashes (items : List Located) (front : List Char) : Prop :=
  ∃ a b, front = a ++ '/' :: '/' :: b ∧ '\n' ∉ b ∧ '\r' ∉ b ∧ ⟨.symbol .slash, .ofPrefix a⟩ ∈ items

/-- Blank space and comments put in front of a token change no token. A token of a text that is read stands behind a
beginning of the text; a space, blank characters, line comments and block comments put in there in any order leave a text
that is read as the same tokens. The line comments must have no carriage return but before their line feed, and if the text
put in ends a line, the place must not lie in the line of two slashes that are read as tokens. -/
theorem ofString?_insert {source : String} {ts : TokenStream} {x : Located} (read : ofString? source = .ok ts)
    (here : x ∈ ts.items) : (∃ front rest, source.toList = front ++ rest ∧ x.position = .ofPrefix front) ∧
    ∀ front rest, source.toList = front ++ rest → x.position = .ofPrefix front →
      ∀ fill : List Filling, (∀ f ∈ fill, f.IsWhole ∧ f.ReturnsAtEnd) →
        (BreaksLine (fill.flatMap Filling.chars) → ¬BehindSlashes ts.items front) →
          ∃ ts', ofString? (String.ofList (front ++ ' ' :: (fill.flatMap Filling.chars ++ rest))) = .ok ts' ∧
            ts'.tokens = ts.tokens := by
  have read' : ofChars? 0 (.ofPrefix []) source.toList = .ok ts := read
  obtain ⟨front, rest, items, later, n, whole, place, split, scans, token, behind⟩ := scans_of_mem read' here
  refine ⟨⟨front, rest, whole, place⟩, fun front' rest' whole' place' fill filling apart => ?_⟩
  obtain rfl : front = front' := eq_of_ofPrefix_eq (whole.symm.trans whole') (place.symm.trans place')
  obtain rfl : rest = rest' := List.append_cancel_left (whole.symm.trans whole')
  have start := startsToken_of_scanned token
  have again : Scans (' ' :: (fill.flatMap Filling.chars ++ rest)) [] items front :=
    scans.cut start fun a b slashes here lone => lone.cut start fun feed carriage breaks =>
      apart breaks ⟨a, b, slashes, feed, carriage, by rw [split]; exact List.mem_append_left _ here⟩
  have trivia : Trivia rest ([' '] ++ fill.flatMap Filling.chars) :=
    .gap (.blank (by decide)) (Filling.trivia_flatMap filling)
  obtain ⟨ts', read', same⟩ :=
    ofChars?_elsewhere behind ((Position.ofPrefix front).after ([' '] ++ fill.flatMap Filling.chars))
  refine ⟨ts'.prepend items, ?_, ?_⟩
  · rw [← trivia.skipped] at read'
    have inserted : ofString? (String.ofList (front ++ ' ' :: (fill.flatMap Filling.chars ++ rest))) =
        ofChars? 0 (.ofPrefix []) (front ++ ' ' :: (fill.flatMap Filling.chars ++ rest)) := by
      rw [ofString?, String.toList_ofList]
      rfl
    rw [inserted, again.ofChars?]
    exact congrArg (Except.map (·.prepend items)) read'
  · have tokens : ts.tokens = items.map (·.token) ++ (TokenStream.mk (x :: later) ts.stop).tokens := by
      rw [TokenStream.tokens, split, List.map_append]
      rfl
    rw [tokens, ← same]
    exact List.map_append

theorem ofString?_insert_divisor :
    ofString? "a/b" = .ok ⟨[⟨.name "a", ⟨1, 1⟩⟩, ⟨.symbol .slash, ⟨1, 2⟩⟩, ⟨.name "b", ⟨1, 3⟩⟩], ⟨1, 4⟩⟩ ∧
      ∃ ts, ofString? "a/ //é*/\r\n/*//\"*/\tb" = .ok ts ∧ ts.tokens = [.name "a", .symbol .slash, .name "b"] := by
  have read : ofString? "a/b" =
      .ok ⟨[⟨.name "a", ⟨1, 1⟩⟩, ⟨.symbol .slash, ⟨1, 2⟩⟩, ⟨.name "b", ⟨1, 3⟩⟩], ⟨1, 4⟩⟩ := rfl
  refine ⟨read, (ofString?_insert read (x := ⟨.name "b", ⟨1, 3⟩⟩) (by simp)).2 ['a', '/'] ['b'] rfl rfl
    [.line ['é', '*', '/', '\r'], .block ['/', '/', '"'], .blank '\t'] (by decide) ?_⟩
  rintro - ⟨a, b, whole, -⟩
  rcases a with _ | ⟨c, _ | ⟨d, a⟩⟩ <;> simp at whole

/-- A line comment with a carriage return alone in it, put in front of `c` in `a c`, is read as two slashes and a name. -/
theorem lone_return_is_no_comment : ¬∀ (source : String) (ts : TokenStream) (x : Located), ofString? source = .ok ts →
    x ∈ ts.items → ∀ front rest, source.toList = front ++ rest → x.position = .ofPrefix front →
      ∀ fill : List Filling, (∀ f ∈ fill, f.IsWhole) →
        ∃ ts', ofString? (String.ofList (front ++ ' ' :: (fill.flatMap Filling.chars ++ rest))) = .ok ts' ∧
          ts'.tokens = ts.tokens := by
  intro claim
  obtain ⟨ts', read, same⟩ := claim "a c" ⟨[⟨.name "a", ⟨1, 1⟩⟩, ⟨.name "c", ⟨1, 3⟩⟩], ⟨1, 4⟩⟩ ⟨.name "c", ⟨1, 3⟩⟩ rfl
    (by simp) ['a', ' '] ['c'] rfl rfl [.line ['\r', 'b']] (by decide)
  have divided : ofString? "a  //\rb\nc" = .ok ⟨[⟨.name "a", ⟨1, 1⟩⟩, ⟨.symbol .slash, ⟨1, 4⟩⟩, ⟨.symbol .slash, ⟨1, 5⟩⟩,
      ⟨.name "b", ⟨1, 7⟩⟩, ⟨.name "c", ⟨2, 1⟩⟩], ⟨2, 2⟩⟩ := rfl
  cases divided.symm.trans read
  exact absurd same (by decide)

end TokenStream

end AspectProxy
