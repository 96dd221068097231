import AspectProxy.Proofs.Printing.Pieces
import AspectProxy.Proofs.Printing.Reread

/-!
The text of a unit holds together: no piece of it runs into the next, whatever the width of the indentation. What stands
right before and right behind an expression is never a piece that the expression could run into.
-/

namespace AspectProxy

theorem not_dot_of_isIdentifier {cs : List Char} (h : isIdentifier cs = true) : '.' ∉ cs := by
  cases cs with
  | nil => cases h
  | cons c cs =>
    obtain ⟨start, parts⟩ := Bool.and_eq_true_iff.mp h
    intro dot
    rcases List.mem_cons.mp dot with rfl | dot
    · exact absurd start (by decide)
    · exact absurd (List.all_eq_true.mp parts _ dot) (by decide)

theorem dotSegments_append_dot {cs : List Char} (h : '.' ∉ cs) (rest : List Char) :
    dotSegments (cs ++ '.' :: rest) = cs :: dotSegments rest := by
  induction cs with
  | nil => rfl
  | cons c cs ih =>
    have noDot : c ≠ '.' := fun same => h (same ▸ List.mem_cons_self)
    rw [List.cons_append, dotSegments.eq_3 _ _ noDot, ih fun m => h (List.mem_cons_of_mem _ m)]

theorem dotSegments_of_not_dot {cs : List Char} (h : '.' ∉ cs) : dotSegments cs = [cs] := by
  induction cs with
  | nil => rfl
  | cons c cs ih =>
    have noDot : c ≠ '.' := fun same => h (same ▸ List.mem_cons_self)
    rw [dotSegments.eq_3 _ _ noDot, ih fun m => h (List.mem_cons_of_mem _ m)]

theorem dotSegments_dotted {n : String} {ns : List String} (names : ∀ x ∈ n :: ns, IsName x) :
    dotSegments (n ++ dotted ns).toList = (n :: ns).map String.toList := by
  induction ns generalizing n with
  | nil =>
    rw [dotted, String.append_empty, dotSegments_of_not_dot (not_dot_of_isIdentifier (names n List.mem_cons_self).1)]
    rfl
  | cons m ns ih =>
    have text : (n ++ dotted (m :: ns)).toList = n.toList ++ '.' :: (m ++ dotted ns).toList := by
      simp [dotted]
    rw [text, dotSegments_append_dot (not_dot_of_isIdentifier (names n List.mem_cons_self).1),
      ih fun x hx => names x (List.mem_cons_of_mem _ hx)]
    rfl

/-- The tokens of names joined by dots are the names and the dots between them. -/
theorem tokens_dotted {n : String} {ns : List String} (names : ∀ x ∈ n :: ns, IsName x) :
    (Piece.word (n ++ dotted ns)).tokens = .name n :: ns.flatMap fun x => [.symbol .dot, .name x] := by
  rw [Piece.tokens, dotSegments_dotted names]
  clear names
  induction ns generalizing n with
  | nil => simp [dotTokens]
  | cons m ns ih => simp [dotTokens, ← ih]

theorem IsDotted.isDottedName {s : String} (h : IsDotted s) : isDottedName s.toList = true := by
  obtain ⟨n, ns, names, rfl⟩ := h
  rw [AspectProxy.isDottedName, dotSegments_dotted names, List.all_map, List.all_eq_true]
  exact fun x hx => (names x hx).1

theorem word_valid {s : String} (h : isDottedName s.toList = true) : (Piece.word s).Valid :=
  h

theorem IsDotted.valid {s : String} (h : IsDotted s) : (Piece.word s).Valid :=
  h.isDottedName

theorem IsName.valid {s : String} (h : IsName s) : (Piece.word s).Valid :=
  h.isDotted.valid

theorem IsName.tokens {s : String} (h : IsName s) : (Piece.word s).tokens = [.name s] := by
  have single : (Piece.word (s ++ dotted [])).tokens = _ := tokens_dotted (List.forall_mem_singleton.mpr h)
  simpa [dotted] using single

theorem isMagnitude_decimalDigits {n : Nat} (h : n < Nat.pow 2 63) :
    Piece.IsMagnitude (decimalDigits n) (.int (.ofNat n)) :=
  .ofNumber (by simpa using (IsDigits.decimalDigits n).head []) (Scan.number_decimalDigits h)

/-- The text of an integer is the digits of its magnitude, behind a minus if it is negative. -/
theorem int_text {n : Int64} (h : n ≠ Int64.minValue) :
    ∃ k < Nat.pow 2 63, if n < 0 then n = -.ofNat k ∧ (toString n.toInt).toList = '-' :: decimalDigits k
      else n = .ofNat k ∧ (toString n.toInt).toList = decimalDigits k := by
  have upper := n.toInt_lt
  have lower := n.le_toInt
  have inner : n.toInt ≠ -2 ^ 63 := fun same => h (Int64.toInt_inj.mp (same.trans (by decide)))
  have sign : n < 0 ↔ n.toInt < 0 := Int64.lt_iff_toInt_lt
  have pow : Nat.pow 2 63 = 9223372036854775808 := rfl
  rw [Int.toString_eq_repr]
  cases value : n.toInt with
  | ofNat k =>
    rw [value, Int.ofNat_eq_natCast] at upper sign
    have small : k < Nat.pow 2 63 := by omega
    refine ⟨k, small, ?_⟩
    rw [if_neg fun negative => absurd (sign.mp negative) (by omega)]
    refine ⟨Int64.toInt_inj.mp ?_, ?_⟩
    · rw [Int64.toInt_ofNat_of_lt small, value]
      rfl
    · simp [Int.repr, Nat.repr_eq_ofList_toDigits, decimalDigits]
  | negSucc k =>
    rw [value] at lower sign inner
    have small : k + 1 < Nat.pow 2 63 := by omega
    refine ⟨k + 1, small, ?_⟩
    rw [if_pos (sign.mpr (Int.negSucc_lt_zero k))]
    refine ⟨Int64.toInt_inj.mp ?_, ?_⟩
    · rw [Int64.toInt_neg_ofNat_of_le (Nat.le_of_lt small), value]
      rfl
    · simp [Int.repr, Nat.repr_eq_ofList_toDigits, decimalDigits]

namespace Piece

/-- A piece that an expression may stand behind. -/
def leads : Piece → Bool
  | symbol s => s ≠ .dot
  | space _ => true
  | newline => true
  | _ => false

/-- A piece that may stand behind an expression. -/
def trails : Piece → Bool
  | symbol _ => true
  | space width => width ≠ 0
  | newline => true
  | _ => false

/-- A piece that an expression may begin with. -/
def opens : Piece → Bool
  | symbol s => s ∈ [.openParen, .openBracket, .openBrace, .bang, .minus]
  | space _ => false
  | newline => false
  | _ => true

/-- A piece that an expression, a type or a statement may end with. -/
def closes : Piece → Bool
  | symbol s => s ∈ [.closeParen, .closeBracket, .closeBrace, .question, .semicolon]
  | space _ => false
  | newline => false
  | _ => true

theorem joins_symbol_symbol {s t : Symbol} (noDot : s ≠ .dot) (apart : ∀ c ∈ t.chars, s.isExtendedBy c = false) :
    (symbol s).joins (symbol t) = true := by
  unfold joins
  split <;> simp_all

theorem joins_of_opens {x z : Piece} (lead : x.leads = true) (opening : z.opens = true) : x.joins z = true := by
  cases x with
  | symbol s =>
    have noDot : s ≠ .dot := by simpa [leads] using lead
    cases z with
    | symbol t =>
      have opening : t ∈ [.openParen, .openBracket, .openBrace, .bang, .minus] := by simpa [opens] using opening
      have apart : ∀ t ∈ [Symbol.openParen, .openBracket, .openBrace, .bang, .minus],
        (t.chars.all fun c => c ∉ [':', '>', '=', '/', '*']) = true := by decide
      refine joins_symbol_symbol noDot fun c hc => s.isExtendedBy_eq_false ?_
      exact of_decide_eq_true (List.all_eq_true.mp (apart t opening) c hc)
    | word t => cases s <;> rfl
    | number t => cases s <;> first | rfl | exact absurd rfl noDot
    | quoted t => cases s <;> first | rfl | exact absurd rfl noDot
    | space width => cases opening
    | newline => cases opening
  | space width => rfl
  | newline => rfl
  | _ => cases lead

theorem joins_of_closes {z y : Piece} (closing : z.closes = true) (trail : y.trails = true) : z.joins y = true := by
  cases z with
  | symbol s =>
    have closing : s ∈ [.closeParen, .closeBracket, .closeBrace, .question, .semicolon] := by
      simpa [closes] using closing
    have noDot : s ≠ .dot := by
      rintro rfl
      exact absurd closing (by decide)
    cases y with
    | symbol t =>
      refine joins_symbol_symbol noDot fun c _ => ?_
      simp only [List.mem_cons, List.not_mem_nil, or_false] at closing
      rcases closing with rfl | rfl | rfl | rfl | rfl <;> rfl
    | space width => cases s <;> first | exact trail | exact absurd rfl noDot
    | newline => cases s <;> first | rfl | exact absurd rfl noDot
    | _ => cases trail
  | space width => cases closing
  | newline => cases closing
  | word t => cases y <;> first | exact trail | cases trail
  | number t => cases y <;> first | exact trail | cases trail
  | quoted t => cases y <;> first | exact trail | cases trail

/-- Pieces that hold together with a piece in front and one behind. -/
structure Held (x : Piece) (ps : List Piece) (y : Piece) : Prop where
  valid : ∀ q ∈ ps, q.Valid
  chain : (x :: (ps ++ [y])).IsChain (joins · · = true)

namespace Held

variable {x y q : Piece} {ps qs : List Piece}

theorem nil (h : x.joins y = true) : Held x [] y :=
  ⟨nofun, List.isChain_pair.mpr h⟩

theorem cons (here : x.joins q = true) (valid : q.Valid) (more : Held q ps y) : Held x (q :: ps) y where
  valid := List.forall_mem_cons.mpr ⟨valid, more.valid⟩
  chain := List.isChain_cons_cons.mpr ⟨here, more.chain⟩

theorem append (first : Held x ps q) (valid : q.Valid) (more : Held q qs y) : Held x (ps ++ q :: qs) y where
  valid := by
    intro r hr
    rcases List.mem_append.mp hr with hr | hr
    · exact first.valid r hr
    · rcases List.mem_cons.mp hr with rfl | hr
      · exact valid
      · exact more.valid r hr
  chain := by
    have whole : (x :: ps ++ q :: (qs ++ [y])).IsChain (joins · · = true) :=
      List.isChain_split.mpr ⟨first.chain, more.chain⟩
    simpa using whole

end Held

/-- Pieces that hold together where an expression may stand. -/
def Fits (ps : List Piece) : Prop :=
  ∀ x y, x.leads = true → y.trails = true → Held x ps y

theorem Fits.single {q : Piece} (valid : q.Valid) (opening : q.opens = true) (closing : q.closes = true) : Fits [q] :=
  fun _ _ lead trail => .cons (joins_of_opens lead opening) valid (.nil (joins_of_closes closing trail))

/-- Pieces between brackets. -/
theorem Fits.bracketed {s t : Symbol} {ps : List Piece} (opening : (symbol s).opens = true)
    (closing : (symbol t).closes = true) (inner : Held (symbol s) ps (symbol t)) :
    Fits (symbol s :: ps ++ [symbol t]) :=
  fun _ _ lead trail =>
    .cons (joins_of_opens lead opening) trivial (inner.append trivial (.nil (joins_of_closes closing trail)))

theorem Fits.grouped {ps : List Piece} (h : Fits ps) (parentheses : Bool) : Fits (grouped parentheses ps) := by
  cases parentheses with
  | false => exact h
  | true => exact .bracketed rfl rfl (h _ _ rfl rfl)

end Piece

open Piece

theorem int_valid {n : Int64} (h : n ≠ Int64.minValue) : (number (toString n.toInt)).Valid := by
  obtain ⟨k, small, text⟩ := int_text h
  have magnitude := isMagnitude_decimalDigits small
  split at text
  · exact ⟨_, _, .inr text.2, magnitude⟩
  · exact ⟨_, _, .inl text.2, magnitude⟩

/-- The text of a float is a number or a name, behind a minus if the float is negative. -/
theorem float_text (x : Float) : ∃ cs t, IsMagnitude cs t ∧
    ((∃ y, t = .float y ∧ FloatStyle.rereadMagnitude x = .float y) ∨
      ∃ w, IsName w ∧ t = .name w ∧ FloatStyle.rereadMagnitude x = .var w) ∧
    (FloatStyle.source.text x).toList = (if !x.isNaN && FloatStyle.isNegative x then ['-'] else []) ++ cs := by
  unfold FloatStyle.rereadMagnitude
  by_cases nan : x.isNaN = true
  · have named : isIdentifier "NaN".toList = true := by decide
    refine ⟨_, _, .ofName named, .inr ⟨"NaN", by decide, by decide, if_pos nan⟩, ?_⟩
    rw [FloatStyle.text, if_pos nan, nan]
    rfl
  · have number : x.isNaN = false := by simpa using nan
    rw [FloatStyle.toList_text number]
    simp only [number, Bool.false_eq_true, if_false, Bool.not_false, Bool.true_and]
    by_cases inf : x.isInf = true
    · have named : isIdentifier "inf".toList = true := by decide
      refine ⟨_, _, .ofName named, .inr ⟨"inf", by decide, by decide, by simp [inf]⟩, ?_⟩
      rw [if_pos inf]
      rfl
    · obtain ⟨first, y, scanned⟩ := FloatStyle.isFloat_decimalText (Decimal.shortest FloatStyle.source.tie x)
      refine ⟨_, _, .ofNumber first scanned, .inl ⟨y, rfl, ?_⟩, ?_⟩
      · rw [if_neg inf, FloatStyle.scanned, FloatStyle.magnitudeText, scanned]
      · rw [if_neg inf, FloatStyle.magnitudeText]

theorem float_valid (x : Float) : (number (FloatStyle.source.text x)).Valid := by
  obtain ⟨cs, t, magnitude, -, text⟩ := float_text x
  refine ⟨cs, t, ?_, magnitude⟩
  split at text
  · exact .inr text
  · exact .inl text

theorem fits_arguments {args : List Piece} (held : Held (symbol .openParen) args (symbol .closeParen)) {name : String}
    (valid : (word name).Valid) {x y : Piece} (lead : x.joins (word name) = true) (trail : y.trails = true) :
    Held x (word name :: symbol .openParen :: args ++ [symbol .closeParen]) y :=
  .cons lead valid (.cons rfl trivial (held.append trivial (.nil (joins_of_closes rfl trail))))

mutual

theorem Expr.fits : ∀ e : Expr, e.Every Spelt → Fits e.pieces
  | .int n, h => .single (int_valid h) rfl rfl
  | .float x, _ => .single (float_valid x) rfl rfl
  | .str s, _ => .single trivial rfl rfl
  | .bool b, _ => .single (word_valid (by cases b <;> decide)) rfl rfl
  | .null, _ => .single (word_valid (by decide)) rfl rfl
  | .var name, h => .single (IsName.valid h) rfl rfl
  | .self, _ => .single (word_valid (by decide)) rfl rfl
  | .list items, h => .bracketed rfl rfl (Expr.itemsHeld items h.2 rfl rfl rfl)
  | .map entries, h => .bracketed rfl rfl (Expr.entriesHeld entries h.2 rfl rfl rfl)
  | .binary op left right, h => by
    intro x y lead trail
    have leftFits := (Expr.fits left h.2.1).grouped (left.level < op.level) x (space 1) lead rfl
    have rightFits := (Expr.fits right h.2.2).grouped (right.level < op.level + 1) (space 1) y rfl trail
    simp only [pieces, within, List.append_assoc, List.cons_append, List.nil_append]
    exact leftFits.append trivial (.cons rfl trivial (.cons (by cases op <;> rfl) trivial rightFits))
  | .unary op operand, h => by
    intro x y lead trail
    have operandFits := (Expr.fits operand h.2).grouped (operand.level < unaryLevel) (symbol op.symbol) y
      (by cases op <;> rfl) trail
    exact .cons (joins_of_opens lead (by cases op <;> rfl)) trivial operandFits
  | .property object name, h => by
    intro x y lead trail
    have objectFits := (Expr.fits object h.2).grouped (object.level < postfixLevel) x (symbol .dot) lead rfl
    exact objectFits.append trivial (.cons rfl h.1.valid (.nil (joins_of_closes rfl trail)))
  | .index object key, h => by
    intro x y lead trail
    have objectFits := (Expr.fits object h.2.1).grouped (object.level < postfixLevel) x (symbol .openBracket) lead rfl
    have keyFits := Expr.fits key h.2.2 (symbol .openBracket) (symbol .closeBracket) rfl rfl
    simp only [pieces, within, List.append_assoc, List.cons_append]
    exact objectFits.append trivial (keyFits.append trivial (.nil (joins_of_closes rfl trail)))
  | .call object method args, h => by
    intro x y lead trail
    have objectFits := (Expr.fits object h.2.1).grouped (object.level < postfixLevel) x (symbol .dot) lead rfl
    simp only [pieces, within, List.append_assoc, List.cons_append]
    exact objectFits.append trivial (fits_arguments (Expr.itemsHeld args h.2.2 rfl rfl rfl) h.1.valid rfl trail)
  | .superCall method args, h => by
    intro x y lead trail
    have argumentsFit := fits_arguments (Expr.itemsHeld args h.2 rfl rfl rfl) h.1.valid (x := symbol .dot) rfl trail
    exact .cons (joins_of_opens lead rfl) (word_valid (by decide)) (.cons rfl trivial argumentsFit)
  | .staticCall className method args, h => by
    intro x y lead trail
    have argumentsFit := fits_arguments (Expr.itemsHeld args h.2 rfl rfl rfl) h.1.2.valid (x := symbol .doubleColon)
      rfl trail
    exact .cons (joins_of_opens lead rfl) h.1.1.valid (.cons rfl trivial argumentsFit)
  | .functionCall name args, h => by
    intro x y lead trail
    exact fits_arguments (Expr.itemsHeld args h.2 rfl rfl rfl) h.1.valid (joins_of_opens lead rfl) trail
  | .create className args, h => by
    intro x y lead trail
    have argumentsFit := fits_arguments (Expr.itemsHeld args h.2 rfl rfl rfl) h.1.valid (x := space 1) rfl trail
    exact .cons (joins_of_opens lead rfl) (word_valid (by decide)) (.cons rfl trivial argumentsFit)

theorem Expr.itemsHeld : ∀ items : List Expr, Expr.EveryItem Spelt items → ∀ {x y : Piece}, x.leads = true →
    y.trails = true → x.joins y = true → Held x (listPieces items) y
  | [], _, _, _, _, _, apart => .nil apart
  | [e], h, _, _, lead, trail, _ => Expr.fits e h.1 _ _ lead trail
  | e :: f :: es, h, x, y, lead, trail, _ => by
    have more := Expr.itemsHeld (f :: es) h.2 (x := space 1) rfl trail rfl
    simp only [listPieces, List.append_assoc, List.cons_append, List.nil_append]
    exact (Expr.fits e h.1 x (symbol .comma) lead rfl).append trivial (.cons rfl trivial more)

theorem Expr.entriesHeld : ∀ entries : List (String × Expr), Expr.EveryEntry Spelt entries → ∀ {x y : Piece},
    x.leads = true → y.trails = true → x.joins y = true → Held x (entryPieces entries) y
  | [], _, _, _, _, _, apart => .nil apart
  | [(k, e)], h, x, y, lead, trail, _ => by
    have value := Expr.fits e h.1 (space 1) y rfl trail
    exact .cons (joins_of_opens lead rfl) trivial (.cons rfl trivial (.cons rfl trivial value))
  | (k, e) :: f :: es, h, x, y, lead, trail, _ => by
    have more := Expr.entriesHeld (f :: es) h.2 (x := space 1) rfl trail rfl
    have value := Expr.fits e h.1 (space 1) (symbol .comma) rfl rfl
    simp only [entryPieces, List.append_assoc, List.cons_append, List.nil_append]
    exact .cons (joins_of_opens lead rfl) trivial
      (.cons rfl trivial (.cons rfl trivial (value.append trivial (.cons rfl trivial more))))

end

theorem TypeRef.held {t : TypeRef} (h : t.WellFormed) {x y : Piece} (lead : x.leads = true) (trail : y.trails = true) :
    Held x t.pieces y := by
  unfold TypeRef.pieces
  split
  · exact .cons (joins_of_opens lead rfl) h.valid (.cons rfl trivial (.nil (joins_of_closes rfl trail)))
  · exact .cons (joins_of_opens lead rfl) h.valid (.nil (joins_of_closes rfl trail))

/-- A name with its type, if it has one. -/
theorem TypeRef.colonHeld {type : Option TypeRef} (h : ∀ t ∈ type, t.WellFormed) {name : String}
    {y : Piece} (trail : y.trails = true) : Held (word name) (colonPieces type) y := by
  cases type with
  | none => exact .nil (joins_of_closes rfl trail)
  | some t => exact .cons rfl trivial (.cons rfl trivial (TypeRef.held (h t rfl) rfl trail))

namespace Statement

theorem held_braces {x y : Piece} {width depth : Nat} {lines : List Piece} (lead : x.leads = true)
    (trail : y.trails = true) (inner : Held newline lines (space (width * depth))) :
    Held x (braces width depth lines) y :=
  .cons (joins_of_opens lead rfl) trivial
    (.cons rfl trivial (inner.append trivial (.cons rfl trivial (.nil (joins_of_closes rfl trail)))))

/-- A word with an expression in parentheses and a block. -/
theorem held_head {head : String} (valid : (word head).Valid) {condition : Expr} (h : condition.Every Expr.Spelt)
    {x y : Piece} {block : List Piece} (lead : x.leads = true) (held : Held (space 1) block y) :
    Held x ([word head, space 1, symbol .openParen] ++ condition.pieces ++ [symbol .closeParen, space 1] ++ block) y := by
  have fits := Expr.fits condition h (symbol .openParen) (symbol .closeParen) rfl rfl
  simp only [List.append_assoc, List.cons_append, List.nil_append]
  exact .cons (joins_of_opens lead rfl) valid (.cons rfl trivial (.cons rfl trivial
    (fits.append trivial (.cons rfl trivial held))))

mutual

theorem held {width depth : Nat} : ∀ s : Statement, s.Every Statement.Sound Expr.Spelt → ∀ {x y : Piece},
    x.leads = true → y.trails = true → Held x (s.pieces width depth) y
  | .declare name type value, h, x, y, lead, trail => by
    have typed : Held (word name) (TypeRef.colonPieces type) (space 1) := TypeRef.colonHeld h.1.2 rfl
    have valued := Expr.fits value h.2 (space 1) (symbol .semicolon) rfl rfl
    simp only [pieces, List.append_assoc, List.cons_append, List.nil_append]
    refine .cons (joins_of_opens lead rfl) (word_valid (by decide)) (.cons rfl trivial (.cons rfl h.1.1.valid ?_))
    exact typed.append trivial (.cons rfl trivial (.cons rfl trivial
      (valued.append trivial (.nil (joins_of_closes rfl trail)))))
  | .assign target value, h, x, y, lead, trail => by
    have written := Expr.fits target.toExpr h.1 x (space 1) lead rfl
    have valued := Expr.fits value h.2 (space 1) (symbol .semicolon) rfl rfl
    simp only [pieces, List.append_assoc, List.cons_append, List.nil_append]
    exact written.append trivial (.cons rfl trivial (.cons rfl trivial
      (valued.append trivial (.nil (joins_of_closes rfl trail)))))
  | .expr e, h, x, y, lead, trail =>
    (Expr.fits e h x (symbol .semicolon) lead rfl).append trivial (.nil (joins_of_closes rfl trail))
  | .return none, _, _, _, lead, trail =>
    .cons (joins_of_opens lead rfl) (word_valid (by decide)) (.cons rfl trivial (.nil (joins_of_closes rfl trail)))
  | .return (some e), h, x, y, lead, trail =>
    .cons (joins_of_opens lead rfl) (word_valid (by decide)) (.cons rfl trivial
      ((Expr.fits e h (space 1) (symbol .semicolon) rfl rfl).append trivial (.nil (joins_of_closes rfl trail))))
  | .cond condition thenBranch none, h, x, y, lead, trail =>
    held_head (word_valid (by decide)) h.1 lead (held_braces rfl trail (linesHeld thenBranch h.2))
  | .cond condition thenBranch (some elseBranch), h, x, y, lead, trail => by
    have block : Held (space 1) (braces width depth (lines width (depth + 1) thenBranch)) (space 1) :=
      held_braces rfl rfl (linesHeld thenBranch h.2.1)
    have first := held_head (x := x) (word_valid (s := "if") (by decide)) h.1 lead block
    have second : Held (space 1) (elsePieces width depth elseBranch) y := elseHeld elseBranch h.2.2 trail
    have otherwise : Held (space 1) (word "else" :: space 1 :: elsePieces width depth elseBranch) y :=
      .cons rfl (word_valid (by decide)) (.cons rfl trivial second)
    have whole := first.append trivial otherwise
    simpa only [pieces, condHead, List.append_assoc, List.cons_append, List.nil_append] using whole
  | .while condition body, h, x, y, lead, trail =>
    held_head (word_valid (by decide)) h.1 lead (held_braces rfl trail (linesHeld body h.2))
  | .for name iterable body, h, x, y, lead, trail => by
    have fits := Expr.fits iterable h.2.1 (space 1) (symbol .closeParen) rfl rfl
    have block : Held (space 1) (braces width depth (lines width (depth + 1) body)) y :=
      held_braces rfl trail (linesHeld body h.2.2)
    simp only [pieces, forHead, List.append_assoc, List.cons_append, List.nil_append]
    refine .cons (joins_of_opens lead rfl) (word_valid (by decide)) (.cons rfl trivial (.cons rfl trivial
      (.cons rfl h.1.valid (.cons rfl trivial (.cons rfl (word_valid (by decide)) (.cons rfl trivial ?_))))))
    exact fits.append trivial (.cons rfl trivial block)
  | .break, _, _, _, lead, trail =>
    .cons (joins_of_opens lead rfl) (word_valid (by decide)) (.cons rfl trivial (.nil (joins_of_closes rfl trail)))
  | .continue, _, _, _, lead, trail =>
    .cons (joins_of_opens lead rfl) (word_valid (by decide)) (.cons rfl trivial (.nil (joins_of_closes rfl trail)))

/-- Statements on lines of their own stand behind a line end and leave one behind. -/
theorem linesHeld {width depth : Nat} : ∀ block : Block, EveryIn Statement.Sound Expr.Spelt block → ∀ {y : Piece},
    Held newline (lines width depth block) y
  | [], _, _ => .nil rfl
  | s :: rest, h, _ =>
    .cons rfl trivial ((held s h.1 (x := space _) (y := newline) rfl rfl).append trivial (linesHeld rest h.2))

theorem elseHeld {width depth : Nat} : ∀ block : Block, EveryIn Statement.Sound Expr.Spelt block → ∀ {y : Piece},
    y.trails = true → Held (space 1) (elsePieces width depth block) y
  | [], _, _, trail => held_braces rfl trail (.nil rfl)
  | s :: rest, h, y, trail => by
    unfold elsePieces
    split
    · exact held s h.1 rfl trail
    · exact held_braces rfl trail (.cons rfl trivial
        ((held s h.1 (x := space _) (y := newline) rfl rfl).append trivial (linesHeld rest h.2)))

end

end Statement

/-- The type and the default value behind a name. -/
theorem typedHeld {name : String} {type : Option TypeRef} (typed : ∀ t ∈ type, t.WellFormed) {default : Option Expr}
    (valued : ∀ e ∈ default, e.Every Expr.Spelt) {y : Piece} (trail : y.trails = true) :
    Held (word name) (TypeRef.colonPieces type ++ Expr.defaultPieces default) y := by
  cases default with
  | none => simpa [Expr.defaultPieces] using TypeRef.colonHeld typed trail
  | some e =>
    have value := Expr.fits e (valued e rfl) (space 1) y rfl trail
    exact (TypeRef.colonHeld typed (y := space 1) rfl).append trivial (.cons rfl trivial (.cons rfl trivial value))

theorem Parameter.held {p : Parameter} (h : p.Sound) (valued : p.Every Expr.Spelt) {x y : Piece}
    (lead : x.leads = true) (trail : y.trails = true) : Held x p.pieces y :=
  .cons (joins_of_opens lead rfl) h.name.valid (typedHeld h.type valued trail)

theorem Parameter.allHeld {ps : List Parameter} (h : ∀ p ∈ ps, p.Sound ∧ p.Every Expr.Spelt) {x y : Piece}
    (lead : x.leads = true) (trail : y.trails = true) (apart : x.joins y = true) :
    Held x (commaJoin (ps.map Parameter.pieces)) y := by
  induction ps generalizing x with
  | nil => exact .nil apart
  | cons p ps ih =>
    obtain ⟨⟨sound, valued⟩, rest⟩ := List.forall_mem_cons.mp h
    cases ps with
    | nil => exact Parameter.held sound valued lead trail
    | cons q ps =>
      have first : Held x p.pieces (symbol .comma) := Parameter.held sound valued lead rfl
      have more : Held (space 1) (commaJoin ((q :: ps).map Parameter.pieces)) y := ih rest rfl rfl
      have whole := first.append (q := symbol .comma) trivial (.cons (q := space 1) rfl trivial more)
      simpa only [List.map_cons, commaJoin, List.append_assoc, List.cons_append, List.nil_append] using whole

theorem held_word {s : String} (valid : (word s).Valid) {x y : Piece} (lead : x.leads = true) {ps : List Piece}
    (behind : Held (space 1) ps y) : Held x (word s :: space 1 :: ps) y :=
  .cons (joins_of_opens lead rfl) valid (.cons rfl trivial behind)

theorem held_wordIf {s : String} (valid : (word s).Valid) (present : Bool) {x y : Piece} (lead : x.leads = true)
    {ps : List Piece} (behind : ∀ x : Piece, x.leads = true → Held x ps y) :
    Held x ((if present then [word s, space 1] else []) ++ ps) y := by
  cases present with
  | false => exact behind x lead
  | true => exact held_word valid lead (behind (space 1) rfl)

theorem Modifiers.held (m : Modifiers) {x y : Piece} (lead : x.leads = true) {ps : List Piece}
    (behind : ∀ x : Piece, x.leads = true → Held x ps y) : Held x (m.pieces ++ ps) y := by
  simp only [Modifiers.pieces, List.append_assoc, List.cons_append, List.nil_append]
  refine held_word (word_valid (by cases m.visibility <;> decide)) lead ?_
  refine held_wordIf (word_valid (by decide)) m.isStatic rfl fun x lead => ?_
  exact held_wordIf (word_valid (by decide)) m.isFinal lead behind

theorem Property.held {p : Property} (h : p.Sound) (valued : ∀ e ∈ p.default, e.Every Expr.Spelt) {x y : Piece}
    (lead : x.leads = true) : Held x p.pieces y := by
  have typed : Held (word p.name) (TypeRef.colonPieces p.type ++ Expr.defaultPieces p.default) (symbol .semicolon) :=
    typedHeld h.type valued rfl
  simp only [Property.pieces, List.append_assoc, List.cons_append, List.nil_append] at typed ⊢
  refine p.modifiers.held lead fun x lead => held_word (word_valid (by decide)) lead (.cons rfl h.name.valid ?_)
  simpa only [List.append_assoc] using typed.append trivial (.cons (q := newline) rfl trivial (.nil rfl))

theorem Method.held {m : Method} (h : m.Sound) (parameters : ∀ p ∈ m.parameters, p.Every Expr.Spelt)
    (body : Statement.EveryIn Statement.Sound Expr.Spelt m.body) {width depth : Nat} {x y : Piece}
    (lead : x.leads = true) : Held x (m.pieces width depth) y := by
  have list : Held (symbol .openParen) (commaJoin (m.parameters.map Parameter.pieces)) (symbol .closeParen) :=
    Parameter.allHeld (fun p hp => ⟨h.parameters p hp, parameters p hp⟩) rfl rfl rfl
  have block : Held (space 1) (Statement.braces width depth (Statement.lines width (depth + 1) m.body)) newline :=
    Statement.held_braces rfl rfl (Statement.linesHeld m.body body)
  have ended : Held (space 1)
      (Statement.braces width depth (Statement.lines width (depth + 1) m.body) ++ [newline]) y :=
    block.append trivial (.nil rfl)
  have named : ∀ {ps : List Piece}, Held (symbol .closeParen) ps y → ∀ x : Piece, x.leads = true →
      Held x (word "fn" :: space 1 :: word m.name :: symbol .openParen ::
        (commaJoin (m.parameters.map Parameter.pieces) ++ symbol .closeParen :: ps)) y :=
    fun behind x lead => held_word (word_valid (by decide)) lead
      (.cons rfl h.name.valid (.cons rfl trivial (list.append trivial behind)))
  unfold Method.pieces
  split
  · simp only [List.append_assoc, List.cons_append, List.nil_append]
    exact m.modifiers.held lead (named (.cons rfl trivial ended))
  · rename_i t result
    have typed : Held (space 1) t.pieces (space 1) := TypeRef.held (h.returnType t result) rfl rfl
    simp only [List.append_assoc, List.cons_append, List.nil_append]
    exact m.modifiers.held lead (named (.cons rfl trivial (.cons rfl trivial (.cons rfl trivial
      (typed.append trivial ended)))))

theorem Member.held {m : Member} (h : m.Sound) (every : m.Every Statement.Sound Expr.Spelt) {width : Nat}
    {y : Piece} : Held newline (m.pieces width) y := by
  cases m with
  | property p => exact .cons rfl trivial (Property.held h every rfl)
  | method m => exact .cons rfl trivial (Method.held h every.1 every.2 rfl)

/-- Parts with a line end behind each stand behind one another. -/
theorem lineJoin_held {parts : List (List Piece)} (h : ∀ ps ∈ parts, ∀ y, Held newline ps y) {y : Piece} :
    Held newline (lineJoin parts) y := by
  induction parts with
  | nil => exact .nil rfl
  | cons ps parts ih =>
    obtain ⟨here, rest⟩ := List.forall_mem_cons.mp h
    cases parts with
    | nil => exact here y
    | cons qs parts => exact (here newline).append trivial (ih rest)

/-- What the text of a declaration holds together by: the reference to a parent need not be a name that is read. -/
structure Declaration.Spelt (d : Declaration) : Prop where
  name : IsName d.name
  parent : ∀ c ∈ d.class?, ∀ parent ∈ c.parent, isDottedName parent.toList = true
  members : ∀ x ∈ d.members, x.Sound

theorem Declaration.Sound.spelt {d : Declaration} (h : d.Sound) : d.Spelt where
  name := h.name
  parent := fun c hc parent hp => (h.parent c hc parent hp).isDottedName
  members := h.members

theorem Declaration.held {d : Declaration} (h : d.Spelt) (every : d.Every Statement.Sound Expr.Spelt) {width : Nat}
    {y : Piece} : Held newline (d.pieces width) y := by
  have members : Held newline (lineJoin (d.members.map (Member.pieces width))) (symbol .closeBrace) := by
    refine lineJoin_held fun ps hps y => ?_
    obtain ⟨m, hm, rfl⟩ := List.mem_map.mp hps
    exact Member.held (h.members m hm) (every m hm)
  have block : Held (space 1)
      (symbol .openBrace :: newline :: (lineJoin (d.members.map (Member.pieces width)) ++ [symbol .closeBrace, newline]))
      y :=
    .cons rfl trivial (.cons rfl trivial (members.append trivial (.cons rfl trivial (.nil rfl))))
  simp only [Declaration.pieces, List.append_assoc, List.cons_append, List.nil_append]
  cases d with
  | trait t =>
    exact held_word (word_valid (by decide)) rfl (.cons rfl h.name.valid (.cons rfl trivial block))
  | «class» c =>
    simp only [head, List.append_assoc, List.cons_append, List.nil_append]
    refine held_wordIf (word_valid (by decide)) c.isFinal rfl fun x lead => held_word (word_valid (by decide)) lead ?_
    refine .cons rfl h.name.valid ?_
    cases parent : c.parent with
    | none => exact .cons rfl trivial block
    | some p =>
      have valid : (word p).Valid := h.parent c rfl p parent
      exact .cons rfl trivial (held_word (word_valid (by decide)) rfl (.cons rfl valid (.cons rfl trivial block)))

theorem Import.held {i : Import} (h : i.Sound) : Held newline i.pieces newline := by
  have ended : ∀ {s : String}, (word s).Valid → Held (space 1) [word s, symbol .semicolon] newline :=
    fun valid => .cons rfl valid (.cons rfl trivial (.nil rfl))
  simp only [Import.pieces, List.cons_append, List.nil_append]
  cases named : i.localName with
  | none => exact held_word (word_valid (by decide)) rfl (ended h.path.valid)
  | some a =>
    exact held_word (word_valid (by decide)) rfl (.cons rfl h.path.valid (.cons rfl trivial
      (held_word (word_valid (by decide)) rfl (ended (h.localName a named).valid))))

namespace SourceUnit

theorem held_packagePieces {u : SourceUnit} (h : ∀ p ∈ u.package, IsDotted p) {ps : List Piece} {y : Piece}
    (behind : Held newline ps y) : Held newline (u.packagePieces ++ ps) y := by
  unfold packagePieces
  split
  · exact behind
  · rename_i p package
    exact held_word (word_valid (by decide)) rfl
      (.cons rfl (h p package).valid (.cons rfl trivial (.cons rfl trivial (.cons rfl trivial behind))))

theorem held_importLines {imports : List Import} (h : ∀ i ∈ imports, i.Sound) {ps : List Piece} {y : Piece}
    (behind : Held newline ps y) : Held newline ((imports.flatMap fun i => i.pieces ++ [newline]) ++ ps) y := by
  induction imports with
  | nil => exact behind
  | cons i rest ih =>
    obtain ⟨here, more⟩ := List.forall_mem_cons.mp h
    simp only [List.flatMap_cons, List.append_assoc, List.cons_append, List.nil_append]
    exact (Import.held here).append trivial (ih more)

section Text

variable {u : SourceUnit} (package : ∀ p ∈ u.package, IsDotted p) (imports : ∀ i ∈ u.imports, i.Sound)
  (spelt : ∀ d ∈ u.declarations, d.Spelt) (every : u.Every Statement.Sound Expr.Spelt)
include package imports spelt every

/-- The pieces of a unit hold together. -/
theorem held {width : Nat} : Held newline (u.pieces width) newline := by
  have declarations : Held newline (lineJoin (u.declarations.map (Declaration.pieces width))) newline := by
    refine lineJoin_held fun ps hps y => ?_
    obtain ⟨d, hd, rfl⟩ := List.mem_map.mp hps
    exact Declaration.held (spelt d hd) (every d hd)
  simp only [pieces, importPieces, List.append_assoc]
  refine held_packagePieces package (held_importLines imports ?_)
  split
  · exact declarations
  · exact .cons rfl trivial declarations

/-- The text of a unit is read as the tokens of its pieces, whether these are read as a unit or not. -/
theorem lexes_spelt (width : Nat) : Lexes (u.print width).toList ((u.pieces width).flatMap Piece.tokens) := by
  have held : Held newline (u.pieces width) newline := SourceUnit.held package imports spelt every
  rw [print, textOf, String.toList_ofList]
  exact lexes_of_chain held.chain.tail.left_of_append held.valid

end Text

end SourceUnit

end AspectProxy
