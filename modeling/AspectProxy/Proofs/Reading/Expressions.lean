import AspectProxy.Proofs.Reading.Grammar

/-!
The tokens of an expression are those that the grammar has for it, with its negated numbers folded and its floats as their
text has them. Parentheses stand where an operand binds less tightly than its place asks, so every operand is one of the
level that is asked for.
-/

namespace AspectProxy

theorem IsDotted.path {s : String} (h : IsDotted s) : ∃ n ns, (∀ x ∈ n :: ns, x ∉ reservedWords) ∧
    (Piece.word s).tokens = pathTokens n ns ∧ s = n ++ dotted ns := by
  obtain ⟨n, ns, names, rfl⟩ := h
  exact ⟨n, ns, fun x hx => (names x hx).2, tokens_dotted names, rfl⟩

namespace Parse

variable {ys : List Token}

/-- Names joined by dots are read up to what is no dot. -/
theorem dottedName_reads {s : String} (h : IsDotted s) (ends : ys.head? ≠ some (.symbol .dot)) :
    Reads dottedName ((Piece.word s).tokens ++ ys) s ys := by
  obtain ⟨n, ns, free, tokens, rfl⟩ := IsDotted.path h
  rw [tokens]
  exact path_reads free ends

theorem TypeRef.reads {t : TypeRef} (h : t.WellFormed) (noDot : ys.head? ≠ some (.symbol .dot))
    (noMark : ys.head? ≠ some (.symbol .question)) : Reads typeRef (t.pieces.flatMap Piece.tokens ++ ys) t ys := by
  obtain ⟨name, nullable⟩ := t
  cases nullable with
  | true =>
    have text : (TypeRef.pieces ⟨name, true⟩).flatMap Piece.tokens ++ ys =
        (Piece.word name).tokens ++ .symbol .question :: ys := by simp [TypeRef.pieces]
    rw [text]
    refine (dottedName_reads h (by simp)).then ?_
    simp only [eatSymbol, leads_eat_cons, if_true]
    exact .refl _ _
  | false =>
    have text : (TypeRef.pieces ⟨name, false⟩).flatMap Piece.tokens ++ ys = (Piece.word name).tokens ++ ys := by
      simp [TypeRef.pieces]
    rw [text]
    refine (dottedName_reads h noDot).then ?_
    simp only [eatSymbol, leads_eat_other noMark]
    exact .refl _ _

end Parse

namespace Expr

/-- The tokens that an expression is written as. -/
def tokens (e : Expr) : List Token :=
  e.pieces.flatMap Piece.tokens

/-- The tokens of an expression where one that binds as tightly as `least` may stand. -/
def tokensWithin (least : Nat) (e : Expr) : List Token :=
  if e.level < least then .symbol .openParen :: e.tokens ++ [.symbol .closeParen] else e.tokens

def itemTokens (items : List Expr) : List Token :=
  (listPieces items).flatMap Piece.tokens

def mapTokens (entries : List (String × Expr)) : List Token :=
  (entryPieces entries).flatMap Piece.tokens

theorem flatMap_within (least : Nat) (e : Expr) :
    (within least e e.pieces).flatMap Piece.tokens = e.tokensWithin least := by
  unfold within tokensWithin Piece.grouped
  by_cases loose : e.level < least <;> simp [loose, tokens]

theorem itemTokens_cons (e f : Expr) (es : List Expr) :
    itemTokens (e :: f :: es) = e.tokens ++ .symbol .comma :: itemTokens (f :: es) := by
  simp [itemTokens, listPieces, tokens]

theorem tokens_binary (op : BinaryOp) (left right : Expr) : (Expr.binary op left right).tokens =
    left.tokensWithin op.level ++ .symbol op.symbol :: right.tokensWithin (op.level + 1) := by
  simp [tokens, pieces, flatMap_within]

theorem tokens_unary (op : UnaryOp) (operand : Expr) :
    (Expr.unary op operand).tokens = .symbol op.symbol :: operand.tokensWithin unaryLevel := by
  simp [tokens, pieces, flatMap_within]

theorem tokens_property (object : Expr) {name : String} (h : IsName name) :
    (Expr.property object name).tokens = object.tokensWithin postfixLevel ++ [.symbol .dot, .name name] := by
  simp [tokens, pieces, flatMap_within, h.tokens]

theorem tokens_index (object key : Expr) : (Expr.index object key).tokens =
    object.tokensWithin postfixLevel ++ .symbol .openBracket :: key.tokens ++ [.symbol .closeBracket] := by
  simp [tokens, pieces, flatMap_within]

theorem tokens_call (object : Expr) {method : String} (h : IsName method) (args : List Expr) :
    (Expr.call object method args).tokens =
      object.tokensWithin postfixLevel ++ .symbol .dot :: .name method :: parenthesized (itemTokens args) := by
  simp [tokens, pieces, flatMap_within, h.tokens, parenthesized, itemTokens]

theorem tokens_superCall {method : String} (h : IsName method) (args : List Expr) :
    (Expr.superCall method args).tokens =
      .name "super" :: .symbol .dot :: .name method :: parenthesized (itemTokens args) := by
  have word : (Piece.word "super").tokens = [.name "super"] := by decide
  simp [tokens, pieces, h.tokens, word, parenthesized, itemTokens]

theorem tokens_staticCall {className method : String} (h : IsName method) (args : List Expr) :
    (Expr.staticCall className method args).tokens =
      (Piece.word className).tokens ++ .symbol .doubleColon :: .name method :: parenthesized (itemTokens args) := by
  simp [tokens, pieces, h.tokens, parenthesized, itemTokens]

theorem tokens_functionCall {name : String} (h : IsName name) (args : List Expr) :
    (Expr.functionCall name args).tokens = .name name :: parenthesized (itemTokens args) := by
  simp [tokens, pieces, h.tokens, parenthesized, itemTokens]

theorem tokens_create (className : String) (args : List Expr) :
    (Expr.create className args).tokens = .name "new" :: (Piece.word className).tokens ++ parenthesized (itemTokens args) := by
  have word : (Piece.word "new").tokens = [.name "new"] := by decide
  simp [tokens, pieces, word, parenthesized, itemTokens]

end Expr

namespace Expr

theorem tokens_number {e : Expr} {s : String} (h : e.pieces = [.number s]) :
    e.tokens = Piece.numberTokens s.toList := by
  rw [tokens, h, List.flatMap_singleton, Piece.tokens]

/-- An integer is written as its magnitude, behind a minus if it is negative. -/
theorem derives_int {n : Int64} (h : n ≠ Int64.minValue) :
    Derives (Expr.int n).level (Expr.int n).tokens (.int n) := by
  obtain ⟨k, small, text⟩ := int_text h
  have magnitude := isMagnitude_decimalDigits small
  rw [tokens_number (e := .int n) rfl, level]
  split at text <;> rename_i negative
  · rw [if_pos negative, text.2, Piece.numberTokens_minus magnitude, text.1]
    exact .negative (.loosen (.int (.ofNat k)) (by decide))
  · rw [if_neg negative, text.2, Piece.numberTokens_magnitude magnitude, text.1]
    exact .loosen (.int (.ofNat k)) (by decide)

theorem derives_float (x : Float) : Derives (Expr.float x).level (Expr.float x).tokens (FloatStyle.reread x) := by
  obtain ⟨cs, t, magnitude, single, text⟩ := float_text x
  have primary : Derives primaryLevel [t] (FloatStyle.rereadMagnitude x) := by
    rcases single with ⟨y, rfl, same⟩ | ⟨w, name, rfl, same⟩ <;> rw [same]
    · exact .float y
    · exact .var name.2
  rw [tokens_number (e := .float x) rfl, level, FloatStyle.reread, text]
  by_cases signed : (!x.isNaN && FloatStyle.isNegative x) = true
  · have negative : FloatStyle.isNegative x = true := (Bool.and_eq_true_iff.mp signed).2
    rw [if_pos signed, if_pos signed, if_pos negative, List.singleton_append, Piece.numberTokens_minus magnitude]
    exact .negative (primary.loosen (by decide))
  · rw [if_neg signed, if_neg signed, List.nil_append, Piece.numberTokens_magnitude magnitude]
    split <;> exact primary.loosen (by decide)

theorem level_bounds (e : Expr) : 1 ≤ e.level ∧ e.level ≤ 8 := by
  cases e with
  | binary op left right => exact ⟨(Parse.level_pos op).1, (Parse.level_pos op).2.trans (by decide)⟩
  | int n =>
    rw [level]
    split <;> simp [unaryLevel, postfixLevel]
  | float x =>
    rw [level]
    split <;> simp [unaryLevel, postfixLevel]
  | _ => simp [level, unaryLevel, postfixLevel]

theorem tokens_word {e : Expr} {w : String} (h : e.pieces = [.word w]) (plain : (Piece.word w).tokens = [.name w]) :
    e.tokens = [.name w] := by
  rw [tokens, h, List.flatMap_singleton, plain]

theorem tokens_list (items : List Expr) :
    (Expr.list items).tokens = .symbol .openBracket :: itemTokens items ++ [.symbol .closeBracket] := by
  simp [tokens, pieces, itemTokens]

theorem tokens_map (entries : List (String × Expr)) :
    (Expr.map entries).tokens = .symbol .openBrace :: mapTokens entries ++ [.symbol .closeBrace] := by
  simp [tokens, pieces, mapTokens]

theorem mapTokens_single (k : String) (e : Expr) : mapTokens [(k, e)] = .str k :: .symbol .colon :: e.tokens := by
  simp [mapTokens, entryPieces, tokens]

theorem mapTokens_cons (k : String) (e : Expr) (f : String × Expr) (es : List (String × Expr)) :
    mapTokens ((k, e) :: f :: es) = .str k :: .symbol .colon :: e.tokens ++ .symbol .comma :: mapTokens (f :: es) := by
  simp [mapTokens, entryPieces, tokens]

/-- An operand stands in parentheses where it binds less tightly than its place asks. -/
theorem derives_within {e r : Expr} (h : Derives e.level e.tokens r) {least : Nat} (tightest : least ≤ 9) :
    Derives least (e.tokensWithin least) r := by
  unfold tokensWithin
  split
  case isTrue => exact .loosen (.group (h.loosen e.level_bounds.1)) tightest
  case isFalse tight => exact h.loosen (by omega)

theorem derives_constant {e : Expr} {w : String} (h : e.pieces = [.word w]) (plain : (Piece.word w).tokens = [.name w])
    (constant : Derives primaryLevel [.name w] e) : Derives postfixLevel e.tokens e := by
  rw [tokens_word h plain]
  exact constant.tighter

mutual

/-- The grammar has the tokens of an expression, at its level. -/
theorem derives : ∀ e : Expr, e.Every Spelt → Derives e.level e.tokens e.reread
  | .int _, h => derives_int h
  | .float x, _ => derives_float x
  | .str s, _ => .tighter (.str s)
  | .bool true, _ => derives_constant rfl (by decide) .true
  | .bool false, _ => derives_constant rfl (by decide) .false
  | .null, _ => derives_constant rfl (by decide) .null
  | .var name, h => derives_constant rfl (IsName.tokens h) (.var (And.right h))
  | .self, _ => derives_constant rfl (by decide) .self
  | .list items, h => by
    rw [tokens_list]
    exact .tighter (.list (itemsDerive items h.2))
  | .map entries, h => by
    rw [tokens_map]
    exact .tighter (.map (entriesDerive entries h.2))
  | .binary op left right, h => by
    obtain ⟨-, greatest⟩ := Parse.level_pos op
    rw [tokens_binary]
    exact .binary op (derives_within (derives left h.2.1) (by omega)) (derives_within (derives right h.2.2) (by omega))
  | .unary op operand, h => by
    rw [tokens_unary]
    have tightest : unaryLevel ≤ 9 := by decide
    have inner := derives_within (derives operand h.2) tightest
    cases op with
    | not => exact .not inner
    | negate => exact .negative inner
  | .property object name, h => by
    rw [tokens_property object h.1]
    exact .property (derives_within (derives object h.2) (by decide)) (And.right h.1)
  | .index object key, h => by
    rw [tokens_index]
    exact .index (derives_within (derives object h.2.1) (by decide)) ((derives key h.2.2).loosen key.level_bounds.1)
  | .call object method args, h => by
    rw [tokens_call object h.1]
    exact .call (derives_within (derives object h.2.1) (by decide)) (And.right h.1) (itemsDerive args h.2.2)
  | .superCall method args, h => by
    rw [tokens_superCall h.1]
    exact .tighter (.superCall (And.right h.1) (itemsDerive args h.2))
  | .staticCall className method args, h => by
    obtain ⟨n, ns, free, tokens, rfl⟩ := IsDotted.path h.1.1
    rw [tokens_staticCall h.1.2, tokens]
    exact .tighter (.staticCall free h.1.2.2 (itemsDerive args h.2))
  | .functionCall name args, h => by
    rw [tokens_functionCall h.1]
    exact .tighter (.functionCall (And.right h.1) (itemsDerive args h.2))
  | .create className args, h => by
    obtain ⟨n, ns, free, tokens, rfl⟩ := IsDotted.path h.1
    rw [tokens_create, tokens]
    exact .tighter (.create free (itemsDerive args h.2))

theorem itemsDerive : ∀ items : List Expr, EveryItem Spelt items → DerivesItems (itemTokens items) (rereadItems items)
  | [], _ => .nil
  | [e], h => .last ((derives e h.1).loosen e.level_bounds.1)
  | e :: f :: es, h => by
    rw [itemTokens_cons]
    exact .cons ((derives e h.1).loosen e.level_bounds.1) (itemsDerive (f :: es) h.2)

theorem entriesDerive : ∀ entries : List (String × Expr), EveryEntry Spelt entries →
    DerivesEntries (mapTokens entries) (rereadEntries entries)
  | [], _ => .nil
  | [(k, e)], h => by
    rw [mapTokens_single]
    exact .last ((derives e h.1).loosen e.level_bounds.1)
  | (k, e) :: f :: es, h => by
    rw [mapTokens_cons]
    exact .cons ((derives e h.1).loosen e.level_bounds.1) (entriesDerive (f :: es) h.2)

end

theorem beginsExpr (e : Expr) (h : e.Every Spelt) : BeginsExpr e.tokens :=
  (derives e h).beginsExpr

/-- An expression is read up to what does not go on with it. -/
theorem reads {e : Expr} (h : e.Every Spelt) {ys : List Token} (follow : Parse.Follows 0 ys) :
    Parse.Reads Parse.expression (e.tokens ++ ys) e.reread ys :=
  ((derives e h).loosen e.level_bounds.1).reads follow

end Expr

end AspectProxy
