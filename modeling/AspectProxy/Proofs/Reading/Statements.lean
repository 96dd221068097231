import AspectProxy.Proofs.Reading.Expressions

/-!
The tokens of a statement are read as the statement. A condition without `else` must not stand in front of one; between
braces it never does, since no statement begins with that word.
-/

namespace AspectProxy

namespace Parse

variable {xs ys zs : List Token}

/-- The place where a reader stands makes no difference to what it reads. -/
theorem leads_get {f : TokenStream → Parse α} {k : Parse α} (next : ∀ ts, Leads (f ts) xs k ys) :
    Leads (get >>= f) xs k ys :=
  fun ts same => next ts ts same

section Braces

variable {item : Parse α} {a : α} {as : List α} {fuel : Nat}

theorem bracedItems_end : Reads (bracedItems item (fuel + 1)) (.symbol .closeBrace :: ys) [] ys := by
  simp only [bracedItems, eatSymbol, leads_eat_cons, if_true]
  exact .refl _ _

theorem bracedItems_cons {t : Token} (first : t ≠ .symbol .closeBrace) (read : Reads item (t :: xs) a zs)
    (more : Reads (bracedItems item fuel) zs as ys) : Reads (bracedItems item (fuel + 1)) (t :: xs) (a :: as) ys := by
  simp only [bracedItems, eatSymbol, leads_eat_cons, first, if_false, Bool.false_eq_true, leads_peek, List.head?_cons,
    Option.isNone_some]
  exact read.then (more.then (.refl _ _))

theorem braced_reads (read : ∀ fuel > xs.length, Reads (bracedItems item fuel) (xs ++ .symbol .closeBrace :: ys) as ys) :
    Reads (braced item) (.symbol .openBrace :: xs ++ .symbol .closeBrace :: ys) as ys := by
  simp only [braced, List.cons_append, leads_expectSymbol, leads_bounded]
  exact read _ (by simp only [List.length_append, List.length_cons]; omega)

end Braces

theorem typeClause_reads {type : Option TypeRef} (h : ∀ t ∈ type, t.WellFormed) (noColon : ys.head? ≠ some (.symbol .colon))
    (noDot : ys.head? ≠ some (.symbol .dot)) (noMark : ys.head? ≠ some (.symbol .question)) :
    Reads typeClause ((TypeRef.colonPieces type).flatMap Piece.tokens ++ ys) type ys := by
  cases type with
  | none =>
    simp only [TypeRef.colonPieces, List.flatMap_nil, List.nil_append, typeClause, after?, eatSymbol,
      leads_eat_other noColon, Bool.false_eq_true, if_false]
    exact .refl _ _
  | some t =>
    simp only [TypeRef.colonPieces, List.flatMap_cons, Piece.tokens_symbol, Piece.tokens_space, List.nil_append,
      List.cons_append, typeClause, after?, eatSymbol, leads_eat_cons, if_true]
    exact (TypeRef.reads (h t rfl) noDot noMark).then (.refl _ _)

end Parse

/-- The words that statements other than assignments and expressions begin with. -/
def statementWords : List String :=
  ["let", "return", "if", "while", "for", "break", "continue"]

/-- Tokens that begin as a statement does. -/
def BeginsStatement (xs : List Token) : Prop :=
  BeginsExpr xs ∨ ∃ w ∈ statementWords, ∃ rest, xs = .name w :: rest

theorem BeginsStatement.head {xs : List Token} (h : BeginsStatement xs) :
    ∃ t rest, xs = t :: rest ∧ t ≠ .symbol .closeBrace ∧ t ≠ .name "else" := by
  rcases h with ⟨t, rest, rfl, starts⟩ | ⟨w, listed, rest, rfl⟩
  · refine ⟨t, rest, rfl, ?_, ?_⟩
    · rintro rfl
      exact absurd starts (by decide)
    · rintro rfl
      exact absurd starts (by decide)
  · refine ⟨_, rest, rfl, nofun, ?_⟩
    rintro ⟨⟩
    exact absurd listed (by decide)

theorem tokens_reserved : ∀ w ∈ reservedWords, (Piece.word w).tokens = [.name w] := by
  decide

namespace Statement

/-- The tokens that a statement is written as. -/
def tokens (width depth : Nat) (s : Statement) : List Token :=
  (s.pieces width depth).flatMap Piece.tokens

/-- The tokens that statements on lines of their own are written as. -/
def blockTokens (width depth : Nat) (block : Block) : List Token :=
  (lines width depth block).flatMap Piece.tokens

def elseTokens (width depth : Nat) (block : Block) : List Token :=
  (elsePieces width depth block).flatMap Piece.tokens

theorem blockTokens_cons (width depth : Nat) (s : Statement) (rest : Block) :
    blockTokens width depth (s :: rest) = s.tokens width depth ++ blockTokens width depth rest := by
  simp [blockTokens, lines, tokens]

theorem flatMap_braces (width depth : Nat) (lines : List Piece) : (braces width depth lines).flatMap Piece.tokens =
    .symbol .openBrace :: lines.flatMap Piece.tokens ++ [.symbol .closeBrace] := by
  simp [braces]

section Tokens

variable (width depth : Nat)

theorem tokens_declare {name : String} (h : IsName name) (type : Option TypeRef) (value : Expr) :
    tokens width depth (.declare name type value) = .name "let" :: .name name ::
      ((TypeRef.colonPieces type).flatMap Piece.tokens ++ .symbol .equal :: (value.tokens ++ [.symbol .semicolon])) := by
  simp [tokens, pieces, tokens_reserved "let" (by decide), h.tokens, Expr.tokens]

theorem tokens_assign (target : Target) (value : Expr) : tokens width depth (.assign target value) =
    target.toExpr.tokens ++ .symbol .equal :: (value.tokens ++ [.symbol .semicolon]) := by
  simp [tokens, pieces, Expr.tokens]

theorem tokens_expr (e : Expr) : tokens width depth (.expr e) = e.tokens ++ [.symbol .semicolon] := by
  simp [tokens, pieces, Expr.tokens]

theorem tokens_return_none : tokens width depth (.return none) = [.name "return", .symbol .semicolon] := by
  simp [tokens, pieces, tokens_reserved "return" (by decide)]

theorem tokens_return_some (e : Expr) :
    tokens width depth (.return (some e)) = .name "return" :: (e.tokens ++ [.symbol .semicolon]) := by
  simp [tokens, pieces, tokens_reserved "return" (by decide), Expr.tokens]

/-- The tokens of an expression in parentheses and a block behind it. -/
def headTokens (condition : Expr) (body : Block) : List Token :=
  .symbol .openParen :: (condition.tokens ++ .symbol .closeParen ::
    (.symbol .openBrace :: blockTokens width (depth + 1) body ++ [.symbol .closeBrace]))

theorem tokens_cond_none (condition : Expr) (body : Block) :
    tokens width depth (.cond condition body none) = .name "if" :: headTokens width depth condition body := by
  simp [tokens, pieces, condHead, headTokens, tokens_reserved "if" (by decide), Expr.tokens, flatMap_braces, blockTokens]

theorem tokens_cond_some (condition : Expr) (body otherwise : Block) :
    tokens width depth (.cond condition body (some otherwise)) =
      .name "if" :: headTokens width depth condition body ++ .name "else" :: elseTokens width depth otherwise := by
  simp [tokens, pieces, condHead, headTokens, elseTokens, tokens_reserved "if" (by decide),
    tokens_reserved "else" (by decide), Expr.tokens, flatMap_braces, blockTokens]

theorem tokens_while (condition : Expr) (body : Block) :
    tokens width depth (.while condition body) = .name "while" :: headTokens width depth condition body := by
  simp [tokens, pieces, whileHead, headTokens, tokens_reserved "while" (by decide), Expr.tokens, flatMap_braces,
    blockTokens]

theorem tokens_for {name : String} (h : IsName name) (iterable : Expr) (body : Block) :
    tokens width depth (.for name iterable body) = .name "for" :: .symbol .openParen :: .name name :: .name "in" ::
      (iterable.tokens ++ .symbol .closeParen ::
        (.symbol .openBrace :: blockTokens width (depth + 1) body ++ [.symbol .closeBrace])) := by
  simp [tokens, pieces, forHead, tokens_reserved "for" (by decide), tokens_reserved "in" (by decide), h.tokens,
    Expr.tokens, flatMap_braces, blockTokens]

theorem tokens_break : tokens width depth .break = [.name "break", .symbol .semicolon] := by
  simp [tokens, pieces, tokens_reserved "break" (by decide)]

theorem tokens_continue : tokens width depth .continue = [.name "continue", .symbol .semicolon] := by
  simp [tokens, pieces, tokens_reserved "continue" (by decide)]

/-- What stands behind `else` is one condition or a block. -/
theorem elseTokens_eq (block : Block) :
    (∃ s, block = [s] ∧ s.isCond = true ∧ elseTokens width depth block = s.tokens width depth) ∨
      elseTokens width depth block =
        .symbol .openBrace :: blockTokens width (depth + 1) block ++ [.symbol .closeBrace] := by
  cases block with
  | nil => exact .inr (flatMap_braces _ _ _)
  | cons s rest =>
    unfold elseTokens elsePieces
    split
    case isTrue single =>
      simp only [Bool.and_eq_true, List.isEmpty_iff] at single
      exact .inl ⟨s, by rw [single.2], single.1, rfl⟩
    case isFalse => exact .inr (flatMap_braces _ _ _)

theorem beginsStatement (s : Statement) (h : s.Every Statement.Sound Expr.Spelt) :
    BeginsStatement (s.tokens width depth) := by
  cases s with
  | declare name type value =>
    rw [tokens_declare _ _ h.1.1]
    exact .inr ⟨_, by decide, _, rfl⟩
  | assign target value =>
    rw [tokens_assign]
    exact .inl ((Expr.beginsExpr _ h.1).append _)
  | expr e =>
    rw [tokens_expr]
    exact .inl ((Expr.beginsExpr e h).append _)
  | «return» value =>
    cases value with
    | none =>
      rw [tokens_return_none]
      exact .inr ⟨_, by decide, _, rfl⟩
    | some e =>
      rw [tokens_return_some]
      exact .inr ⟨_, by decide, _, rfl⟩
  | cond condition thenBranch elseBranch =>
    cases elseBranch with
    | none =>
      rw [tokens_cond_none]
      exact .inr ⟨_, by decide, _, rfl⟩
    | some otherwise =>
      rw [tokens_cond_some]
      exact .inr ⟨_, by decide, _, rfl⟩
  | «while» condition body =>
    rw [tokens_while]
    exact .inr ⟨_, by decide, _, rfl⟩
  | «for» name iterable body =>
    rw [tokens_for _ _ h.1]
    exact .inr ⟨_, by decide, _, rfl⟩
  | «break» =>
    rw [tokens_break]
    exact .inr ⟨_, by decide, _, rfl⟩
  | «continue» =>
    rw [tokens_continue]
    exact .inr ⟨_, by decide, _, rfl⟩

end Tokens

open Parse

variable {xs ys : List Token}

theorem ofExpr?_reread (target : Target) : Target.ofExpr? target.toExpr.reread = some target.reread := by
  cases target <;> rfl

theorem expressionStatement_expr {e : Expr} (h : e.Every Expr.Spelt) :
    Reads expressionStatement (e.tokens ++ .symbol .semicolon :: ys) (.expr e.reread) ys := by
  refine leads_get fun _ => ?_
  refine (Expr.reads h (.of_symbol rfl (by decide) ys)).then ?_
  simp only [eatSymbol, leads_eat_cons, Token.symbol.injEq, reduceCtorEq, if_false, Bool.false_eq_true,
    leads_expectSymbol]
  exact .refl _ _

theorem expressionStatement_assign {target : Target} {value : Expr} (written : target.toExpr.Every Expr.Spelt)
    (valued : value.Every Expr.Spelt) :
    Reads expressionStatement
      (target.toExpr.tokens ++ .symbol .equal :: (value.tokens ++ .symbol .semicolon :: ys))
      (.assign target.reread value.reread) ys := by
  refine leads_get fun _ => ?_
  refine (Expr.reads written (.of_symbol rfl (by decide) _)).then ?_
  simp only [eatSymbol, leads_eat_cons, if_true, ofExpr?_reread]
  refine (Expr.reads valued (.of_symbol rfl (by decide) ys)).then ?_
  simp only [leads_expectSymbol]
  exact .refl _ _

/-- What begins as an expression does is read as an expression or an assignment. -/
theorem statementOver_expression {statement : Parse Statement} {s : Statement} (h : BeginsExpr xs)
    (reads : Reads expressionStatement xs s ys) : Reads (statementOver statement) xs s ys := by
  have other : ∀ w ∈ statementWords, xs.head? ≠ some (.name w) := by
    intro w listed
    refine h.head_ne ?_
    revert w
    decide
  simp only [statementOver, eatWord, leads_eat_other (other "let" (by decide)), leads_eat_other (other "return" (by decide)),
    leads_eat_other (other "if" (by decide)), leads_eat_other (other "while" (by decide)),
    leads_eat_other (other "for" (by decide)), leads_eat_other (other "break" (by decide)),
    leads_eat_other (other "continue" (by decide)), Bool.false_eq_true, if_false]
  exact reads

/-- What is read behind the word that a statement begins with. -/
def behindWord (statement : Parse Statement) : String → Option (Parse Statement)
  | "let" => some declareRest
  | "return" => some returnRest
  | "if" => some (condRest statement)
  | "while" => some (whileRest statement)
  | "for" => some (forRest statement)
  | "break" => some (expectSymbol .semicolon >>= fun _ => pure .break)
  | "continue" => some (expectSymbol .semicolon >>= fun _ => pure .continue)
  | _ => none

theorem statementOver_word {statement rest k : Parse Statement} {w : String} {zs : List Token}
    (begins : behindWord statement w = some rest) (next : Leads rest xs k zs) :
    Leads (statementOver statement) (.name w :: xs) k zs := by
  unfold behindWord at begins
  split at begins <;> cases begins <;>
    simpa only [statementOver, eatWord, leads_eat_cons, Token.name.injEq, String.reduceEq, if_false, Bool.false_eq_true,
      if_true] using next

/-- Reading a statement with blocks less deep than there are tokens. -/
def ReadsWithin (s : Statement) : Prop :=
  ∀ (width depth d : Nat), (s.tokens width depth).length ≤ d → ∀ {ys : List Token}, ys.head? ≠ some (.name "else") →
    Reads (statementWithin d) (s.tokens width depth ++ ys) s.reread ys

/-- No statement begins as an `else` or with a closing brace, so lines behind a statement do neither. -/
theorem blockTokens_head {width depth : Nat} {block : Block} (h : EveryIn Statement.Sound Expr.Spelt block) :
    (blockTokens width depth block ++ .symbol .closeBrace :: ys).head? ≠ some (.name "else") := by
  cases block with
  | nil => simp [blockTokens, lines]
  | cons s rest =>
    obtain ⟨t, more, text, -, noElse⟩ := (beginsStatement width depth s h.1).head
    simpa [blockTokens_cons, text] using noElse

theorem length_tokens_le {width depth : Nat} {block : Block} {s : Statement} (hs : s ∈ block) :
    (s.tokens width depth).length ≤ (blockTokens width depth block).length := by
  induction block with
  | nil => cases hs
  | cons t rest ih =>
    rw [blockTokens_cons, List.length_append]
    rcases List.mem_cons.mp hs with rfl | hs
    · exact Nat.le_add_right _ _
    · exact Nat.le_add_left_of_le (ih hs)

/-- Statements on lines of their own are read up to the closing brace. -/
theorem linesReads {item : Parse Statement} {width depth : Nat} {block : Block}
    (h : EveryIn Statement.Sound Expr.Spelt block)
    (each : ∀ s ∈ block, ∀ ys : List Token, ys.head? ≠ some (.name "else") →
      Reads item (s.tokens width depth ++ ys) s.reread ys) :
    ∀ fuel > (blockTokens width depth block).length,
      Reads (bracedItems item fuel) (blockTokens width depth block ++ .symbol .closeBrace :: ys)
        (rereadBlock block) ys := by
  induction block with
  | nil =>
    intro fuel enough
    obtain ⟨fuel, rfl⟩ : ∃ k, fuel = k + 1 := ⟨fuel - 1, by omega⟩
    exact bracedItems_end
  | cons s rest ih =>
    intro fuel enough
    obtain ⟨fuel, rfl⟩ : ∃ k, fuel = k + 1 := ⟨fuel - 1, by omega⟩
    obtain ⟨first, each⟩ := List.forall_mem_cons.mp each
    obtain ⟨t, more, text, noBrace, -⟩ := (beginsStatement width depth s h.1).head
    have short : (blockTokens width depth rest).length < fuel := by
      rw [blockTokens_cons, List.length_append, text, List.length_cons] at enough
      omega
    have follow : (blockTokens width depth rest ++ .symbol .closeBrace :: ys).head? ≠ some (.name "else") :=
      blockTokens_head h.2
    have read := first _ follow
    rw [blockTokens_cons, List.append_assoc]
    rw [text, List.cons_append] at read ⊢
    exact bracedItems_cons noBrace read (ih h.2 each fuel short)

/-- A block between its braces. -/
theorem bracedReads {block : Block} (each : ∀ s ∈ block, s.ReadsWithin)
    (h : EveryIn Statement.Sound Expr.Spelt block) {width depth d : Nat}
    (deep : (blockTokens width depth block).length ≤ d) (ys : List Token) :
    Reads (braced (statementWithin d))
      (.symbol .openBrace :: blockTokens width depth block ++ .symbol .closeBrace :: ys) (rereadBlock block) ys :=
  braced_reads (linesReads h fun s hs _ => each s hs width depth d ((length_tokens_le hs).trans deep))

/-- What stands behind `else` is read as one condition or as a block. -/
theorem elseReads {block : Block} (each : ∀ s ∈ block, s.ReadsWithin)
    (h : EveryIn Statement.Sound Expr.Spelt block) {width depth d : Nat}
    (deep : (elseTokens width depth block).length ≤ d) (noElse : ys.head? ≠ some (.name "else"))
    (f : Block → Statement) :
    Leads (if decide ((elseTokens width depth block ++ ys).head? = some (.name "if")) = true then do
        return f [← statementWithin d]
      else return f (← braced (statementWithin d)))
      (elseTokens width depth block ++ ys) (pure (f (rereadBlock block))) ys := by
  rcases elseTokens_eq width depth block with ⟨s, rfl, single, text⟩ | text
  · rw [text] at deep ⊢
    have starts : (s.tokens width depth ++ ys).head? = some (.name "if") := by
      cases s with
      | cond condition body otherwise => cases otherwise <;> simp [tokens_cond_none, tokens_cond_some]
      | _ => cases single
    rw [if_pos (decide_eq_true starts)]
    exact (each s List.mem_cons_self width depth d deep noElse).then (.refl _ _)
  · rw [text] at deep ⊢
    simp only [List.length_cons, List.length_append] at deep
    simp only [List.cons_append, List.append_assoc, List.nil_append, List.head?_cons, Option.some.injEq, reduceCtorEq,
      decide_false, Bool.false_eq_true, if_false]
    exact (bracedReads each h (by omega) ys).then (.refl _ _)

/-- A condition in parentheses and a block are read where a word stood in front of them. -/
theorem headTokens_reads {width depth d : Nat} {condition : Expr} (h : condition.Every Expr.Spelt) {body : Block}
    (block : ∀ ys, Reads (braced (statementWithin d))
      (.symbol .openBrace :: blockTokens width (depth + 1) body ++ .symbol .closeBrace :: ys) (rereadBlock body) ys)
    {f : Expr → Block → Parse α} {k : Parse α} {zs : List Token}
    (next : Leads (f condition.reread (rereadBlock body)) ys k zs) :
    Leads (do
        expectSymbol .openParen
        let condition ← expression
        expectSymbol .closeParen
        let body ← braced (statementWithin d)
        f condition body) (headTokens width depth condition body ++ ys) k zs := by
  simp only [headTokens, List.cons_append, List.append_assoc, List.nil_append, leads_expectSymbol]
  refine (Expr.reads h (.of_symbol rfl (by decide) _)).then ?_
  simp only [leads_expectSymbol]
  exact (block ys).then next

mutual

/-- The tokens of a statement are read as the statement that its text holds. -/
theorem readsWithin : ∀ s : Statement, s.Every Statement.Sound Expr.Spelt → s.ReadsWithin
  | .declare name type value, h, width, depth, d + 1, deep, ys, _ => by
    rw [tokens_declare _ _ h.1.1]
    simp only [List.cons_append, List.append_assoc, List.nil_append]
    refine statementOver_word rfl ?_
    simp only [declareRest, identifier, leads_identifierFor h.1.1.2]
    refine (typeClause_reads h.1.2 (by simp) (by simp) (by simp)).then ?_
    simp only [leads_expectSymbol]
    refine (Expr.reads h.2 (.of_symbol rfl (by decide) ys)).then ?_
    simp only [leads_expectSymbol]
    exact .refl _ _
  | .assign target value, h, width, depth, d + 1, _, ys, _ => by
    rw [tokens_assign]
    simp only [List.cons_append, List.append_assoc, List.nil_append]
    exact statementOver_expression ((Expr.beginsExpr _ h.1).append _) (expressionStatement_assign h.1 h.2)
  | .expr e, h, width, depth, d + 1, _, ys, _ => by
    rw [tokens_expr]
    simp only [List.append_assoc, List.cons_append, List.nil_append]
    exact statementOver_expression ((Expr.beginsExpr e h).append _) (expressionStatement_expr h)
  | .return none, _, width, depth, d + 1, _, ys, _ => by
    rw [tokens_return_none]
    simp only [List.cons_append, List.nil_append]
    refine statementOver_word rfl ?_
    simp only [returnRest, leads_next, List.head?_cons, decide_true, if_true, pure_bind, leads_expectSymbol]
    exact .refl _ _
  | .return (some e), h, width, depth, d + 1, _, ys, _ => by
    have value : Reads expression (e.tokens ++ .symbol .semicolon :: ys) e.reread (.symbol .semicolon :: ys) :=
      Expr.reads h (.of_symbol rfl (by decide) ys)
    have other : (e.tokens ++ .symbol .semicolon :: ys).head? ≠ some (.symbol .semicolon) :=
      ((Expr.beginsExpr e h).append _).head_ne (by decide)
    rw [tokens_return_some]
    simp only [List.cons_append, List.append_assoc, List.nil_append]
    refine statementOver_word rfl ?_
    simp only [returnRest, leads_next, decide_eq_false other, Bool.false_eq_true, if_false]
    refine (value.map some).then ?_
    simp only [leads_expectSymbol]
    exact .refl _ _
  | .cond condition body none, h, width, depth, d + 1, deep, ys, noElse => by
    rw [tokens_cond_none] at deep ⊢
    simp only [headTokens, List.length_cons, List.length_append, List.length_nil] at deep
    refine statementOver_word rfl (headTokens_reads h.1 (bracedReads (eachReads body h.2) h.2 (by omega)) ?_)
    simp only [eatWord, leads_eat_other noElse, Bool.false_eq_true, if_false]
    exact .refl _ _
  | .cond condition body (some otherwise), h, width, depth, d + 1, deep, ys, noElse => by
    rw [tokens_cond_some] at deep ⊢
    simp only [headTokens, List.length_cons, List.length_append, List.length_nil] at deep
    simp only [List.cons_append, List.append_assoc]
    refine statementOver_word rfl (headTokens_reads h.1 (bracedReads (eachReads body h.2.1) h.2.1 (by omega)) ?_)
    simp only [eatWord, leads_eat_cons, if_true, leads_next]
    exact elseReads (eachReads otherwise h.2.2) h.2.2 (by omega) noElse _
  | .while condition body, h, width, depth, d + 1, deep, ys, _ => by
    rw [tokens_while] at deep ⊢
    simp only [headTokens, List.length_cons, List.length_append, List.length_nil] at deep
    exact statementOver_word rfl (headTokens_reads h.1 (bracedReads (eachReads body h.2) h.2 (by omega)) (.refl _ _))
  | .for name iterable body, h, width, depth, d + 1, deep, ys, _ => by
    rw [tokens_for _ _ h.1] at deep ⊢
    simp only [List.length_cons, List.length_append, List.length_nil] at deep
    simp only [List.cons_append, List.append_assoc, List.nil_append]
    refine statementOver_word rfl ?_
    simp only [forRest, leads_expectSymbol, identifier, leads_identifierFor h.1.2, leads_expectWord]
    refine (Expr.reads h.2.1 (.of_symbol rfl (by decide) _)).then ?_
    simp only [leads_expectSymbol]
    exact (bracedReads (eachReads body h.2.2) h.2.2 (by omega) ys).then (.refl _ _)
  | .break, _, width, depth, d + 1, _, ys, _ => by
    rw [tokens_break]
    simp only [List.cons_append, List.nil_append]
    refine statementOver_word rfl ?_
    simp only [leads_expectSymbol]
    exact .refl _ _
  | .continue, _, width, depth, d + 1, _, ys, _ => by
    rw [tokens_continue]
    simp only [List.cons_append, List.nil_append]
    refine statementOver_word rfl ?_
    simp only [leads_expectSymbol]
    exact .refl _ _
  | s, h, width, depth, 0, deep, ys, _ => by
    obtain ⟨t, rest, text, -⟩ := (beginsStatement width depth s h).head
    rw [text] at deep
    exact absurd deep (by simp)

theorem eachReads : ∀ block : Block, EveryIn Statement.Sound Expr.Spelt block → ∀ s ∈ block, s.ReadsWithin
  | [], _ => nofun
  | s :: rest, h => List.forall_mem_cons.mpr ⟨readsWithin s h.1, eachReads rest h.2⟩

end

end Statement

namespace Parse

/-- A block is read as the statements that its text holds. -/
theorem block_reads {body : Block} (h : Statement.EveryIn Statement.Sound Expr.Spelt body) (width depth : Nat)
    (ys : List Token) :
    Reads block (.symbol .openBrace :: Statement.blockTokens width depth body ++ .symbol .closeBrace :: ys)
      (Statement.rereadBlock body) ys := by
  refine braced_reads (Statement.linesReads h fun s hs zs noElse => ?_)
  simp only [statement, leads_bounded]
  exact Statement.eachReads body h s hs width depth _ (by simp only [List.length_append]; omega) noElse

end Parse

end AspectProxy
