import AspectProxy.Proofs.Reading.Statements

/-!
The tokens of a unit are read as the unit: its package, its imports and its declarations with their members, each up to
the first token that is no part of it.
-/

namespace AspectProxy

open Parse

variable {xs ys : List Token}

/-- The words that are modifiers. -/
def modifierWords : List String :=
  ["public", "protected", "private", "static", "final"]

theorem modifiersFrom_end (ends : ∀ w ∈ modifierWords, ys.head? ≠ some (.name w)) (fuel : Nat) (m : Modifiers) :
    Reads (modifiersFrom fuel m) ys m ys := by
  cases fuel with
  | zero => exact .refl _ _
  | succ fuel =>
    simp only [modifiersFrom, eatWord, leads_eat_other (ends "public" (by decide)),
      leads_eat_other (ends "protected" (by decide)), leads_eat_other (ends "private" (by decide)),
      leads_eat_other (ends "static" (by decide)), leads_eat_other (ends "final" (by decide)), Bool.false_eq_true, if_false]
    exact .refl _ _

theorem modifiersFrom_visibility (v : Visibility) (fuel : Nat) (m : Modifiers) :
    Leads (modifiersFrom (fuel + 1) m) (.name v.keyword :: ys) (modifiersFrom fuel { m with visibility := v }) ys := by
  cases v <;> simp [modifiersFrom, eatWord, Visibility.keyword] <;> exact .refl _ _

theorem modifiersFrom_static (fuel : Nat) (m : Modifiers) :
    Leads (modifiersFrom (fuel + 1) m) (.name "static" :: ys) (modifiersFrom fuel { m with isStatic := true }) ys := by
  simp [modifiersFrom, eatWord]
  exact .refl _ _

theorem modifiersFrom_final (fuel : Nat) (m : Modifiers) :
    Leads (modifiersFrom (fuel + 1) m) (.name "final" :: ys) (modifiersFrom fuel { m with isFinal := true }) ys := by
  simp [modifiersFrom, eatWord]
  exact .refl _ _

theorem Modifiers.tokens_eq (m : Modifiers) : m.pieces.flatMap Piece.tokens =
    .name m.visibility.keyword :: ((if m.isStatic then [.name "static"] else []) ++
      (if m.isFinal then [.name "final"] else [])) := by
  obtain ⟨visibility, isStatic, isFinal⟩ := m
  have keyword : (Piece.word visibility.keyword).tokens = [.name visibility.keyword] := by
    cases visibility <;> exact tokens_reserved _ (by decide)
  cases isStatic <;> cases isFinal <;>
    simp [Modifiers.pieces, keyword, tokens_reserved "static" (by decide),
      tokens_reserved "final" (by decide)]

/-- Modifiers are read up to what is no modifier. -/
theorem modifiers_reads (m : Modifiers) (ends : ∀ w ∈ modifierWords, ys.head? ≠ some (.name w)) :
    Reads modifiers (m.pieces.flatMap Piece.tokens ++ ys) m ys := by
  rw [m.tokens_eq]
  simp only [modifiers, leads_bounded, List.cons_append, List.length_cons]
  refine (modifiersFrom_visibility _ _ _).trans ?_
  obtain ⟨visibility, isStatic, isFinal⟩ := m
  cases isStatic <;> cases isFinal
  · exact modifiersFrom_end ends _ _
  · exact (modifiersFrom_final _ _).trans (modifiersFrom_end ends _ _)
  · exact (modifiersFrom_static _ _).trans (modifiersFrom_end ends _ _)
  · exact (modifiersFrom_static _ _).trans ((modifiersFrom_final _ _).trans (modifiersFrom_end ends _ _))

theorem defaultValue_reads {default : Option Expr} (h : ∀ e ∈ default, e.Every Expr.Spelt) (follow : Follows 0 ys)
    (noEqual : ys.head? ≠ some (.symbol .equal)) :
    Reads defaultValue ((Expr.defaultPieces default).flatMap Piece.tokens ++ ys) (default.map Expr.reread) ys := by
  cases default with
  | none =>
    simp only [Expr.defaultPieces, List.flatMap_nil, List.nil_append, defaultValue, after?, eatSymbol,
      leads_eat_other noEqual, Bool.false_eq_true, if_false]
    exact .refl _ _
  | some e =>
    have tokens : (Expr.defaultPieces (some e)).flatMap Piece.tokens = .symbol .equal :: e.tokens := by
      simp [Expr.defaultPieces, Expr.tokens]
    simp only [tokens, List.cons_append, defaultValue, after?, eatSymbol, leads_eat_cons, if_true]
    exact (Expr.reads (h e rfl) follow).then (.refl _ _)

/-- What follows a name with its type and default value. -/
structure EndsClause (ys : List Token) : Prop where
  follow : Follows 0 ys
  plain : ∀ s ∈ [Symbol.colon, .dot, .question, .equal], ys.head? ≠ some (.symbol s)

theorem EndsClause.of_symbol {s : Symbol} (h : s ∈ [.semicolon, .comma, .closeParen]) (ys : List Token) :
    EndsClause (.symbol s :: ys) := by
  simp only [List.mem_cons, List.not_mem_nil, or_false] at h
  rcases h with rfl | rfl | rfl
  all_goals exact ⟨.of_symbol rfl (by decide) ys, by simp⟩

/-- A type and a default value, either of which may be missing. -/
theorem clause_reads {type : Option TypeRef} (typed : ∀ t ∈ type, t.WellFormed) {default : Option Expr}
    (valued : ∀ e ∈ default, e.Every Expr.Spelt) (ends : EndsClause ys) :
    Reads typeClause
      ((TypeRef.colonPieces type).flatMap Piece.tokens ++ ((Expr.defaultPieces default).flatMap Piece.tokens ++ ys)) type
      ((Expr.defaultPieces default).flatMap Piece.tokens ++ ys) := by
  have plain : ∀ s ∈ [Symbol.colon, .dot, .question],
      ((Expr.defaultPieces default).flatMap Piece.tokens ++ ys).head? ≠ some (.symbol s) := by
    intro s hs
    cases default with
    | none => exact ends.plain s (by revert hs; revert s; decide)
    | some e =>
      revert hs
      revert s
      simp [Expr.defaultPieces]
  exact typeClause_reads typed (plain _ (by decide)) (plain _ (by decide)) (plain _ (by decide))

/-- The tokens of a parameter. -/
def Parameter.tokens (p : Parameter) : List Token :=
  p.pieces.flatMap Piece.tokens

theorem Parameter.tokens_eq {p : Parameter} (h : IsName p.name) : p.tokens = .name p.name ::
    ((TypeRef.colonPieces p.type).flatMap Piece.tokens ++ (Expr.defaultPieces p.default).flatMap Piece.tokens) := by
  simp [tokens, pieces, h.tokens]

def parameterTokens (ps : List Parameter) : List Token :=
  (Piece.commaJoin (ps.map Parameter.pieces)).flatMap Piece.tokens

theorem parameterTokens_single (p : Parameter) : parameterTokens [p] = p.tokens :=
  rfl

theorem parameterTokens_cons (p q : Parameter) (ps : List Parameter) :
    parameterTokens (p :: q :: ps) = p.tokens ++ .symbol .comma :: parameterTokens (q :: ps) := by
  simp [parameterTokens, Piece.commaJoin, Parameter.tokens]

/-- Parameters that are not yet taken are read up to the closing parenthesis. -/
theorem parametersFrom_reads {ps : List Parameter} (h : ∀ p ∈ ps, p.Sound ∧ p.Every Expr.Spelt) (nonempty : ps ≠ [])
    {taken : List String} (distinct : (ps.map (·.name)).Nodup) (free : ∀ p ∈ ps, p.name ∉ taken) :
    ∀ fuel > (parameterTokens ps).length, Reads (parametersFrom fuel taken)
      (parameterTokens ps ++ .symbol .closeParen :: ys) (ps.map Parameter.reread) ys := by
  induction ps generalizing taken with
  | nil => exact absurd rfl nonempty
  | cons p ps ih =>
    intro fuel enough
    obtain ⟨fuel, rfl⟩ : ∃ k, fuel = k + 1 := ⟨fuel - 1, by omega⟩
    obtain ⟨⟨sound, valued⟩, h⟩ := List.forall_mem_cons.mp h
    obtain ⟨unused, free⟩ := List.forall_mem_cons.mp free
    rw [List.map_cons, List.nodup_cons] at distinct
    cases ps with
    | nil =>
      rw [parameterTokens_single, Parameter.tokens_eq sound.name]
      have ends : EndsClause (.symbol .closeParen :: ys) := .of_symbol (by simp) ys
      simp only [List.cons_append, List.append_assoc, parametersFrom, identifier, leads_identifierFor sound.name.2,
        if_neg unused]
      refine (clause_reads sound.type valued ends).then ?_
      refine (defaultValue_reads valued ends.follow (ends.plain _ (by decide))).then ?_
      simp only [eatSymbol, leads_eat_cons, if_true]
      exact .refl _ _
    | cons q ps =>
      rw [parameterTokens_cons, List.length_append, List.length_cons] at enough
      rw [parameterTokens_cons, Parameter.tokens_eq sound.name]
      have ends : EndsClause (.symbol .comma :: (parameterTokens (q :: ps) ++ .symbol .closeParen :: ys)) :=
        .of_symbol (by simp) _
      simp only [List.cons_append, List.append_assoc, parametersFrom, identifier, leads_identifierFor sound.name.2,
        if_neg unused]
      refine (clause_reads sound.type valued ends).then ?_
      refine (defaultValue_reads valued ends.follow (ends.plain _ (by decide))).then ?_
      simp only [eatSymbol, leads_eat_cons, Token.symbol.injEq, reduceCtorEq, if_false, Bool.false_eq_true,
        leads_expectSymbol]
      have freeRest : ∀ x ∈ q :: ps, x.name ∉ p.name :: taken := by
        intro x hx same
        rcases List.mem_cons.mp same with same | same
        · exact distinct.1 (same ▸ List.mem_map_of_mem hx)
        · exact free x hx same
      exact (ih h (by simp) distinct.2 freeRest fuel (by omega)).then (.refl _ _)

theorem parameters_reads {ps : List Parameter} (h : ∀ p ∈ ps, p.Sound ∧ p.Every Expr.Spelt)
    (distinct : (ps.map (·.name)).Nodup) :
    Reads parameters (.symbol .openParen :: parameterTokens ps ++ .symbol .closeParen :: ys)
      (ps.map Parameter.reread) ys := by
  simp only [parameters, List.cons_append, leads_expectSymbol, eatSymbol]
  cases ps with
  | nil =>
    show Leads _ (.symbol .closeParen :: ys) _ _
    simp only [leads_eat_cons, if_true]
    exact .refl _ _
  | cons p ps =>
    have starts : ∃ rest, parameterTokens (p :: ps) = .name p.name :: rest := by
      obtain ⟨⟨sound, -⟩, -⟩ := List.forall_mem_cons.mp h
      cases ps with
      | nil => exact ⟨_, Parameter.tokens_eq sound.name⟩
      | cons q ps =>
        rw [parameterTokens_cons, Parameter.tokens_eq sound.name]
        exact ⟨_, rfl⟩
    obtain ⟨rest, text⟩ := starts
    have first : (parameterTokens (p :: ps) ++ .symbol .closeParen :: ys).head? ≠ some (.symbol .closeParen) := by
      simp [text]
    simp only [leads_eat_other first, Bool.false_eq_true, if_false, leads_bounded]
    exact parametersFrom_reads h (by simp) distinct (by simp) _
      (by simp only [List.length_append, List.length_cons]; omega)

/-- The tokens of the type behind the parameters of a method. -/
def resultTokens : Option TypeRef → List Token
  | none => []
  | some t => .symbol .arrow :: t.pieces.flatMap Piece.tokens

theorem result_reads {result : Option TypeRef} (h : ∀ t ∈ result, t.WellFormed) :
    Reads (after? .arrow typeRef) (resultTokens result ++ .symbol .openBrace :: ys) result (.symbol .openBrace :: ys) := by
  cases result with
  | none =>
    simp only [resultTokens, List.nil_append, after?, eatSymbol, leads_eat_cons, Token.symbol.injEq, reduceCtorEq,
      if_false, Bool.false_eq_true]
    exact .refl _ _
  | some t =>
    simp only [resultTokens, List.cons_append, after?, eatSymbol, leads_eat_cons, if_true]
    exact (TypeRef.reads (h t rfl) (by simp) (by simp)).then (.refl _ _)

/-- The tokens of a method behind its modifiers. -/
def Method.restTokens (width depth : Nat) (m : Method) : List Token :=
  .name "fn" :: .name m.name :: (.symbol .openParen :: parameterTokens m.parameters ++ .symbol .closeParen ::
    (resultTokens m.returnType ++
      (.symbol .openBrace :: Statement.blockTokens width (depth + 1) m.body ++ [.symbol .closeBrace])))

theorem Method.tokens_eq {m : Method} (h : IsName m.name) (width depth : Nat) :
    (m.pieces width depth).flatMap Piece.tokens =
      m.modifiers.pieces.flatMap Piece.tokens ++ m.restTokens width depth := by
  unfold pieces
  split
  case h_1 none =>
    simp [none, restTokens, resultTokens, tokens_reserved "fn" (by decide), h.tokens, parameterTokens,
      Statement.flatMap_braces, Statement.blockTokens]
  case h_2 t some =>
    simp [some, restTokens, resultTokens, tokens_reserved "fn" (by decide), h.tokens, parameterTokens,
      Statement.flatMap_braces, Statement.blockTokens]

/-- The tokens of a property behind its modifiers. -/
def Property.restTokens (p : Property) : List Token :=
  .name "let" :: .name p.name :: ((TypeRef.colonPieces p.type).flatMap Piece.tokens ++
    ((Expr.defaultPieces p.default).flatMap Piece.tokens ++ [.symbol .semicolon]))

theorem Property.tokens_eq {p : Property} (h : IsName p.name) :
    p.pieces.flatMap Piece.tokens = p.modifiers.pieces.flatMap Piece.tokens ++ p.restTokens := by
  simp [pieces, restTokens, tokens_reserved "let" (by decide), h.tokens]

theorem methodRest_reads {m : Method} (h : m.Sound) (valued : ∀ p ∈ m.parameters, p.Every Expr.Spelt)
    (body : Statement.EveryIn Statement.Sound Expr.Spelt m.body) (width depth : Nat) :
    Reads (methodRest m.modifiers) ((m.restTokens width depth).tail ++ ys) m.reread ys := by
  simp only [Method.restTokens, List.tail_cons, List.cons_append, List.append_assoc, List.nil_append, methodRest, identifier,
    leads_identifierFor h.name.2]
  have each : ∀ p ∈ m.parameters, p.Sound ∧ p.Every Expr.Spelt := fun p hp => ⟨h.parameters p hp, valued p hp⟩
  refine (parameters_reads each h.distinct).then ?_
  refine (result_reads h.returnType).then ?_
  exact (block_reads body width (depth + 1) ys).then (.refl _ _)

theorem propertyRest_reads {p : Property} (h : p.Sound) (valued : ∀ e ∈ p.default, e.Every Expr.Spelt) :
    Reads (propertyRest p.modifiers) (p.restTokens.tail ++ ys) p.reread ys := by
  have ends : EndsClause (.symbol .semicolon :: ys) := .of_symbol (by simp) ys
  simp only [Property.restTokens, List.tail_cons, List.cons_append, List.append_assoc, List.nil_append, propertyRest,
    identifier, leads_identifierFor h.name.2]
  refine (clause_reads h.type valued ends).then ?_
  refine (defaultValue_reads valued ends.follow (ends.plain _ (by decide))).then ?_
  simp only [leads_expectSymbol]
  exact .refl _ _

/-- The tokens of a member. -/
def Member.tokens (width : Nat) (m : Member) : List Token :=
  (m.pieces width).flatMap Piece.tokens

theorem Member.reads {m : Member} (h : m.Sound) (every : m.Every Statement.Sound Expr.Spelt) (width : Nat) :
    Reads member (m.tokens width ++ ys) m.reread ys := by
  cases m with
  | property p =>
    have tokens : (Member.property p).tokens width =
        p.modifiers.pieces.flatMap Piece.tokens ++ .name "let" :: p.restTokens.tail := by
      rw [Member.tokens, pieces, List.flatMap_cons, Property.tokens_eq h.name]
      rfl
    rw [tokens, List.append_assoc, List.cons_append]
    refine (modifiers_reads p.modifiers (by simp [modifierWords])).then ?_
    simp only [eatWord, leads_eat_cons, if_true]
    exact (propertyRest_reads h every).then (.refl _ _)
  | method m =>
    have tokens : (Member.method m).tokens width =
        m.modifiers.pieces.flatMap Piece.tokens ++ .name "fn" :: (m.restTokens width 1).tail := by
      rw [Member.tokens, pieces, List.flatMap_cons, Method.tokens_eq h.name]
      rfl
    rw [tokens, List.append_assoc, List.cons_append]
    refine (modifiers_reads m.modifiers (by simp [modifierWords])).then ?_
    simp only [eatWord, leads_eat_cons, Token.name.injEq, String.reduceEq, if_false, Bool.false_eq_true, if_true]
    exact (methodRest_reads h every.1 every.2 width 1).then (.refl _ _)

/-- Every member begins with its visibility. -/
theorem Member.tokens_cons {m : Member} (h : m.Sound) (width : Nat) :
    ∃ (v : Visibility) (rest : List Token), m.tokens width = .name v.keyword :: rest := by
  cases m with
  | property p =>
    rw [tokens, pieces, List.flatMap_cons, Property.tokens_eq h.name, p.modifiers.tokens_eq]
    exact ⟨_, _, rfl⟩
  | method m =>
    rw [tokens, pieces, List.flatMap_cons, Method.tokens_eq h.name, m.modifiers.tokens_eq]
    exact ⟨_, _, rfl⟩

theorem flatMap_lineJoin (parts : List (List Piece)) :
    (Piece.lineJoin parts).flatMap Piece.tokens = parts.flatMap (·.flatMap Piece.tokens) := by
  induction parts with
  | nil => rfl
  | cons ps rest ih =>
    cases rest with
    | nil => simp [Piece.lineJoin]
    | cons qs rest => simp [Piece.lineJoin, ih]

theorem members_reads {ms : List Member} (h : ∀ m ∈ ms, m.Sound) (every : ∀ m ∈ ms, m.Every Statement.Sound Expr.Spelt)
    (width : Nat) :
    Reads members (.symbol .openBrace :: ms.flatMap (Member.tokens width) ++ .symbol .closeBrace :: ys)
      (ms.map Member.reread) ys := by
  refine braced_reads ?_
  induction ms with
  | nil =>
    intro fuel enough
    obtain ⟨fuel, rfl⟩ : ∃ k, fuel = k + 1 := ⟨fuel - 1, by omega⟩
    exact bracedItems_end
  | cons m ms ih =>
    intro fuel enough
    obtain ⟨fuel, rfl⟩ : ∃ k, fuel = k + 1 := ⟨fuel - 1, by omega⟩
    obtain ⟨here, h⟩ := List.forall_mem_cons.mp h
    obtain ⟨everyHere, every⟩ := List.forall_mem_cons.mp every
    obtain ⟨v, rest, text⟩ := Member.tokens_cons here width
    have read : Reads member (m.tokens width ++ (ms.flatMap (Member.tokens width) ++ .symbol .closeBrace :: ys)) _ _ :=
      Member.reads here everyHere width
    rw [List.flatMap_cons, List.length_append, text, List.length_cons] at enough
    rw [List.flatMap_cons, List.append_assoc]
    rw [text, List.cons_append] at read ⊢
    exact bracedItems_cons nofun read (ih h every fuel (by omega))

/-- The tokens of a declaration. -/
def Declaration.tokens (width : Nat) (d : Declaration) : List Token :=
  (d.pieces width).flatMap Piece.tokens

def Declaration.memberTokens (width : Nat) (ms : List Member) : List Token :=
  .symbol .openBrace :: ms.flatMap (Member.tokens width) ++ [.symbol .closeBrace]

theorem Declaration.tokens_eq (width : Nat) (d : Declaration) :
    d.tokens width = d.head.flatMap Piece.tokens ++ memberTokens width d.members := by
  have members : (Piece.lineJoin (d.members.map (Member.pieces width))).flatMap Piece.tokens =
      d.members.flatMap (Member.tokens width) := by
    rw [flatMap_lineJoin, List.flatMap_map]
    rfl
  simp [tokens, pieces, memberTokens, members]

/-- The tokens of the name of a class and of its parent's name. -/
def ClassDecl.nameTokens (c : ClassDecl) : List Token :=
  .name c.name :: match c.parent with
    | none => []
    | some p => .name "extends" :: (Piece.word p).tokens

theorem ClassDecl.head_tokens {c : ClassDecl} (h : IsName c.name) :
    (Declaration.class c).head.flatMap Piece.tokens =
      (if c.isFinal then [.name "final"] else []) ++ .name "class" :: c.nameTokens := by
  obtain ⟨name, isFinal, parent, members⟩ := c
  cases isFinal <;> cases parent <;>
    simp [Declaration.head, nameTokens, h.tokens, tokens_reserved "final" (by decide), tokens_reserved "class" (by decide),
      tokens_reserved "extends" (by decide)]

theorem classRest_reads {c : ClassDecl} (h : (Declaration.class c).Sound)
    (body : Reads members (.symbol .openBrace :: xs) (c.members.map Member.reread) ys) :
    Reads (classRest c.isFinal) (c.nameTokens ++ .symbol .openBrace :: xs)
      (.class { c with members := c.members.map Member.reread }) ys := by
  have name : IsName c.name := h.name
  obtain ⟨n, isFinal, parent, members⟩ := c
  cases parent with
  | none =>
    simp only [ClassDecl.nameTokens, List.cons_append, List.nil_append, classRest, identifier, leads_identifierFor name.2,
      eatWord, leads_eat_cons, reduceCtorEq, if_false, Bool.false_eq_true, pure_bind]
    exact body.then (.refl _ _)
  | some p =>
    have read : Reads dottedName ((Piece.word p).tokens ++ .symbol .openBrace :: xs) p (.symbol .openBrace :: xs) :=
      dottedName_reads (h.parent _ rfl p rfl) (by simp)
    simp only [ClassDecl.nameTokens, List.cons_append, classRest, identifier, leads_identifierFor name.2, eatWord,
      leads_eat_cons, if_true]
    exact (read.map some).then (body.then (.refl _ _))

theorem Declaration.reads {d : Declaration} (h : d.Sound) (every : d.Every Statement.Sound Expr.Spelt) (width : Nat) :
    Reads declaration (d.tokens width ++ ys) d.reread ys := by
  have body : Reads Parse.members (memberTokens width d.members ++ ys) (d.members.map Member.reread) ys := by
    have text : memberTokens width d.members ++ ys =
        .symbol .openBrace :: d.members.flatMap (Member.tokens width) ++ .symbol .closeBrace :: ys := by simp [memberTokens]
    rw [text]
    exact members_reads h.members every width
  rw [tokens_eq, List.append_assoc]
  cases d with
  | trait t =>
    have name : IsName t.name := h.name
    have words : (Declaration.trait t).head.flatMap Piece.tokens = [.name "trait", .name t.name] := by
      simp [head, tokens_reserved "trait" (by decide), name.tokens]
    simp only [words, List.cons_append, List.nil_append, declaration, eatWord, leads_eat_cons, Token.name.injEq,
      String.reduceEq, if_false, Bool.false_eq_true, if_true, traitRest, identifier, leads_identifierFor name.2]
    exact body.then (.refl _ _)
  | «class» c =>
    have rest := classRest_reads h body
    rw [ClassDecl.head_tokens h.name]
    obtain ⟨name, isFinal, parent, ms⟩ := c
    cases isFinal with
    | false =>
      simp only [Bool.false_eq_true, if_false, List.nil_append, List.cons_append, declaration, eatWord, leads_eat_cons,
        Token.name.injEq, String.reduceEq, if_true]
      exact rest
    | true =>
      simp only [if_true, List.nil_append, List.cons_append, declaration, eatWord, leads_eat_cons]
      exact rest

/-- No declaration begins as an import does. -/
theorem Declaration.tokens_cons {d : Declaration} (h : IsName d.name) (width : Nat) :
    ∃ w ∈ ["final", "class", "trait"], ∃ rest, d.tokens width = .name w :: rest := by
  rw [tokens_eq]
  cases d with
  | trait t =>
    rw [head, List.flatMap_cons, tokens_reserved "trait" (by decide)]
    exact ⟨"trait", by decide, _, rfl⟩
  | «class» c =>
    rw [ClassDecl.head_tokens h]
    cases c.isFinal with
    | false => exact ⟨"class", by decide, _, rfl⟩
    | true => exact ⟨"final", by decide, _, rfl⟩

/-- Declarations are read up to the end of the text. -/
theorem declarations_reads {ds : List Declaration} (h : ∀ d ∈ ds, d.Sound)
    (every : ∀ d ∈ ds, d.Every Statement.Sound Expr.Spelt) (width : Nat) :
    ∀ fuel > (ds.flatMap (Declaration.tokens width)).length,
      Reads (declarations fuel) (ds.flatMap (Declaration.tokens width)) (ds.map Declaration.reread) [] := by
  induction ds with
  | nil =>
    intro fuel enough
    obtain ⟨fuel, rfl⟩ : ∃ k, fuel = k + 1 := ⟨fuel - 1, by omega⟩
    simp only [declarations, List.flatMap_nil, leads_peek, List.head?_nil, Option.isNone_none, if_true]
    exact .refl _ _
  | cons d ds ih =>
    intro fuel enough
    obtain ⟨fuel, rfl⟩ : ∃ k, fuel = k + 1 := ⟨fuel - 1, by omega⟩
    obtain ⟨here, h⟩ := List.forall_mem_cons.mp h
    obtain ⟨everyHere, every⟩ := List.forall_mem_cons.mp every
    obtain ⟨w, -, rest, text⟩ := Declaration.tokens_cons here.name width
    have read : Reads declaration (d.tokens width ++ ds.flatMap (Declaration.tokens width)) _ _ :=
      Declaration.reads here everyHere width
    rw [List.flatMap_cons, List.length_append, text, List.length_cons] at enough
    rw [List.flatMap_cons]
    rw [text, List.cons_append] at read ⊢
    simp only [declarations, leads_peek, List.head?_cons, Option.isNone_some, Bool.false_eq_true, if_false]
    exact read.then ((ih h every fuel (by omega)).then (.refl _ _))

/-- The tokens of an import. -/
def Import.tokens (i : Import) : List Token :=
  i.pieces.flatMap Piece.tokens

theorem Import.tokens_eq {i : Import} (h : i.Sound) : i.tokens = .name "import" :: ((Piece.word i.path).tokens ++
    ((match i.localName with
      | none => []
      | some a => [.name "as", .name a]) ++ [.symbol .semicolon])) := by
  obtain ⟨path, localName⟩ := i
  cases localName with
  | none => simp [tokens, pieces, tokens_reserved "import" (by decide)]
  | some a =>
    have named : IsName a := h.localName a rfl
    simp [tokens, pieces, named.tokens, tokens_reserved "import" (by decide), tokens_reserved "as" (by decide)]

theorem importRest_reads {i : Import} (h : i.Sound) : Reads importRest (i.tokens.tail ++ ys) i ys := by
  rw [Import.tokens_eq h]
  obtain ⟨path, localName⟩ := i
  simp only [List.tail_cons, List.append_assoc, List.cons_append, List.nil_append]
  cases localName with
  | none =>
    refine (dottedName_reads h.path (by simp)).then ?_
    simp only [List.nil_append, eatWord, leads_eat_cons, reduceCtorEq, if_false, Bool.false_eq_true, pure_bind,
      leads_expectSymbol]
    exact .refl _ _
  | some a =>
    have named : IsName a := h.localName a rfl
    have read : Reads identifier (.name a :: .symbol .semicolon :: ys) a (.symbol .semicolon :: ys) :=
      identifier_reads named.2
    refine (dottedName_reads h.path (by simp)).then ?_
    simp only [List.cons_append, List.nil_append, eatWord, leads_eat_cons, if_true]
    refine (read.map some).then ?_
    simp only [leads_expectSymbol]
    exact .refl _ _

/-- Imports are read up to what is no import. -/
theorem imports_reads {is : List Import} (h : ∀ i ∈ is, i.Sound) (ends : ys.head? ≠ some (.name "import")) :
    ∀ fuel > (is.flatMap Import.tokens).length, Reads (imports fuel) (is.flatMap Import.tokens ++ ys) is ys := by
  induction is with
  | nil =>
    intro fuel enough
    obtain ⟨fuel, rfl⟩ : ∃ k, fuel = k + 1 := ⟨fuel - 1, by omega⟩
    simp only [imports, List.flatMap_nil, List.nil_append, eatWord, leads_eat_other ends, Bool.false_eq_true, if_false]
    exact .refl _ _
  | cons i is ih =>
    intro fuel enough
    obtain ⟨fuel, rfl⟩ : ∃ k, fuel = k + 1 := ⟨fuel - 1, by omega⟩
    obtain ⟨here, h⟩ := List.forall_mem_cons.mp h
    have first : i.tokens = .name "import" :: i.tokens.tail := by
      rw [Import.tokens_eq here]
      rfl
    rw [List.flatMap_cons, List.length_append, first, List.length_cons] at enough
    rw [List.flatMap_cons, List.append_assoc, first]
    simp only [imports, List.cons_append, eatWord, leads_eat_cons, if_true]
    exact (importRest_reads here).then ((ih h fuel (by omega)).then (.refl _ _))

/-- The tokens of a package clause. -/
def packageTokens : Option String → List Token
  | none => []
  | some p => .name "package" :: ((Piece.word p).tokens ++ [.symbol .semicolon])

theorem packageClause_reads {package : Option String} (h : ∀ p ∈ package, IsDotted p)
    (ends : ys.head? ≠ some (.name "package")) : Reads packageClause (packageTokens package ++ ys) package ys := by
  cases package with
  | none =>
    simp only [packageTokens, List.nil_append, packageClause, eatWord, leads_eat_other ends, Bool.false_eq_true, if_false]
    exact .refl _ _
  | some p =>
    simp only [packageTokens, List.cons_append, List.append_assoc, List.nil_append, packageClause, eatWord, leads_eat_cons,
      if_true]
    refine (dottedName_reads (h p rfl) (by simp)).then ?_
    simp only [leads_expectSymbol]
    exact .refl _ _

namespace SourceUnit

theorem tokens_eq (u : SourceUnit) (width : Nat) : (u.pieces width).flatMap Piece.tokens =
    packageTokens u.package ++ (u.imports.flatMap Import.tokens ++ u.declarations.flatMap (Declaration.tokens width)) := by
  have package : u.packagePieces.flatMap Piece.tokens = packageTokens u.package := by
    unfold packagePieces
    split
    case h_1 none => simp [none, packageTokens]
    case h_2 p some => simp [some, packageTokens, tokens_reserved "package" (by decide)]
  have imports : u.importPieces.flatMap Piece.tokens = u.imports.flatMap Import.tokens := by
    have blank : (if u.imports.isEmpty then [] else [Piece.newline]).flatMap Piece.tokens = [] := by
      split <;> rfl
    have line : ∀ i : Import, (i.pieces ++ [Piece.newline]).flatMap Piece.tokens = i.tokens := by simp [Import.tokens]
    rw [importPieces, List.flatMap_append, blank, List.append_nil, List.flatMap_assoc]
    simp only [line]
  have declarations : (Piece.lineJoin (u.declarations.map (Declaration.pieces width))).flatMap Piece.tokens =
      u.declarations.flatMap (Declaration.tokens width) := by
    rw [flatMap_lineJoin, List.flatMap_map]
    rfl
  simp [pieces, package, imports, declarations]

/-- No package clause begins where imports do, or what comes behind them. -/
theorem importTokens_head {imports : List Import} (h : ∀ i ∈ imports, i.Sound) (ends : ys.head? ≠ some (.name "package")) :
    (imports.flatMap Import.tokens ++ ys).head? ≠ some (.name "package") := by
  cases imports with
  | nil => exact ends
  | cons i is =>
    have sound : i.Sound := h i List.mem_cons_self
    simp [Import.tokens_eq sound]

theorem importLines_reads {imports : List Import} (h : ∀ i ∈ imports, i.Sound) (ends : ys.head? ≠ some (.name "import")) :
    Reads (bounded Parse.imports) (imports.flatMap Import.tokens ++ ys) imports ys := by
  simp only [leads_bounded]
  exact imports_reads h ends _ (by simp only [List.length_append]; omega)

/-- Behind its package and its imports a unit is read as its declarations. -/
theorem heading_leads {u : SourceUnit} (package : ∀ p ∈ u.package, IsDotted p) (imports : ∀ i ∈ u.imports, i.Sound)
    (head : ∀ w ∉ ["final", "class", "trait"], ys.head? ≠ some (.name w)) :
    Leads sourceUnit (packageTokens u.package ++ (u.imports.flatMap Import.tokens ++ ys))
      (do return ⟨u.package, u.imports, ← bounded Parse.declarations⟩) ys := by
  have clause := packageClause_reads package (importTokens_head imports (head "package" (by decide)))
  exact clause.then ((importLines_reads imports (head "import" (by decide))).then (.refl _ _))

/-- The tokens of a unit are read as the unit that its text holds. -/
theorem Readable.reads {u : SourceUnit} (h : u.Readable) (width : Nat) :
    Reads sourceUnit ((u.pieces width).flatMap Piece.tokens) u.reread [] := by
  have head : ∀ w ∉ ["final", "class", "trait"], (u.declarations.flatMap (Declaration.tokens width)).head? ≠ some (.name w) := by
    intro w other
    cases declared : u.declarations with
    | nil => simp
    | cons d ds =>
      have sound : d.Sound := h.declarations d (by simp [declared])
      obtain ⟨v, listed, rest, text⟩ := Declaration.tokens_cons sound.name width
      rw [List.flatMap_cons, text]
      rintro ⟨⟩
      exact other listed
  have declarations : Reads (bounded Parse.declarations) (u.declarations.flatMap (Declaration.tokens width))
      (u.declarations.map Declaration.reread) [] := by
    simp only [leads_bounded]
    exact declarations_reads h.declarations h.parts width _ (Nat.lt_succ_self _)
  rw [tokens_eq]
  exact (heading_leads h.package h.imports head).trans (declarations.then (.refl _ _))

end SourceUnit

end AspectProxy
