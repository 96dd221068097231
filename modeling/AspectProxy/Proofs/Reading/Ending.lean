import AspectProxy.Proofs.Reading.Agreement
import AspectProxy.Proofs.Reading.Lexemes

/-!
Reading ends. As many rounds of a recursion as there are tokens, and one, come to the same whatever stands in the place of
the next, and the bound that a reader has on its rounds is such a number. A text is read as a unit to its end or refused at
the place of one of its tokens.
-/

namespace AspectProxy

namespace Parse

variable {α β : Type}

/-- A recursion ends, with the same result as a reader: the reader solves its equation, and on a stream of fewer than `n`
tokens `n` rounds come to what the reader does, whatever goes on in the place of the next round. -/
structure EndsFrom (round : (β → Parse α) → β → Parse α) (p : β → Parse α) : Prop where
  solves : p = round p
  rounds : ∀ q : β → Parse α, (∀ b, Forward [] (q b)) → ∀ n b (ts : TokenStream), ts.items.length < n →
    round^[n] q b ts = p b ts

/-- The same for a recursion that hands nothing on. -/
structure Ends (round : Parse α → Parse α) (p : Parse α) : Prop where
  solves : p = round p
  rounds : ∀ q : Parse α, Forward [] q → ∀ n (ts : TokenStream), ts.items.length < n → round^[n] q ts = p ts

/-- A bounded reader whose rounds go step by step, and agree on longer streams where the readers in the place of the next
round agree on shorter ones. -/
theorem EndsFrom.of_agree {round : (β → Parse α) → β → Parse α} {family : Nat → β → Parse α}
    (base : ∀ b, Forward [] (family 0 b)) (succ : ∀ n, family (n + 1) = round (family n))
    (steps : ∀ q : β → Parse α, (∀ b, Forward [] (q b)) → ∀ b, Forward [] (round q b))
    (agree : ∀ k (q q' : β → Parse α), (∀ b, Forward [] (q b)) → (∀ b, Agree k (q b) (q' b)) →
      ∀ b, Agree (k + 1) (round q b) (round q' b)) :
    EndsFrom round fun b => bounded fun fuel => family fuel b := by
  have iterated : ∀ n, family n = round^[n] (family 0) := by
    intro n
    induction n with
    | zero => rfl
    | succ n ih => rw [succ, ih, Function.iterate_succ_apply']
  have stepwise : ∀ n (q : β → Parse α), (∀ b, Forward [] (q b)) → ∀ b, Forward [] (round^[n] q b) := by
    intro n q h
    induction n with
    | zero => exact h
    | succ n ih =>
      rw [Function.iterate_succ_apply']
      exact steps _ ih
  -- Whatever two readers do, `n` rounds over them agree on streams of fewer than `n` tokens.
  have agrees : ∀ n (q q' : β → Parse α), (∀ b, Forward [] (q b)) → ∀ b, Agree n (round^[n] q b) (round^[n] q' b) := by
    intro n q q' h
    induction n with
    | zero => exact fun b ts short => absurd short (Nat.not_lt_zero _)
    | succ n ih =>
      rw [Function.iterate_succ_apply', Function.iterate_succ_apply']
      exact agree n _ _ (stepwise n q h) ih
  have rounds : ∀ q : β → Parse α, (∀ b, Forward [] (q b)) → ∀ n b (ts : TokenStream), ts.items.length < n →
      round^[n] q b ts = bounded (fun fuel => family fuel b) ts := by
    intro q h n b ts short
    obtain ⟨more, rfl⟩ := Nat.exists_eq_add_of_lt short
    rw [Nat.add_right_comm, Function.iterate_add_apply]
    show _ = family (ts.items.length + 1) b ts
    rw [iterated]
    exact agrees _ _ _ (stepwise more q h) b ts (Nat.lt_succ_self _)
  refine ⟨?_, rounds⟩
  funext b ts
  show family (ts.items.length + 1) b ts = _
  rw [succ]
  refine agree ts.items.length _ _ (iterated _ ▸ stepwise _ _ base) (fun b ts' short => ?_) b ts (Nat.lt_succ_self _)
  rw [iterated]
  exact rounds _ base _ b ts' short

theorem Ends.of_agree {round : Parse α → Parse α} {family : Nat → Parse α} (base : Forward [] (family 0))
    (succ : ∀ n, family (n + 1) = round (family n)) (steps : ∀ q : Parse α, Forward [] q → Forward [] (round q))
    (agree : ∀ k (q q' : Parse α), Forward [] q → Agree k q q' → Agree (k + 1) (round q) (round q')) :
    Ends round (bounded family) := by
  -- A recursion that hands nothing on is one that hands on the only value of a type.
  have ends : EndsFrom (fun (q : Unit → Parse α) b => round (q b)) fun _ => bounded family :=
    @EndsFrom.of_agree α Unit _ (fun fuel _ => family fuel) (fun _ => base) (fun n => by rw [succ])
      (fun q h b => steps _ (h b)) fun k q q' h same b => agree k _ _ (h b) (same b)
  have iterated : ∀ n (q : Parse α), (fun (q : Unit → Parse α) b => round (q b))^[n] (fun _ => q) () = round^[n] q :=
    fun n q => (Function.Semiconj.iterate_right (f := fun q : Unit → Parse α => q ()) (fun _ => rfl) n).eq fun _ => q
  refine ⟨congrFun ends.solves (), fun q h n ts short => ?_⟩
  rw [← iterated]
  exact ends.rounds (fun _ => q) (fun _ => h) n () ts short

theorem dottedRest_ends : Ends dottedRound (bounded dottedRest) :=
  .of_agree (.done _) (fun _ => rfl) (fun _ => .dottedRound) fun _ _ _ steps same => .dottedRound same steps

theorem commaItems_ends {item : Parse α} (inner : Forward [] item) (close : Symbol) :
    Ends (commaRound item close) (bounded (commaItems item close)) :=
  .of_agree (.unexpected _) (fun _ => rfl) (fun _ => .commaRound inner close)
    fun _ _ _ steps same => .commaRound inner close same steps

theorem bracedItems_ends {item : Parse α} (inner : Forward [] item) (advances : Advances item) :
    Ends (bracedRound item) (bounded (bracedItems item)) :=
  .of_agree (.unexpected _) (fun _ => rfl) (fun _ => .bracedRound inner)
    fun _ _ _ steps same => .bracedRound advances same steps

theorem suffixes_ends {expr : Parse Expr} (inner : Forward [] expr) :
    EndsFrom (suffixRound expr) fun e => bounded fun fuel => suffixes expr fuel e :=
  .of_agree .done (fun _ => rfl) (fun _ => .suffixRound inner) fun _ _ _ _ same => .suffixRound inner same

theorem unary_ends {operand : Parse Expr} (inner : Forward [] operand) :
    Ends (unaryRound operand) (bounded (unary operand)) :=
  .of_agree (.unexpected _) (fun _ => rfl) (fun _ => .unaryRound inner)
    fun _ _ _ steps same => .unaryRound operand same steps

theorem climb_ends {right : Nat → Parse Expr} (operands : ∀ k, Forward [] (right k)) (least : Nat) :
    EndsFrom (climbRound right least) fun left => bounded fun fuel => climb right least fuel left :=
  .of_agree .done (fun _ => rfl) (fun _ => .climbRound operands least) fun _ _ _ _ same => .climbRound operands least same

theorem climb_congr {right right' : Nat → Parse Expr} {least : Nat}
    (same : ∀ op : BinaryOp, least ≤ op.level → right (op.level + 1) = right' (op.level + 1)) (fuel : Nat) (left : Expr) :
    climb right least fuel left = climb right' least fuel left := by
  induction fuel generalizing left with
  | zero => rfl
  | succ fuel ih =>
    refine congrArg (binaryOperator >>= ·) (funext fun found => ?_)
    split
    case h_1 op =>
      split
      case isTrue => rfl
      case isFalse tight => rw [same op (Nat.not_lt.mp tight), funext fun e => ih (.binary op left e)]
    case h_2 => rfl

/-- The levels are enough. An operand to the right begins above the level of its operator, and there is no operator above
the sixth level, so whatever stands in the place of the next round is not reached. -/
theorem binaryRound_iterate {operand : Parse Expr} (q q' : Nat → Parse Expr) {m n least : Nat} (hm : 6 < m + least)
    (hn : 6 < n + least) : (binaryRound operand)^[m + 1] q least = (binaryRound operand)^[n + 1] q' least := by
  induction m generalizing n least with
  | zero =>
    rw [Function.iterate_succ_apply', Function.iterate_succ_apply']
    refine congrArg (operand >>= ·) (funext fun left => congrArg bounded (funext fun fuel => climb_congr ?_ fuel left))
    intro op tight
    have := (level_pos op).2
    omega
  | succ m ih =>
    rw [Function.iterate_succ_apply', Function.iterate_succ_apply' _ n]
    refine congrArg (operand >>= ·) (funext fun left => congrArg bounded (funext fun fuel => climb_congr ?_ fuel left))
    intro op tight
    have := (level_pos op).2
    obtain ⟨n, rfl⟩ : ∃ k, n = k + 1 := ⟨n - 1, by omega⟩
    exact ih (by omega) (by omega)

theorem binary_eq_iterate (operand : Parse Expr) (n : Nat) :
    binary operand n = (binaryRound operand)^[n] fun _ => unexpected .expression := by
  induction n with
  | zero => rfl
  | succ n ih =>
    rw [Function.iterate_succ_apply', ← ih]
    rfl

theorem expression_ends : Ends expressionOver expression :=
  .of_agree (.unexpected _) (fun _ => rfl) (fun _ => .expressionOver) fun _ _ _ steps same => .expressionOver same steps

theorem statement_ends : Ends statementOver statement :=
  .of_agree (.unexpected _) (fun _ => rfl) (fun _ => .statementOver) fun _ _ _ steps same => .statementOver same steps

theorem modifiersFrom_ends : EndsFrom modifierRound fun m => bounded fun fuel => modifiersFrom fuel m :=
  .of_agree .done (fun _ => rfl) (fun _ => .modifierRound) fun _ _ _ _ same => .modifierRound same

theorem parametersFrom_ends : EndsFrom parameterRound fun taken => bounded fun fuel => parametersFrom fuel taken :=
  .of_agree (fun _ => .unexpected _) (fun _ => rfl) (fun _ => .parameterRound)
    fun _ _ _ steps same => .parameterRound same steps

theorem imports_ends : Ends importRound (bounded imports) :=
  .of_agree (.done _) (fun _ => rfl) (fun _ => .importRound) fun _ _ _ steps same => .importRound same steps

theorem declarations_ends : Ends declarationRound (bounded declarations) :=
  .of_agree (.done _) (fun _ => rfl) (fun _ => .declarationRound) fun _ _ _ steps same => .declarationRound same steps

/-- Whether every loop and every recursion of the grammar ends. -/
structure RecursionsEnd : Prop where
  names : Ends dottedRound (bounded dottedRest)
  lists : ∀ close, Ends (commaRound expression close) (bounded (commaItems expression close))
  maps : Ends (commaRound (mapEntry expression) .closeBrace) (bounded (commaItems (mapEntry expression) .closeBrace))
  suffixes : EndsFrom (suffixRound expression) fun e => bounded fun fuel => suffixes expression fuel e
  signs : Ends (unaryRound (postfixed expression)) (bounded (unary (postfixed expression)))
  operators : ∀ n least, EndsFrom (climbRound (binary (bounded (unary (postfixed expression))) n) least) fun left =>
    bounded fun fuel => climb (binary (bounded (unary (postfixed expression))) n) least fuel left
  levels : ∀ (q : Nat → Parse Expr) n least, 1 ≤ least → 6 < n + least →
    (binaryRound (bounded (unary (postfixed expression))))^[n + 1] q least =
      binary (bounded (unary (postfixed expression))) 7 least
  expressions : Ends expressionOver expression
  blocks : Ends (bracedRound statement) (bounded (bracedItems statement))
  statements : Ends statementOver statement
  modifiers : EndsFrom modifierRound fun m => bounded fun fuel => modifiersFrom fuel m
  parameters : EndsFrom parameterRound fun taken => bounded fun fuel => parametersFrom fuel taken
  members : Ends (bracedRound member) (bounded (bracedItems member))
  imports : Ends importRound (bounded imports)
  declarations : Ends declarationRound (bounded declarations)

theorem recursionsEnd : RecursionsEnd where
  names := dottedRest_ends
  lists := commaItems_ends .expression
  maps := commaItems_ends (.mapEntry .expression) _
  suffixes := suffixes_ends .expression
  signs := unary_ends (.postfixed .expression)
  operators := fun n least => climb_ends (.binary (.bounded (.unary (.postfixed .expression))) n) least
  levels := fun q n least first enough => by
    rw [binary_eq_iterate]
    exact binaryRound_iterate q _ enough (by omega)
  expressions := expression_ends
  blocks := bracedItems_ends .statement .statement
  statements := statement_ends
  modifiers := modifiersFrom_ends
  parameters := parametersFrom_ends
  members := bracedItems_ends .member .member
  imports := imports_ends
  declarations := declarations_ends

/-- Declarations are read up to the end of the text. -/
theorem declarations_items {fuel : Nat} {ts rest : TokenStream} {ds : List Declaration}
    (run : declarations fuel ts = .ok (ds, rest)) (enough : ts.items.length < fuel) : rest.items = [] := by
  induction fuel generalizing ts ds with
  | zero => exact absurd enough (Nat.not_lt_zero _)
  | succ fuel ih =>
    obtain ⟨next, ts₁, look, run⟩ := of_bind run
    cases look
    split at run
    next none =>
      cases run
      obtain ⟨items, stop⟩ := rest
      cases items with
      | nil => rfl
      | cons x items => cases none
    next =>
      obtain ⟨d, ts₂, first, run⟩ := of_bind run
      obtain ⟨ds', ts₃, more, run⟩ := of_bind run
      cases run
      have fewer := Advances.declaration _ _ _ first
      exact ih more (by omega)

theorem sourceUnit_rest {ts rest : TokenStream} {u : SourceUnit} (run : sourceUnit ts = .ok (u, rest)) :
    rest = ⟨[], ts.stop⟩ := by
  have steps : Forward [] sourceUnit := .sourceUnit
  have stop := (steps.left run).2
  obtain ⟨package, ts₁, -, run⟩ := of_bind run
  obtain ⟨imports, ts₂, -, run⟩ := of_bind run
  obtain ⟨ds, ts₃, read, run⟩ := of_bind run
  cases run
  have items := declarations_items read (Nat.lt_succ_self _)
  rw [← stop, ← items]

end Parse

/-- What is scanned at the front of a text has a character at least and no more than there are. -/
theorem Scan.ofChars_length {cs : List Char} (nonempty : cs ≠ []) : match Scan.ofChars cs with
    | .blank n | .token _ n => 0 < n ∧ n ≤ cs.length
    | .fault _ => True := by
  have within : ∀ {l rest : List Char}, cs = l ++ rest → l ≠ [] → 0 < l.length ∧ l.length ≤ cs.length := by
    rintro l rest rfl some
    exact ⟨List.length_pos_iff.mpr some, by simp⟩
  have front := Scan.front_ofChars nonempty
  generalize Scan.ofChars cs = scan at front
  cases front with
  | gap whole some _ => exact within whole some
  | lexeme whole some _ => exact within whole some
  | fault => trivial

namespace SourceUnit

open Parse

/-- Reading always ends and blames a real place. The scanner takes a character off at least each time; every loop and every
recursion of the grammar ends; each function of the grammar leaves an end of the tokens that it is given, so that none goes
back or beyond the last; and a text is read as a unit to its end, or refused at the place of a token or of the end. -/
theorem ofString?_ends : (∀ cs ≠ [], match Scan.ofChars cs with
      | .blank n | .token _ n => 0 < n ∧ n ≤ cs.length
      | .fault _ => True) ∧
    RecursionsEnd ∧ GrammarForward ∧
    ∀ source, match TokenStream.ofString? source with
      | .error fault => ofString? source = .error fault
      | .ok ts =>
        match sourceUnit ts with
        | .ok (u, rest) => ofString? source = .ok u ∧ rest = ⟨[], ts.stop⟩
        | .error fault => ofString? source = .error fault ∧ fault.position ∈ ts.places := by
  refine ⟨fun _ => Scan.ofChars_length, recursionsEnd, grammarForward, fun source => ?_⟩
  have steps : Forward [] sourceUnit := .sourceUnit
  cases tokens : TokenStream.ofString? source with
  | error fault =>
    show (TokenStream.ofString? source).bind ofTokens? = _
    rw [tokens]
    rfl
  | ok ts =>
    have whole : ofString? source = (sourceUnit ts).map (·.1) := by
      show (TokenStream.ofString? source).bind ofTokens? = _
      rw [tokens]
      rfl
    dsimp only
    rw [whole]
    cases read : sourceUnit ts with
    | ok x => exact ⟨rfl, sourceUnit_rest read⟩
    | error fault => exact ⟨rfl, steps.blamed read⟩

end SourceUnit

end AspectProxy
