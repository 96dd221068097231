import AspectProxy.Proofs.Reading.Grammar

/-!
The reader of expressions accepts the grammar and nothing else. What a reader takes off the front of the tokens is put
together step by step from what its parts take off, so each reader of a level takes tokens that the grammar derives at
that level. Since it also reads whatever is derived, some tokens have one tree at most.
-/

namespace AspectProxy

namespace Parse

/-- The tokens that a reader takes off the front stand in a relation to what it makes of them. -/
def Takes (p : Parse α) (G : List Token → α → Prop) : Prop :=
  ∀ (ts : TokenStream) (a : α) (ts' : TokenStream), p ts = .ok (a, ts') →
    ∃ us : List Located, ts = ⟨us ++ ts'.items, ts'.stop⟩ ∧ G (us.map (·.token)) a

/-- The same for streams that a given token, or none, stands at the front of. -/
def TakesAt (next : Option Token) (p : Parse α) (G : List Token → α → Prop) : Prop :=
  ∀ (ts : TokenStream) (a : α) (ts' : TokenStream), ts.head? = next → p ts = .ok (a, ts') →
    ∃ us : List Located, ts = ⟨us ++ ts'.items, ts'.stop⟩ ∧ G (us.map (·.token)) a

variable {p q : Parse α} {f : α → Parse β} {G : List Token → α → Prop} {H : List Token → β → Prop} {t : Token}

namespace Takes

theorem pure {a : α} (h : G [] a) : Takes (Pure.pure a) G := by
  rintro ts _ _ ⟨⟩
  exact ⟨[], rfl, h⟩

theorem bind (first : Takes p G) (next : ∀ u a, G u a → Takes (f a) fun v => H (u ++ v)) : Takes (p >>= f) H := by
  intro ts b ts' run
  obtain ⟨a, ts₁, read, rest⟩ := of_bind run
  obtain ⟨us, rfl, here⟩ := first ts a ts₁ read
  obtain ⟨vs, rfl, more⟩ := next _ a here ts₁ b ts' rest
  refine ⟨us ++ vs, by rw [List.append_assoc], ?_⟩
  rw [List.map_append]
  exact more

theorem imp {G' : List Token → α → Prop} (h : Takes p G) (weaker : ∀ u a, G u a → G' u a) : Takes p G' := by
  intro ts a ts' run
  obtain ⟨us, same, here⟩ := h ts a ts' run
  exact ⟨us, same, weaker _ a here⟩

theorem unexpected (what : Expectation) : Takes (Parse.unexpected what) G := by
  intro ts a ts' run
  cases run

theorem bounded {p : Nat → Parse α} (h : ∀ fuel, Takes (p fuel) G) : Takes (Parse.bounded p) G :=
  fun ts a ts' run => h _ ts a ts' run

/-- A look ahead takes nothing off. -/
theorem look (looks : ∀ ts, ∃ a, p ts = .ok (a, ts)) (next : ∀ a, Takes (f a) H) : Takes (p >>= f) H := by
  intro ts b ts' run
  obtain ⟨a, ts₁, read, rest⟩ := of_bind run
  obtain ⟨a', same⟩ := looks ts
  cases same.symm.trans read
  exact next a ts b ts' rest

theorem peek {f : Option Token → Parse β} (next : ∀ o, TakesAt o (f o) H) : Takes (Parse.peek >>= f) H := by
  intro ts b ts' run
  obtain ⟨o, ts₁, read, rest⟩ := of_bind run
  cases read
  exact next _ ts b ts' rfl rest

theorem given (h : Takes p G) (next : Option Token) : TakesAt next p G :=
  fun ts a ts' _ run => h ts a ts' run

end Takes

theorem items_of_head? {ts : TokenStream} (h : ts.head? = some t) :
    ∃ x : Located, x.token = t ∧ ts = ⟨x :: ts.tail.items, ts.tail.stop⟩ := by
  obtain ⟨items, stop⟩ := ts
  cases items with
  | nil => cases h
  | cons x items => exact ⟨x, Option.some.inj h, rfl⟩

theorem TakesAt.advance {f : Unit → Parse β} (next : Takes (f ()) fun v => H (t :: v)) :
    TakesAt (some t) (Parse.advance >>= f) H := by
  intro ts b ts' head run
  obtain ⟨_, ts₁, read, rest⟩ := of_bind run
  cases read
  obtain ⟨x, rfl, whole⟩ := items_of_head? head
  obtain ⟨us, tail, here⟩ := next ts.tail b ts' rest
  refine ⟨x :: us, ?_, here⟩
  rw [whole, tail]
  rfl

theorem eat_takes (t : Token) : Takes (eat t) fun u found => u = if found then [t] else [] := by
  intro ts a ts' run
  unfold eat at run
  split at run
  case isTrue head =>
    cases run
    obtain ⟨x, rfl, whole⟩ := items_of_head? head
    exact ⟨[x], whole, rfl⟩
  case isFalse =>
    cases run
    exact ⟨[], rfl, rfl⟩

/-- A choice on the next token. -/
theorem Takes.ifEat (yes : Takes p fun v => G (t :: v)) (no : Takes q G) : Takes (do if ← eat t then p else q) G := by
  refine (eat_takes t).bind fun u found took => ?_
  cases found with
  | true =>
    obtain rfl : u = [t] := took
    exact yes
  | false =>
    obtain rfl : u = [] := took
    exact no

theorem Takes.ifNext (yes : Takes p G) (no : Takes q G) : Takes (do if ← next t then p else q) G :=
  Takes.look (fun _ => ⟨_, rfl⟩) fun found => by cases found <;> assumption

/-- A symbol that must stand next, and what is read behind it. -/
theorem Takes.expect {s : Symbol} {f : Unit → Parse β} (next : Takes (f ()) fun v => H (.symbol s :: v)) :
    Takes (expectSymbol s >>= f) H := by
  have symbol : Takes (expectSymbol s) fun u _ => u = [.symbol s] := by
    refine (eat_takes _).bind fun u found took => ?_
    cases found with
    | true => exact .pure (by simpa using took)
    | false => exact .unexpected _
  refine symbol.bind fun u _ took => ?_
  subst took
  exact next

theorem identifierFor_takes (what : Expectation) :
    Takes (identifierFor what) fun u n => u = [.name n] ∧ n ∉ reservedWords := by
  refine .peek fun next => ?_
  split
  case h_1 n =>
    split
    case isTrue => exact (Takes.unexpected _).given _
    case isFalse free => exact .advance (.pure ⟨rfl, free⟩)
  case h_2 => exact (Takes.unexpected _).given _

theorem dottedRest_takes (fuel : Nat) : Takes (dottedRest fuel) fun u s => ∃ ns : List String,
    (∀ x ∈ ns, x ∉ reservedWords) ∧ u = (ns.flatMap fun x => [.symbol .dot, .name x]) ∧ s = dotted ns := by
  induction fuel with
  | zero => exact .pure ⟨[], nofun, rfl, rfl⟩
  | succ fuel ih =>
    refine .ifEat ((identifierFor_takes _).bind fun u n took => ?_) (.pure ⟨[], nofun, rfl, rfl⟩)
    obtain ⟨rfl, free⟩ := took
    refine ih.bind fun v s took => .pure ?_
    obtain ⟨ns, more, rfl, rfl⟩ := took
    exact ⟨n :: ns, List.forall_mem_cons.mpr ⟨free, more⟩, by simp, rfl⟩

/-- Names that are joined by dots, with the text that they are. -/
def IsPath (u : List Token) (s : String) : Prop :=
  ∃ n ns, (∀ x ∈ n :: ns, x ∉ reservedWords) ∧ u = pathTokens n ns ∧ s = n ++ dotted ns

theorem dottedName_takes : Takes dottedName IsPath := by
  refine (identifierFor_takes _).bind fun u n took => ?_
  obtain ⟨rfl, free⟩ := took
  refine (Takes.bounded dottedRest_takes).bind fun v s took => .pure ?_
  obtain ⟨ns, more, rfl, rfl⟩ := took
  exact ⟨n, ns, List.forall_mem_cons.mpr ⟨free, more⟩, by simp [pathTokens], rfl⟩

/-- Items between commas make a list by whichever rules put a list together. -/
theorem commaItems_takes {L : List Token → List α → Prop} (nil : L [] []) (last : ∀ u a, G u a → L u [a])
    (cons : ∀ u a v as, G u a → L v as → L (u ++ .symbol .comma :: v) (a :: as)) (item : Takes p G) (close : Symbol)
    (fuel : Nat) : Takes (commaItems p close fuel) fun u as => ∃ v, u = v ++ [.symbol close] ∧ L v as := by
  induction fuel with
  | zero => exact .unexpected _
  | succ fuel ih =>
    refine .ifEat (.pure ⟨[], rfl, nil⟩) (item.bind fun u a here => .ifEat ?more ?last)
    case more =>
      refine ih.bind fun w as took => .pure ?_
      obtain ⟨v, rfl, rest⟩ := took
      exact ⟨u ++ .symbol .comma :: v, by simp, cons u a v as here rest⟩
    case last => exact .expect (.pure ⟨u, by simp, last u a here⟩)

section Layers

variable {expr : Parse Expr} (inner : Takes expr (Derives 1))
include inner

theorem items_takes (close : Symbol) : Takes (bounded (commaItems expr close)) fun u es =>
    ∃ v, u = v ++ [.symbol close] ∧ DerivesItems v es :=
  .bounded (commaItems_takes .nil (fun _ _ => .last) (fun _ _ _ _ => .cons) inner close)

theorem arguments_takes : Takes (arguments expr) fun u es => ∃ v, u = parenthesized v ∧ DerivesItems v es :=
  .expect ((items_takes inner _).imp fun _ _ ⟨v, same, items⟩ => ⟨v, by rw [same]; rfl, items⟩)

theorem mapEntry_takes : Takes (mapEntry expr) fun u entry =>
    ∃ v, u = .str entry.1 :: .symbol .colon :: v ∧ Derives 1 v entry.2 := by
  refine .peek fun next => ?_
  split
  case h_1 key => exact .advance (.expect (inner.bind fun u e here => .pure ⟨u, by simp, here⟩))
  case h_2 => exact (Takes.unexpected _).given _

theorem entries_takes : Takes (bounded (commaItems (mapEntry expr) .closeBrace)) fun u fs =>
    ∃ v, u = v ++ [.symbol .closeBrace] ∧ DerivesEntries v fs := by
  refine .bounded (commaItems_takes .nil ?_ ?_ (mapEntry_takes inner) _)
  · rintro _ ⟨k, e⟩ ⟨v, rfl, here⟩
    exact .last here
  · rintro _ ⟨k, e⟩ w fs ⟨v, rfl, here⟩ rest
    exact .cons here rest

theorem nameOrCall_takes : Takes (nameOrCall expr) (Derives Expr.primaryLevel) := by
  refine (identifierFor_takes _).bind fun u n took => ?_
  obtain ⟨rfl, free⟩ := took
  refine .ifNext ((arguments_takes inner).bind fun v es took => .pure ?_) (.pure (.var free))
  obtain ⟨v, rfl, items⟩ := took
  simpa using Derives.functionCall free items

theorem primaryWord_takes : Takes (primaryWord expr) (Derives Expr.primaryLevel) := by
  refine .ifEat (.pure .true) (.ifEat (.pure .false) (.ifEat (.pure .null) (.ifEat (.pure .self) (.ifEat ?super ?_))))
  case super =>
    refine .expect ((identifierFor_takes _).bind fun u n took => ?_)
    obtain ⟨rfl, free⟩ := took
    refine (arguments_takes inner).bind fun w es took => .pure ?_
    obtain ⟨v, rfl, items⟩ := took
    simpa using Derives.superCall free items
  refine .ifEat ?new (.ifEat ?list (.ifEat ?map (.ifEat ?group (.look (fun _ => ⟨_, rfl⟩) fun static => ?_))))
  case new =>
    refine dottedName_takes.bind fun u c took => ?_
    obtain ⟨n, ns, free, rfl, rfl⟩ := took
    refine (arguments_takes inner).bind fun w es took => .pure ?_
    obtain ⟨v, rfl, items⟩ := took
    simpa using Derives.create free items
  case list =>
    refine (items_takes inner _).bind fun u es took => .pure ?_
    obtain ⟨v, rfl, items⟩ := took
    simpa using Derives.list items
  case map =>
    refine (entries_takes inner).bind fun u fs took => .pure ?_
    obtain ⟨v, rfl, entries⟩ := took
    simpa using Derives.map entries
  case group => exact inner.bind fun u e here => .expect (.pure (by simpa [parenthesized] using Derives.group here))
  cases static with
  | false => exact nameOrCall_takes inner
  | true =>
    refine dottedName_takes.bind fun u c took => ?_
    obtain ⟨n, ns, free, rfl, rfl⟩ := took
    refine .expect ((identifierFor_takes _).bind fun u m took => ?_)
    obtain ⟨rfl, freeMethod⟩ := took
    refine (arguments_takes inner).bind fun w es took => .pure ?_
    obtain ⟨v, rfl, items⟩ := took
    simpa using Derives.staticCall free freeMethod items

theorem primary_takes : Takes (primary expr) (Derives Expr.primaryLevel) := by
  refine .peek fun next => ?_
  split
  case h_1 n => exact .advance (.pure (.int n))
  case h_2 x => exact .advance (.pure (.float x))
  case h_3 s => exact .advance (.pure (.str s))
  case h_4 => exact (primaryWord_takes inner).given _

/-- Suffixes make a longer expression of one that binds as tightly as they do. -/
theorem suffixes_takes (fuel : Nat) {u : List Token} {e : Expr} (h : Derives Expr.postfixLevel u e) :
    Takes (suffixes expr fuel e) fun v => Derives Expr.postfixLevel (u ++ v) := by
  induction fuel generalizing u e with
  | zero => exact .pure (by simpa using h)
  | succ fuel ih =>
    refine .ifEat ((identifierFor_takes _).bind fun v n took => ?name) (.ifEat ?index (.pure (by simpa using h)))
    case name =>
      obtain ⟨rfl, free⟩ := took
      refine .ifNext ((arguments_takes inner).bind fun w es took => ?_) ?_
      · obtain ⟨v, rfl, items⟩ := took
        simpa using ih (h.call free items)
      · simpa using ih (h.property free)
    case index =>
      refine inner.bind fun v k key => .expect ?_
      simpa using ih (h.index key)

theorem postfixed_takes : Takes (postfixed expr) (Derives Expr.postfixLevel) :=
  (primary_takes inner).bind fun _ _ here => .bounded fun fuel => suffixes_takes inner fuel here.tighter

end Layers

theorem unary_takes {operand : Parse Expr} (h : Takes operand (Derives Expr.postfixLevel)) (fuel : Nat) :
    Takes (unary operand fuel) (Derives Expr.unaryLevel) := by
  induction fuel with
  | zero => exact .unexpected _
  | succ fuel ih =>
    refine .ifEat (ih.bind fun u e here => .pure ?_) (.ifEat (ih.bind fun u e here => .pure ?_) ?_)
    · simpa using Derives.not here
    · simpa using Derives.negative here
    · exact h.imp fun _ _ => .tighter

/-- A reader takes an expression of a level, and leaves no operator of the level or above it in front. -/
def Binds (p : Parse Expr) (least : Nat) : Prop :=
  ∀ (ts : TokenStream) (e : Expr) (ts' : TokenStream), p ts = .ok (e, ts') →
    (∃ us : List Located, ts = ⟨us ++ ts'.items, ts'.stop⟩ ∧ Derives least (us.map (·.token)) e) ∧
      ∀ op, operatorAt ts'.tokens = some op → op.level < least

theorem Binds.takes {p : Parse Expr} {least : Nat} (h : Binds p least) : Takes p (Derives least) :=
  fun ts e ts' run => (h ts e ts' run).1

/-- Climbing from a level goes on with an operand as long as operators of the level or above follow. The operand so far is of
the level of the last operator, and its right operand has left none above that, so the next one takes it as a whole. -/
theorem climb_binds {right : Nat → Parse Expr} (binds : ∀ op : BinaryOp, Binds (right (op.level + 1)) (op.level + 1))
    {least level fuel : Nat} (le : least ≤ level) {u : List Token} {left e : Expr} (first : Derives level u left)
    {ts ts' : TokenStream} (below : ∀ op, operatorAt ts.tokens = some op → op.level ≤ level)
    (enough : ts.items.length < fuel) (run : climb right least fuel left ts = .ok (e, ts')) :
    (∃ us : List Located, ts = ⟨us ++ ts'.items, ts'.stop⟩ ∧ Derives least (u ++ us.map (·.token)) e) ∧
      ∀ op, operatorAt ts'.tokens = some op → op.level < least := by
  induction fuel generalizing level u left ts with
  | zero => exact absurd enough (Nat.not_lt_zero _)
  | succ fuel ih =>
    have whole : Derives least (u ++ ([] : List Located).map (·.token)) left := by simpa using first.loosen le
    rw [climb, run_bind (run_binaryOperator ts)] at run
    cases next : operatorAt ts.tokens with
    | none =>
      rw [next] at run
      cases run
      exact ⟨⟨[], rfl, whole⟩, fun op here => by rw [next] at here; cases here⟩
    | some op =>
      rw [next] at run
      by_cases loose : op.level < least
      · simp only [if_pos loose] at run
        cases run
        refine ⟨⟨[], rfl, whole⟩, fun op' here => ?_⟩
        rw [next] at here
        cases here
        exact loose
      · simp only [if_neg loose] at run
        obtain ⟨x, symbol, front⟩ := items_of_head? ((ts.head?_eq).trans (head?_of_operatorAt next))
        obtain ⟨_, ts₁, taken, run⟩ := of_bind run
        cases taken
        obtain ⟨second, ts₂, read, run⟩ := of_bind run
        obtain ⟨⟨vs, more, here⟩, above⟩ := binds op _ second ts₂ read
        have joined : Derives op.level (u ++ .symbol op.symbol :: vs.map (·.token)) (.binary op left second) :=
          .binary op (first.loosen (below op next)) here
        have shorter : ts₂.items.length < fuel := by
          have length := congrArg (·.items.length) front
          rw [more] at length
          simp only [List.length_cons, List.length_append] at length
          omega
        obtain ⟨⟨us, rest, all⟩, stops⟩ := ih (Nat.not_lt.mp loose) joined
          (fun op' here => Nat.le_of_lt_succ (above op' here)) shorter run
        refine ⟨⟨x :: (vs ++ us), ?_, ?_⟩, stops⟩
        · rw [front, more, rest]
          simp
        · simpa [symbol] using all

/-- A binary expression is read as the grammar has it: what an operand is followed by decides how far it goes. -/
theorem binary_binds {operand : Parse Expr} (h : Takes operand (Derives Expr.unaryLevel)) (n : Nat) {least : Nat}
    (le : least ≤ Expr.unaryLevel) : Binds (binary operand n least) least := by
  induction n generalizing least with
  | zero => exact fun ts e ts' run => by cases run
  | succ n ih =>
    intro ts e ts' run
    obtain ⟨left, ts₁, read, run⟩ := of_bind run
    obtain ⟨us, same, first⟩ := h ts left ts₁ read
    have binds : ∀ op : BinaryOp, Binds (binary operand n (op.level + 1)) (op.level + 1) :=
      fun op => ih (Nat.succ_le_succ (level_pos op).2)
    have below : ∀ op, operatorAt ts₁.tokens = some op → op.level ≤ Expr.unaryLevel :=
      fun op _ => Nat.le_succ_of_le (level_pos op).2
    obtain ⟨⟨vs, rest, whole⟩, stops⟩ := climb_binds binds le first below (Nat.lt_succ_self _) run
    refine ⟨⟨us ++ vs, ?_, ?_⟩, stops⟩
    · rw [same, rest]
      simp
    · simpa using whole

theorem expressionWithin_takes (depth : Nat) : Takes (expressionWithin depth) (Derives 1) := by
  induction depth with
  | zero => exact .unexpected _
  | succ depth ih => exact (binary_binds (.bounded (unary_takes (postfixed_takes ih))) 7 (Nat.succ_pos 6)).takes

theorem expression_takes : Takes expression (Derives 1) :=
  .bounded expressionWithin_takes

end Parse

/-- A token that may go on with the expression in front of it. -/
def Token.extendsExpr : Token → Bool
  | .symbol s => (BinaryOp.ofSymbol? s).isSome || s ∈ [.dot, .openBracket, .openParen, .doubleColon]
  | _ => false

open Parse

theorem follows_of_extendsExpr {ys : List Token} (h : ∀ t ∈ ys.head?, t.extendsExpr = false) : Follows 0 ys where
  symbol := by
    intro s here
    have noMore := h _ here
    simp only [Token.extendsExpr, Bool.or_eq_false_iff, decide_eq_false_iff_not, List.mem_cons, List.not_mem_nil, or_false,
      not_or, Option.isSome_eq_false_iff, Option.isNone_iff_eq_none] at noMore
    obtain ⟨noOperator, noDot, noBracket, noParen, noColons⟩ := noMore
    unfold follows
    split <;> simp_all
  static := by
    intro n
    unfold startsStatic
    split <;> simp_all [Token.extendsExpr]

/-- Some tokens have one tree at most. -/
theorem Derives.unique {u : List Token} {e e' : Expr} (h : Derives 1 u e) (h' : Derives 1 u e') : e = e' := by
  have follow : Follows 0 [] := ⟨nofun, fun _ => rfl⟩
  let ts : TokenStream := ⟨u.map fun t => ⟨t, .start⟩, .start⟩
  have same : ts.tokens = u ++ [] := by simp [ts, TokenStream.tokens, Function.comp_def]
  obtain ⟨ts₁, -, read⟩ := h.reads follow ts same
  obtain ⟨ts₂, -, read'⟩ := h'.reads follow ts same
  have results : (Except.ok (e, ts₁) : Except SourceFault _) = .ok (e', ts₂) := read.symm.trans read'
  exact (Prod.mk.inj (Except.ok.inj results)).1

/-- Expressions are read as the grammar has them: up to a token that does not go on with an expression, some tokens are
read as a tree exactly when the grammar derives them with that tree, and it derives them with no other. -/
theorem expression_reads_grammar {us vs : List Located} (ends : ∀ t ∈ (vs.map (·.token)).head?, t.extendsExpr = false)
    (stop : Position) :
    (∀ e, expression ⟨us ++ vs, stop⟩ = .ok (e, ⟨vs, stop⟩) ↔ Derives 1 (us.map (·.token)) e) ∧
      ∀ e e', Derives 1 (us.map (·.token)) e → Derives 1 (us.map (·.token)) e' → e = e' := by
  refine ⟨fun e => ⟨fun run => ?_, fun h => ?_⟩, fun _ _ => Derives.unique⟩
  · obtain ⟨ws, same, here⟩ := expression_takes _ _ _ run
    obtain rfl : us = ws := List.append_cancel_right (congrArg TokenStream.items same)
    exact here
  · obtain ⟨⟨rest, stop'⟩, left, run⟩ := h.reads (follows_of_extendsExpr ends) ⟨us ++ vs, stop⟩ (List.map_append ..)
    obtain ⟨ws, same, -⟩ := expression_takes _ _ _ run
    obtain ⟨items, rfl⟩ : us ++ vs = ws ++ rest ∧ stop = stop' := TokenStream.mk.inj same
    have short : rest.length = vs.length := by simpa [TokenStream.tokens] using congrArg List.length left
    obtain ⟨-, rfl⟩ := List.append_inj' items short.symm
    exact run

/-- The tokens of `f(a,) - -1` in front of a semicolon. -/
theorem expression_reads_difference :
    (∀ t ∈ ([⟨.symbol .semicolon, ⟨1, 11⟩⟩] : List Located).map (·.token) |>.head?, t.extendsExpr = false) ∧
      expression ⟨[⟨.name "f", ⟨1, 1⟩⟩, ⟨.symbol .openParen, ⟨1, 2⟩⟩, ⟨.name "a", ⟨1, 3⟩⟩, ⟨.symbol .comma, ⟨1, 4⟩⟩,
          ⟨.symbol .closeParen, ⟨1, 5⟩⟩, ⟨.symbol .minus, ⟨1, 7⟩⟩, ⟨.symbol .minus, ⟨1, 9⟩⟩, ⟨.int 1, ⟨1, 10⟩⟩] ++
          [⟨.symbol .semicolon, ⟨1, 11⟩⟩], ⟨1, 12⟩⟩ =
        .ok (.binary .subtract (.functionCall "f" [.var "a"]) (.int (-1)), ⟨[⟨.symbol .semicolon, ⟨1, 11⟩⟩], ⟨1, 12⟩⟩) := by
  have ends : ∀ t ∈ ([⟨.symbol .semicolon, ⟨1, 11⟩⟩] : List Located).map (·.token) |>.head?, t.extendsExpr = false := by
    decide
  refine ⟨ends, ((expression_reads_grammar ends _).1 _).mpr ?_⟩
  have argument : Derives 1 [.name "a"] (.var "a") :=
    .tighter (.tighter (.tighter (.tighter (.tighter (.tighter (.tighter (.tighter (.var (by decide)))))))))
  have call : Derives 5 [.name "f", .symbol .openParen, .name "a", .symbol .comma, .symbol .closeParen]
      (.functionCall "f" [.var "a"]) :=
    .tighter (.tighter (.tighter (.tighter (.functionCall (by decide) (.cons argument .nil)))))
  have one : Derives 6 [.symbol .minus, .int 1] (.int (-1)) := .tighter (.negative (.tighter (.tighter (.int 1))))
  exact .tighter (.tighter (.tighter (.tighter (.binary .subtract call one))))

end AspectProxy
