import AspectProxy.Proofs.Reading.Leads

/-!
Operands by how tightly they bind. The reader of binary operators reads an operand and then climbs on from it by the
operators that bind tightly enough, so an operand is described by how the reader goes on behind it; from an operand that
binds more tightly the reader of a looser level gets to the same place.
-/

namespace AspectProxy

namespace Parse

/-- Whether tokens begin with names joined by dots and two colons. -/
def startsStatic : List Token → Bool
  | .name _ :: .symbol .doubleColon :: _ => true
  | .name _ :: .symbol .dot :: rest => startsStatic rest
  | _ => false

theorem startsStaticCall_eq (items : List Located) : startsStaticCall items = startsStatic (items.map (·.token)) := by
  induction items using startsStaticCall.induct with
  | case1 => rfl
  | case2 n p q rest ih => simpa [startsStaticCall, startsStatic] using ih
  | case3 items noColons noDot =>
    rw [startsStaticCall.eq_3 _ noColons noDot]
    symm
    cases items with
    | nil => rfl
    | cons first items =>
      obtain ⟨t, p⟩ := first
      cases t with
      | name n =>
        cases items with
        | nil => rfl
        | cons second items =>
          obtain ⟨u, q⟩ := second
          cases u with
          | symbol s =>
            by_cases dot : s = .dot
            · subst dot
              exact absurd rfl (noDot n p q items)
            · by_cases colons : s = .doubleColon
              · subst colons
                exact absurd rfl (noColons n p q items)
              · simp only [List.map_cons]
                unfold startsStatic
                split <;> simp_all
          | _ => rfl
      | _ => rfl

@[simp]
theorem leads_atStaticCall {f : Bool → Parse β} {xs zs : List Token} {k : Parse β} :
    Leads (atStaticCall >>= f) xs k zs ↔ Leads (f (startsStatic xs)) xs k zs := by
  have run : ∀ ts : TokenStream, ts.tokens = xs → atStaticCall ts = .ok (startsStatic xs, ts) := by
    intro ts same
    rw [atStaticCall, startsStaticCall_eq, ← same]
    rfl
  exact leads_step (fun ts same => ⟨ts, same, run ts same⟩) fun ts same => ⟨ts, same, run ts same⟩

/-- Whether a symbol may stand behind an operand that binds as tightly as a level without going on with it. -/
def follows (level : Nat) (s : Symbol) : Bool :=
  match s with
  | .openParen | .doubleColon => false
  | .dot | .openBracket => level = Expr.postfixLevel
  | s =>
    match BinaryOp.ofSymbol? s with
    | some op => op.level ≤ level
    | none => true

/-- Tokens that may stand behind an operand of a level. -/
structure Follows (level : Nat) (ys : List Token) : Prop where
  symbol : ∀ s, ys.head? = some (.symbol s) → follows level s = true
  static : ∀ n, startsStatic (.name n :: ys) = false

theorem ofSymbol?_symbol (op : BinaryOp) : BinaryOp.ofSymbol? op.symbol = some op := by
  cases op <;> rfl

theorem follows_symbol (level : Nat) (op : BinaryOp) : follows level op.symbol = decide (op.level ≤ level) := by
  cases op <;> rfl

theorem follows_mono {k l : Nat} (le : k ≤ l) (bound : l ≤ Expr.postfixLevel) {s : Symbol} (h : follows k s = true) :
    follows l s = true := by
  have whole : k = Expr.postfixLevel → l = Expr.postfixLevel := by omega
  unfold follows at h ⊢
  split at h
  · exact h
  · exact h
  · simpa using whole (by simpa using h)
  · simpa using whole (by simpa using h)
  · split at h
    · simp at h ⊢
      omega
    · rfl

theorem Follows.mono {k l : Nat} {ys : List Token} (h : Follows k ys) (le : k ≤ l) (bound : l ≤ Expr.postfixLevel) :
    Follows l ys :=
  ⟨fun s here => follows_mono le bound (h.symbol s here), h.static⟩

theorem Follows.of_symbol {level : Nat} {s : Symbol} (h : follows level s = true) (noDot : s ≠ .dot) (ys : List Token) :
    Follows level (.symbol s :: ys) where
  symbol := by
    rintro _ here
    obtain rfl := Token.symbol.inj (Option.some.inj here)
    exact h
  static := by
    intro n
    have noColons : s ≠ .doubleColon := by
      rintro rfl
      cases h
    unfold startsStatic
    split <;> simp_all

/-- A dot and a name may stand behind what suffixes may stand behind. -/
theorem Follows.dot {ys : List Token} (h : startsStatic ys = false) : Follows Expr.postfixLevel (.symbol .dot :: ys) where
  symbol := by
    rintro _ here
    obtain rfl := Token.symbol.inj (Option.some.inj here)
    rfl
  static := fun _ => h

section Operands

variable (expr : Parse Expr)

/-- Tokens that no unary operator begins. -/
def NoSign (xs : List Token) : Prop :=
  ∃ t rest, xs = t :: rest ∧ t ≠ .symbol .bang ∧ t ≠ .symbol .minus

/-- An operand behind which suffixes are read. -/
def Postfix (xs : List Token) (e : Expr) : Prop :=
  NoSign xs ∧ ∀ ys, Follows Expr.postfixLevel ys →
    ∃ fuel > ys.length, Leads (postfixed expr) (xs ++ ys) (suffixes expr fuel e) ys

/-- An operand that unary operators may stand in front of. -/
def Unary (xs : List Token) (e : Expr) : Prop :=
  ∀ ys, Follows Expr.unaryLevel ys → ∀ fuel ≥ (xs ++ ys).length,
    Reads (unary (postfixed expr) (fuel + 1)) (xs ++ ys) e ys

/-- The reader of operands that bind more tightly than all binary operators. -/
def operand : Parse Expr :=
  bounded (unary (postfixed expr))

/-- An operand of a level. The reader that climbs from a level no higher than its own reads it, and goes on behind it with
the operators that it is the left operand of. -/
def Climbs (level : Nat) (xs : List Token) (e : Expr) : Prop :=
  ∀ n least, least ≤ level → 6 < n + least → ∀ ys, Follows level ys → ∃ fuel > ys.length,
    Leads (binary (operand expr) (n + 1) least) (xs ++ ys) (climb (binary (operand expr) n) least fuel e) ys

/-- An operand of a level. -/
def Operand (level : Nat) (xs : List Token) (e : Expr) : Prop :=
  match level with
  | 8 => Postfix expr xs e
  | 7 => Unary expr xs e
  | level => Climbs expr level xs e

variable {expr} {n : Nat} {xs ys : List Token} {e : Expr}

theorem suffixes_end (follow : Follows Expr.unaryLevel ys) {fuel : Nat} (enough : fuel > ys.length) :
    Reads (suffixes expr fuel e) ys e ys := by
  obtain ⟨fuel, rfl⟩ : ∃ k, fuel = k + 1 := ⟨fuel - 1, by omega⟩
  have noDot : ys.head? ≠ some (.symbol .dot) := fun here => absurd (follow.symbol _ here) (by decide)
  have noBracket : ys.head? ≠ some (.symbol .openBracket) := fun here => absurd (follow.symbol _ here) (by decide)
  simp only [suffixes, eatSymbol, leads_eat_other noDot, leads_eat_other noBracket, Bool.false_eq_true, if_false]
  exact .refl _ _

theorem Postfix.unary (h : Postfix expr xs e) : Unary expr xs e := by
  intro ys follow fuel _
  obtain ⟨⟨t, rest, rfl, noBang, noMinus⟩, reads⟩ := h
  obtain ⟨k, enough, step⟩ := reads ys (follow.mono (by decide) (by decide))
  have read : Reads (postfixed expr) (t :: rest ++ ys) e ys := step.trans (suffixes_end follow enough)
  rw [List.cons_append] at read ⊢
  simpa [Parse.unary, eatSymbol, noBang, noMinus] using read

theorem NoSign.append (h : NoSign xs) (ys : List Token) : NoSign (xs ++ ys) := by
  obtain ⟨t, rest, rfl, noSign⟩ := h
  exact ⟨t, rest ++ ys, rfl, noSign⟩

theorem Postfix.ofPrimary (noSign : NoSign xs)
    (h : ∀ ys, Follows Expr.postfixLevel ys → Reads (primary expr) (xs ++ ys) e ys) : Postfix expr xs e := by
  refine ⟨noSign, fun ys follow => ⟨ys.length + 1, Nat.lt_succ_self _, ?_⟩⟩
  refine (h ys follow).then ?_
  simp only [leads_bounded]
  exact .refl _ _

theorem Follows.not_open (follow : Follows Expr.postfixLevel ys) : ys.head? ≠ some (.symbol .openParen) :=
  fun here => absurd (follow.symbol _ here) (by decide)

theorem Postfix.property (h : Postfix expr xs e) {name : String} (free : name ∉ reservedWords) :
    Postfix expr (xs ++ [.symbol .dot, .name name]) (.property e name) := by
  refine ⟨h.1.append _, fun ys follow => ?_⟩
  obtain ⟨fuel, enough, step⟩ := h.2 (.symbol .dot :: .name name :: ys) (.dot (follow.static name))
  obtain ⟨fuel, rfl⟩ : ∃ k, fuel = k + 1 := ⟨fuel - 1, by omega⟩
  simp only [List.length_cons] at enough
  refine ⟨fuel, by omega, ?_⟩
  rw [List.append_assoc]
  refine step.trans ?_
  simp only [suffixes, eatSymbol, leads_eat_cons, if_true, identifier, leads_identifierFor free, leads_next,
    decide_eq_false follow.not_open, Bool.false_eq_true, if_false]
  exact .refl _ _

theorem Postfix.call (h : Postfix expr xs e) {method : String} (free : method ∉ reservedWords) {arguments : List Token}
    {args : List Expr}
    (reads : ∀ ys, Reads (Parse.arguments expr) (.symbol .openParen :: arguments ++ ys) args ys) :
    Postfix expr (xs ++ .symbol .dot :: .name method :: .symbol .openParen :: arguments) (.call e method args) := by
  refine ⟨h.1.append _, fun ys follow => ?_⟩
  obtain ⟨fuel, enough, step⟩ := h.2 (.symbol .dot :: .name method :: .symbol .openParen :: arguments ++ ys) (.dot rfl)
  obtain ⟨fuel, rfl⟩ : ∃ k, fuel = k + 1 := ⟨fuel - 1, by omega⟩
  simp only [List.length_cons, List.length_append] at enough
  refine ⟨fuel, by omega, ?_⟩
  rw [List.append_assoc]
  refine step.trans ?_
  simp only [suffixes, eatSymbol, List.cons_append, leads_eat_cons, if_true, identifier, leads_identifierFor free,
    leads_next, List.head?_cons, decide_true]
  exact (reads ys).then (.refl _ _)

theorem Postfix.index (h : Postfix expr xs e) {keys : List Token} {key : Expr}
    (reads : ∀ ys, Reads expr (keys ++ .symbol .closeBracket :: ys) key (.symbol .closeBracket :: ys)) :
    Postfix expr (xs ++ .symbol .openBracket :: keys ++ [.symbol .closeBracket]) (.index e key) := by
  refine ⟨(h.1.append _).append _, fun ys follow => ?_⟩
  obtain ⟨fuel, enough, step⟩ := h.2 (.symbol .openBracket :: (keys ++ .symbol .closeBracket :: ys))
    (.of_symbol rfl (by decide) _)
  obtain ⟨fuel, rfl⟩ : ∃ k, fuel = k + 1 := ⟨fuel - 1, by omega⟩
  simp only [List.length_cons, List.length_append] at enough
  refine ⟨fuel, by omega, ?_⟩
  simp only [List.append_assoc, List.cons_append, List.nil_append]
  refine step.trans ?_
  simp only [suffixes, eatSymbol, leads_eat_cons, Token.symbol.injEq, reduceCtorEq, if_false, Bool.false_eq_true, if_true]
  refine (reads ys).then ?_
  simp only [leads_expectSymbol]
  exact .refl _ _

/-- Parentheses make an operand of what stands between them. -/
theorem Postfix.group {inner : List Token}
    (reads : ∀ ys, Reads expr (inner ++ .symbol .closeParen :: ys) e (.symbol .closeParen :: ys)) :
    Postfix expr (.symbol .openParen :: inner ++ [.symbol .closeParen]) e := by
  refine .ofPrimary ⟨_, _, rfl, by decide, by decide⟩ fun ys _ => ?_
  simp only [List.append_assoc, List.cons_append, List.nil_append]
  simp only [primary, leads_peek, List.head?_cons, primaryWord, eatWord, eatSymbol, leads_eat_cons, Token.symbol.injEq, reduceCtorEq,
    if_false, Bool.false_eq_true, if_true]
  refine (reads ys).then ?_
  simp only [leads_expectSymbol]
  exact .refl _ _

theorem Unary.not (h : Unary expr xs e) : Unary expr (.symbol .bang :: xs) (.unary .not e) := by
  intro ys follow fuel enough
  obtain ⟨fuel, rfl⟩ : ∃ k, fuel = k + 1 := ⟨fuel - 1, by simp at enough; omega⟩
  rw [List.cons_append, Parse.unary]
  simp only [eatSymbol, leads_eat_cons, if_true]
  exact (h ys follow fuel (by simpa using enough)).then (.refl _ _)

theorem Unary.negate (h : Unary expr xs e) : Unary expr (.symbol .minus :: xs) (negated e) := by
  intro ys follow fuel enough
  obtain ⟨fuel, rfl⟩ : ∃ k, fuel = k + 1 := ⟨fuel - 1, by simp at enough; omega⟩
  rw [List.cons_append, Parse.unary]
  simp only [eatSymbol, leads_eat_cons, if_true, Token.symbol.injEq, reduceCtorEq, if_false, Bool.false_eq_true]
  exact (h ys follow fuel (by simpa using enough)).then (.refl _ _)

/-- The binary operator at the front of some tokens, if one is there. -/
def operatorAt (ys : List Token) : Option BinaryOp :=
  match ys.head? with
  | some (.symbol s) => BinaryOp.ofSymbol? s
  | _ => none

theorem operatorAt_symbol (op : BinaryOp) (ys : List Token) : operatorAt (.symbol op.symbol :: ys) = some op :=
  ofSymbol?_symbol op

theorem head?_of_operatorAt {op : BinaryOp} (h : operatorAt ys = some op) : ys.head? = some (.symbol op.symbol) := by
  unfold operatorAt at h
  split at h
  next s front =>
    obtain rfl : op.symbol = s := by simpa using List.find?_some h
    exact front
  next => cases h

theorem run_binaryOperator (ts : TokenStream) : binaryOperator ts = .ok (operatorAt ts.tokens, ts) := by
  have looked : peek ts = .ok (ts.tokens.head?, ts) := by rw [peek, ts.head?_eq]
  rw [binaryOperator, run_bind looked, operatorAt]
  cases ts.tokens.head? with
  | none => rfl
  | some t => cases t <;> rfl

theorem Follows.operator {level : Nat} (follow : Follows level ys) {op : BinaryOp} (here : operatorAt ys = some op) :
    op.level ≤ level := by
  simpa [follows_symbol] using follow.symbol _ (head?_of_operatorAt here)

theorem leads_binaryOperator {f : Option BinaryOp → Parse α} {k : Parse α} {zs : List Token} :
    Leads (binaryOperator >>= f) ys k zs ↔ Leads (f (operatorAt ys)) ys k zs := by
  rw [binaryOperator, bind_assoc, leads_peek, operatorAt]
  cases ys.head? with
  | none => simp
  | some t => cases t <;> simp

theorem level_pos (op : BinaryOp) : 1 ≤ op.level ∧ op.level ≤ 6 := by
  cases op <;> decide

/-- The reader stops climbing at operators that bind less tightly than where it began. -/
theorem climb_end {level least : Nat} (follow : Follows level ys) (below : level < least) {fuel : Nat}
    (enough : fuel > ys.length) {right : Nat → Parse Expr} : Reads (climb right least fuel e) ys e ys := by
  obtain ⟨fuel, rfl⟩ : ∃ k, fuel = k + 1 := ⟨fuel - 1, by omega⟩
  simp only [climb, leads_binaryOperator]
  cases next : operatorAt ys with
  | none => exact .refl _ _
  | some op =>
    have loose : op.level < least := Nat.lt_of_le_of_lt (follow.operator next) below
    simp only [if_pos loose]
    exact .refl _ _

theorem Unary.climbs (h : Unary expr xs e) : Climbs expr Expr.unaryLevel xs e := by
  intro n least _ _ ys follow
  refine ⟨ys.length + 1, Nat.lt_succ_self _, ?_⟩
  have read : Reads (operand expr) (xs ++ ys) e ys := by
    simp only [operand, leads_bounded]
    exact h ys follow _ (Nat.le_refl _)
  rw [binary]
  refine read.then ?_
  rw [leads_bounded]
  exact .refl _ _

theorem Climbs.looser {level : Nat} (h : Climbs expr (level + 1) xs e) (bound : level < Expr.postfixLevel) :
    Climbs expr level xs e := by
  intro n least le enough ys follow
  exact h n least (Nat.le_succ_of_le le) enough ys (follow.mono (Nat.le_succ level) bound)

theorem Climbs.reads {level least k : Nat} (h : Climbs expr level xs e) (le : least ≤ level)
    (bound : level ≤ Expr.postfixLevel) (enough : 6 < n + least) (below : k < least) (follow : Follows k ys) :
    Reads (Parse.binary (operand expr) (n + 1) least) (xs ++ ys) e ys := by
  obtain ⟨fuel, more, step⟩ := h n least le enough ys (follow.mono (by omega) bound)
  exact step.trans (climb_end follow below more)

/-- An operator takes the right operand that begins one level above it, and the whole is an operand of its level. -/
theorem Climbs.binary {op : BinaryOp} {left right : Expr} {rs : List Token} (first : Climbs expr op.level xs left)
    (second : Climbs expr (op.level + 1) rs right) :
    Climbs expr op.level (xs ++ .symbol op.symbol :: rs) (.binary op left right) := by
  intro n least le enough ys follow
  obtain ⟨-, greatest⟩ := level_pos op
  have next : Follows op.level (.symbol op.symbol :: (rs ++ ys)) :=
    .of_symbol (by simp [follows_symbol]) (by cases op <;> decide) _
  obtain ⟨fuel, more, step⟩ := first n least le enough (.symbol op.symbol :: (rs ++ ys)) next
  obtain ⟨fuel, rfl⟩ : ∃ k, fuel = k + 1 := ⟨fuel - 1, by omega⟩
  obtain ⟨n, rfl⟩ : ∃ k, n = k + 1 := ⟨n - 1, by omega⟩
  simp only [List.length_cons, List.length_append] at more
  refine ⟨fuel, by omega, ?_⟩
  rw [List.append_assoc]
  refine step.trans ?_
  simp only [climb, leads_binaryOperator, operatorAt_symbol, if_neg (Nat.not_lt.mpr le), leads_advance]
  have read : Reads (Parse.binary (operand expr) (n + 1) (op.level + 1)) (rs ++ ys) right ys :=
    second.reads (Nat.le_refl _) (by simp only [Expr.postfixLevel]; omega) (by omega) (Nat.lt_succ_self _) follow
  exact read.then (.refl _ _)

theorem Operand.climbs {level : Nat} (h : Operand expr level xs e) (bound : level ≤ Expr.unaryLevel) :
    Climbs expr level xs e := by
  unfold Operand at h
  split at h
  · exact absurd bound (by decide)
  · exact Unary.climbs h
  · exact h

theorem Climbs.operand {level : Nat} (h : Climbs expr level xs e) (bound : level < Expr.unaryLevel) :
    Operand expr level xs e := by
  unfold Operand
  split
  · exact absurd bound (by decide)
  · exact absurd bound (by decide)
  · exact h

/-- An operand may stand where one that binds less tightly may stand. -/
theorem Operand.weaken {k l : Nat} (h : Operand expr l xs e) (le : k ≤ l) (bound : l ≤ Expr.postfixLevel) :
    Operand expr k xs e := by
  induction l, le using Nat.le_induction with
  | base => exact h
  | succ l le ih =>
    simp only [Expr.postfixLevel] at bound
    refine ih ?_ (by simp only [Expr.postfixLevel]; omega)
    by_cases tight : l = 7
    · subst tight
      exact Postfix.unary h
    · have climbs : Climbs expr (l + 1) xs e := h.climbs (by simp only [Expr.unaryLevel]; omega)
      exact (climbs.looser (by simp only [Expr.postfixLevel]; omega)).operand (by simp only [Expr.unaryLevel]; omega)

theorem Operand.binary {op : BinaryOp} {left right : Expr} {rs : List Token} (first : Operand expr op.level xs left)
    (second : Operand expr (op.level + 1) rs right) :
    Operand expr op.level (xs ++ .symbol op.symbol :: rs) (.binary op left right) := by
  obtain ⟨-, greatest⟩ := level_pos op
  have first := first.climbs (by simp only [Expr.unaryLevel]; omega)
  have second := second.climbs (by simp only [Expr.unaryLevel]; omega)
  exact (first.binary second).operand (by simp only [Expr.unaryLevel]; omega)

/-- A whole expression is read up to what does not go on with it. -/
theorem Operand.expressionOver {level : Nat} (h : Operand expr level xs e) (least : 1 ≤ level)
    (greatest : level ≤ Expr.postfixLevel) (follow : Follows 0 ys) : Reads (expressionOver expr) (xs ++ ys) e ys :=
  ((h.weaken least greatest).climbs (by decide)).reads (Nat.le_refl 1) (by decide) (by decide) Nat.one_pos follow

end Operands

end Parse

end AspectProxy
