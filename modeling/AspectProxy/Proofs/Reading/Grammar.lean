import AspectProxy.Proofs.Reading.Operands

/-!
The grammar of expressions, level by level and with the tree that stands for each way to derive some tokens, and the
reader on tokens that it derives. An operand is read up to what does not go on with it at its level, so a derivation is
followed from its leaves to its root; what stands between brackets is read one depth further down.
-/

namespace AspectProxy

/-- The level of an expression that no operator and no suffix is part of. -/
def Expr.primaryLevel : Nat := 9

/-- The tokens of names joined by dots. -/
def pathTokens (n : String) (ns : List String) : List Token :=
  .name n :: ns.flatMap fun x => [.symbol .dot, .name x]

/-- Tokens in parentheses. -/
def parenthesized (u : List Token) : List Token :=
  .symbol .openParen :: u ++ [.symbol .closeParen]

mutual

/-- The tokens that are an expression of a level, and its tree. The levels from one to six are those of the binary
operators, which bind their left operand first; an expression of any of them may be one of the next level. Parentheses
leave no trace in a tree, and a minus in front of a number belongs to the number. -/
inductive Derives : (level : Nat) → List Token → Expr → Prop
  | tighter (h : Derives (level + 1) u e) : Derives level u e
  | binary (op : BinaryOp) (left : Derives op.level u a) (right : Derives (op.level + 1) v b) :
      Derives op.level (u ++ .symbol op.symbol :: v) (.binary op a b)
  | not (h : Derives Expr.unaryLevel u e) : Derives Expr.unaryLevel (.symbol .bang :: u) (.unary .not e)
  | negative (h : Derives Expr.unaryLevel u e) : Derives Expr.unaryLevel (.symbol .minus :: u) (Parse.negated e)
  | property (h : Derives Expr.postfixLevel u e) (free : n ∉ reservedWords) :
      Derives Expr.postfixLevel (u ++ [.symbol .dot, .name n]) (.property e n)
  | call (h : Derives Expr.postfixLevel u e) (free : n ∉ reservedWords) (args : DerivesItems v es) :
      Derives Expr.postfixLevel (u ++ .symbol .dot :: .name n :: parenthesized v) (.call e n es)
  | index (h : Derives Expr.postfixLevel u e) (key : Derives 1 v k) :
      Derives Expr.postfixLevel (u ++ .symbol .openBracket :: v ++ [.symbol .closeBracket]) (.index e k)
  | int (k : Int64) : Derives Expr.primaryLevel [.int k] (.int k)
  | float (x : Float) : Derives Expr.primaryLevel [.float x] (.float x)
  | str (s : String) : Derives Expr.primaryLevel [.str s] (.str s)
  | true : Derives Expr.primaryLevel [.name "true"] (.bool true)
  | false : Derives Expr.primaryLevel [.name "false"] (.bool false)
  | null : Derives Expr.primaryLevel [.name "null"] .null
  | self : Derives Expr.primaryLevel [.name "self"] .self
  | superCall (free : n ∉ reservedWords) (args : DerivesItems v es) :
      Derives Expr.primaryLevel (.name "super" :: .symbol .dot :: .name n :: parenthesized v) (.superCall n es)
  | create (free : ∀ x ∈ n :: ns, x ∉ reservedWords) (args : DerivesItems v es) :
      Derives Expr.primaryLevel (.name "new" :: pathTokens n ns ++ parenthesized v) (.create (n ++ dotted ns) es)
  | staticCall (free : ∀ x ∈ n :: ns, x ∉ reservedWords) (freeMethod : m ∉ reservedWords) (args : DerivesItems v es) :
      Derives Expr.primaryLevel (pathTokens n ns ++ .symbol .doubleColon :: .name m :: parenthesized v)
        (.staticCall (n ++ dotted ns) m es)
  | functionCall (free : n ∉ reservedWords) (args : DerivesItems v es) :
      Derives Expr.primaryLevel (.name n :: parenthesized v) (.functionCall n es)
  | var (free : n ∉ reservedWords) : Derives Expr.primaryLevel [.name n] (.var n)
  | list (items : DerivesItems v es) :
      Derives Expr.primaryLevel (.symbol .openBracket :: v ++ [.symbol .closeBracket]) (.list es)
  | map (entries : DerivesEntries v fs) :
      Derives Expr.primaryLevel (.symbol .openBrace :: v ++ [.symbol .closeBrace]) (.map fs)
  | group (h : Derives 1 u e) : Derives Expr.primaryLevel (parenthesized u) e

/-- Expressions with a comma behind each; there need be none behind the last. -/
inductive DerivesItems : List Token → List Expr → Prop
  | nil : DerivesItems [] []
  | last (h : Derives 1 u e) : DerivesItems u [e]
  | cons (h : Derives 1 u e) (more : DerivesItems v es) : DerivesItems (u ++ .symbol .comma :: v) (e :: es)

/-- Entries of a map literal in the same way. -/
inductive DerivesEntries : List Token → List (String × Expr) → Prop
  | nil : DerivesEntries [] []
  | last (h : Derives 1 u e) : DerivesEntries (.str k :: .symbol .colon :: u) [(k, e)]
  | cons (h : Derives 1 u e) (more : DerivesEntries v fs) :
      DerivesEntries (.str k :: .symbol .colon :: u ++ .symbol .comma :: v) ((k, e) :: fs)

end

/-- An expression of a level is one of every looser level. -/
theorem Derives.loosen {k l : Nat} {u : List Token} {e : Expr} (h : Derives l u e) (le : k ≤ l) : Derives k u e := by
  induction l, le using Nat.le_induction with
  | base => exact h
  | succ l _ ih => exact ih h.tighter

/-- A token that an expression may begin with. -/
def Token.startsExpr : Token → Bool
  | .name n => n ∉ reservedWords || n ∈ ["true", "false", "null", "self", "super", "new"]
  | .symbol s => s ∈ [.openParen, .openBracket, .openBrace, .bang, .minus]
  | _ => true

/-- Tokens that begin as an expression does. -/
def BeginsExpr (xs : List Token) : Prop :=
  ∃ t rest, xs = t :: rest ∧ t.startsExpr = true

theorem BeginsExpr.append {xs : List Token} (h : BeginsExpr xs) (ys : List Token) : BeginsExpr (xs ++ ys) := by
  obtain ⟨t, rest, rfl, starts⟩ := h
  exact ⟨t, rest ++ ys, rfl, starts⟩

theorem BeginsExpr.head_ne {xs : List Token} (h : BeginsExpr xs) {t : Token} (other : t.startsExpr = false) :
    xs.head? ≠ some t := by
  obtain ⟨u, rest, rfl, starts⟩ := h
  rintro ⟨⟩
  simp [other] at starts

theorem BeginsExpr.length_pos {xs : List Token} (h : BeginsExpr xs) : 0 < xs.length := by
  obtain ⟨t, rest, rfl, -⟩ := h
  exact Nat.succ_pos _

theorem beginsExpr_name {n : String} (free : n ∉ reservedWords) (xs : List Token) : BeginsExpr (.name n :: xs) :=
  ⟨_, _, rfl, by simp [Token.startsExpr, free]⟩

theorem Derives.beginsExpr : ∀ {level : Nat} {u : List Token} {e : Expr}, Derives level u e → BeginsExpr u
  | _, _, _, .tighter h => h.beginsExpr
  | _, _, _, .binary _ left _ => left.beginsExpr.append _
  | _, _, _, .property h _ | _, _, _, .call h _ _ => h.beginsExpr.append _
  | _, _, _, .index h _ => (h.beginsExpr.append _).append _
  | _, _, _, .not _ | _, _, _, .negative _ | _, _, _, .list _ | _, _, _, .map _ | _, _, _, .group _
  | _, _, _, .true | _, _, _, .false | _, _, _, .null | _, _, _, .self
  | _, _, _, .superCall _ _ | _, _, _, .create _ _ => ⟨_, _, rfl, by decide⟩
  | _, _, _, .int _ | _, _, _, .float _ | _, _, _, .str _ => ⟨_, _, rfl, rfl⟩
  | _, _, _, .staticCall free _ _ => beginsExpr_name (free _ List.mem_cons_self) _
  | _, _, _, .functionCall free _ => beginsExpr_name free _
  | _, _, _, .var free => beginsExpr_name free _

namespace Parse

variable {ys zs : List Token}

theorem identifier_reads {n : String} (free : n ∉ reservedWords) : Reads identifier (.name n :: ys) n ys := by
  simp only [identifier, identifierFor, leads_peek, List.head?_cons, if_neg free, leads_advance]
  exact .refl _ _

theorem dottedRest_reads {ns : List String} (free : ∀ x ∈ ns, x ∉ reservedWords) (ends : ys.head? ≠ some (.symbol .dot)) :
    ∀ fuel > ns.length, Reads (dottedRest fuel) ((ns.flatMap fun x => [.symbol .dot, .name x]) ++ ys) (dotted ns) ys := by
  induction ns with
  | nil =>
    intro fuel enough
    obtain ⟨fuel, rfl⟩ : ∃ k, fuel = k + 1 := ⟨fuel - 1, by simp at enough; omega⟩
    simp only [dottedRest, eatSymbol, List.flatMap_nil, List.nil_append, leads_eat_other ends, Bool.false_eq_true, if_false]
    exact .refl _ _
  | cons n ns ih =>
    intro fuel enough
    obtain ⟨fuel, rfl⟩ : ∃ k, fuel = k + 1 := ⟨fuel - 1, by simp at enough; omega⟩
    obtain ⟨here, free⟩ := List.forall_mem_cons.mp free
    have rest := ih free fuel (by simpa using enough)
    simp only [dottedRest, eatSymbol, List.flatMap_cons, List.cons_append, List.nil_append, leads_eat_cons, if_true,
      identifier, leads_identifierFor here]
    exact rest.then (.refl _ _)

/-- Names joined by dots are read up to what is no dot. -/
theorem path_reads {n : String} {ns : List String} (free : ∀ x ∈ n :: ns, x ∉ reservedWords)
    (ends : ys.head? ≠ some (.symbol .dot)) : Reads dottedName (pathTokens n ns ++ ys) (n ++ dotted ns) ys := by
  rw [pathTokens, List.cons_append]
  obtain ⟨here, free⟩ := List.forall_mem_cons.mp free
  have rest : Reads (bounded dottedRest) ((ns.flatMap fun x => [.symbol .dot, .name x]) ++ ys) (dotted ns) ys := by
    simp only [leads_bounded]
    refine dottedRest_reads free ends _ ?_
    simp
    omega
  exact (identifier_reads here).then (rest.then (.refl _ _))

section Primary

variable {expr : Parse Expr} {arguments : List Token} {args : List Expr}

theorem Postfix.int (n : Int64) : Postfix expr [.int n] (.int n) := by
  refine .ofPrimary ⟨_, _, rfl, nofun, nofun⟩ fun ys _ => ?_
  simp only [primary, List.cons_append, List.nil_append, leads_peek, List.head?_cons, leads_advance]
  exact .refl _ _

theorem Postfix.float (x : Float) : Postfix expr [.float x] (.float x) := by
  refine .ofPrimary ⟨_, _, rfl, nofun, nofun⟩ fun ys _ => ?_
  simp only [primary, List.cons_append, List.nil_append, leads_peek, List.head?_cons, leads_advance]
  exact .refl _ _

theorem Postfix.str (s : String) : Postfix expr [.str s] (.str s) := by
  refine .ofPrimary ⟨_, _, rfl, nofun, nofun⟩ fun ys _ => ?_
  simp only [primary, List.cons_append, List.nil_append, leads_peek, List.head?_cons, leads_advance]
  exact .refl _ _

/-- The words that are expressions by themselves. -/
theorem Postfix.constant {w : String} {e : Expr}
    (h : (w, e) ∈ [("true", .bool true), ("false", .bool false), ("null", .null), ("self", .self)]) :
    Postfix expr [.name w] e := by
  refine .ofPrimary ⟨_, _, rfl, nofun, nofun⟩ fun ys _ => ?_
  simp only [List.mem_cons, Prod.mk.injEq, List.not_mem_nil, or_false] at h
  rcases h with ⟨rfl, rfl⟩ | ⟨rfl, rfl⟩ | ⟨rfl, rfl⟩ | ⟨rfl, rfl⟩
  all_goals
    simp [primary, primaryWord, eatWord]
    exact .refl _ _

/-- At a name that is not reserved a static call is read, or else the name alone or with arguments. -/
theorem leads_primary_name {n : String} (free : n ∉ reservedWords) {e : Expr} {rest : List Token}
    (reads : if startsStatic (.name n :: ys) then
        Reads (do
          let className ← dottedName
          expectSymbol .doubleColon
          let method ← identifier
          return .staticCall className method (← Parse.arguments expr)) (.name n :: ys) e rest
      else Reads (nameOrCall expr) (.name n :: ys) e rest) :
    Reads (primary expr) (.name n :: ys) e rest := by
  simp only [reservedWords, List.mem_cons, List.not_mem_nil, or_false, not_or] at free
  simp only [primary, leads_peek, List.head?_cons, primaryWord, eatWord, eatSymbol, leads_eat_cons, Token.name.injEq, free,
    reduceCtorEq, if_false, Bool.false_eq_true, leads_atStaticCall]
  split at reads <;> rename_i here <;> simp only [here, if_true, Bool.false_eq_true, if_false] <;> exact reads

theorem Postfix.var {name : String} (free : name ∉ reservedWords) : Postfix expr [.name name] (.var name) := by
  refine .ofPrimary ⟨_, _, rfl, nofun, nofun⟩ fun ys follow => ?_
  rw [List.cons_append, List.nil_append]
  refine leads_primary_name free ?_
  simp only [follow.static name, Bool.false_eq_true, if_false, nameOrCall, leads_identifierFor free, leads_next,
    decide_eq_false follow.not_open]
  exact .refl _ _

theorem startsStatic_path (n : String) (ns : List String) (ys : List Token) :
    startsStatic (pathTokens n ns ++ .symbol .doubleColon :: ys) = true := by
  induction ns generalizing n with
  | nil => rfl
  | cons m ns ih => exact ih m

section Calls

variable (reads : ∀ ys, Reads (Parse.arguments expr) (.symbol .openParen :: arguments ++ ys) args ys)
include reads

theorem Postfix.functionCall {name : String} (free : name ∉ reservedWords) :
    Postfix expr (.name name :: .symbol .openParen :: arguments) (.functionCall name args) := by
  refine .ofPrimary ⟨_, _, rfl, nofun, nofun⟩ fun ys _ => ?_
  rw [List.cons_append, List.cons_append]
  refine leads_primary_name free ?_
  simp only [startsStatic, Bool.false_eq_true, if_false, nameOrCall, leads_identifierFor free, leads_next,
    List.head?_cons, decide_true, if_true]
  exact (reads ys).then (.refl _ _)

theorem Postfix.superCall {method : String} (free : method ∉ reservedWords) :
    Postfix expr (.name "super" :: .symbol .dot :: .name method :: .symbol .openParen :: arguments)
      (.superCall method args) := by
  refine .ofPrimary ⟨_, _, rfl, nofun, nofun⟩ fun ys _ => ?_
  simp [primary, primaryWord, eatWord, identifier, free]
  exact (reads ys).map _

theorem Postfix.staticCall {n method : String} {ns : List String} (names : ∀ x ∈ n :: ns, x ∉ reservedWords)
    (free : method ∉ reservedWords) :
    Postfix expr (pathTokens n ns ++ .symbol .doubleColon :: .name method :: .symbol .openParen :: arguments)
      (.staticCall (n ++ dotted ns) method args) := by
  refine .ofPrimary ⟨_, _, rfl, nofun, nofun⟩ fun ys _ => ?_
  have static := startsStatic_path n ns (.name method :: .symbol .openParen :: (arguments ++ ys))
  have read : Reads dottedName
      (pathTokens n ns ++ .symbol .doubleColon :: .name method :: .symbol .openParen :: (arguments ++ ys))
      (n ++ dotted ns) (.symbol .doubleColon :: .name method :: .symbol .openParen :: (arguments ++ ys)) :=
    path_reads names (by simp)
  simp only [pathTokens, List.append_assoc, List.cons_append] at read static ⊢
  refine leads_primary_name (names n List.mem_cons_self) ?_
  rw [if_pos static]
  refine read.then ?_
  simp only [leads_expectSymbol, identifier, leads_identifierFor free]
  exact (reads ys).then (.refl _ _)

theorem Postfix.create {n : String} {ns : List String} (names : ∀ x ∈ n :: ns, x ∉ reservedWords) :
    Postfix expr (.name "new" :: pathTokens n ns ++ .symbol .openParen :: arguments)
      (.create (n ++ dotted ns) args) := by
  refine .ofPrimary ⟨_, _, rfl, nofun, nofun⟩ fun ys _ => ?_
  simp [primary, primaryWord, eatWord]
  refine (path_reads names (by simp)).then ?_
  exact (reads ys).map _

end Calls

theorem Postfix.list {v : List Token}
    (reads : ∀ ys, Reads (bounded (commaItems expr .closeBracket)) (v ++ .symbol .closeBracket :: ys) args ys) :
    Postfix expr (.symbol .openBracket :: v ++ [.symbol .closeBracket]) (.list args) := by
  refine .ofPrimary ⟨_, _, rfl, by decide, by decide⟩ fun ys _ => ?_
  simp only [List.append_assoc, List.cons_append, List.nil_append]
  simp only [primary, leads_peek, List.head?_cons, primaryWord, eatWord, eatSymbol, leads_eat_cons, reduceCtorEq,
    if_false, Bool.false_eq_true, if_true]
  exact (reads ys).then (.refl _ _)

theorem Postfix.map {v : List Token} {entries : List (String × Expr)}
    (reads : ∀ ys, Reads (bounded (commaItems (mapEntry expr) .closeBrace)) (v ++ .symbol .closeBrace :: ys) entries ys) :
    Postfix expr (.symbol .openBrace :: v ++ [.symbol .closeBrace]) (.map entries) := by
  refine .ofPrimary ⟨_, _, rfl, by decide, by decide⟩ fun ys _ => ?_
  simp only [List.append_assoc, List.cons_append, List.nil_append]
  simp only [primary, leads_peek, List.head?_cons, primaryWord, eatWord, eatSymbol, leads_eat_cons, reduceCtorEq,
    Token.symbol.injEq, if_false, Bool.false_eq_true, if_true]
  exact (reads ys).then (.refl _ _)

end Primary

section Lists

variable {item : Parse α} {close : Symbol} {a : α} {as : List α} {xs : List Token} {fuel : Nat}

theorem commaItems_end : Reads (commaItems item close (fuel + 1)) (.symbol close :: ys) [] ys := by
  simp only [commaItems, eatSymbol, leads_eat_cons, if_true]
  exact .refl _ _

theorem commaItems_last (first : (xs ++ .symbol close :: ys).head? ≠ some (.symbol close)) (noComma : close ≠ .comma)
    (read : Reads item (xs ++ .symbol close :: ys) a (.symbol close :: ys)) :
    Reads (commaItems item close (fuel + 1)) (xs ++ .symbol close :: ys) [a] ys := by
  simp only [commaItems, eatSymbol, leads_eat_other first, Bool.false_eq_true, if_false]
  refine read.then ?_
  simp only [leads_eat_cons, Token.symbol.injEq, noComma, if_false, Bool.false_eq_true, leads_expectSymbol]
  exact .refl _ _

theorem commaItems_cons (first : (xs ++ .symbol .comma :: zs).head? ≠ some (.symbol close))
    (read : Reads item (xs ++ .symbol .comma :: zs) a (.symbol .comma :: zs))
    (more : Reads (commaItems item close fuel) zs as ys) :
    Reads (commaItems item close (fuel + 1)) (xs ++ .symbol .comma :: zs) (a :: as) ys := by
  simp only [commaItems, eatSymbol, leads_eat_other first, Bool.false_eq_true, if_false]
  refine read.then ?_
  simp only [leads_eat_cons, if_true]
  exact more.then (.refl _ _)

end Lists

end Parse

open Parse

theorem mapEntry_reads {expr : Parse Expr} {u ys : List Token} {k : String} {e : Expr} (read : Reads expr (u ++ ys) e ys) :
    Reads (mapEntry expr) (.str k :: .symbol .colon :: u ++ ys) (k, e) ys := by
  simp only [mapEntry, List.cons_append, leads_peek, List.head?_cons, leads_advance, leads_expectSymbol]
  exact read.then (.refl _ _)

theorem arguments_reads {v ys : List Token} {es : List Expr} {d : Nat}
    (items : ∀ fuel > v.length, ∀ ys, Reads (commaItems (expressionWithin d) .closeParen fuel)
      (v ++ .symbol .closeParen :: ys) es ys) :
    Reads (arguments (expressionWithin d)) (parenthesized v ++ ys) es ys := by
  simp only [arguments, parenthesized, List.cons_append, List.append_assoc, List.nil_append, leads_expectSymbol,
    leads_bounded]
  exact items _ (by simp only [List.length_append, List.length_cons]; omega) _

/-- A whole expression is read one bracket depth up from where its operands are. -/
theorem Derives.readsWithin {u ys : List Token} {e : Expr} (h : Derives 1 u e)
    (operand : ∀ {d : Nat}, u.length ≤ d + 1 → Operand (expressionWithin d) 1 u e) {d : Nat} (deep : u.length ≤ d)
    (follow : Follows 0 ys) : Reads (expressionWithin d) (u ++ ys) e ys := by
  have nonempty := h.beginsExpr.length_pos
  obtain ⟨d, rfl⟩ : ∃ k, d = k + 1 := ⟨d - 1, by omega⟩
  exact (operand deep).expressionOver (by decide) (by decide) follow

mutual

/-- Tokens of a level are read as an operand of it, with brackets less deep than there are tokens. -/
theorem Derives.operand : ∀ {level : Nat} {u : List Token} {e : Expr}, Derives level u e → 1 ≤ level → ∀ {d : Nat},
    u.length ≤ d + 1 → Operand (expressionWithin d) (min level 8) u e
  | level, _, _, .tighter h, least, d, deep =>
    (h.operand (Nat.le_succ_of_le least) deep).weaken (by omega) (by simp only [Expr.postfixLevel]; omega)
  | _, _, _, .binary op left right, _, d, deep => by
    obtain ⟨least, greatest⟩ := level_pos op
    simp only [List.length_cons, List.length_append] at deep
    have first := left.operand least (d := d) (by omega)
    have second := right.operand (Nat.le_succ_of_le least) (d := d) (by omega)
    rw [Nat.min_eq_left (by omega)] at first second ⊢
    exact .binary first second
  | _, _, _, .not h, _, d, deep => Unary.not (h.operand (by decide) (by simpa using Nat.le_succ_of_le deep))
  | _, _, _, .negative h, _, d, deep => Unary.negate (h.operand (by decide) (by simpa using Nat.le_succ_of_le deep))
  | _, _, _, .property h free, _, d, deep => by
    simp only [List.length_cons, List.length_append] at deep
    exact Postfix.property (h.operand (by decide) (by omega)) free
  | _, _, _, .call h free args, _, d, deep => by
    simp only [parenthesized, List.length_cons, List.length_append] at deep
    exact Postfix.call (h.operand (by decide) (by omega)) free fun ys =>
      arguments_reads (args.reads (by omega) (by simp))
  | _, _, _, .index h key, _, d, deep => by
    simp only [List.length_cons, List.length_append, List.length_nil] at deep
    exact Postfix.index (h.operand (by decide) (by omega)) fun ys =>
      key.readsWithin (key.operand (by decide)) (by omega) (.of_symbol rfl (by decide) _)
  | _, _, _, .int k, _, _, _ => Postfix.int k
  | _, _, _, .float x, _, _, _ => Postfix.float x
  | _, _, _, .str s, _, _, _ => Postfix.str s
  | _, _, _, .true, _, _, _ => Postfix.constant (by simp)
  | _, _, _, .false, _, _, _ => Postfix.constant (by simp)
  | _, _, _, .null, _, _, _ => Postfix.constant (by simp)
  | _, _, _, .self, _, _, _ => Postfix.constant (by simp)
  | _, _, _, .superCall free args, _, d, deep => by
    simp only [parenthesized, List.length_cons, List.length_append] at deep
    exact Postfix.superCall (fun ys => arguments_reads (args.reads (by omega) (by simp))) free
  | _, _, _, .create free args, _, d, deep => by
    simp only [parenthesized, List.length_cons, List.length_append] at deep
    exact Postfix.create (fun ys => arguments_reads (args.reads (by omega) (by simp))) free
  | _, _, _, .staticCall free freeMethod args, _, d, deep => by
    simp only [parenthesized, List.length_cons, List.length_append] at deep
    exact Postfix.staticCall (fun ys => arguments_reads (args.reads (by omega) (by simp))) free freeMethod
  | _, _, _, .functionCall free args, _, d, deep => by
    simp only [parenthesized, List.length_cons, List.length_append] at deep
    exact Postfix.functionCall (fun ys => arguments_reads (args.reads (by omega) (by simp))) free
  | _, _, _, .var free, _, _, _ => Postfix.var free
  | _, _, _, .list items, _, d, deep => by
    simp only [List.length_cons, List.length_append, List.length_nil] at deep
    refine Postfix.list fun ys => ?_
    simp only [leads_bounded]
    exact items.reads (by omega) (by simp) _ (by simp only [List.length_append, List.length_cons]; omega) ys
  | _, _, _, .map entries, _, d, deep => by
    simp only [List.length_cons, List.length_append, List.length_nil] at deep
    refine Postfix.map fun ys => ?_
    simp only [leads_bounded]
    exact entries.reads (by omega) _ (by simp only [List.length_append, List.length_cons]; omega) ys
  | _, _, _, .group h, _, d, deep => by
    simp only [parenthesized, List.length_cons, List.length_append, List.length_nil] at deep
    exact Postfix.group fun ys => h.readsWithin (h.operand (by decide)) (by omega) (.of_symbol rfl (by decide) _)

theorem DerivesItems.reads : ∀ {v : List Token} {es : List Expr}, DerivesItems v es → ∀ {d : Nat}, v.length ≤ d →
    ∀ {close : Symbol}, close ∈ [.closeParen, .closeBracket] → ∀ fuel > v.length, ∀ ys,
      Reads (commaItems (expressionWithin d) close fuel) (v ++ .symbol close :: ys) es ys
  | _, _, .nil, _, _, _, _, fuel + 1, _, _ => commaItems_end
  | _, _, .last h, d, deep, close, closing, fuel + 1, _, ys => by
    obtain ⟨starts, follow, noComma, noDot⟩ : (Token.symbol close).startsExpr = false ∧ follows 0 close = true ∧
        close ≠ .comma ∧ close ≠ .dot := by
      simp only [List.mem_cons, List.not_mem_nil, or_false] at closing
      rcases closing with rfl | rfl <;> decide
    exact commaItems_last ((h.beginsExpr.append _).head_ne starts) noComma
      (h.readsWithin (h.operand (by decide)) deep (.of_symbol follow noDot ys))
  | _, _, .cons h more, d, deep, close, closing, fuel + 1, enough, ys => by
    have starts : (Token.symbol close).startsExpr = false := by
      simp only [List.mem_cons, List.not_mem_nil, or_false] at closing
      rcases closing with rfl | rfl <;> decide
    simp only [List.length_cons, List.length_append] at deep enough
    rw [List.append_assoc]
    exact commaItems_cons ((h.beginsExpr.append _).head_ne starts)
      (h.readsWithin (h.operand (by decide)) (by omega) (.of_symbol rfl (by decide) _))
        (more.reads (by omega) closing fuel (by omega) ys)

theorem DerivesEntries.reads : ∀ {v : List Token} {fs : List (String × Expr)}, DerivesEntries v fs → ∀ {d : Nat},
    v.length ≤ d → ∀ fuel > v.length, ∀ ys,
      Reads (commaItems (mapEntry (expressionWithin d)) .closeBrace fuel) (v ++ .symbol .closeBrace :: ys) fs ys
  | _, _, .nil, _, _, fuel + 1, _, _ => commaItems_end
  | _, _, .last h, d, deep, fuel + 1, _, ys => by
    simp only [List.length_cons] at deep
    exact commaItems_last (by simp) (by decide)
      (mapEntry_reads (h.readsWithin (h.operand (by decide)) (by omega) (.of_symbol rfl (by decide) ys)))
  | _, _, .cons h more, d, deep, fuel + 1, enough, ys => by
    simp only [List.length_cons, List.length_append] at deep enough
    rw [List.append_assoc]
    exact commaItems_cons (by simp) (mapEntry_reads (h.readsWithin (h.operand (by decide)) (by omega) (.of_symbol rfl (by decide) _)))
      (more.reads (by omega) fuel (by omega) ys)

end

/-- Tokens that the grammar derives are read up to any token that does not go on with them. -/
theorem Derives.reads {u ys : List Token} {e : Expr} (h : Derives 1 u e) (follow : Follows 0 ys) :
    Reads expression (u ++ ys) e ys := by
  simp only [expression, leads_bounded]
  exact h.readsWithin (h.operand (by decide)) (by simp only [List.length_append]; omega) follow

end AspectProxy
