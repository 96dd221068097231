import AspectProxy.Proofs.Printing.Spacing

/-!
Reading as a sequence of steps. A step of a reader takes tokens from the front and goes on as another reader; where the
tokens stand in the text makes no difference to it. What has been read comes out when a reader goes on as `pure`.
-/

namespace AspectProxy

def TokenStream.tokens (ts : TokenStream) : List Token :=
  ts.items.map (·.token)

theorem TokenStream.head?_eq (ts : TokenStream) : ts.head? = ts.tokens.head? := by
  rw [head?, tokens, List.head?_map]

theorem TokenStream.tokens_tail (ts : TokenStream) : ts.tail.tokens = ts.tokens.tail := by
  rw [tail, tokens, tokens, List.map_tail]

theorem TokenStream.length_tokens (ts : TokenStream) : ts.tokens.length = ts.items.length :=
  List.length_map _

namespace Parse

/-- Reading some tokens with one reader goes on as reading others with another. -/
def Leads (p : Parse α) (xs : List Token) (q : Parse α) (ys : List Token) : Prop :=
  ∀ ts : TokenStream, ts.tokens = xs → ∃ ts' : TokenStream, ts'.tokens = ys ∧ p ts = q ts'

/-- A reader reads tokens up to the rest of them. -/
abbrev Reads (p : Parse α) (xs : List Token) (a : α) (rest : List Token) : Prop :=
  Leads p xs (pure a) rest

variable {p q r : Parse α} {f : α → Parse β} {k : Parse β} {xs ys zs : List Token}

theorem run_bind {ts ts' : TokenStream} {a : α} (h : p ts = .ok (a, ts')) : (p >>= f) ts = f a ts' := by
  show (p ts >>= fun x => f x.1 x.2) = _
  rw [h]
  rfl

theorem run_bind_error {ts : TokenStream} {e : SourceFault} (h : p ts = .error e) : (p >>= f) ts = .error e := by
  show (p ts >>= fun x => f x.1 x.2) = _
  rw [h]
  rfl

/-- A reader of two steps succeeds when both do. -/
theorem of_bind {ts ts' : TokenStream} {b : β} (h : (p >>= f) ts = .ok (b, ts')) :
    ∃ a ts₁, p ts = .ok (a, ts₁) ∧ f a ts₁ = .ok (b, ts') := by
  have step : (p ts >>= fun x => f x.1 x.2) = .ok (b, ts') := h
  cases read : p ts with
  | error e =>
    rw [read] at step
    cases step
  | ok x =>
    rw [read] at step
    exact ⟨x.1, x.2, rfl, step⟩

namespace Leads

theorem refl (p : Parse α) (xs : List Token) : Leads p xs p xs :=
  fun ts same => ⟨ts, same, rfl⟩

theorem trans (first : Leads p xs q ys) (second : Leads q ys r zs) : Leads p xs r zs := by
  intro ts same
  obtain ⟨ts', same', step⟩ := first ts same
  obtain ⟨ts'', same'', steps⟩ := second ts' same'
  exact ⟨ts'', same'', step.trans steps⟩

theorem bind (h : Leads p xs q ys) (f : α → Parse β) : Leads (p >>= f) xs (q >>= f) ys := by
  intro ts same
  obtain ⟨ts', same', step⟩ := h ts same
  refine ⟨ts', same', ?_⟩
  show (p ts >>= fun x => f x.1 x.2) = q ts' >>= fun x => f x.1 x.2
  rw [step]

/-- What follows a reader follows on what it has read. -/
theorem «then» {a : α} (h : Reads p xs a ys) (next : Leads (f a) ys k zs) : Leads (p >>= f) xs k zs := by
  have step := h.bind f
  rw [pure_bind] at step
  exact step.trans next

theorem map {a : α} (h : Reads p xs a ys) (g : α → β) : Reads (g <$> p) xs (g a) ys := by
  rw [map_eq_pure_bind]
  exact h.then (.refl _ _)

end Leads

/-- A step that succeeds on all places alike can be left out. -/
theorem leads_step {a : α} (there : ∀ ts : TokenStream, ts.tokens = xs → ∃ ts', ts'.tokens = ys ∧ p ts = .ok (a, ts'))
    (back : ∀ ts' : TokenStream, ts'.tokens = ys → ∃ ts, ts.tokens = xs ∧ p ts = .ok (a, ts')) :
    Leads (p >>= f) xs k zs ↔ Leads (f a) ys k zs := by
  constructor
  · intro whole ts' same
    obtain ⟨ts, same, step⟩ := back ts' same
    obtain ⟨ts'', rest, goes⟩ := whole ts same
    exact ⟨ts'', rest, (run_bind step).symm.trans goes⟩
  · intro rest ts same
    obtain ⟨ts', same, step⟩ := there ts same
    obtain ⟨ts'', rest, goes⟩ := rest ts' same
    exact ⟨ts'', rest, (run_bind step).trans goes⟩

/-- Taking the next token off. -/
theorem leads_take {t : Token} {a : α} (h : ∀ ts : TokenStream, ts.head? = some t → p ts = .ok (a, ts.tail)) :
    Leads (p >>= f) (t :: xs) k zs ↔ Leads (f a) xs k zs := by
  have first : ∀ ts : TokenStream, ts.tokens = t :: xs → p ts = .ok (a, ts.tail) := by
    intro ts same
    exact h ts (by rw [ts.head?_eq, same]; rfl)
  refine leads_step (fun ts same => ⟨ts.tail, by rw [ts.tokens_tail, same]; rfl, first ts same⟩) fun ts' same => ?_
  exact ⟨⟨⟨t, ts'.stop⟩ :: ts'.items, ts'.stop⟩, by simpa [TokenStream.tokens] using same, h _ rfl⟩

/-- Looking at the next token. -/
theorem leads_look {a : α} (h : ∀ ts : TokenStream, ts.head? = xs.head? → p ts = .ok (a, ts)) :
    Leads (p >>= f) xs k zs ↔ Leads (f a) xs k zs :=
  leads_step (fun ts same => ⟨ts, same, h ts (by rw [ts.head?_eq, same])⟩)
    fun ts same => ⟨ts, same, h ts (by rw [ts.head?_eq, same])⟩

@[simp]
theorem leads_eat_cons {t u : Token} {f : Bool → Parse β} :
    Leads (eat t >>= f) (u :: xs) k zs ↔ if u = t then Leads (f true) xs k zs else Leads (f false) (u :: xs) k zs := by
  split
  case isTrue same =>
    subst same
    exact leads_take fun ts here => by simp [eat, here]
  case isFalse other => exact leads_look fun ts here => by simp [eat, here, other]

theorem leads_eat_other {t : Token} {f : Bool → Parse β} (other : xs.head? ≠ some t) :
    Leads (eat t >>= f) xs k zs ↔ Leads (f false) xs k zs :=
  leads_look fun ts here => by simp [eat, here, other]

@[simp]
theorem leads_eat_nil {t : Token} {f : Bool → Parse β} : Leads (eat t >>= f) [] k zs ↔ Leads (f false) [] k zs :=
  leads_eat_other nofun

@[simp]
theorem leads_peek {f : Option Token → Parse β} : Leads (peek >>= f) xs k zs ↔ Leads (f xs.head?) xs k zs :=
  leads_look fun ts here => by rw [peek, here]

@[simp]
theorem leads_advance {t : Token} {f : Unit → Parse β} : Leads (advance >>= f) (t :: xs) k zs ↔ Leads (f ()) xs k zs :=
  leads_take fun _ _ => rfl

@[simp]
theorem leads_next {t : Token} {f : Bool → Parse β} :
    Leads (next t >>= f) xs k zs ↔ Leads (f (decide (xs.head? = some t))) xs k zs :=
  leads_look fun ts here => by rw [next, here]

@[simp]
theorem leads_bounded {p : Nat → Parse α} : Leads (bounded p) xs q ys ↔ Leads (p (xs.length + 1)) xs q ys := by
  have run : ∀ ts : TokenStream, ts.tokens = xs → bounded p ts = p (xs.length + 1) ts := by
    intro ts same
    rw [bounded, ← ts.length_tokens, same]
  constructor
  · intro whole ts same
    obtain ⟨ts', rest, step⟩ := whole ts same
    exact ⟨ts', rest, (run ts same).symm.trans step⟩
  · intro whole ts same
    obtain ⟨ts', rest, step⟩ := whole ts same
    exact ⟨ts', rest, (run ts same).trans step⟩

@[simp]
theorem leads_expectSymbol {s : Symbol} {f : Unit → Parse β} :
    Leads (expectSymbol s >>= f) (.symbol s :: xs) k zs ↔ Leads (f ()) xs k zs := by
  simp [expectSymbol, eatSymbol, bind_assoc]

@[simp]
theorem leads_expectWord {w : String} {f : Unit → Parse β} :
    Leads (expectWord w >>= f) (.name w :: xs) k zs ↔ Leads (f ()) xs k zs := by
  simp [expectWord, eatWord, bind_assoc]

@[simp]
theorem leads_identifierFor {n : String} {what : Expectation} {f : String → Parse β} (h : n ∉ reservedWords) :
    Leads (identifierFor what >>= f) (.name n :: xs) k zs ↔ Leads (f n) xs k zs := by
  simp [identifierFor, bind_assoc, h]

end Parse

end AspectProxy
