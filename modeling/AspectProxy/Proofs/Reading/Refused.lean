import AspectProxy.Proofs.Reading.RoundTrip

/-!
Texts that are not read. A reserved word among the parts of a parent's name is where the reader of a unit stops, so a
unit that is written with a parent is read, as whatever unit, only if the parent has a name of the language.
-/

namespace AspectProxy

namespace Parse

variable {p q : Parse α} {xs ys : List Token}

/-- A reader stops at some tokens with a fault, wherever they stand. -/
def Refuses (p : Parse α) (xs : List Token) : Prop :=
  ∀ ts : TokenStream, ts.tokens = xs → ∃ e, p ts = .error e

theorem Refuses.bind (h : Refuses p xs) (f : α → Parse β) : Refuses (p >>= f) xs := by
  intro ts same
  obtain ⟨e, stopped⟩ := h ts same
  refine ⟨e, ?_⟩
  show (p ts >>= fun x => f x.1 x.2) = _
  rw [stopped]
  rfl

theorem Leads.refuses (h : Leads p xs q ys) (stops : Refuses q ys) : Refuses p xs := by
  intro ts same
  obtain ⟨ts', same', step⟩ := h ts same
  obtain ⟨e, stopped⟩ := stops ts' same'
  exact ⟨e, step.trans stopped⟩

theorem identifier_refuses {n : String} (reserved : n ∈ reservedWords) : Refuses identifier (.name n :: xs) := by
  intro ts same
  have next : ts.head? = some (.name n) := by rw [ts.head?_eq, same]; rfl
  refine ⟨⟨ts.position, .expected .identifier ts.head?⟩, ?_⟩
  have peeked : peek ts = .ok (ts.head?, ts) := rfl
  simp only [identifier, identifierFor, bind, StateT.bind, Except.bind, peeked, next, reserved, if_true, unexpected]

/-- The tokens of names with a dot in front of each. -/
def dottedTokens (segments : List (List Char)) : List Token :=
  segments.flatMap fun cs => [.symbol .dot, .name (String.ofList cs)]

theorem dotTokens_cons (cs : List Char) (segments : List (List Char)) :
    dotTokens (cs :: segments) = .name (String.ofList cs) :: dottedTokens segments := by
  induction segments generalizing cs with
  | nil => rfl
  | cons ds segments ih =>
    rw [dotTokens, ih ds]
    · rfl
    · exact List.cons_ne_nil ds segments

/-- Whether a word among some parts of a name is reserved. -/
def HasReserved (segments : List (List Char)) : Prop :=
  ∃ cs ∈ segments, String.ofList cs ∈ reservedWords

theorem dottedRest_refuses {segments : List (List Char)} (h : HasReserved segments) :
    ∀ fuel > segments.length, Refuses (dottedRest fuel) (dottedTokens segments ++ ys) := by
  induction segments with
  | nil =>
    obtain ⟨cs, none, -⟩ := h
    cases none
  | cons cs segments ih =>
    intro fuel enough
    rw [List.length_cons] at enough
    obtain ⟨fuel, rfl⟩ : ∃ k, fuel = k + 1 := ⟨fuel - 1, by omega⟩
    by_cases reserved : String.ofList cs ∈ reservedWords
    · have begins : Leads (dottedRest (fuel + 1)) (dottedTokens (cs :: segments) ++ ys)
          (identifier >>= fun n => do return "." ++ n ++ (← dottedRest fuel))
          (.name (String.ofList cs) :: (dottedTokens segments ++ ys)) := by
        simp only [dottedRest, eatSymbol, dottedTokens, List.flatMap_cons, List.cons_append, List.nil_append, leads_eat_cons,
          if_true]
        exact .refl _ _
      exact begins.refuses ((identifier_refuses reserved).bind _)
    · have later : HasReserved segments := by
        obtain ⟨ds, mem, word⟩ := h
        rcases List.mem_cons.mp mem with rfl | mem
        · exact absurd word reserved
        · exact ⟨ds, mem, word⟩
      have begins : Leads (dottedRest (fuel + 1)) (dottedTokens (cs :: segments) ++ ys)
          (dottedRest fuel >>= fun rest => pure ("." ++ String.ofList cs ++ rest)) (dottedTokens segments ++ ys) := by
        simp only [dottedRest, eatSymbol, dottedTokens, List.flatMap_cons, List.cons_append, List.nil_append, leads_eat_cons,
          if_true, identifier, leads_identifierFor reserved]
        exact .refl _ _
      exact begins.refuses ((ih later fuel (by omega)).bind _)

theorem dottedName_refuses {s : String} (h : HasReserved (dotSegments s.toList)) :
    Refuses dottedName ((Piece.word s).tokens ++ ys) := by
  rw [Piece.tokens]
  cases parts : dotSegments s.toList with
  | nil => exact absurd parts (dotSegments_ne_nil _)
  | cons cs segments =>
    rw [parts] at h
    rw [dotTokens_cons, List.cons_append]
    by_cases reserved : String.ofList cs ∈ reservedWords
    · exact (identifier_refuses reserved).bind _
    · have later : HasReserved segments := by
        obtain ⟨ds, mem, word⟩ := h
        rcases List.mem_cons.mp mem with rfl | mem
        · exact absurd word reserved
        · exact ⟨ds, mem, word⟩
      have rest : Refuses (bounded dottedRest) (dottedTokens segments ++ ys) := by
        have begins : Leads (bounded dottedRest) (dottedTokens segments ++ ys)
            (dottedRest ((dottedTokens segments ++ ys).length + 1)) (dottedTokens segments ++ ys) :=
          leads_bounded.mpr (.refl _ _)
        refine begins.refuses (dottedRest_refuses later _ ?_)
        simp [dottedTokens]
        omega
      have begins : Leads dottedName (.name (String.ofList cs) :: (dottedTokens segments ++ ys))
          (bounded dottedRest >>= fun rest => pure (String.ofList cs ++ rest)) (dottedTokens segments ++ ys) := by
        simp only [dottedName, identifier, leads_identifierFor reserved]
        exact .refl _ _
      exact begins.refuses (rest.bind _)

end Parse

open Parse

/-- A name without reserved words in it is a name of the language. -/
theorem isDotted_of_free {s : String} (valid : isDottedName s.toList = true) (free : ¬HasReserved (dotSegments s.toList)) :
    IsDotted s := by
  cases parts : dotSegments s.toList with
  | nil => exact absurd parts (dotSegments_ne_nil _)
  | cons cs segments =>
    induction segments generalizing s cs with
    | nil =>
      obtain ⟨-, whole⟩ | ⟨_, _, _, more, -⟩ := dotSegments_cases parts
      · refine IsName.isDotted ⟨?_, fun reserved => free ?_⟩
        · rw [isDottedName, parts] at valid
          rw [whole]
          simpa using valid
        · exact ⟨cs, by simp [parts], by rwa [← whole, String.ofList_toList]⟩
      · cases more
    | cons ds segments ih =>
      obtain ⟨none, -⟩ | ⟨_, _, rest, more, text, behind⟩ := dotSegments_cases parts
      · cases none
      · have first : IsName (String.ofList cs) := by
          refine ⟨?_, fun reserved => free ⟨cs, by simp [parts], reserved⟩⟩
          rw [isDottedName, parts] at valid
          rw [String.toList_ofList]
          exact (Bool.and_eq_true_iff.mp valid).1
        have tail : IsDotted (String.ofList rest) := by
          refine ih (s := String.ofList rest) ?_ ?_ ds ?_
          · rw [isDottedName, parts] at valid
            rw [isDottedName, String.toList_ofList, behind]
            exact (Bool.and_eq_true_iff.mp valid).2
          · rintro ⟨es, mem, word⟩
            rw [String.toList_ofList, behind] at mem
            exact free ⟨es, by rw [parts]; exact List.mem_cons_of_mem _ mem, word⟩
          · rw [String.toList_ofList, behind]
        have whole : s = String.ofList cs ++ "." ++ String.ofList rest := by
          refine String.toList_inj.mp ?_
          simp [text]
        rw [whole]
        exact first.isDotted.append tail

namespace Parse

theorem classRest_refuses {c : ClassDecl} {parent : String} (name : IsName c.name) (refers : c.parent = some parent)
    (bad : HasReserved (dotSegments parent.toList)) (isFinal : Bool) : Refuses (classRest isFinal) (c.nameTokens ++ ys) := by
  have begins : Leads (classRest isFinal) (c.nameTokens ++ ys)
      (dottedName >>= fun p => do return .class ⟨c.name, isFinal, some p, ← members⟩) ((Piece.word parent).tokens ++ ys) := by
    simp only [ClassDecl.nameTokens, refers, List.cons_append, classRest, identifier, leads_identifierFor name.2, eatWord,
      leads_eat_cons, if_true, map_eq_pure_bind, bind_assoc, pure_bind]
    exact .refl _ _
  exact begins.refuses ((dottedName_refuses bad).bind _)

theorem declaration_refuses {c : ClassDecl} {parent : String} (name : IsName c.name) (refers : c.parent = some parent)
    (bad : HasReserved (dotSegments parent.toList)) (width : Nat) :
    Refuses declaration ((Declaration.class c).tokens width ++ ys) := by
  have rest : Refuses (classRest c.isFinal) (c.nameTokens ++ (Declaration.memberTokens width c.members ++ ys)) :=
    classRest_refuses name refers bad c.isFinal
  have begins : Leads declaration ((Declaration.class c).tokens width ++ ys) (classRest c.isFinal)
      (c.nameTokens ++ (Declaration.memberTokens width c.members ++ ys)) := by
    rw [Declaration.tokens_eq, ClassDecl.head_tokens name, List.append_assoc, List.append_assoc]
    cases c.isFinal with
    | false =>
      simp only [Bool.false_eq_true, if_false, List.nil_append, List.cons_append, declaration, eatWord, leads_eat_cons,
        Token.name.injEq, String.reduceEq, if_true]
      exact .refl _ _
    | true =>
      simp only [if_true, List.nil_append, List.cons_append, declaration, eatWord, leads_eat_cons]
      exact .refl _ _
  exact begins.refuses rest

end Parse

namespace SourceUnit

variable {u v : SourceUnit} {c : ClassDecl} {parent : String}

/-- A unit that is written with a class under a parent is read only if the parent has a name of the language. -/
theorem isDotted_of_read_print (package : ∀ p ∈ u.package, IsDotted p) (imports : ∀ i ∈ u.imports, i.Sound)
    (spelt : ∀ d ∈ u.declarations, d.Spelt) (every : u.Every Statement.Sound Expr.Spelt)
    (one : u.declarations = [.class c]) (refers : c.parent = some parent) {width : Nat}
    (read : ofString? (u.print width) = .ok v) : IsDotted parent := by
  have here : (Declaration.class c).Spelt := spelt _ (by simp [one])
  refine isDotted_of_free (here.parent c rfl parent refers) fun bad => ?_
  obtain ⟨ts, ts', scanned, parsed⟩ := of_ofString? read
  obtain ⟨items, stop, lexed, tokens⟩ := lexes_spelt package imports spelt every width .start
  obtain rfl : (⟨items, stop⟩ : TokenStream) = ts := Except.ok.inj (lexed.symm.trans scanned)
  have whole : (u.pieces width).flatMap Piece.tokens =
      packageTokens u.package ++ (u.imports.flatMap Import.tokens ++ (Declaration.class c).tokens width) := by
    rw [tokens_eq, one, List.flatMap_singleton]
  obtain ⟨w, listed, rest, text⟩ := Declaration.tokens_cons here.name width
  have stops : Refuses (bounded Parse.declarations) ((Declaration.class c).tokens width) := by
    have begins : Leads (bounded Parse.declarations) ((Declaration.class c).tokens width)
        (do return (← declaration) :: (← Parse.declarations ((Declaration.class c).tokens width).length))
        ((Declaration.class c).tokens width) := by
      simp only [leads_bounded, Parse.declarations, leads_peek, text, List.head?_cons, Option.isNone_some, Bool.false_eq_true,
        if_false]
      exact .refl _ _
    have stops : Refuses declaration ((Declaration.class c).tokens width ++ []) :=
      declaration_refuses here.name refers bad width
    rw [List.append_nil] at stops
    exact begins.refuses (stops.bind _)
  have head : ∀ w ∉ ["final", "class", "trait"], ((Declaration.class c).tokens width).head? ≠ some (.name w) := by
    intro x other
    rw [text]
    rintro ⟨⟩
    exact other listed
  obtain ⟨e, stopped⟩ := (heading_leads package imports head).refuses (stops.bind _) ⟨items, stop⟩ (tokens.trans whole)
  rw [stopped] at parsed
  cases parsed

end SourceUnit

end AspectProxy
