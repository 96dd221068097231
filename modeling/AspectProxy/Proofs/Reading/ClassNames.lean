import AspectProxy.Proofs.Reading.Recognition
import AspectProxy.Proofs.Reading.Refused

/-!
Texts that differ by the name of a class. Around a name of the same length all other tokens of a text stand where they
stood, so a reader that stops behind the name stops at the same place and for the same reason.
-/

namespace AspectProxy

theorem Position.after_plain {cs : List Char} (plain : '\n' ∉ cs) (p : Position) :
    p.after cs = ⟨p.line, p.column + cs.length⟩ := by
  induction cs generalizing p with
  | nil => rfl
  | cons c cs ih =>
    obtain ⟨here, more⟩ := not_or.mp (List.mem_cons.not.mp plain)
    have step : p.next c = ⟨p.line, p.column + 1⟩ := if_neg fun feed => here feed.symm
    show (p.next c).after cs = _
    rw [ih more, step, List.length_cons, Nat.add_assoc, Nat.add_comm 1]

theorem IsName.no_feed {n : String} (h : IsName n) : '\n' ∉ n.toList := by
  intro feed
  exact absurd (mem_of_isIdentifier h.1 feed) (by decide)

/-- Where the tokens around a name stand depends on the name only by its length. -/
theorem Piece.lexes_around {front back : List Piece} (valid : ∀ q ∈ front ++ back, q.Valid)
    (chain : back.IsChain (joins · · = true)) (length : Nat) (p : Position) : ∃ before place after stop,
    before.map (·.token) = front.flatMap tokens ∧ after.map (·.token) = back.flatMap tokens ∧
      ∀ n, IsName n → n.length = length → (front ++ word n :: back).IsChain (joins · · = true) →
        TokenStream.ofChars? 0 p ((front ++ word n :: back).flatMap chars) =
          .ok ⟨before ++ ⟨.name n, place⟩ :: after, stop⟩ := by
  obtain ⟨validFront, validBack⟩ := List.forall_mem_append.mp valid
  obtain ⟨before, tokens, goes⟩ := gives_front validFront p
  generalize p.after (front.flatMap chars) = place at goes
  obtain ⟨after, stop, read, tokens'⟩ := lexes_of_chain chain validBack ⟨place.line, place.column + length⟩
  refine ⟨before, place, after, stop, tokens, tokens', fun n name same chain => ?_⟩
  have validRest : ∀ q ∈ word n :: back, q.Valid := List.forall_mem_cons.mpr ⟨name.valid, validBack⟩
  have ends : (word n).EndsBefore (back.flatMap chars) := by
    cases back with
    | nil => nofun
    | cons q back => exact endsBefore_of_joins chain.right_of_append validBack
  have nonempty : n.toList ≠ [] := by
    intro none
    have identifier := name.1
    rw [none] at identifier
    cases identifier
  have behind : TokenStream.ofChars? 0 place ((word n :: back).flatMap chars) = .ok ⟨⟨.name n, place⟩ :: after, stop⟩ := by
    show TokenStream.ofChars? 0 place (n.toList ++ back.flatMap chars) = _
    rw [TokenStream.ofChars?_token nonempty (Scan.ofChars_name name.1 ends), Position.after_plain name.no_feed,
      String.length_toList, same, read, String.ofList_toList]
    rfl
  rw [List.flatMap_append, goes _ ⟨word n :: back, chain, validRest, rfl⟩, behind]
  rfl

namespace Parse

/-- A reader that takes tokens off the front and reads some tokens leaves those behind them. -/
theorem reads_exactly {p : Parse α} {a : α} {xs ys : List Token} (reads : Reads p (xs ++ ys) a ys)
    (takes : Takes p fun _ _ => True) {front rest : List Located} {stop : Position} (tokens : front.map (·.token) = xs)
    (behind : rest.map (·.token) = ys) : p ⟨front ++ rest, stop⟩ = .ok (a, ⟨rest, stop⟩) := by
  subst tokens behind
  obtain ⟨⟨items, stop'⟩, same, read⟩ := reads ⟨front ++ rest, stop⟩ List.map_append
  obtain ⟨us, whole, -⟩ := takes _ a _ read
  obtain ⟨split, rfl⟩ := TokenStream.mk.inj whole
  have lengths : rest.length = items.length := by
    have lengths := congrArg List.length same
    rwa [TokenStream.tokens, List.length_map, List.length_map, eq_comm] at lengths
  rw [read, List.append_inj_right' split lengths]
  rfl

theorem packageClause_takes : Takes packageClause fun _ _ => True := by
  refine .ifEat (dottedName_takes.bind fun _ _ _ => ?_) (.pure trivial)
  exact .expect (.pure trivial)

theorem importRest_takes : Takes importRest fun _ _ => True := by
  refine dottedName_takes.bind fun _ _ _ => .ifEat ?_ ?_
  · simp only [map_eq_pure_bind, bind_assoc, pure_bind]
    exact (identifierFor_takes _).bind fun _ _ _ => .expect (.pure trivial)
  · simp only [pure_bind]
    exact .expect (.pure trivial)

theorem imports_takes (fuel : Nat) : Takes (imports fuel) fun _ _ => True := by
  induction fuel with
  | zero => exact .pure trivial
  | succ fuel ih => exact .ifEat (importRest_takes.bind fun _ _ _ => ih.bind fun _ _ _ => .pure trivial) (.pure trivial)

/-- A class whose parent cannot be read, behind its own name. -/
theorem declarations_stop {k x e : Located} {n : String} {rest : List Located} {stop : Position} {f : SourceFault}
    (keyword : k.token = .name "class") (named : x.token = .name n) (free : n ∉ reservedWords)
    (parent : e.token = .name "extends") (stops : dottedName ⟨rest, stop⟩ = .error f) (fuel : Nat) :
    declarations (fuel + 1) ⟨k :: x :: e :: rest, stop⟩ = .error f := by
  have first : (⟨k :: x :: e :: rest, stop⟩ : TokenStream).head? = some (.name "class") := congrArg some keyword
  have second : (⟨x :: e :: rest, stop⟩ : TokenStream).head? = some (.name n) := congrArg some named
  have third : (⟨e :: rest, stop⟩ : TokenStream).head? = some (.name "extends") := congrArg some parent
  have notFinal : eatWord "final" ⟨k :: x :: e :: rest, stop⟩ = .ok (false, _) := if_neg (by rw [first]; decide)
  have isClass : eatWord "class" ⟨k :: x :: e :: rest, stop⟩ = .ok (true, _) := if_pos first
  have name : identifier ⟨x :: e :: rest, stop⟩ = .ok (n, ⟨e :: rest, stop⟩) := by
    refine (run_bind (p := peek) rfl).trans ?_
    rw [second]
    simp only [free, if_false]
    rfl
  have isChild : eatWord "extends" ⟨e :: rest, stop⟩ = .ok (true, _) := if_pos third
  have noParent : (some <$> dottedName) ⟨rest, stop⟩ = .error f := by
    rw [map_eq_pure_bind]
    exact run_bind_error stops
  have header : classRest false ⟨x :: e :: rest, stop⟩ = .error f :=
    (run_bind name).trans ((run_bind isChild).trans (run_bind_error noParent))
  have stopped : declaration ⟨k :: x :: e :: rest, stop⟩ = .error f :=
    (run_bind notFinal).trans ((run_bind isClass).trans header)
  refine (run_bind (p := peek) rfl).trans ?_
  rw [first]
  exact run_bind_error stopped

/-- A unit with a class whose parent cannot be read, behind its package and its imports. -/
theorem sourceUnit_stop {u : SourceUnit} (package : ∀ p ∈ u.package, IsDotted p) (imports : ∀ i ∈ u.imports, i.Sound)
    {front rest : List Located} {stop : Position}
    (heading : front.map (·.token) = packageTokens u.package ++ u.imports.flatMap Import.tokens) {k x e : Located}
    {n : String} (keyword : k.token = .name "class") (named : x.token = .name n) (free : n ∉ reservedWords)
    (parent : e.token = .name "extends") {f : SourceFault} (stops : dottedName ⟨rest, stop⟩ = .error f) :
    sourceUnit ⟨front ++ k :: x :: e :: rest, stop⟩ = .error f := by
  obtain ⟨clause, lines, rfl, clauseTokens, lineTokens⟩ := List.map_eq_append_iff.mp heading
  let behind := k :: x :: e :: rest
  have head : ∀ w, w ≠ "class" → (behind.map (·.token)).head? ≠ some (.name w) := by
    rintro w other same
    rw [List.map_cons, keyword] at same
    cases same
    exact other rfl
  have clauseRead : packageClause ⟨clause ++ (lines ++ behind), stop⟩ = .ok (u.package, ⟨lines ++ behind, stop⟩) := by
    refine reads_exactly ?_ packageClause_takes clauseTokens (List.map_append.trans (congrArg (· ++ _) lineTokens))
    exact packageClause_reads package (SourceUnit.importTokens_head imports (head "package" (by decide)))
  have linesRead : bounded Parse.imports ⟨lines ++ behind, stop⟩ = .ok (u.imports, ⟨behind, stop⟩) := by
    refine reads_exactly ?_ (.bounded imports_takes) lineTokens rfl
    exact SourceUnit.importLines_reads imports (head "import" (by decide))
  rw [List.append_assoc]
  refine (run_bind clauseRead).trans ((run_bind linesRead).trans (run_bind_error ?_))
  exact declarations_stop keyword named free parent stops _

end Parse

namespace SourceUnit

open Piece

/-- The pieces in front of the name of the only class of a unit. -/
def piecesBefore (u : SourceUnit) : List Piece :=
  u.packagePieces ++ u.importPieces ++ [word "class", space 1]

/-- The pieces behind the name of a class under a parent. -/
def piecesAfter (width : Nat) (parent : String) (members : List Member) : List Piece :=
  [space 1, word "extends", space 1, word parent, space 1, symbol .openBrace, newline] ++
    lineJoin (members.map (Member.pieces width)) ++ [symbol .closeBrace, newline]

variable {u : SourceUnit} {c : ClassDecl} {parent : String}

theorem pieces_one (one : u.declarations = [.class c]) (isOpen : c.isFinal = false) (refers : c.parent = some parent)
    (width : Nat) : u.pieces width = u.piecesBefore ++ word c.name :: piecesAfter width parent c.members := by
  simp [pieces, one, lineJoin, Declaration.pieces, Declaration.head, isOpen, refers, Declaration.members, piecesBefore,
    piecesAfter]

theorem tokens_piecesBefore (u : SourceUnit) : u.piecesBefore.flatMap Piece.tokens =
    packageTokens u.package ++ u.imports.flatMap Import.tokens ++ [.name "class"] := by
  have heading := tokens_eq { u with declarations := [] } 0
  simp only [pieces, List.map_nil, lineJoin, List.flatMap_nil, List.append_nil] at heading
  rw [piecesBefore, List.flatMap_append, ← heading]
  simp [tokens_reserved "class" (by decide), packagePieces, importPieces]

theorem tokens_piecesAfter (width : Nat) (parent : String) (members : List Member) : ∃ more,
    (piecesAfter width parent members).flatMap Piece.tokens = .name "extends" :: ((word parent).tokens ++ more) := by
  refine ⟨.symbol .openBrace :: ((lineJoin (members.map (Member.pieces width))).flatMap Piece.tokens ++
    [.symbol .closeBrace]), ?_⟩
  simp [piecesAfter, tokens_reserved "extends" (by decide)]

section OneClass

variable (package : ∀ p ∈ u.package, IsDotted p) (imports : ∀ i ∈ u.imports, i.Sound)
  (spelt : (Declaration.class c).Spelt) (every : (Declaration.class c).Every Statement.Sound Expr.Spelt)
  (isOpen : c.isFinal = false) (refers : c.parent = some parent)
include package imports spelt every isOpen refers

/-- The pieces of the unit hold together under every name of the class. -/
theorem held_named {n : String} (name : IsName n) (width : Nat) :
    Held newline (u.piecesBefore ++ word n :: piecesAfter width parent c.members) newline := by
  have here : (Declaration.class { c with name := n }).Spelt := by
    refine ⟨name, ?_, spelt.members⟩
    rintro _ ⟨⟩
    exact spelt.parent c rfl
  let named : SourceUnit := { u with declarations := [.class { c with name := n }] }
  have pieces : named.pieces width = u.piecesBefore ++ word n :: piecesAfter width parent c.members :=
    pieces_one (u := named) (c := { c with name := n }) rfl isOpen refers width
  rw [← pieces]
  exact named.held package imports (List.forall_mem_singleton.mpr here) (List.forall_mem_singleton.mpr every)

/-- The text of the unit has the same tokens under all names of the class of one length, but for the name. -/
theorem exists_tokens_named (width length : Nat) : ∃ heading k place e rest stop more,
    heading.map (·.token) = packageTokens u.package ++ u.imports.flatMap Import.tokens ∧ k.token = .name "class" ∧
      e.token = .name "extends" ∧ rest.map (·.token) = (word parent).tokens ++ more ∧
      ∀ n, IsName n → n.length = length →
        TokenStream.ofString? ({ u with declarations := [.class { c with name := n }] }.print width) =
          .ok ⟨heading ++ k :: ⟨.name n, place⟩ :: e :: rest, stop⟩ := by
  have held {n : String} (name : IsName n) := held_named package imports spelt every isOpen refers name width
  have chain {n : String} (name : IsName n) := (held name).chain.tail.left_of_append
  have valid : ∀ q ∈ u.piecesBefore ++ piecesAfter width parent c.members, q.Valid := by
    intro q hq
    apply (held spelt.name).valid
    rcases List.mem_append.mp hq with hq | hq
    · exact List.mem_append_left _ hq
    · exact List.mem_append_right _ (List.mem_cons_of_mem _ hq)
  obtain ⟨before, place, after, stop, tokens, tokens', around⟩ :=
    lexes_around valid (chain spelt.name).right_of_append.tail length .start
  rw [tokens_piecesBefore] at tokens
  obtain ⟨more, text⟩ := tokens_piecesAfter width parent c.members
  rw [text] at tokens'
  obtain ⟨heading, _, rfl, headingTokens, last⟩ := List.map_eq_append_iff.mp tokens
  obtain ⟨k, rfl, keyword⟩ := List.map_eq_singleton_iff.mp last
  obtain ⟨e, rest, rfl, extends_, parentTokens⟩ := List.map_eq_cons_iff.mp tokens'
  refine ⟨heading, k, place, e, rest, stop, more, headingTokens, keyword, extends_, parentTokens, fun n name same => ?_⟩
  have lexed := around n name same (chain name)
  rw [List.append_assoc] at lexed
  rw [TokenStream.ofString?, print, textOf, String.toList_ofList, pieces_one (c := { c with name := n }) rfl isOpen refers]
  exact lexed

/-- Where the parent of a class has no name of the language, the text of the unit is refused at one place and for one reason
under all names of the class of one length. -/
theorem exists_fault_of_not_isDotted (bad : ¬IsDotted parent) (width : Nat) :
    ∃ f, ∀ n, IsName n → n.length = c.name.length →
      ofString? ({ u with declarations := [.class { c with name := n }] }.print width) = .error f := by
  obtain ⟨heading, k, place, e, rest, stop, more, headingTokens, keyword, extends_, parentTokens, scanned⟩ :=
    exists_tokens_named package imports spelt every isOpen refers width c.name.length
  have reserved : Parse.HasReserved (dotSegments parent.toList) :=
    by_contra fun free => bad (isDotted_of_free (spelt.parent c rfl parent refers) free)
  obtain ⟨f, stops⟩ := Parse.dottedName_refuses reserved ⟨rest, stop⟩ parentTokens
  refine ⟨f, fun n name same => ?_⟩
  have stopped := Parse.sourceUnit_stop (u := u) package imports headingTokens keyword rfl name.2 extends_ stops
    (x := ⟨.name n, place⟩)
  rw [ofString?, scanned n name same]
  show (Parse.sourceUnit _).map _ = _
  rw [stopped]
  rfl

end OneClass

end SourceUnit

end AspectProxy
