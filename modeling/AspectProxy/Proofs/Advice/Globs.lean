import AspectProxy.Advice
import AspectProxy.Proofs.Advice.Regexes
import AspectProxy.Proofs.Weaving.ProxyNames

/-!
What pointcuts match. A pattern matches a text that can be cut into one piece for each of its characters: any run without
a line feed for a star, one character but a line feed for a question mark, and else a character that is the same. The
expression for the pattern, between its anchors, finds a match in just these texts: what it spells takes up the text piece
by piece.
-/

namespace AspectProxy

/-- The pieces of text that a character of a pattern stands for. -/
inductive StandsFor (alike : Char → Char → Prop) : Char → List Char → Prop
  | run {piece : List Char} (oneLine : '\n' ∉ piece) : StandsFor alike '*' piece
  | one {c : Char} (inLine : c ≠ '\n') : StandsFor alike '?' [c]
  | itself {p c : Char} (noStar : p ≠ '*') (noMark : p ≠ '?') (same : alike p c) : StandsFor alike p [c]

/-- A text is made of one piece for each character of a pattern. -/
def Cut (alike : Char → Char → Prop) (pattern text : List Char) : Prop :=
  ∃ pieces, List.Forall₂ (StandsFor alike) pattern pieces ∧ pieces.flatten = text

section Cut

variable {alike : Char → Char → Prop} {p c : Char} {ps cs ds : List Char}

theorem cut_nil : Cut alike [] cs ↔ cs = [] := by
  constructor
  · rintro ⟨pieces, stand, rfl⟩
    cases stand
    rfl
  · rintro rfl
    exact ⟨[], .nil, rfl⟩

theorem cut_cons : Cut alike (p :: ps) cs ↔ ∃ piece rest, cs = piece ++ rest ∧ StandsFor alike p piece ∧
    Cut alike ps rest := by
  constructor
  · rintro ⟨pieces, stand, rfl⟩
    cases stand with
    | cons here later => exact ⟨_, _, rfl, here, _, later, rfl⟩
  · rintro ⟨piece, _, rfl, here, pieces, later, rfl⟩
    exact ⟨piece :: pieces, .cons here later, rfl⟩

theorem standsFor_star {piece : List Char} : StandsFor alike '*' piece ↔ '\n' ∉ piece := by
  constructor
  · intro stands
    cases stands with
    | run oneLine => exact oneLine
    | itself noStar => exact absurd rfl noStar
  · exact .run

theorem StandsFor.eq_singleton {piece : List Char} (noStar : p ≠ '*') (here : StandsFor alike p piece) :
    ∃ d, piece = [d] := by
  cases here with
  | run => exact absurd rfl noStar
  | one | itself => exact ⟨_, rfl⟩

end Cut

/-- The part of the expression for a character of a glob. -/
def globPart (c : Char) : RegexPart :=
  if c = '*' then .dots else if c = '?' then .dot else .literal c

section Glob

variable {alike : Char → Char → Prop} {p : Char} {ps : List RegexPart} {before behind glob : List Char}

/-- The part for a character of a glob takes up a piece that the character stands for. -/
theorem matchAt_globPart : MatchAt alike (globPart p :: ps) before behind ↔
    ∃ piece rest, behind = piece ++ rest ∧ StandsFor alike p piece ∧ MatchAt alike ps (before ++ piece) rest := by
  by_cases star : p = '*'
  · subst star
    simp only [globPart, if_true, matchAt_dots, standsFor_star]
  have single : ∀ {part : RegexPart}, (MatchAt alike (part :: ps) before [] → False) →
      (∀ c behind, MatchAt alike (part :: ps) before (c :: behind) ↔
        StandsFor alike p [c] ∧ MatchAt alike ps (before ++ [c]) behind) →
      (MatchAt alike (part :: ps) before behind ↔
        ∃ piece rest, behind = piece ++ rest ∧ StandsFor alike p piece ∧ MatchAt alike ps (before ++ piece) rest) := by
    intro part needs takes
    constructor
    · intro h
      cases behind with
      | nil => exact (needs h).elim
      | cons c behind => exact ⟨[c], behind, rfl, (takes c behind).mp h⟩
    · rintro ⟨piece, rest, rfl, here, h⟩
      obtain ⟨c, rfl⟩ := here.eq_singleton star
      exact (takes c rest).mpr ⟨here, h⟩
  by_cases mark : p = '?'
  · subst mark
    refine single nofun fun c behind => matchAt_dot_cons.trans (and_congr_left fun _ => ⟨.one, fun stands => ?_⟩)
    cases stands with
    | one inLine => exact inLine
    | itself _ noMark => exact absurd rfl noMark
  · rw [globPart, if_neg star, if_neg mark]
    refine single nofun fun c behind => matchAt_literal_cons.trans (and_congr_left fun _ => ?_)
    refine ⟨.itself star mark, fun stands => ?_⟩
    cases stands with
    | run => exact absurd rfl star
    | one => exact absurd rfl mark
    | itself _ _ same => exact same

/-- Up to the end of the text the parts for a glob take up a text that can be cut. -/
theorem matchAt_globParts : MatchAt alike (glob.map globPart ++ [.stop]) before behind ↔ Cut alike glob behind := by
  induction glob generalizing before behind with
  | nil =>
    rw [List.map_nil, List.nil_append, matchAt_stop, cut_nil]
    exact and_iff_left .nil
  | cons c glob ih =>
    rw [List.map_cons, List.cons_append, matchAt_globPart, cut_cons]
    simp only [ih]

/-- Between the anchors, the whole text is taken up. -/
theorem search_glob {text : List Char} :
    (∃ before behind, text = before ++ behind ∧ MatchAt alike (.start :: (glob.map globPart ++ [.stop])) before behind) ↔
      Cut alike glob text := by
  simp only [matchAt_start, matchAt_globParts]
  constructor
  · rintro ⟨before, behind, rfl, rfl, cut⟩
    exact cut
  · exact fun cut => ⟨[], text, rfl, rfl, cut⟩

variable {lib : RegexLibrary}

theorem toList_foldl_globPiece (opened : String) :
    (glob.foldl (fun pattern c => pattern ++ globPiece lib c) opened).toList =
      opened.toList ++ glob.flatMap fun c => (globPiece lib c).toList := by
  induction glob generalizing opened with
  | nil => simp
  | cons c glob ih => simp [ih]

variable (documented : lib.Documented)
include documented

/-- The expression for a character of a glob spells its part. -/
theorem spells_globPiece (c : Char) {cs : List Char} (rest : Spells cs ps) :
    Spells ((globPiece lib c).toList ++ cs) (globPart c :: ps) := by
  unfold globPiece globPart
  by_cases star : c = '*'
  · rw [if_pos star, if_pos star]
    exact .dots rest
  by_cases mark : c = '?'
  · rw [if_neg star, if_neg star, if_pos mark, if_pos mark]
    exact .dot rest
  rw [if_neg star, if_neg star, if_neg mark, if_neg mark, documented.escape, String.toList_ofList, String.toList_singleton,
    List.flatMap_singleton, escaped]
  split
  · exact .escaped ‹_› rest
  · exact .literal (Bool.eq_false_iff.mpr ‹_›) rest

theorem spells_glob (glob : List Char) :
    Spells (glob.flatMap (fun c => (globPiece lib c).toList) ++ ['$']) (glob.map globPart ++ [.stop]) := by
  induction glob with
  | nil => exact .stop .nil
  | cons c glob ih =>
    rw [List.flatMap_cons, List.append_assoc]
    exact spells_globPiece documented c ih

/-- The expression for a glob finds a match in the texts that can be cut. -/
theorem globRegex_isMatch {glob : String} {anyCase : Bool} {regex : Regex}
    (compiled : globRegex lib glob anyCase = .ok regex) (text : String) :
    regex.isMatch text = true ↔ Cut (SameUpTo anyCase) glob.toList text.toList := by
  have pattern :
      (glob.toList.foldl (fun pattern c => pattern ++ globPiece lib c) (if anyCase then "(?i)^" else "^") ++ "$").toList =
        (if anyCase then "(?i)".toList else []) ++
          '^' :: (glob.toList.flatMap (fun c => (globPiece lib c).toList) ++ ['$']) := by
    cases anyCase <;> simp [toList_foldl_globPiece]
  rw [documented.isMatch compiled pattern (.start (spells_glob documented glob.toList)), search_glob]

end Glob

/-- Folding does not tell an ASCII letter from its lower case. -/
theorem foldCase_toLower (c : Char) : foldCase c.toLower = foldCase c := by
  by_cases upper : c.val ≥ 'A'.val ∧ c.val ≤ 'Z'.val
  · have least : 65 ≤ c.val.toNat := upper.1
    have greatest : c.val.toNat ≤ 90 := upper.2
    have lower : c.toLower.val.toNat = c.val.toNat + 32 := by
      rw [show c.toLower = _ from dif_pos upper]
      show (c.val.toNat + 32) % 2 ^ 32 = c.val.toNat + 32
      omega
    have settled : c.toLower.toLower = c.toLower := by
      refine dif_neg ?_
      rintro ⟨-, stillUpper⟩
      have : c.toLower.val.toNat ≤ 90 := stillUpper
      omega
    rw [foldCase, foldCase, if_pos (show c.toNat < 0x80 by rw [Char.toNat]; omega), if_pos, settled]
    rw [Char.toNat, lower]
    omega
  · rw [show c.toLower = c from dif_neg upper]

/-- The pieces that a character stands for do not depend on the case of ASCII letters. -/
theorem StandsFor.anyCase {p : Char} {piece other : List Char} (here : StandsFor (SameUpTo true) p piece)
    (same : other.map Char.toLower = piece.map Char.toLower) : StandsFor (SameUpTo true) p other := by
  cases here with
  | run oneLine =>
    refine .run fun broken => oneLine ?_
    have broken : '\n'.toLower ∈ other.map Char.toLower := List.mem_map_of_mem broken
    rw [same, List.mem_map] at broken
    obtain ⟨c, inPiece, alike⟩ := broken
    obtain rfl : c = '\n' := eq_of_toLower alike rfl
    exact inPiece
  | @one c inLine =>
    obtain ⟨d, rfl, alike⟩ := List.map_eq_singleton_iff.mp same
    refine .one ?_
    rintro rfl
    exact inLine (eq_of_toLower alike.symm rfl)
  | @itself p c noStar noMark like =>
    obtain ⟨d, rfl, alike⟩ := List.map_eq_singleton_iff.mp same
    refine .itself noStar noMark ?_
    show foldCase p = foldCase d
    rw [← foldCase_toLower d, alike, foldCase_toLower]
    exact like

theorem Cut.anyCase {pattern text other : List Char} (cut : Cut (SameUpTo true) pattern text)
    (same : other.map Char.toLower = text.map Char.toLower) : Cut (SameUpTo true) pattern other := by
  induction pattern generalizing text other with
  | nil =>
    rw [cut_nil] at cut ⊢
    rw [cut, List.map_nil] at same
    exact List.map_eq_nil_iff.mp same
  | cons p pattern ih =>
    rw [cut_cons] at cut ⊢
    obtain ⟨piece, rest, rfl, here, later⟩ := cut
    rw [List.map_append] at same
    obtain ⟨piece', rest', rfl, samePiece, sameRest⟩ := List.map_eq_append_iff.mp same
    exact ⟨piece', rest', rfl, here.anyCase samePiece, ih later sameRest⟩

namespace Pointcut

theorem new_ok {lib : RegexLibrary} {c m : String} {q : Pointcut} (made : new lib c m = .ok q) :
    globRegex lib c true = .ok q.classRegex ∧ globRegex lib m false = .ok q.methodRegex := by
  unfold new at made
  cases ofClass : globRegex lib c true with
  | error e => simp [ofClass, bind, Except.bind] at made
  | ok inClass =>
    cases ofMethod : globRegex lib m false with
    | error e => simp [ofClass, ofMethod, bind, Except.bind] at made
    | ok inMethod =>
      simp only [ofClass, ofMethod, bind, Except.bind, pure, Except.pure, Except.ok.injEq] at made
      rw [← made]
      exact ⟨rfl, rfl⟩

/-- A pointcut covers a call exactly if the class can be cut into pieces that the characters of the class pattern stand for,
whatever their case, and the method into pieces for the method pattern. So it covers a call whatever the case of the
class is. -/
theorem new_covers {lib : RegexLibrary} (documented : lib.Documented) {c m : String} {q : Pointcut}
    (made : new lib c m = .ok q) :
    (∀ p : JoinPoint, q.covers p = true ↔
      Cut (fun a b => foldCase a = foldCase b) c.toList p.className.toList ∧ Cut Eq m.toList p.method.toList) ∧
    ∀ p p' : JoinPoint, asciiLower p.className = asciiLower p'.className → p.method = p'.method →
      q.covers p = q.covers p' := by
  obtain ⟨inClass, inMethod⟩ := new_ok made
  have cuts : ∀ p : JoinPoint, q.covers p = true ↔
      Cut (SameUpTo true) c.toList p.className.toList ∧ Cut (SameUpTo false) m.toList p.method.toList := by
    intro p
    rw [covers, Bool.and_eq_true, globRegex_isMatch documented inClass, globRegex_isMatch documented inMethod]
  refine ⟨cuts, fun p p' sameClass sameMethod => ?_⟩
  have lower := congrArg String.toList sameClass
  rw [toList_asciiLower, toList_asciiLower] at lower
  rw [Bool.eq_iff_iff, cuts, cuts, sameMethod]
  exact and_congr_left fun _ => ⟨fun cut => cut.anyCase lower.symm, fun cut => cut.anyCase lower⟩

/-- Two stars and a mark, and the class in another case; the dots stand for themselves. -/
theorem new_covers_widget : ∃ q, new .standard "*.model.?idget" "get*" = .ok q ∧
    Cut (fun a b => foldCase a = foldCase b) "*.model.?idget".toList "App.Old.Model.Widget".toList ∧
    Cut Eq "get*".toList "getName".toList ∧
    q.covers ⟨"app.OLD.model.WIDGET", "getName", []⟩ = true ∧
    ¬Cut (fun a b => foldCase a = foldCase b) "*.model.?idget".toList "app-old-model-widget".toList := by
  have answers : (new .standard "*.model.?idget" "get*").map (fun q =>
      (q.covers ⟨"App.Old.Model.Widget", "getName", []⟩, q.covers ⟨"app-old-model-widget", "getName", []⟩)) =
        .ok (true, false) := by
    decide
  cases made : new .standard "*.model.?idget" "get*" with
  | error e => simp [made, Except.map] at answers
  | ok q =>
    simp only [made, Except.map, Except.ok.injEq, Prod.mk.injEq] at answers
    obtain ⟨covered, uncovered⟩ := answers
    obtain ⟨cuts, anyCase⟩ := new_covers RegexLibrary.standard_documented made
    obtain ⟨inClass, inMethod⟩ := (cuts _).mp covered
    have same := anyCase ⟨"App.Old.Model.Widget", "getName", []⟩ ⟨"app.OLD.model.WIDGET", "getName", []⟩
      (by decide) rfl
    refine ⟨q, rfl, inClass, inMethod, same.symm.trans covered, fun cut => ?_⟩
    exact Bool.false_ne_true (uncovered.symm.trans ((cuts _).mpr ⟨cut, inMethod⟩))

end Pointcut

end AspectProxy
