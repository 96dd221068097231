import AspectProxy.Proofs.Sources.InMemory
import AspectProxy.Proofs.Weaving.ProxyNames

/-!
How many classes there are sources for. Different classes have their sources under different names, and in files at
different places of a directory tree, also where a path counts whatever its case; so a store gives no more classes a unit
than its size counts.
-/

namespace AspectProxy

/-- No more than so many different classes have a property. -/
def AtMost (n : Nat) (P : ClassName → Prop) : Prop :=
  ∀ names, Machine.Apart names → (∀ c ∈ names, P c) → names.length ≤ n

namespace AtMost

variable {n k : Nat} {P Q : ClassName → Prop}

/-- Classes that are told apart by marks are no more than these. -/
theorem of_marks {mark : ClassName → α} {marks : List α} (marked : ∀ c, P c → mark c ∈ marks)
    (tells : ∀ c d, mark c = mark d → (c == d) = true) : AtMost marks.length P :=
  fun _ apart all => ClassName.length_le_of_marks apart (fun c hc => marked c (all c hc)) tells

theorem le (h : AtMost n P) (more : n ≤ k) : AtMost k P :=
  fun names apart all => Nat.le_trans (h names apart all) more

/-- Every class of which some spelling has the property is counted. -/
theorem of_spelling (h : AtMost n P) (spelt : ∀ c, Q c → ∃ d, (d == c) = true ∧ P d) : AtMost n Q := by
  intro names apart all
  have each : ∀ c : ClassName, ∃ d, Q c → (d == c) = true ∧ P d := by
    intro c
    by_cases held : Q c
    · obtain ⟨d, found⟩ := spelt c held
      exact ⟨d, fun _ => found⟩
    · exact ⟨c, fun there => absurd there held⟩
  choose spell spells using each
  have held := h (names.map spell) ?_ ?_
  · rwa [List.length_map] at held
  · refine List.pairwise_map.mpr (apart.imp_of_mem fun {c d} hc hd different => ?_)
    have key := ClassName.beq_iff.mp (spells c (all c hc)).1
    have key' := ClassName.beq_iff.mp (spells d (all d hd)).1
    rwa [Bool.eq_false_iff, ne_eq, ClassName.beq_iff, key, key', ← ClassName.beq_iff, ← ne_eq, ← Bool.eq_false_iff]
  · exact List.forall_mem_map.mpr fun c hc => (spells c (all c hc)).2

theorem mono (h : AtMost n P) (implies : ∀ c, Q c → P c) : AtMost n Q :=
  h.of_spelling fun c held => ⟨c, ClassName.beq_self c, implies c held⟩

open Classical in
theorem or (first : AtMost n P) (second : AtMost k Q) : AtMost (n + k) fun c => P c ∨ Q c := by
  intro names different all
  have here := first (names.filter fun c => P c) (different.filter _) fun c hc => by simpa using (List.mem_filter.mp hc).2
  have there := second (names.filter fun c => !decide (P c)) (different.filter _) fun c hc =>
    (all c (List.mem_filter.mp hc).1).resolve_left (by simpa using (List.mem_filter.mp hc).2)
  rw [List.length_eq_length_filter_add fun c => decide (P c)]
  exact Nat.add_le_add here there

/-- The counts of several properties add up. -/
theorem foldl {xs : List α} {size : α → Nat} {P : α → ClassName → Prop} (each : ∀ x ∈ xs, AtMost (size x) (P x))
    (start : AtMost n Q) : AtMost (xs.foldl (fun n x => n + size x) n) fun c => Q c ∨ ∃ x ∈ xs, P x c := by
  induction xs generalizing n Q with
  | nil => exact start.mono fun c h => h.resolve_right (by simp)
  | cons x rest ih =>
    obtain ⟨here, later⟩ := List.forall_mem_cons.mp each
    refine (ih later (start.or here)).mono fun c h => ?_
    rcases h with old | ⟨y, hy, held⟩
    · exact .inl (.inl old)
    · rcases List.mem_cons.mp hy with rfl | hy
      · exact .inl (.inr held)
      · exact .inr ⟨y, hy, held⟩

theorem none (never : ∀ c, ¬P c) : AtMost 0 P := by
  intro names _ all
  cases names with
  | nil => exact Nat.le_refl 0
  | cons c rest => exact absurd (all c List.mem_cons_self) (never c)

end AtMost

namespace FileEntry

mutual

/-- The ways to an entry and to all that is in it, without regard to case. -/
def ways : FileEntry → List (List String)
  | file n _ => [[lowerText n]]
  | directory n entries => [lowerText n] :: (waysAll entries).map (lowerText n :: ·)

def waysAll : List FileEntry → List (List String)
  | [] => []
  | e :: es => e.ways ++ waysAll es

end

mutual

theorem length_ways : ∀ e : FileEntry, e.ways.length = e.count
  | file _ _ => rfl
  | directory n entries => by rw [ways, List.length_cons, List.length_map, length_waysAll entries, count]

theorem length_waysAll : ∀ es : List FileEntry, (waysAll es).length = countAll es
  | [] => rfl
  | e :: es => by rw [waysAll, List.length_append, length_ways e, length_waysAll es, countAll]

end

theorem mem_waysAll {es : List FileEntry} {e : FileEntry} {way : List String} (he : e ∈ es) (h : way ∈ e.ways) :
    way ∈ waysAll es := by
  induction es with
  | nil => cases he
  | cons x rest ih =>
    rw [waysAll, List.mem_append]
    rcases List.mem_cons.mp he with rfl | he
    · exact .inl h
    · exact .inr (ih he)

/-- The step of a way that leads to an entry. -/
theorem way_here {es : List FileEntry} {e : FileEntry} {step : String} (he : e ∈ es)
    (same : lowerText e.name = lowerText step) : [lowerText step] ∈ waysAll es := by
  refine mem_waysAll he ?_
  rw [← same]
  cases e with
  | file n content => exact List.mem_singleton_self _
  | directory n inner => exact List.mem_cons_self

theorem way_below {es inner : List FileEntry} {n step : String} {way : List String} (he : directory n inner ∈ es)
    (same : lowerText n = lowerText step) (h : way ∈ waysAll inner) : lowerText step :: way ∈ waysAll es :=
  mem_waysAll he (same ▸ List.mem_cons_of_mem _ (List.mem_map_of_mem h))

/-- A step that goes down in a tree. -/
def Descends (step : String) : Prop :=
  step ≠ "" ∧ step ≠ "." ∧ step ≠ ".."

/-- A walk that begins with steps down passes the entries on the way. -/
theorem way_of_walk {down more : List String} (steps : ∀ s ∈ down, Descends s) (some : down ≠ [])
    {above : List (List FileEntry)} {here : List FileEntry} {e : FileEntry} (h : walk above here (down ++ more) = .ok e) :
    down.map lowerText ∈ waysAll here := by
  induction down generalizing above here with
  | nil => exact absurd rfl some
  | cons step rest ih =>
    obtain ⟨⟨full, noDot, noDots⟩, later⟩ := List.forall_mem_cons.mp steps
    rw [List.cons_append] at h
    unfold walk at h
    rw [if_neg (not_or.mpr ⟨full, noDot⟩), if_neg noDots] at h
    cases found : here.find? fun e => e.name = step with
    | none => simp only [found] at h; cases h
    | some e =>
      have there := List.mem_of_find?_eq_some found
      have named := List.find?_some found
      have same : lowerText e.name = lowerText step := congrArg lowerText (of_decide_eq_true named)
      by_cases last : rest = []
      · rw [last]
        exact way_here there same
      · cases e with
        | file n content => simp [found, last] at h
        | directory n inner =>
          simp only [found] at h
          exact way_below there same (ih later last h)

/-- So does a search that leaves case aside. -/
theorem way_of_anyCase? {down more : List String} (some : down ≠ []) {here : List FileEntry}
    {found : List String × FileContent}
    (h : anyCase? here (down ++ more) = .some found) : down.map lowerText ∈ waysAll here := by
  induction down generalizing here found with
  | nil => exact absurd rfl some
  | cons step rest ih =>
    rw [List.cons_append, anyCase?] at h
    cases next : here.find? fun e => sameName step e.name with
    | none => simp only [next] at h; cases h
    | some e =>
      have there := List.mem_of_find?_eq_some next
      have named := List.find?_some next
      have same : lowerText e.name = lowerText step := (of_decide_eq_true named).symm
      by_cases last : rest = []
      · rw [last]
        exact way_here there same
      · cases e with
        | file n content => simp [next, last] at h
        | directory n inner =>
          simp only [next] at h
          obtain ⟨below, found, -⟩ := Option.map_eq_some_iff.mp h
          exact way_below there same (ih last found)

end FileEntry

/-- Packages are directories, so what is a dot in a name is a slash in a path. -/
def slashed (c : Char) : Char :=
  if c = '.' then '/' else c

theorem map_slashed_plain {cs : List Char} (plain : '.' ∉ cs) : cs.map slashed = cs :=
  (List.map_congr_left fun ch hch => if_neg fun same : ch = '.' => plain (same ▸ hch)).trans (List.map_id _)

theorem slash_not_mem_of_isIdentifier {cs : List Char} (h : isIdentifier cs = true) : '/' ∉ cs :=
  fun slash => absurd (mem_of_isIdentifier h slash) (by decide)

/-- Each part of a dotted name makes a step that has a letter, whatever stands behind the last. -/
theorem step_has_letter {cs behind : List Char} (named : isDottedName cs = true) (noSlash : '/' ∉ behind) :
    ∀ step ∈ (cs.map slashed ++ behind).splitOn '/', ∃ ch ∈ step, isNamePart ch = true := by
  induction size : cs.length using Nat.strong_induction_on generalizing cs with
  | _ n ih =>
    by_cases dot : '.' ∈ cs
    · obtain ⟨front, back, rfl, plain⟩ := List.eq_append_cons_of_mem dot
      obtain ⟨valid, valid'⟩ := Bool.and_eq_true_iff.mp (isDottedName_append_dots front back ▸ named)
      rw [isDottedName, dotSegments_of_not_dot plain, List.all_cons, List.all_nil, Bool.and_true] at valid
      have split : ((front ++ '.' :: back).map slashed ++ behind).splitOn '/' =
          front :: (back.map slashed ++ behind).splitOn '/' := by
        rw [List.map_append, map_slashed_plain plain, List.append_assoc]
        exact List.splitOn_append_cons_self_of_not_mem (slash_not_mem_of_isIdentifier valid) _
      rw [split]
      have shorter : back.length < n := by
        rw [← size, List.length_append, List.length_cons]
        omega
      refine List.forall_mem_cons.mpr ⟨?_, ih _ shorter valid' rfl⟩
      cases front with
      | nil => cases valid
      | cons ch rest => exact ⟨ch, List.mem_cons_self, mem_of_isIdentifier valid List.mem_cons_self⟩
    · rw [isDottedName, dotSegments_of_not_dot dot, List.all_cons, List.all_nil, Bool.and_true] at named
      have whole : '/' ∉ cs ++ behind := fun slash =>
        (List.mem_append.mp slash).elim (slash_not_mem_of_isIdentifier named) noSlash
      rw [map_slashed_plain dot, List.splitOn_eq_singleton whole, List.forall_mem_singleton]
      cases cs with
      | nil => cases named
      | cons ch rest => exact ⟨ch, List.mem_cons_self, mem_of_isIdentifier named List.mem_cons_self⟩

theorem toNat_lt_of_isNamePart {c : Char} (h : isNamePart c = true) : c.toNat < 0x80 := by
  rcases isNamePart_cases h with upper | lower | digit | rfl
  case inr.inr.inr => decide
  all_goals omega

namespace ClassName

/-- The steps that the name of a class gives its path, when its last part is written before a text. -/
def steps (c : ClassName) (ending : List Char) : List String :=
  ((c.text.toList.map slashed ++ ending).splitOn '/').map String.ofList

theorem toList_relativePath (c : ClassName) (extension : String) :
    (c.relativePath extension).toList = c.text.toList.map slashed ++ '.' :: extension.toList := by
  have plain := map_slashed_plain (not_dot_of_isIdentifier c.isIdentifier_short)
  rcases c.parts with ⟨none, text⟩ | ⟨p, package, text⟩
  · simp [relativePath, none, text, plain]
  · have map : (p.map fun ch => if ch = '.' then '/' else ch).toList = p.toList.map slashed := String.toList_map
    simp [relativePath, package, text, plain, map, show slashed '.' = '/' from rfl]

/-- The paths of classes are the steps of their names, each before the same further steps. -/
theorem splitPath_relativePath (extension : String) : ∃ ending more, '/' ∉ ending ∧ ∀ c : ClassName,
    FileEntry.splitPath (c.relativePath extension) = c.steps ending ++ more := by
  unfold FileEntry.splitPath steps
  simp only [toList_relativePath]
  by_cases slash : '/' ∈ extension.toList
  · obtain ⟨front, back, split, plain⟩ := List.eq_append_cons_of_mem slash
    refine ⟨'.' :: front, (back.splitOn '/').map String.ofList, by simpa using plain, fun c => ?_⟩
    rw [← List.map_append, split, ← List.cons_append, ← List.append_assoc]
    exact congrArg _ (List.splitOnP_append_cons _ _ (beq_self_eq_true '/'))
  · exact ⟨'.' :: extension.toList, [], by simpa using slash, fun c => (List.append_nil _).symm⟩

variable {c d : ClassName} {ending : List Char}

theorem steps_ne_nil : c.steps ending ≠ [] :=
  List.map_eq_nil_iff.not.mpr (List.splitOn_ne_nil _ _)

theorem steps_descend (noSlash : '/' ∉ ending) : ∀ s ∈ c.steps ending, FileEntry.Descends s := by
  intro s hs
  obtain ⟨chars, there, rfl⟩ := List.mem_map.mp hs
  obtain ⟨ch, hch, letter⟩ := step_has_letter c.valid noSlash chars there
  have without : ∀ t : String, t.toList.all (!isNamePart ·) = true → String.ofList chars ≠ t := by
    rintro t none rfl
    rw [String.toList_ofList, List.all_eq_true] at none
    simpa [letter] using none ch hch
  exact ⟨without "" rfl, without "." rfl, without ".." rfl⟩

theorem mem_text {ch : Char} (h : ch ∈ c.text.toList) : ch = '.' ∨ isNamePart ch = true := by
  by_cases dot : ch = '.'
  · exact .inl dot
  · obtain ⟨s, hs, hch⟩ := mem_dotSegments h dot
    exact .inr (mem_of_isIdentifier (List.all_eq_true.mp c.valid s hs) hch)

/-- A character but for the form that a sigma has at the end of a word. -/
def plainSigma (ch : Char) : Char :=
  if ch = 'ς' then 'σ' else ch

/-- The lower case that a character has wherever it stands. -/
def lowerPlain (ch : Char) : List Char :=
  (lowerCase ch).map plainSigma

/-- Where a character stands matters to the form of a sigma only. -/
theorem map_lowerBehind (before cs : List Char) : (lowerBehind before cs).map plainSigma = cs.flatMap lowerPlain := by
  induction cs generalizing before with
  | nil => rfl
  | cons ch rest ih =>
    rw [lowerBehind, List.map_append, ih, List.flatMap_cons]
    congr 1
    split
    · rename_i ends
      rw [ends.1]
      decide
    · rfl

theorem lowerPlain_slashed {ch : Char} (h : ch = '.' ∨ isNamePart ch = true) :
    lowerPlain (slashed ch) = [slashed ch.toLower] := by
  rcases h with rfl | part
  · rfl
  · have plain : ch ≠ '.' := by
      rintro rfl
      cases part
    have noSigma : ch.toLower ≠ 'ς' := by
      intro sigma
      obtain rfl := eq_of_toLower sigma rfl
      cases part
    rw [slashed, if_neg plain, slashed, if_neg (mt eq_dot_of_toLower plain), lowerPlain, lowerCase,
      if_pos (toNat_lt_of_isNamePart part), List.map_singleton, plainSigma, if_neg noSigma]

/-- In lower case the characters of a path are those of the key. -/
theorem flatMap_lowerPlain_slashed (c : ClassName) :
    (c.text.toList.map slashed).flatMap lowerPlain = c.key.toList.map slashed := by
  rw [key, toList_asciiLower, List.map_map, List.flatMap_map]
  exact (List.flatMap_congr fun ch hch => lowerPlain_slashed (mem_text hch)).trans List.map_eq_flatMap.symm

theorem slash_not_mem_key : '/' ∉ c.key.toList := by
  rw [key, toList_asciiLower]
  intro slash
  obtain ⟨ch, hch, lower⟩ := List.mem_map.mp slash
  obtain rfl := eq_of_toLower lower rfl
  rcases mem_text hch with same | part
  · cases same
  · cases part

/-- Steps in lower case, put together again with slashes, are the path in lower case. -/
theorem intercalate_lowerPlain (parts : List (List Char)) :
    ['/'].intercalate (parts.map (·.flatMap lowerPlain)) = (['/'].intercalate parts).flatMap lowerPlain := by
  induction parts with
  | nil => rfl
  | cons part rest ih =>
    cases rest with
    | nil => simp
    | cons next rest =>
      rw [List.map_cons, List.map_cons, List.intercalate_cons_cons, ← List.map_cons, ih, List.intercalate_cons_cons,
        List.flatMap_append, List.flatMap_append]
      rfl

/-- Classes whose steps are the same but for case are the same class. -/
theorem beq_of_steps (same : (c.steps ending).map lowerText = (d.steps ending).map lowerText) : (c == d) = true := by
  have chars : ∀ e : ClassName, ['/'].intercalate (((e.steps ending).map lowerText).map (·.toList.map plainSigma)) =
      e.key.toList.map slashed ++ ending.flatMap lowerPlain := by
    intro e
    have parts : ((e.steps ending).map lowerText).map (·.toList.map plainSigma) =
        ((e.text.toList.map slashed ++ ending).splitOn '/').map (·.flatMap lowerPlain) := by
      simp [steps, lowerText, map_lowerBehind]
    rw [parts, intercalate_lowerPlain, List.intercalate_splitOn, List.flatMap_append, flatMap_lowerPlain_slashed]
  have keys : c.key.toList.map slashed = d.key.toList.map slashed :=
    List.append_cancel_right ((chars c).symm.trans ((congrArg _ (congrArg _ same)).trans (chars d)))
  have back : ∀ cs : List Char, '/' ∉ cs → (cs.map slashed).map (fun ch => if ch = '/' then '.' else ch) = cs := by
    intro cs noSlash
    rw [List.map_map]
    refine (List.map_congr_left fun ch hch => ?_).trans (List.map_id cs)
    have other : ch ≠ '/' := fun slash => noSlash (slash ▸ hch)
    by_cases dot : ch = '.' <;> simp [slashed, dot, other]
  rw [ClassName.beq_iff, ← String.toList_inj, ← back _ c.slash_not_mem_key, keys, back _ d.slash_not_mem_key]

end ClassName

/-- No more classes have a file under a root than there are entries. -/
theorem SourceRoot.atMost (r : SourceRoot) (extension : String) :
    AtMost (FileEntry.countAll r.entries) fun c => ∃ found, r.locate? (c.relativePath extension) = some found := by
  obtain ⟨ending, more, noSlash, path⟩ := ClassName.splitPath_relativePath extension
  rw [← FileEntry.length_waysAll]
  have tells : ∀ c d : ClassName, (c.steps ending).map lowerText = (d.steps ending).map lowerText → (c == d) = true :=
    fun c d => ClassName.beq_of_steps
  refine .of_marks ?_ tells
  rintro c ⟨found, located⟩
  have steps := c.steps_descend noSlash
  unfold locate? at located
  cases written : FileEntry.asWritten? r.entries (c.relativePath extension) with
  | some text =>
    unfold FileEntry.asWritten? at written
    rw [path c] at written
    split at written
    · rename_i walked
      exact FileEntry.way_of_walk steps ClassName.steps_ne_nil walked
    · cases written
  | none =>
    rw [written] at located
    dsimp only at located
    split at located
    · cases located
    · obtain ⟨way, found, -⟩ := Option.map_eq_some_iff.mp located
      rw [FileEntry.pathSteps, path c, List.filter_append, List.filter_eq_self.mpr] at found
      · exact FileEntry.way_of_anyCase? ClassName.steps_ne_nil found
      · exact fun s hs => by simp [(steps s hs).1, (steps s hs).2.1]

theorem SourcePlace.atMost (p : SourcePlace) : AtMost p.size fun c => ∃ found, p.resolve c = .ok found := by
  have sameKey : ∀ c d : ClassName, c.key = d.key → (c == d) = true := fun c d => ClassName.beq_iff.mpr
  cases p with
  | memory sources =>
    have marks : AtMost (sources.map (·.1.key)).length fun c => ∃ found, resolve (.memory sources) c = .ok found := by
      refine .of_marks (fun c => ?_) sameKey
      rintro ⟨found, resolved⟩
      rw [resolve] at resolved
      split at resolved
      · rename_i n text there
        have named := List.find?_some there
        exact List.mem_map.mpr ⟨_, List.mem_of_find?_eq_some there, ClassName.beq_iff.mp named⟩
      · cases resolved
    rwa [List.length_map] at marks
  | files roots extension =>
    refine (AtMost.foldl (fun r _ => SourceRoot.atMost r extension) (.none (P := fun _ => False) fun _ => id)).mono ?_
    rintro c ⟨found, resolved⟩
    rw [resolve] at resolved
    split at resolved
    · rename_i path text located
      obtain ⟨r, hr, there⟩ := List.exists_of_findSome?_eq_some located
      exact .inr ⟨r, hr, _, there⟩
    · cases resolved
    · cases resolved
  | builtin =>
    have marked : ∀ c : ClassName, (∃ found, resolve .builtin c = .ok found) → c.key ∈ [asciiLower aspectClass] := by
      rintro c ⟨found, resolved⟩
      rw [resolve] at resolved
      split at resolved
      · rename_i same
        exact List.mem_singleton.mpr same.symm
      · cases resolved
    exact .of_marks marked sameKey

theorem SourceChain.atMost (places : SourceChain) :
    AtMost places.size fun c => ∃ source, places.resolve c = .ok source := by
  refine (AtMost.foldl (fun p _ => SourcePlace.atMost p) (.none (P := fun _ => False) fun _ => id)).mono ?_
  rintro c ⟨source, resolved⟩
  obtain ⟨text, origin, first, -⟩ := resolve_eq_ok.mp resolved
  obtain ⟨p, hp, here⟩ := resolveFrom_ok first
  exact .inr ⟨p, hp, _, here⟩

/-- Classes that have units are no more than the places count. -/
theorem SourceChain.length_le_size (places : SourceChain) {names : List ClassName} (apart : Machine.Apart names)
    (h : ∀ c ∈ names, ∃ u, places.Holds c u) : names.length ≤ places.size := by
  refine places.atMost names apart fun c hc => ?_
  obtain ⟨u, source, resolved, -⟩ := h c hc
  exact ⟨source, resolved⟩

/-- No more classes are given a unit than there are sources and units kept. -/
theorem UnitStore.atMost (s : UnitStore) : AtMost (s.places.size + s.size) fun c => ∃ u, (s.get c).1 = .ok u := by
  have kept : AtMost (s.units.map (·.1.key)).length fun c => ∃ u, s.unit? c = some u := by
    refine .of_marks (fun c => ?_) fun c d => ClassName.beq_iff.mpr
    rintro ⟨u, kept⟩
    obtain ⟨e, found, -⟩ := Option.map_eq_some_iff.mp kept
    have named := List.find?_some found
    exact List.mem_map.mpr ⟨e, List.mem_of_find?_eq_some found, ClassName.beq_iff.mp named⟩
  rw [List.length_map] at kept
  refine (s.places.atMost.or kept).mono ?_
  rintro c ⟨u, given⟩
  rcases get_ok (Prod.ext given rfl : s.get c = (.ok u, (s.get c).2)) with ⟨there, -⟩ | ⟨-, source, resolved, -⟩
  · exact .inr ⟨u, there⟩
  · exact .inl ⟨source, resolved⟩

end AspectProxy
