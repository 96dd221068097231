import AspectProxy.Proofs.Sources.Bounds

/-!
Finding the file of a class below source roots. A file counts if its path is that of the class but for case. A root that
has one answers with one, unless the search misses it: where case does not count, the search follows the first entry with
the name of a step and does not turn back when no file lies that way; and a root without a path is not searched at all.
Directories without names that differ only in case mislead no search.
-/

namespace AspectProxy

namespace FileEntry

/-- A file with a content stands under names, the outermost directory first. -/
inductive Stands (content : FileContent) : List FileEntry → List String → Prop
  | here {entries : List FileEntry} {n : String} (there : file n content ∈ entries) : Stands content entries [n]
  | inside {entries inner : List FileEntry} {n : String} {names : List String} (there : directory n inner ∈ entries)
      (within : Stands content inner names) : Stands content entries (n :: names)

/-- Names that are those of some steps but for case. -/
def Spells (steps names : List String) : Prop :=
  List.Forall₂ (fun step name => sameName step name = true) steps names

/-- Some file stands under steps when case does not count. -/
def Holds (entries : List FileEntry) (steps : List String) : Prop :=
  ∃ names content, Spells steps names ∧ Stands content entries names

/-- An entry is a file where a path ends, or a directory that holds what is left of the path. -/
def EndsIn : FileEntry → List String → Prop
  | file _ _, rest => rest = []
  | directory _ inner, rest => Holds inner rest

/-- On the way that takes the first entry of each name, one leads to no file though a later entry of that name does. -/
inductive Misleads : List FileEntry → List String → Prop
  | here {entries : List FileEntry} {step : String} {rest : List String} {first other : FileEntry}
      (chosen : entries.find? (fun e => sameName step e.name) = some first) (astray : ¬first.EndsIn rest)
      (there : other ∈ entries) (named : sameName step other.name = true) (ends : other.EndsIn rest) :
      Misleads entries (step :: rest)
  | inside {entries inner : List FileEntry} {step n : String} {rest : List String}
      (chosen : entries.find? (fun e => sameName step e.name) = some (directory n inner)) (within : Misleads inner rest) :
      Misleads entries (step :: rest)

mutual

/-- No directory has two entries whose names are alike. -/
def Apart (alike : String → String → Prop) : FileEntry → Prop
  | file _ _ => True
  | directory _ entries => ApartAll alike entries

def ApartAll (alike : String → String → Prop) : List FileEntry → Prop
  | [] => True
  | e :: es => (∀ other ∈ es, ¬alike e.name other.name) ∧ Apart alike e ∧ ApartAll alike es

end

variable {entries inner : List FileEntry} {step n : String} {content : FileContent} {rest steps names : List String}

theorem not_holds_nil : ¬Holds entries [] := by
  rintro ⟨names, content, spelt, stands⟩
  cases spelt
  cases stands

theorem holds_cons : Holds entries (step :: rest) ↔ ∃ e ∈ entries, sameName step e.name = true ∧ e.EndsIn rest := by
  constructor
  · rintro ⟨names, content, spelt, stands⟩
    cases spelt with
    | cons named more =>
      cases stands with
      | here there =>
        cases more
        exact ⟨_, there, named, rfl⟩
      | inside there within => exact ⟨_, there, named, _, _, more, within⟩
  · rintro ⟨e, there, named, ends⟩
    cases e with
    | file n content =>
      obtain rfl : rest = [] := ends
      exact ⟨[n], content, .cons named .nil, .here there⟩
    | directory n inner =>
      obtain ⟨names, content, more, within⟩ := ends
      exact ⟨n :: names, content, .cons named more, .inside there within⟩

theorem spells_self : Spells steps steps :=
  List.forall₂_same.mpr fun _ _ => decide_eq_true rfl

/-- What a search by case finds is a file that stands there. -/
theorem anyCase?_eq_some (h : anyCase? entries steps = some (names, content)) : Spells steps names ∧ Stands content entries names := by
  induction steps generalizing entries names with
  | nil => cases h
  | cons step rest ih =>
    rw [anyCase?] at h
    cases chosen : entries.find? fun e => sameName step e.name with
    | none => simp only [chosen] at h; cases h
    | some e =>
      have there := List.mem_of_find?_eq_some chosen
      have named := List.find?_some chosen
      cases e with
      | file n content' =>
        simp only [chosen, List.isEmpty_iff, Option.ite_none_right_eq_some] at h
        obtain ⟨rfl, found⟩ := h
        cases found
        exact ⟨.cons named .nil, .here there⟩
      | directory n inner =>
        simp only [chosen] at h
        obtain ⟨below, found, same⟩ := Option.map_eq_some_iff.mp h
        cases same
        obtain ⟨more, within⟩ := ih found
        exact ⟨.cons named more, .inside there within⟩

/-- A search by case finds a file where there is one and the search is not misled. -/
theorem isSome_anyCase? : (anyCase? entries steps).isSome = true ↔ Holds entries steps ∧ ¬Misleads entries steps := by
  induction steps generalizing entries with
  | nil => exact iff_of_false Bool.false_ne_true fun h => not_holds_nil h.1
  | cons step rest ih =>
    rw [anyCase?]
    cases chosen : entries.find? fun e => sameName step e.name with
    | none =>
      refine iff_of_false Bool.false_ne_true fun h => ?_
      obtain ⟨e, there, named, -⟩ := holds_cons.mp h.1
      exact List.find?_eq_none.mp chosen e there named
    | some first =>
      have there := List.mem_of_find?_eq_some chosen
      have named := List.find?_some chosen
      -- An entry that leads to no file either misleads or is as good as any other of its name.
      have lost (astray : ¬first.EndsIn rest) : ¬(Holds entries (step :: rest) ∧ ¬Misleads entries (step :: rest)) := by
        rintro ⟨holds, clear⟩
        obtain ⟨other, among, also, ends⟩ := holds_cons.mp holds
        exact clear (.here chosen astray among also ends)
      have deeper (ends : first.EndsIn rest) (misled : Misleads entries (step :: rest)) :
          ∃ n inner, first = directory n inner ∧ Misleads inner rest := by
        cases misled with
        | here chosen' astray =>
          cases chosen.symm.trans chosen'
          exact absurd ends astray
        | inside chosen' within => exact ⟨_, _, Option.some_inj.mp (chosen.symm.trans chosen'), within⟩
      cases first with
      | file n content =>
        by_cases last : rest = []
        · refine iff_of_true (by simp [last]) ⟨holds_cons.mpr ⟨_, there, named, last⟩, fun misled => ?_⟩
          obtain ⟨_, _, same, -⟩ := deeper last misled
          cases same
        · exact iff_of_false (by simp [last]) (lost last)
      | directory n inner =>
        dsimp only
        rw [Option.isSome_map, ih]
        by_cases ends : Holds inner rest
        · refine and_congr (iff_of_true ends (holds_cons.mpr ⟨_, there, named, ends⟩)) (not_congr ⟨.inside chosen, ?_⟩)
          intro misled
          obtain ⟨_, _, same, within⟩ := deeper ends misled
          cases same
          exact within
        · exact iff_of_false (fun h => ends h.1) (lost ends)

section Apart

variable {alike : String → String → Prop} {e first other : FileEntry}

theorem ApartAll.of_mem (apart : ApartAll alike entries) (there : e ∈ entries) : e.Apart alike := by
  induction entries with
  | nil => cases there
  | cons x rest ih =>
    obtain ⟨-, here, later⟩ := apart
    rcases List.mem_cons.mp there with rfl | there
    · exact here
    · exact ih later there

theorem ApartAll.pairwise (apart : ApartAll alike entries) : entries.Pairwise fun a b => ¬alike a.name b.name := by
  induction entries with
  | nil => exact .nil
  | cons x rest ih => exact .cons apart.1 (ih apart.2.2)

/-- In a directory without names that are alike an entry is the only one with its name. -/
theorem ApartAll.eq_of_alike [Std.Symm alike] (apart : ApartAll alike entries) (there : first ∈ entries)
    (there' : other ∈ entries) (same : alike first.name other.name) : first = other := by
  have : Std.Symm fun a b : FileEntry => ¬alike a.name b.name :=
    ⟨fun a b different same => different (Std.Symm.symm _ _ same)⟩
  by_contra different
  exact apart.pairwise.forall there there' different same

end Apart

theorem ApartAll.find?_eq (apart : ApartAll (· = ·) entries) {e : FileEntry} (there : e ∈ entries) :
    entries.find? (fun other => other.name = e.name) = some e := by
  cases found : entries.find? fun other => other.name = e.name with
  | none => exact absurd (decide_eq_true rfl) (List.find?_eq_none.mp found e there)
  | some first =>
    have named : first.name = e.name := of_decide_eq_true (List.find?_some found :)
    exact congrArg some (apart.eq_of_alike (List.mem_of_find?_eq_some found) there named)

/-- Two names like a third are alike. -/
theorem sameName_of_sameName {a b : String} (first : sameName step a = true) (other : sameName step b = true) :
    sameName a b = true :=
  decide_eq_true ((of_decide_eq_true first).symm.trans (of_decide_eq_true other))

instance : Std.Symm fun a b => sameName a b = true :=
  ⟨fun _ _ same => decide_eq_true (of_decide_eq_true same).symm⟩

/-- Without names that differ only in case no search is misled. -/
theorem ApartAll.not_misleads (apart : ApartAll (fun a b => sameName a b = true) entries) : ¬Misleads entries steps := by
  intro misled
  induction misled with
  | here chosen astray there named ends =>
    have like := sameName_of_sameName (List.find?_some chosen :) named
    rw [apart.eq_of_alike (List.mem_of_find?_eq_some chosen) there like] at astray
    exact astray ends
  | inside chosen within ih => exact ih (apart.of_mem (List.mem_of_find?_eq_some chosen))

/-- Steps down lead, as they are written, to the file that stands there. -/
theorem exists_walk (apart : ApartAll (· = ·) entries) (down : ∀ s ∈ steps, Descends s) (above : List (List FileEntry)) :
    (∃ n, walk above entries steps = .ok (file n content)) ↔ Stands content entries steps := by
  induction steps generalizing above entries with
  | nil => exact iff_of_false nofun nofun
  | cons step rest ih =>
    obtain ⟨⟨full, noDot, noDots⟩, later⟩ := List.forall_mem_cons.mp down
    unfold walk
    rw [if_neg (not_or.mpr ⟨full, noDot⟩), if_neg noDots]
    constructor
    · rintro ⟨n, walked⟩
      cases found : entries.find? fun e => e.name = step with
      | none => simp only [found] at walked; cases walked
      | some e =>
        have there := List.mem_of_find?_eq_some found
        obtain rfl : e.name = step := of_decide_eq_true (List.find?_some found :)
        cases e with
        | file m content' =>
          simp only [found] at walked
          split at walked
          · rename_i last
            obtain rfl := List.isEmpty_iff.mp last
            cases walked
            exact .here there
          · cases walked
        | directory m inner =>
          simp only [found] at walked
          exact .inside there ((ih (apart.of_mem there) later _).mp ⟨n, walked⟩)
    · intro stands
      cases stands with
      | here there =>
        have found := apart.find?_eq there
        rw [name] at found
        exact ⟨step, by simp [found]⟩
      | inside there within =>
        have found := apart.find?_eq there
        rw [name] at found
        simp only [found]
        exact (ih (apart.of_mem there) later _).mpr within

end FileEntry

theorem splitOn_slashed {cs : List Char} (plain : '/' ∉ cs) : (cs.map slashed).splitOn '/' = dotSegments cs := by
  induction size : cs.length using Nat.strong_induction_on generalizing cs with
  | _ n ih =>
    by_cases dot : '.' ∈ cs
    · obtain ⟨front, back, rfl, noDot⟩ := List.eq_append_cons_of_mem dot
      have shorter : back.length < n := by
        rw [← size, List.length_append, List.length_cons]
        omega
      rw [List.mem_append, List.mem_cons, not_or, not_or] at plain
      rw [List.map_append, map_slashed_plain noDot, List.map_cons, show slashed '.' = '/' from rfl,
        List.splitOn_append_cons_self_of_not_mem plain.1, ih _ shorter plain.2.2 rfl, dotSegments_append_dot noDot]
    · rw [map_slashed_plain dot, List.splitOn_eq_singleton plain, dotSegments_of_not_dot dot]

namespace ClassName

variable {c : ClassName} {extension : String}

/-- The path of a class below a root: a directory for each part of its package, and a file of its short name with the
extension. -/
def fileSteps (c : ClassName) (extension : String) : List String :=
  ((c.package?.map fun p => (dotSegments p.toList).map String.ofList).getD []) ++ [c.short ++ "." ++ extension]

theorem splitPath_relativePath_plain (noSlash : '/' ∉ extension.toList) :
    FileEntry.splitPath (c.relativePath extension) = c.fileSteps extension := by
  have file : (c.short.toList ++ '.' :: extension.toList).splitOn '/' = [c.short.toList ++ '.' :: extension.toList] := by
    refine List.splitOn_eq_singleton fun slash => ?_
    rcases List.mem_append.mp slash with slash | slash
    · exact slash_not_mem_of_isIdentifier c.isIdentifier_short slash
    · rcases List.mem_cons.mp slash with same | slash
      · cases same
      · exact noSlash slash
  have plain : '/' ∉ c.text.toList := fun slash => (mem_text slash).elim nofun (by decide)
  have written : c.short ++ "." ++ extension = String.ofList (c.short.toList ++ '.' :: extension.toList) := by
    rw [← String.toList_inj]
    simp
  rw [FileEntry.splitPath, toList_relativePath, fileSteps, written]
  have noDot := not_dot_of_isIdentifier c.isIdentifier_short
  rcases c.parts with ⟨none, text⟩ | ⟨p, package, text⟩
  · rw [none, text, map_slashed_plain noDot, file]
    rfl
  · have chars : c.text.toList = p.toList ++ '.' :: c.short.toList := by simp [text]
    rw [chars, List.mem_append, not_or] at plain
    rw [package, chars, List.map_append, List.map_cons, map_slashed_plain noDot, show slashed '.' = '/' from rfl,
      List.append_assoc, List.cons_append, List.splitOn_append_cons_self, splitOn_slashed plain.1, file, List.map_append]
    rfl

theorem fileSteps_descend (noSlash : '/' ∉ extension.toList) : ∀ s ∈ c.fileSteps extension, FileEntry.Descends s := by
  have plain : '/' ∉ '.' :: extension.toList := by simpa using noSlash
  rw [← splitPath_relativePath_plain noSlash, FileEntry.splitPath, toList_relativePath]
  exact steps_descend plain

end ClassName

theorem FileEntry.intercalate_splitPath (path : String) : "/".intercalate (splitPath path) = path := by
  rw [← String.toList_inj, String.toList_intercalate, splitPath, List.map_map]
  simp [Function.comp_def, List.intercalate_splitOn]

namespace SourceRoot

variable {r : SourceRoot} {steps : List String} {relative path : String} {content : FileContent}

/-- A file stands under steps below the root when case does not count. -/
def Holds (r : SourceRoot) (steps : List String) : Prop :=
  FileEntry.Holds r.entries steps

/-- No file stands under the steps as they are written, and the search by case cannot begin or is misled. -/
def Misses (r : SourceRoot) (steps : List String) : Prop :=
  (¬∃ content, FileEntry.Stands content r.entries steps) ∧ (r.path = "" ∨ FileEntry.Misleads r.entries steps)

section Path

variable (split : FileEntry.splitPath relative = steps) (down : ∀ s ∈ steps, FileEntry.Descends s)
  (apart : FileEntry.ApartAll (· = ·) r.entries)

include split down in
theorem pathSteps_eq : FileEntry.pathSteps relative = steps := by
  rw [FileEntry.pathSteps, split]
  exact List.filter_eq_self.mpr fun s hs => by simp [(down s hs).1, (down s hs).2.1]

include split down apart

theorem asWritten?_eq_some : FileEntry.asWritten? r.entries relative = some content ↔
    FileEntry.Stands content r.entries steps := by
  rw [← FileEntry.exists_walk apart down [], FileEntry.asWritten?, split]
  constructor
  · intro found
    split at found
    · rename_i n content' walked
      cases found
      exact ⟨n, walked⟩
    · cases found
  · rintro ⟨n, walked⟩
    rw [walked]

theorem isSome_locate? : (r.locate? relative).isSome = true ↔ r.Holds steps ∧ ¬r.Misses steps := by
  rw [locate?, pathSteps_eq split down]
  cases written : FileEntry.asWritten? r.entries relative with
  | some content =>
    have stands := (asWritten?_eq_some split down apart).mp written
    exact iff_of_true rfl ⟨⟨steps, content, FileEntry.spells_self, stands⟩, fun missed => missed.1 ⟨content, stands⟩⟩
  | none =>
    have absent : ¬∃ content, FileEntry.Stands content r.entries steps := by
      rintro ⟨content, stands⟩
      rw [(asWritten?_eq_some split down apart).mpr stands] at written
      cases written
    by_cases pathless : r.path = ""
    · exact iff_of_false (by simp [pathless]) fun h => h.2 ⟨absent, .inl pathless⟩
    · simp only [if_false, Option.isSome_map, FileEntry.isSome_anyCase?, Holds, Misses, absent, pathless,
        not_false_eq_true, true_and, false_or]

theorem locate?_eq_some (found : r.locate? relative = some (path, content)) : ∃ names,
    FileEntry.Spells steps names ∧ FileEntry.Stands content r.entries names ∧ path = r.below ("/".intercalate names) := by
  rw [locate?, pathSteps_eq split down] at found
  cases written : FileEntry.asWritten? r.entries relative with
  | some content' =>
    rw [written] at found
    cases found
    refine ⟨steps, FileEntry.spells_self, (asWritten?_eq_some split down apart).mp written, ?_⟩
    rw [← split, FileEntry.intercalate_splitPath]
  | none =>
    simp only [written, Option.ite_none_left_eq_some, Option.map_eq_some_iff] at found
    obtain ⟨-, ⟨names, content'⟩, there, same⟩ := found
    cases same
    obtain ⟨spelt, stands⟩ := FileEntry.anyCase?_eq_some there
    exact ⟨names, spelt, stands, rfl⟩

end Path

end SourceRoot

namespace SourcePlace

/-- A class has a file below some roots exactly if one of them holds a file with the path of the class, whatever its case,
and does not miss it; the file is such a file in the first of these roots. No root with a path misses a file where no
directory has two names that differ only in case. -/
theorem locate?_finds {roots : List SourceRoot} {extension : String} (noSlash : '/' ∉ extension.toList)
    (apart : ∀ r ∈ roots, FileEntry.ApartAll (· = ·) r.entries) (c : ClassName) :
    (((files roots extension).locate? c).isSome = true ↔
      ∃ r ∈ roots, r.Holds (c.fileSteps extension) ∧ ¬r.Misses (c.fileSteps extension)) ∧
    (∀ path content, (files roots extension).locate? c = some (path, content) →
      ∃ earlier r later names, roots = earlier ++ r :: later ∧
        (∀ e ∈ earlier, e.Holds (c.fileSteps extension) → e.Misses (c.fileSteps extension)) ∧
        FileEntry.Spells (c.fileSteps extension) names ∧ FileEntry.Stands content r.entries names ∧
        path = r.below ("/".intercalate names)) ∧
    ∀ r ∈ roots, r.path ≠ "" → FileEntry.ApartAll (fun a b => FileEntry.sameName a b = true) r.entries →
      ¬r.Misses (c.fileSteps extension) := by
  have split := c.splitPath_relativePath_plain noSlash
  have down := c.fileSteps_descend noSlash
  refine ⟨?_, fun path content located => ?_, fun r _ named apart missed => missed.2.elim named apart.not_misleads⟩
  · rw [locate?, List.findSome?_isSome_iff]
    exact exists_congr fun r => and_congr_right fun hr => SourceRoot.isSome_locate? split down (apart r hr)
  · obtain ⟨earlier, r, later, rfl, found, before⟩ := List.findSome?_eq_some_iff.mp located
    obtain ⟨names, spelt, stands, whole⟩ := SourceRoot.locate?_eq_some split down (apart r (by simp)) found
    refine ⟨earlier, r, later, names, rfl, fun e he holds => ?_, spelt, stands, whole⟩
    by_contra found
    have some := (SourceRoot.isSome_locate? split down (apart e (by simp [he]))).mpr ⟨holds, found⟩
    rw [before e he] at some
    cases some

end SourcePlace

def pageName : ClassName :=
  ⟨"app.Page", by decide⟩

/-- The directory that is listed first has the name of the package and is empty; the file is in the other one. -/
def crowdedRoot : SourceRoot :=
  ⟨"src", [.directory "APP" [], .directory "app" [.file "page.wv" (.ok "class Page {}")]]⟩

def tidyRoot : SourceRoot :=
  ⟨"lib", [.directory "doc" [], .directory "App" [.file "page.WV" (.ok "final class Page {}")]]⟩

theorem crowdedRoot_holds : crowdedRoot.Holds (pageName.fileSteps "wv") :=
  ⟨["app", "page.wv"], _, .cons (by decide) (.cons (by decide) .nil),
    .inside (List.mem_cons_of_mem _ List.mem_cons_self) (.here List.mem_cons_self)⟩

theorem tidyRoot_holds : tidyRoot.Holds (pageName.fileSteps "wv") :=
  ⟨["App", "page.WV"], _, .cons (by decide) (.cons (by decide) .nil),
    .inside (List.mem_cons_of_mem _ List.mem_cons_self) (.here List.mem_cons_self)⟩

theorem apart_roots : ∀ r ∈ [crowdedRoot, tidyRoot], FileEntry.ApartAll (· = ·) r.entries := by
  simp [crowdedRoot, tidyRoot, FileEntry.ApartAll, FileEntry.Apart, FileEntry.name]

theorem crowdedRoot_unlocated : (SourcePlace.files [crowdedRoot] "wv").locate? pageName = none := by
  decide +kernel

/-- The page under the first root is missed, so the one under the second is found. -/
theorem SourcePlace.locate?_finds_page :
    crowdedRoot.Misses (pageName.fileSteps "wv") ∧
      ((files [crowdedRoot, tidyRoot] "wv").locate? pageName).isSome = true := by
  have slash : '/' ∉ "wv".toList := by decide
  constructor
  · by_contra found
    have alone := (locate?_finds slash (fun r hr => apart_roots r (List.mem_append_left _ hr)) pageName).1.mpr
      ⟨crowdedRoot, List.mem_singleton_self _, crowdedRoot_holds, found⟩
    rw [crowdedRoot_unlocated] at alone
    cases alone
  · obtain ⟨here, -, clear⟩ := locate?_finds slash apart_roots pageName
    have second : tidyRoot ∈ [crowdedRoot, tidyRoot] := List.mem_cons_of_mem _ List.mem_cons_self
    refine here.mpr ⟨tidyRoot, second, tidyRoot_holds, clear tidyRoot second (by decide) ?_⟩
    refine ⟨?_, trivial, nofun, ⟨nofun, trivial, trivial⟩, trivial⟩
    decide

/-- A root that holds the page, in the directory of the package that is listed second, has no file for the class. -/
theorem empty_directory_hides_page :
    ¬∀ (roots : List SourceRoot) (extension : String) (c : ClassName), '/' ∉ extension.toList →
      (∀ r ∈ roots, FileEntry.ApartAll (· = ·) r.entries) →
      (((SourcePlace.files roots extension).locate? c).isSome = true ↔ ∃ r ∈ roots, r.Holds (c.fileSteps extension)) := by
  intro always
  have found := (always [crowdedRoot] "wv" pageName (by decide) fun r hr => apart_roots r (List.mem_append_left _ hr)).mpr
    ⟨crowdedRoot, List.mem_singleton_self _, crowdedRoot_holds⟩
  rw [crowdedRoot_unlocated] at found
  cases found

end AspectProxy
