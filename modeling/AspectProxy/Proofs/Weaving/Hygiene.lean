import AspectProxy.Proofs.Machine.Arguments
import AspectProxy.Proofs.Weaving.Generated
import AspectProxy.Proofs.Weaving.Printed
import Mathlib.Algebra.Order.BigOperators.Group.List
import Mathlib.Logic.Relation
import Mathlib.Order.Bounds.Defs

/-!
The names of the variables in a wrapper. The search for a name that no parameter has goes from round to round and ends
at the first such name; so the parameters and the two variables of a wrapper have different names, and the body of the
wrapper does what it would do if values went to their uses without any names.
-/

namespace AspectProxy

open Eval Relation

/-- A round of the search for a fresh name: the name is taken, and gets an underscore behind it. -/
def Lengthens (taken : List String) (name longer : String) : Prop :=
  name ∈ taken ∧ longer = name ++ "_"

/-- By how much a name may still get longer while it is taken: no taken name is longer than all of them together. -/
def searchRoom (taken : List String) (name : String) : Nat :=
  (taken.map String.length).sum + 1 - name.length

section Search

variable {taken : List String} {name longer last : String}

theorem Lengthens.searchRoom_lt (round : Lengthens taken name longer) :
    searchRoom taken longer < searchRoom taken name := by
  obtain ⟨isTaken, rfl⟩ := round
  have bounded : name.length ≤ (taken.map String.length).sum := List.le_sum_of_mem (List.mem_map_of_mem isTaken)
  have grows : (name ++ "_").length = name.length + 1 := String.length_append _ _
  unfold searchRoom
  omega

/-- The search does not go on for ever. -/
theorem lengthens_wellFounded (taken : List String) : WellFounded fun longer name => Lengthens taken name longer :=
  Subrelation.wf Lengthens.searchRoom_lt (measure (searchRoom taken)).wf

/-- As long as the names are taken, the search goes on to the next. -/
theorem lengthens_run {k : Nat} (before : ∀ j < k, underscored name j ∈ taken) :
    ReflTransGen (Lengthens taken) name (underscored name k) := by
  induction k generalizing name with
  | zero => rw [underscored_zero]
  | succ k ih =>
    have isTaken : name ∈ taken := underscored_zero name ▸ before 0 k.succ_pos
    rw [← underscored_succ]
    refine .head ⟨isTaken, rfl⟩ (ih fun j hj => ?_)
    rw [underscored_succ]
    exact before (j + 1) (Nat.succ_lt_succ hj)

/-- The fresh name is where the search ends. -/
theorem lengthens_ends_iff :
    ReflTransGen (Lengthens taken) name last ∧ last ∉ taken ↔ last = freshName name taken := by
  obtain ⟨k, fresh, before⟩ := freshName_eq_underscored name taken
  have reached : ReflTransGen (Lengthens taken) name (freshName name taken) := fresh ▸ lengthens_run before
  constructor
  · rintro ⟨leads, free⟩
    have one : Relator.RightUnique (Lengthens taken) := fun _ _ _ h h' => h.2.trans h'.2.symm
    -- The search is the same up to where one of the two ends, and neither end goes on.
    rcases leads.total_of_right_unique one reached with on | on
    · rcases on.cases_head with same | ⟨_, step, -⟩
      · exact same
      · exact absurd step.1 free
    · rcases on.cases_head with same | ⟨_, step, -⟩
      · exact same.symm
      · exact absurd step.1 (freshName_not_mem name taken)
  · rintro rfl
    exact ⟨reached, freshName_not_mem name taken⟩

/-- The fresh name is the name with the fewest underscores behind it that are enough. -/
theorem freshName_least (name : String) (taken : List String) :
    ∃ k, freshName name taken = underscored name k ∧ IsLeast {j | underscored name j ∉ taken} k := by
  obtain ⟨k, fresh, before⟩ := freshName_eq_underscored name taken
  have free : underscored name k ∉ taken := fresh ▸ freshName_not_mem name taken
  exact ⟨k, fresh, free, fun j alsoFree => Nat.le_of_not_lt fun less => alsoFree (before j less)⟩

end Search

/-- The names that a block declares itself. -/
def Block.declares (b : Block) : List String :=
  b.filterMap fun
    | .declare name _ _ => some name
    | _ => none

theorem wrapper_declares (base : ClassName) (m : Method) :
    Block.declares (m.wrapper base).body =
      [freshName "__ctx" (m.parameters.map (·.name)), freshName "__result" (m.parameters.map (·.name))] :=
  rfl

section Distinct

variable {m : Method} (distinct : (m.parameters.map (·.name)).Nodup)
include distinct

theorem wrapper_nodup (base : ClassName) :
    (m.parameters.map (·.name) ++ Block.declares (m.wrapper base).body).Nodup := by
  rw [wrapper_declares]
  generalize m.parameters.map (·.name) = names at distinct ⊢
  have two : [freshName "__ctx" names, freshName "__result" names].Nodup :=
    List.nodup_cons.mpr ⟨fun h => context_ne_result names (List.mem_singleton.mp h), List.nodup_singleton _⟩
  refine distinct.append two fun name isParameter isLocal => ?_
  rcases List.mem_pair.mp isLocal with rfl | rfl
  · exact freshName_not_mem _ _ isParameter
  · exact freshName_not_mem _ _ isParameter

/-- A wrapper binds its parameters, and then does what it would do without variables. -/
theorem runBody_wrapper (base : ClassName) (frame : Frame) (k steps : Nat) {args : List Value}
    (enough : args.length ≤ m.parameters.length) (machine : Machine) :
    Machine.runCode ((m.wrapper base).runBody (.within k) frame steps args) machine =
      Machine.runCode (do
        let values ← m.boundArguments (.within k) frame args
        hookedSuper (.within k) frame ⟨base.text, m.name, values⟩) machine := by
  have bodyRun := runCode_runBody (.within k) frame steps (m.wrapper base) args machine
  have same : (m.wrapper base).parameters = m.parameters := rfl
  rw [bodyRun, same]
  rcases ran : bindParameters (.within k) frame m.parameters args ⟨machine, []⟩ with ⟨e | u, t⟩
  · unfold Machine.runCode
    rw [Eval.bind_error (boundArguments_error (s := ⟨machine, []⟩) ran)]
  · obtain ⟨values, all, -, length, locals⟩ :=
      boundArguments_ok (s := ⟨machine, []⟩) distinct enough (Calls.within_keepLocals k) ran
    have held := getEntry_setEntries distinct (length.trans (List.length_map _).symm) ([] : List (String × Value))
    rw [← locals] at held
    refine (run_wrapper base m frame k steps held).trans ?_
    unfold Machine.runCode
    rw [Eval.bind_ok all]

end Distinct

/-- The methods of a unit that is read from a text have parameters with different names. -/
theorem SourceUnit.parameters_distinct {source : String} {u : SourceUnit} (read : ofString? source = .ok u)
    {d : Declaration} (declared : d ∈ u.declarations) {m : Method} (member : m ∈ d.methods) :
    (m.parameters.map (·.name)).Nodup :=
  ((plain_of_ofString? read).method declared member).sound.distinct

/-- The search for a fresh name ends, at the name with the fewest underscores behind it that is not taken; so in a
wrapper of a method whose parameters have different names, as those that are read have, the variables and parameters have
different names, and the wrapper does with the values of its parameters what it would do without any names. -/
theorem wrapper_hygienic :
    (∀ (taken : List String) (name : String),
      (WellFounded fun longer name => Lengthens taken name longer) ∧
        (∀ last, ReflTransGen (Lengthens taken) name last ∧ last ∉ taken ↔ last = freshName name taken) ∧
        ∃ k, freshName name taken = underscored name k ∧ IsLeast {j | underscored name j ∉ taken} k) ∧
    (∀ (source : String) (u : SourceUnit), SourceUnit.ofString? source = .ok u → ∀ d ∈ u.declarations, ∀ m ∈ d.methods,
      (m.parameters.map (·.name)).Nodup) ∧
    ∀ (base : ClassName) (m : Method), (m.parameters.map (·.name)).Nodup →
      let names := m.parameters.map (·.name)
      Block.declares (m.wrapper base).body = [freshName "__ctx" names, freshName "__result" names] ∧
        (names ++ Block.declares (m.wrapper base).body).Nodup ∧
        ∀ (frame : Frame) (k steps : Nat) (args : List Value) (machine : Machine), args.length ≤ m.parameters.length →
          (∀ values m', Machine.runCode (m.boundArguments (.within k) frame args) machine = (.ok values, m') →
            args <+: values ∧ values.length = m.parameters.length) ∧
          Machine.runCode ((m.wrapper base).runBody (.within k) frame steps args) machine =
            Machine.runCode (do
              let values ← m.boundArguments (.within k) frame args
              hookedSuper (.within k) frame ⟨base.text, m.name, values⟩) machine := by
  refine ⟨fun taken name => ⟨lengthens_wellFounded taken, fun _ => lengthens_ends_iff, freshName_least name taken⟩,
    fun _ _ read _ declared _ member => SourceUnit.parameters_distinct read declared member,
    fun base m distinct => ⟨wrapper_declares base m, wrapper_nodup distinct base,
      fun frame k steps args machine enough => ⟨fun _ _ bound => boundArguments_passed distinct enough bound,
        runBody_wrapper distinct base frame k steps enough machine⟩⟩⟩

def clashMethod : Method :=
  ⟨{}, "m", [⟨"__ctx", none, none⟩, ⟨"__result", none, none⟩, ⟨"__ctx_", none, none⟩], none,
    [.return (some (.var "__ctx"))]⟩

def clashDeclaration : ClassDecl :=
  ⟨"Clash", false, none, [.method clashMethod]⟩

def clashUnit : SourceUnit where
  declarations := [.class clashDeclaration]

def clashIdentity : Identity :=
  .numbered ⟨"Clash", by decide⟩ 1

def clashClass : LoadedClass :=
  .extending ⟨clashIdentity.base, false, false, {}, [clashMethod], []⟩ none

def clashProxyClass : LoadedClass :=
  .extending ⟨clashIdentity.proxy, false, false, {}, (proxyDeclaration aspectHooks clashIdentity [clashMethod]).methods, []⟩
    (some clashClass)

/-- The class, object and depth of the code of a method of the proxy. -/
def clashFrame : Frame :=
  ⟨some ⟨1, clashProxyClass⟩, clashProxyClass, 1⟩

theorem clash_read :
    SourceUnit.ofString? "class Clash { fn m(__ctx, __result, __ctx_) { return __ctx; } }" = .ok clashUnit :=
  SourceUnit.eq_ok_of_beq (by decide +kernel)

theorem wrapper_hygienic_clash :
    SourceUnit.ofString? "class Clash { fn m(__ctx, __result, __ctx_) { return __ctx; } }" = .ok clashUnit ∧
      Block.declares (clashMethod.wrapper clashIdentity.base).body = ["__ctx__", "__result_"] ∧
      (["__ctx", "__result", "__ctx_"] ++ ["__ctx__", "__result_"]).Nodup ∧
      (Machine.runCode ((clashMethod.wrapper clashIdentity.base).runBody (.within 5) clashFrame 5
        [.int 1, .int 2, .int 3]) {}).1 = .ok (.int 1) := by
  obtain ⟨-, read, hygienic⟩ := wrapper_hygienic
  have distinct : (clashMethod.parameters.map (·.name)).Nodup :=
    read _ clashUnit clash_read (.class clashDeclaration) List.mem_cons_self clashMethod List.mem_cons_self
  obtain ⟨declared, nodup, runs⟩ := hygienic clashIdentity.base clashMethod distinct
  obtain ⟨-, ran⟩ := runs clashFrame 5 5 [.int 1, .int 2, .int 3] {} (by decide)
  have context : freshName "__ctx" (clashMethod.parameters.map (·.name)) = "__ctx__" := by decide
  have result : freshName "__result" (clashMethod.parameters.map (·.name)) = "__result_" := by decide
  rw [declared, context, result] at nodup
  refine ⟨clash_read, declared.trans ?_, nodup, ?_⟩
  · rw [context, result]
  · rw [ran]
    rfl

end AspectProxy
