import AspectProxy.Proofs.Weaving.Retargeting

/-!
Renaming against the walk. A renaming may answer by any effect, so it is told apart what it asks and what it makes of the
answers: it asks for the references that the walk reports, each once and in that order, and it puts the names it is given
where these references stood. Nothing else of a method changes.
-/

namespace AspectProxy

mutual

/-- The expression with all names of classes left blank. -/
def Expr.bare : Expr → Expr
  | .list items => .list (Expr.bareList items)
  | .map entries => .map (Expr.bareEntries entries)
  | .binary op left right => .binary op left.bare right.bare
  | .unary op operand => .unary op operand.bare
  | .property object name => .property object.bare name
  | .index object key => .index object.bare key.bare
  | .call object method args => .call object.bare method (Expr.bareList args)
  | .superCall method args => .superCall method (Expr.bareList args)
  | .functionCall name args => .functionCall name (Expr.bareList args)
  | .staticCall _ method args => .staticCall "" method (Expr.bareList args)
  | .create _ args => .create "" (Expr.bareList args)
  | .int n => .int n
  | .float x => .float x
  | .str s => .str s
  | .bool b => .bool b
  | .null => .null
  | .var name => .var name
  | .self => .self

def Expr.bareList : List Expr → List Expr
  | [] => []
  | e :: es => e.bare :: Expr.bareList es

def Expr.bareEntries : List (String × Expr) → List (String × Expr)
  | [] => []
  | (k, e) :: es => (k, e.bare) :: Expr.bareEntries es

end

def TypeRef.bare (t : TypeRef) : TypeRef :=
  { t with name := "" }

def Target.bare : Target → Target
  | .var name => .var name
  | .property object name => .property object.bare name
  | .index object key => .index object.bare key.bare

mutual

def Statement.bare : Statement → Statement
  | .declare name type value => .declare name (type.map TypeRef.bare) value.bare
  | .assign target value => .assign target.bare value.bare
  | .expr e => .expr e.bare
  | .return e => .return (e.map Expr.bare)
  | .cond condition thenBranch none => .cond condition.bare (Statement.bareList thenBranch) none
  | .cond condition thenBranch (some elseBranch) =>
    .cond condition.bare (Statement.bareList thenBranch) (some (Statement.bareList elseBranch))
  | .while condition body => .while condition.bare (Statement.bareList body)
  | .for name iterable body => .for name iterable.bare (Statement.bareList body)
  | .break => .break
  | .continue => .continue

def Statement.bareList : List Statement → List Statement
  | [] => []
  | s :: rest => s.bare :: Statement.bareList rest

end

def Parameter.bare (p : Parameter) : Parameter :=
  { p with type := p.type.map TypeRef.bare, default := p.default.map Expr.bare }

/-- The method with all names of classes left blank. -/
def Method.bare (m : Method) : Method :=
  { m with
    parameters := m.parameters.map Parameter.bare
    returnType := m.returnType.map TypeRef.bare
    body := Statement.bareList m.body }

/-- Answers a reference with the next of some names. -/
def Reference.nextName (_ : Reference) : StateM (List String) (Option String) :=
  fun names => (names.head?, names.tail)

/-- The method with names in place of those of its references, one after the other. -/
def Method.withNames (m : Method) (names : List String) : Method :=
  (m.mapReferences Reference.nextName names).1

/-- A reference of the same kind to another class. -/
def Reference.under (r : Reference) (name : String) : Reference :=
  ⟨r.kind, name⟩

/-- What is run behind a list of answers depends on lists of that length only. -/
theorem mapM_bind_congr {M : Type → Type} [Monad M] [LawfulMonad M] {f : α → M β} {g g' : List β → M γ} {xs : List α}
    (h : ∀ ys, ys.length = xs.length → g ys = g' ys) : xs.mapM f >>= g = xs.mapM f >>= g' := by
  induction xs generalizing g g' with
  | nil =>
    rw [List.mapM_nil, pure_bind, pure_bind]
    exact h [] rfl
  | cons x xs ih =>
    simp only [List.mapM_cons, bind_assoc, pure_bind]
    refine bind_congr fun y => ih fun ys same => h (y :: ys) ?_
    rw [List.length_cons, same, List.length_cons]

section Renaming

variable {M : Type → Type} [Monad M] [LawfulMonad M] (rename : Reference → M (Option String))

/-- A renaming of something, beside the same with names given from outside: it asks for some references in order and goes
on with the names that it gets. The result refers to the classes of these names, and is otherwise as it has to be. -/
structure Renames (a₀ : α) (asked : List Reference) (run : M α) (given : StateM (List String) α)
    (refers : α → List Reference) (kept : α → Prop) : Prop where
  asks : run = (fun names => (given names).1) <$> asked.mapM (Reference.mapName rename)
  takes : ∀ names rest, names.length = asked.length → given (names ++ rest) = ((given names).1, rest)
  puts : ∀ names, names.length = asked.length → refers (given names).1 = List.zipWith Reference.under asked names
  keeps : ∀ names, kept (given names).1
  stays : (given (asked.map Reference.name)).1 = a₀

namespace Renames

variable {rename} {refers : α → List Reference} {refers' : β → List Reference} {refers'' : γ → List Reference}
  {kept : α → Prop} {kept' : β → Prop} {kept'' : γ → Prop} {asked asked' : List Reference} {run : M α} {run' : M β}
  {given : StateM (List String) α} {given' : StateM (List String) β} {a₀ : α} {b₀ : β}

theorem pure {a : α} (none : refers a = []) (keeps : kept a) :
    Renames rename a [] (Pure.pure a) (Pure.pure a) refers kept where
  asks := by
    rw [List.mapM_nil, map_pure]
    rfl
  takes := by
    intro names rest empty
    obtain rfl := List.eq_nil_of_length_eq_zero empty
    rfl
  puts := fun _ _ => none
  keeps := fun _ => keeps
  stays := rfl

theorem name (r : Reference) : Renames rename r.name [r] (Reference.mapName rename r)
    (Reference.mapName Reference.nextName r) (fun n => [r.under n]) fun _ => True where
  asks := by
    have answer : ∀ n : String, (Reference.mapName Reference.nextName r [n]).1 = n := fun _ => rfl
    simp [answer]
  takes := by
    intro names rest one
    obtain ⟨n, rfl⟩ := List.length_eq_one_iff.mp one
    rfl
  puts := by
    intro names one
    obtain ⟨n, rfl⟩ := List.length_eq_one_iff.mp one
    rfl
  keeps := fun _ => trivial
  stays := rfl

theorem map (h : Renames rename a₀ asked run given refers kept) {f : α → β} (parts : ∀ a, refers' (f a) = refers a)
    (whole : ∀ a, kept a → kept' (f a)) : Renames rename (f a₀) asked (f <$> run) (f <$> given) refers' kept' where
  asks := by
    rw [h.asks, ← comp_map]
    rfl
  takes := by
    intro names rest length
    show (f (given (names ++ rest)).1, (given (names ++ rest)).2) = _
    rw [h.takes names rest length]
    rfl
  puts := fun names length => (parts _).trans (h.puts names length)
  keeps := fun names => whole _ (h.keeps names)
  stays := congrArg f h.stays

omit [LawfulMonad M] in
/-- The first of two renamings uses up its names, and the second goes on with those behind. -/
theorem run_both (first : Renames rename a₀ asked run given refers kept) (f : α → β → γ) {names : List String}
    (length : names.length = asked.length) (rest : List String) :
    (given >>= fun a => given' >>= fun b => Pure.pure (f a b)) (names ++ rest) =
      (f (given names).1 (given' rest).1, (given' rest).2) := by
  show (f (given (names ++ rest)).1 (given' (given (names ++ rest)).2).1, (given' (given (names ++ rest)).2).2) = _
  rw [first.takes names rest length]

/-- Two renamings, one after the other. -/
theorem both (first : Renames rename a₀ asked run given refers kept)
    (second : Renames rename b₀ asked' run' given' refers' kept')
    {f : α → β → γ} (parts : ∀ a b, refers'' (f a b) = refers a ++ refers' b)
    (whole : ∀ a b, kept a → kept' b → kept'' (f a b)) :
    Renames rename (f a₀ b₀) (asked ++ asked') (run >>= fun a => run' >>= fun b => Pure.pure (f a b))
      (given >>= fun a => given' >>= fun b => Pure.pure (f a b)) refers'' kept'' := by
  have split : ∀ names : List String, names.length = (asked ++ asked').length →
      ∃ here there, names = here ++ there ∧ here.length = asked.length ∧ there.length = asked'.length := by
    intro names length
    rw [List.length_append] at length
    refine ⟨names.take asked.length, names.drop asked.length, (List.take_append_drop ..).symm, ?_, ?_⟩
    · rw [List.length_take]
      omega
    · rw [List.length_drop]
      omega
  refine ⟨?_, fun names rest length => ?_, fun names length => ?_, fun names => ?_, ?_⟩
  · rw [first.asks, second.asks, List.mapM_append]
    simp only [map_bind, map_pure, bind_map_left]
    refine mapM_bind_congr fun names length => bind_congr fun names' => ?_
    rw [first.run_both f length names']
  · obtain ⟨here, there, rfl, length, length'⟩ := split names length
    rw [List.append_assoc, first.run_both f length, first.run_both f length, second.takes there rest length']
  · obtain ⟨here, there, rfl, length, length'⟩ := split names length
    rw [first.run_both f length, parts, first.puts here length, second.puts there length',
      List.zipWith_append length.symm]
  · exact whole _ _ (first.keeps names) (second.keeps _)
  · rw [List.map_append, first.run_both f (List.length_map _), first.stays, second.stays]

/-- A renaming of which the result is only put into something. -/
theorem last (h : Renames rename a₀ asked run given refers kept) {f : α → β} (parts : ∀ a, refers' (f a) = refers a)
    (whole : ∀ a, kept a → kept' (f a)) :
    Renames rename (f a₀) asked (run >>= fun a => Pure.pure (f a)) (given >>= fun a => Pure.pure (f a)) refers' kept' := by
  rw [← map_eq_pure_bind, ← map_eq_pure_bind]
  exact h.map parts whole

end Renames

mutual

theorem Expr.renames : ∀ e : Expr, Renames rename e e.references (e.mapReferences rename)
    (e.mapReferences Reference.nextName) Expr.references (·.bare = e.bare)
  | .int _ | .float _ | .str _ | .bool _ | .null | .var _ | .self => .pure rfl rfl
  | .list items => (listRenames items).map (fun _ => rfl) fun _ => congrArg Expr.list
  | .map entries => (entryRenames entries).map (fun _ => rfl) fun _ => congrArg Expr.map
  | .binary op left right => left.renames.both right.renames (fun _ _ => rfl) fun _ _ => congrArg₂ (Expr.binary op)
  | .unary op operand => operand.renames.map (fun _ => rfl) fun _ => congrArg (Expr.unary op)
  | .property object name =>
    object.renames.map (f := (Expr.property · name)) (fun _ => rfl) fun _ => congrArg (Expr.property · name)
  | .index object key => object.renames.both key.renames (fun _ _ => rfl) fun _ _ => congrArg₂ Expr.index
  | .call object method args =>
    object.renames.both (listRenames args) (f := (Expr.call · method ·)) (fun _ _ => rfl)
      fun _ _ => congrArg₂ (Expr.call · method ·)
  | .superCall method args => (listRenames args).map (fun _ => rfl) fun _ => congrArg (Expr.superCall method)
  | .functionCall name args => (listRenames args).map (fun _ => rfl) fun _ => congrArg (Expr.functionCall name)
  | .staticCall className method args =>
    (Renames.name ⟨.staticCall, className⟩).both (listRenames args) (f := (Expr.staticCall · method ·)) (fun _ _ => rfl)
      fun _ _ _ => congrArg (Expr.staticCall "" method)
  | .create className args =>
    (Renames.name ⟨.create, className⟩).both (listRenames args) (f := Expr.create) (fun _ _ => rfl)
      fun _ _ _ => congrArg (Expr.create "")

theorem Expr.listRenames : ∀ es : List Expr, Renames rename es (Expr.listReferences es) (Expr.mapList rename es)
    (Expr.mapList Reference.nextName es) Expr.listReferences (Expr.bareList · = Expr.bareList es)
  | [] => .pure rfl rfl
  | e :: es => e.renames.both (listRenames es) (fun _ _ => rfl) fun _ _ => congrArg₂ List.cons

theorem Expr.entryRenames : ∀ es : List (String × Expr), Renames rename es (Expr.entryReferences es)
    (Expr.mapEntries rename es) (Expr.mapEntries Reference.nextName es) Expr.entryReferences
    (Expr.bareEntries · = Expr.bareEntries es)
  | [] => .pure rfl rfl
  | (k, e) :: es =>
    e.renames.both (entryRenames es) (f := fun e es => (k, e) :: es) (fun _ _ => rfl)
      fun _ _ same => congrArg₂ List.cons (congrArg (Prod.mk k) same)

end

/-- A renaming of the references among some nodes. -/
def RenamesAt (a₀ : α) (asked : List Node) (run : M α) (given : StateM (List String) α) (nodes : α → List Node)
    (kept : α → Prop) : Prop :=
  Renames rename a₀ (asked.filterMap Node.reference?) run given (fun a => (nodes a).filterMap Node.reference?) kept

namespace RenamesAt

variable {rename} {nodes : α → List Node} {nodes' : β → List Node} {nodes'' : γ → List Node} {nodes₃ : δ → List Node}
  {kept : α → Prop} {kept' : β → Prop} {kept'' : γ → Prop} {kept₃ : δ → Prop} {asked asked' asked'' : List Node}
  {run : M α} {run' : M β} {run'' : M γ} {given : StateM (List String) α} {given' : StateM (List String) β}
  {given'' : StateM (List String) γ} {a₀ : α} {b₀ : β} {c₀ : γ}

theorem pure {a : α} (none : nodes a = []) (keeps : kept a) :
    RenamesAt rename a [] (Pure.pure a) (Pure.pure a) nodes kept :=
  Renames.pure (by rw [none, List.filterMap_nil]) keeps

theorem map (h : RenamesAt rename a₀ asked run given nodes kept) {f : α → β} (parts : ∀ a, nodes' (f a) = nodes a)
    (whole : ∀ a, kept a → kept' (f a)) : RenamesAt rename (f a₀) asked (f <$> run) (f <$> given) nodes' kept' :=
  Renames.map h (fun a => by rw [parts]) whole

theorem both (first : RenamesAt rename a₀ asked run given nodes kept)
    (second : RenamesAt rename b₀ asked' run' given' nodes' kept')
    {f : α → β → γ} (parts : ∀ a b, nodes'' (f a b) = nodes a ++ nodes' b)
    (whole : ∀ a b, kept a → kept' b → kept'' (f a b)) :
    RenamesAt rename (f a₀ b₀) (asked ++ asked') (run >>= fun a => run' >>= fun b => Pure.pure (f a b))
      (given >>= fun a => given' >>= fun b => Pure.pure (f a b)) nodes'' kept'' := by
  unfold RenamesAt
  rw [List.filterMap_append]
  exact Renames.both first second (fun a b => by rw [parts, List.filterMap_append]) whole

theorem three (first : RenamesAt rename a₀ asked run given nodes kept)
    (second : RenamesAt rename b₀ asked' run' given' nodes' kept')
    (third : RenamesAt rename c₀ asked'' run'' given'' nodes'' kept'') {f : α → β → γ → δ}
    (parts : ∀ a b c, nodes₃ (f a b c) = nodes a ++ nodes' b ++ nodes'' c)
    (whole : ∀ a b c, kept a → kept' b → kept'' c → kept₃ (f a b c)) :
    RenamesAt rename (f a₀ b₀ c₀) (asked ++ asked' ++ asked'')
      (run >>= fun a => run' >>= fun b => run'' >>= fun c => Pure.pure (f a b c))
      (given >>= fun a => given' >>= fun b => given'' >>= fun c => Pure.pure (f a b c)) nodes₃ kept₃ := by
  have rest : RenamesAt rename (b₀, c₀) (asked' ++ asked'') _ _ (fun p => nodes' p.1 ++ nodes'' p.2)
      fun p => kept' p.1 ∧ kept'' p.2 := second.both third (fun _ _ => rfl) fun _ _ => And.intro
  have all : RenamesAt rename (f a₀ b₀ c₀) (asked ++ (asked' ++ asked'')) _ _ nodes₃ kept₃ :=
    first.both rest (f := fun a p => f a p.1 p.2) (fun a p => by rw [parts, List.append_assoc])
      fun a p here there => whole a p.1 p.2 here there.1 there.2
  simpa only [List.append_assoc, bind_assoc, pure_bind] using all

end RenamesAt

theorem TypeRef.renamesAt (type : Option TypeRef) : RenamesAt rename type (TypeRef.nodes type)
    (TypeRef.mapReferences rename type)
    (TypeRef.mapReferences Reference.nextName type) TypeRef.nodes (·.map TypeRef.bare = type.map TypeRef.bare) := by
  cases type with
  | none => exact .pure rfl rfl
  | some t =>
    have named : Renames rename (some t) [⟨.typeUse, t.name⟩] _ _ (fun type => (TypeRef.nodes type).filterMap Node.reference?)
        (·.map TypeRef.bare = (some t).map TypeRef.bare) :=
      (Renames.name ⟨.typeUse, t.name⟩).last (f := fun name => some { t with name }) (fun _ => rfl) fun _ _ => rfl
    exact named

theorem Expr.renamesAt (e : Expr) : RenamesAt rename e e.nodes (e.mapReferences rename)
    (e.mapReferences Reference.nextName) Expr.nodes (·.bare = e.bare) := by
  have among : ∀ e : Expr, e.nodes.filterMap Node.reference? = e.references := by
    intro e
    rw [Expr.nodes, List.filterMap_map]
    exact List.filterMap_some
  unfold RenamesAt
  simp only [among]
  exact e.renames rename

theorem Expr.defaultRenamesAt (e : Option Expr) : RenamesAt rename e (Expr.defaultNodes e)
    (Expr.mapDefault rename e) (Expr.mapDefault Reference.nextName e) Expr.defaultNodes (·.map Expr.bare = e.map Expr.bare) := by
  have one : ∀ e : Expr, Expr.defaultNodes (some e) = e.nodes := fun e => List.append_nil e.nodes
  cases e with
  | none => exact .pure rfl rfl
  | some e =>
    rw [one]
    exact (e.renamesAt rename).map one fun _ => congrArg some

theorem Target.renamesAt (t : Target) : RenamesAt rename t t.nodes (t.mapReferences rename)
    (t.mapReferences Reference.nextName) Target.nodes (·.bare = t.bare) := by
  cases t with
  | var name => exact .pure rfl rfl
  | property object name =>
    exact (object.renamesAt rename).map (f := (Target.property · name)) (fun _ => rfl)
      fun _ => congrArg (Target.property · name)
  | index object key =>
    exact (object.renamesAt rename).both (key.renamesAt rename) (fun _ _ => rfl) fun _ _ => congrArg₂ Target.index

omit [LawfulMonad M] in
/-- A block stands in front of its statements. -/
theorem RenamesAt.block {b b₀ : Block} {run : M Block} {given : StateM (List String) Block} {kept : Block → Prop}
    (h : RenamesAt rename b₀ (Statement.listNodes b) run given Statement.listNodes kept) :
    RenamesAt rename b₀ (.block b :: Statement.listNodes b) run given (fun b => .block b :: Statement.listNodes b) kept :=
  h

mutual

theorem Statement.renamesAt : ∀ s : Statement, RenamesAt rename s s.nodes (s.mapReferences rename)
    (s.mapReferences Reference.nextName) Statement.nodes (·.bare = s.bare)
  | .declare name type value =>
    (TypeRef.renamesAt rename type).both (value.renamesAt rename) (fun _ _ => rfl) fun _ _ => congrArg₂ (Statement.declare name)
  | .assign target value =>
    (target.renamesAt rename).both (value.renamesAt rename) (fun _ _ => rfl) fun _ _ => congrArg₂ Statement.assign
  | .expr e => (e.renamesAt rename).map (fun _ => rfl) fun _ => congrArg Statement.expr
  | .return e => (Expr.defaultRenamesAt rename e).map (fun _ => rfl) fun _ => congrArg Statement.return
  | .cond condition thenBranch none =>
    (condition.renamesAt rename).both (Statement.listRenamesAt thenBranch).block (f := (Statement.cond · · none))
      (fun _ _ => rfl) fun _ _ => congrArg₂ (Statement.cond · · none)
  | .cond condition thenBranch (some elseBranch) =>
    (condition.renamesAt rename).three (Statement.listRenamesAt thenBranch).block (Statement.listRenamesAt elseBranch).block
      (f := fun c t e => Statement.cond c t (some e)) (fun _ _ _ => rfl)
      fun _ _ _ c t e => by rw [Statement.bare, Statement.bare, c, t, e]
  | .while condition body =>
    (condition.renamesAt rename).both (Statement.listRenamesAt body).block (fun _ _ => rfl)
      fun _ _ => congrArg₂ Statement.while
  | .for name iterable body =>
    (iterable.renamesAt rename).both (Statement.listRenamesAt body).block (fun _ _ => rfl)
      fun _ _ => congrArg₂ (Statement.for name)
  | .break => .pure rfl rfl
  | .continue => .pure rfl rfl

theorem Statement.listRenamesAt : ∀ block : Block, RenamesAt rename block (Statement.listNodes block)
    (Statement.mapList rename block) (Statement.mapList Reference.nextName block) Statement.listNodes
    (Statement.bareList · = Statement.bareList block)
  | [] => .pure rfl rfl
  | s :: rest => (Statement.renamesAt s).both (Statement.listRenamesAt rest) (fun _ _ => rfl) fun _ _ => congrArg₂ List.cons

end

theorem Parameter.renamesAt (p : Parameter) : RenamesAt rename p p.nodes (p.mapReferences rename)
    (p.mapReferences Reference.nextName) Parameter.nodes (·.bare = p.bare) :=
  (TypeRef.renamesAt rename p.type).both (Expr.defaultRenamesAt rename p.default)
    (f := fun type default => { p with type, default }) (fun _ _ => rfl)
    fun _ _ type default => by rw [Parameter.bare, Parameter.bare, type, default]

theorem Parameter.listRenamesAt (ps : List Parameter) : RenamesAt rename ps (ps.flatMap Parameter.nodes)
    (Parameter.mapList rename ps) (Parameter.mapList Reference.nextName ps) (·.flatMap Parameter.nodes)
    (·.map Parameter.bare = ps.map Parameter.bare) := by
  induction ps with
  | nil => exact .pure rfl rfl
  | cons p rest ih =>
    rw [List.flatMap_cons]
    exact (p.renamesAt rename).both ih (fun _ _ => List.flatMap_cons) fun _ _ => congrArg₂ List.cons

/-- The nodes of the parts of a method. -/
def Method.partNodes (m : Method) : List Node :=
  m.parameters.flatMap Parameter.nodes ++ TypeRef.nodes m.returnType ++ .block m.body :: Statement.listNodes m.body

theorem Method.renamesAt (m : Method) : RenamesAt rename m m.partNodes (m.mapReferences rename)
    (m.mapReferences Reference.nextName) Method.partNodes (·.bare = m.bare) :=
  (Parameter.listRenamesAt rename m.parameters).three (TypeRef.renamesAt rename m.returnType)
    (Statement.listRenamesAt rename m.body).block (f := fun parameters returnType body => { m with parameters, returnType, body })
    (fun _ _ _ => rfl) fun _ _ _ parameters returned body => by rw [Method.bare, Method.bare, parameters, returned, body]

/-- The references of a method are those of its parts. -/
theorem Method.renames (m : Method) : Renames rename m m.references (m.mapReferences rename)
    (m.mapReferences Reference.nextName) Method.references (·.bare = m.bare) :=
  m.renamesAt rename

end Renaming

/-- A renaming asks for the references that the walk reports, in that order, and puts the names it gets in their places:
the walk of the result reports the same kinds with these names, and blank of names it is the method as before. So a
renaming that leaves every reference its name leaves the method as it is. -/
theorem Method.mapReferences_follows_walk (m : Method) :
    (∀ {M : Type → Type} [Monad M] [LawfulMonad M] (rename : Reference → M (Option String)),
      m.mapReferences rename = m.withNames <$> m.references.mapM (Reference.mapName rename)) ∧
    (∀ names, names.length = m.references.length →
      (m.withNames names).references = List.zipWith Reference.under m.references names) ∧
    (∀ names, (m.withNames names).bare = m.bare) ∧
    ∀ {M : Type → Type} [Monad M] [LawfulMonad M] (rename : Reference → M (Option String)),
      (∀ r ∈ m.references, Reference.mapName rename r = (fun _ => r.name) <$> rename r) →
      m.mapReferences rename = (fun _ => m) <$> m.references.mapM rename := by
  have names := m.renames (M := Id) fun _ => none
  refine ⟨fun rename => (m.renames rename).asks, names.puts, names.keeps, fun rename same => ?_⟩
  have own : m.references.mapM (Reference.mapName rename) = (fun _ => m.references.map Reference.name) <$> m.references.mapM rename := by
    generalize m.references = asked at same ⊢
    induction asked with
    | nil => simp
    | cons r rest ih =>
      obtain ⟨first, others⟩ := List.forall_mem_cons.mp same
      simp [first, ih others]
  rw [(m.renames rename).asks, own, ← comp_map]
  exact congrArg (fun a => (fun _ => a) <$> m.references.mapM rename) names.stays

/-- `fn make(seed: Seed): Part { return new Gadget(Seed::of(seed)); }` -/
def makeMethod : Method :=
  ⟨{}, "make", [⟨"seed", some ⟨"Seed", false⟩, none⟩], some ⟨"Part", false⟩,
    [.return (some (.create "Gadget" [.staticCall "Seed" "of" [.var "seed"]]))]⟩

/-- Gives every second reference the name `Bolt` and counts the references. -/
def everySecond (_ : Reference) : StateM Nat (Option String) :=
  fun n => (if n % 2 = 1 then some "Bolt" else none, n + 1)

/-- Answers with the name that the reference has, and counts. -/
def countOnly (r : Reference) : StateM Nat (Option String) :=
  fun n => (some r.name, n + 1)

theorem mapReferences_follows_walk_make :
    makeMethod.mapReferences everySecond 0 = (makeMethod.withNames ["Seed", "Bolt", "Gadget", "Bolt"], 4) ∧
    (makeMethod.withNames ["Seed", "Bolt", "Gadget", "Bolt"]).references =
      [⟨.typeUse, "Seed"⟩, ⟨.typeUse, "Bolt"⟩, ⟨.create, "Gadget"⟩, ⟨.staticCall, "Bolt"⟩] ∧
    makeMethod.mapReferences countOnly 0 = (makeMethod, 4) := by
  have walk := makeMethod.mapReferences_follows_walk
  refine ⟨?_, ?_, ?_⟩
  · exact congrFun (walk.1 everySecond) 0
  · exact walk.2.1 _ rfl
  · exact congrFun (walk.2.2.2 countOnly fun _ _ => rfl) 0

end AspectProxy
