import AspectProxy.Proxy.Retarget

/-!
The references of a method whose references are renamed: those it had, each under its new name, in the same order.
-/

namespace AspectProxy

variable (rename : Reference → Option String)

/-- A reference under its new name, or its own. -/
def Reference.renamed (r : Reference) : Reference :=
  ⟨r.kind, (rename r).getD r.name⟩

namespace Expr

mutual

theorem references_renamed : ∀ e : Expr,
    (e.mapReferences (M := Id) rename).references = e.references.map (Reference.renamed rename)
  | .int _ | .float _ | .str _ | .bool _ | .null | .var _ | .self => rfl
  | .list items => listReferences_renamed items
  | .map entries => entryReferences_renamed entries
  | .binary op left right => by
    rw [references, List.map_append, ← references_renamed left, ← references_renamed right]
    rfl
  | .unary _ operand => references_renamed operand
  | .property object _ => references_renamed object
  | .index object key => by
    rw [references, List.map_append, ← references_renamed object, ← references_renamed key]
    rfl
  | .call object _ args => by
    rw [references, List.map_append, ← references_renamed object, ← listReferences_renamed args]
    rfl
  | .superCall _ args => listReferences_renamed args
  | .functionCall _ args => listReferences_renamed args
  | .staticCall className _ args => by
    rw [references, List.map_cons, ← listReferences_renamed args]
    rfl
  | .create className args => by
    rw [references, List.map_cons, ← listReferences_renamed args]
    rfl

theorem listReferences_renamed : ∀ es : List Expr,
    listReferences (mapList (M := Id) rename es) = (listReferences es).map (Reference.renamed rename)
  | [] => rfl
  | e :: es => by
    rw [listReferences, List.map_append, ← references_renamed e, ← listReferences_renamed es]
    rfl

theorem entryReferences_renamed : ∀ es : List (String × Expr),
    entryReferences (mapEntries (M := Id) rename es) = (entryReferences es).map (Reference.renamed rename)
  | [] => rfl
  | (_, e) :: es => by
    rw [entryReferences, List.map_append, ← references_renamed e, ← entryReferences_renamed es]
    rfl

end

end Expr

/-- Nodes whose references are those of other nodes, renamed. -/
def RenamesTo (before after : List Node) : Prop :=
  after.filterMap Node.reference? = (before.filterMap Node.reference?).map (Reference.renamed rename)

section Nodes

variable {rename} {xs xs' ys ys' : List Node}

namespace RenamesTo

theorem nil : RenamesTo rename [] [] :=
  rfl

theorem append (first : RenamesTo rename xs xs') (rest : RenamesTo rename ys ys') :
    RenamesTo rename (xs ++ ys) (xs' ++ ys') := by
  unfold RenamesTo at first rest ⊢
  rw [List.filterMap_append, List.filterMap_append, List.map_append, first, rest]

theorem block (b b' : Block) (rest : RenamesTo rename xs xs') :
    RenamesTo rename (.block b :: xs) (.block b' :: xs') :=
  rest

end RenamesTo

open RenamesTo

theorem Expr.nodes_renamed (e : Expr) : RenamesTo rename e.nodes (e.mapReferences (M := Id) rename).nodes := by
  have among : ∀ e : Expr, e.nodes.filterMap Node.reference? = e.references := by
    intro e
    rw [Expr.nodes, List.filterMap_map]
    exact List.filterMap_some
  rw [RenamesTo, among, among]
  exact e.references_renamed rename

theorem TypeRef.nodes_renamed (t : Option TypeRef) :
    RenamesTo rename (TypeRef.nodes t) (TypeRef.nodes (TypeRef.mapReferences (M := Id) rename t)) := by
  cases t <;> rfl

theorem Expr.defaultNodes_renamed (e : Option Expr) :
    RenamesTo rename (Expr.defaultNodes e) (Expr.defaultNodes (Expr.mapDefault (M := Id) rename e)) := by
  cases e with
  | none => rfl
  | some e => exact append e.nodes_renamed nil

theorem Target.nodes_renamed (t : Target) : RenamesTo rename t.nodes (t.mapReferences (M := Id) rename).nodes := by
  cases t with
  | var name => rfl
  | property object name => exact object.nodes_renamed
  | index object key => exact append object.nodes_renamed key.nodes_renamed

mutual

theorem Statement.nodes_renamed : ∀ s : Statement,
    RenamesTo rename s.nodes (s.mapReferences (M := Id) rename).nodes
  | .declare _ type value => append (TypeRef.nodes_renamed type) value.nodes_renamed
  | .assign target value => append target.nodes_renamed value.nodes_renamed
  | .expr e => e.nodes_renamed
  | .return e => Expr.defaultNodes_renamed e
  | .cond condition thenBranch none =>
    append condition.nodes_renamed (block _ _ (Statement.listNodes_renamed thenBranch))
  | .cond condition thenBranch (some elseBranch) =>
    append (append condition.nodes_renamed (block _ _ (Statement.listNodes_renamed thenBranch)))
      (block _ _ (Statement.listNodes_renamed elseBranch))
  | .while condition body => append condition.nodes_renamed (block _ _ (Statement.listNodes_renamed body))
  | .for _ iterable body => append iterable.nodes_renamed (block _ _ (Statement.listNodes_renamed body))
  | .break => nil
  | .continue => nil

theorem Statement.listNodes_renamed : ∀ block : Block,
    RenamesTo rename (Statement.listNodes block) (Statement.listNodes (Statement.mapList (M := Id) rename block))
  | [] => nil
  | s :: rest => append s.nodes_renamed (Statement.listNodes_renamed rest)

end

theorem Parameter.nodes_renamed (p : Parameter) :
    RenamesTo rename p.nodes (p.mapReferences (M := Id) rename).nodes :=
  append (TypeRef.nodes_renamed p.type) (Expr.defaultNodes_renamed p.default)

theorem Parameter.listNodes_renamed : ∀ ps : List Parameter,
    RenamesTo rename (ps.flatMap Parameter.nodes) ((Parameter.mapList (M := Id) rename ps).flatMap Parameter.nodes)
  | [] => nil
  | p :: ps => by
    rw [List.flatMap_cons]
    exact append p.nodes_renamed (Parameter.listNodes_renamed ps)

end Nodes

theorem Method.references_renameReferences (m : Method) :
    (m.renameReferences rename).references = m.references.map (Reference.renamed rename) := by
  have parameters : RenamesTo rename (m.parameters.flatMap Parameter.nodes) _ := Parameter.listNodes_renamed m.parameters
  have returned : RenamesTo rename (TypeRef.nodes m.returnType) _ := TypeRef.nodes_renamed m.returnType
  exact (parameters.append returned).append (.block _ _ (Statement.listNodes_renamed m.body))

end AspectProxy
