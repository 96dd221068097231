import AspectProxy.Tree

/-!
The class references of a tree. `nodes` lists what a unit holds in source order, parents before their
parts; `Method.mapReferences` goes through the references of a method in the same order and may give
each another name.
-/

namespace AspectProxy

/-- Where a class reference is written. -/
inductive ReferenceKind where
  | parent | create | staticCall | typeUse
  deriving DecidableEq, Repr

structure Reference where
  kind : ReferenceKind
  name : String
  deriving DecidableEq, Repr

inductive Node where
  | class (c : ClassDecl)
  | trait (t : TraitDecl)
  | method (m : Method)
  | parameters (ps : List Parameter)
  | block (b : Block)
  | reference (r : Reference)

namespace Node

def method? : Node → Option Method
  | method m => some m
  | _ => none

def reference? : Node → Option Reference
  | reference r => some r
  | _ => none

end Node

mutual

/-- The class references of an expression. -/
def Expr.references : Expr → List Reference
  | .int _ | .float _ | .str _ | .bool _ | .null | .var _ | .self => []
  | .list items => Expr.listReferences items
  | .map entries => Expr.entryReferences entries
  | .binary _ left right => left.references ++ right.references
  | .unary _ operand => operand.references
  | .property object _ => object.references
  | .index object key => object.references ++ key.references
  | .call object _ args => object.references ++ Expr.listReferences args
  | .superCall _ args | .functionCall _ args => Expr.listReferences args
  | .staticCall className _ args => ⟨.staticCall, className⟩ :: Expr.listReferences args
  | .create className args => ⟨.create, className⟩ :: Expr.listReferences args

def Expr.listReferences : List Expr → List Reference
  | [] => []
  | e :: es => e.references ++ Expr.listReferences es

def Expr.entryReferences : List (String × Expr) → List Reference
  | [] => []
  | (_, e) :: es => e.references ++ Expr.entryReferences es

end

def Expr.nodes (e : Expr) : List Node :=
  e.references.map .reference

def TypeRef.nodes (t : Option TypeRef) : List Node :=
  t.toList.map fun t => .reference ⟨.typeUse, t.name⟩

def Expr.defaultNodes (e : Option Expr) : List Node :=
  e.toList.flatMap Expr.nodes

def Target.nodes : Target → List Node
  | .var _ => []
  | .property object _ => object.nodes
  | .index object key => object.nodes ++ key.nodes

mutual

def Statement.nodes : Statement → List Node
  | .declare _ type value => TypeRef.nodes type ++ value.nodes
  | .assign target value => target.nodes ++ value.nodes
  | .expr e => e.nodes
  | .return e => Expr.defaultNodes e
  | .cond condition thenBranch none =>
    condition.nodes ++ .block thenBranch :: Statement.listNodes thenBranch
  | .cond condition thenBranch (some elseBranch) =>
    condition.nodes ++ .block thenBranch :: Statement.listNodes thenBranch ++
      .block elseBranch :: Statement.listNodes elseBranch
  | .while condition body => condition.nodes ++ .block body :: Statement.listNodes body
  | .for _ iterable body => iterable.nodes ++ .block body :: Statement.listNodes body
  | .break | .continue => []

def Statement.listNodes : List Statement → List Node
  | [] => []
  | s :: rest => s.nodes ++ Statement.listNodes rest

end

def Parameter.nodes (p : Parameter) : List Node :=
  TypeRef.nodes p.type ++ Expr.defaultNodes p.default

def Method.nodes (m : Method) : List Node :=
  .method m :: .parameters m.parameters :: m.parameters.flatMap Parameter.nodes ++
    TypeRef.nodes m.returnType ++ .block m.body :: Statement.listNodes m.body

def Member.nodes : Member → List Node
  | .property p => TypeRef.nodes p.type ++ Expr.defaultNodes p.default
  | .method m => m.nodes

def Declaration.nodes : Declaration → List Node
  | .class c =>
    .class c :: c.parent.toList.map (fun p => .reference ⟨.parent, p⟩) ++ c.members.flatMap Member.nodes
  | .trait t => .trait t :: t.members.flatMap Member.nodes

namespace SourceUnit

/-- Every node of a unit in source order. -/
def nodes (u : SourceUnit) : List Node :=
  u.declarations.flatMap Declaration.nodes

/-- Every method declared in a unit. -/
def methods (u : SourceUnit) : List Method :=
  u.nodes.filterMap Node.method?

/-- Every class reference written in a unit. -/
def references (u : SourceUnit) : List Reference :=
  u.nodes.filterMap Node.reference?

end SourceUnit

def Method.references (m : Method) : List Reference :=
  m.nodes.filterMap Node.reference?

section Rename

variable {M : Type → Type} [Monad M] (rename : Reference → M (Option String))

/-- The new name of a reference, or its own. -/
def Reference.mapName (r : Reference) : M String := do
  return (← rename r).getD r.name

mutual

def Expr.mapReferences : Expr → M Expr
  | .list items => .list <$> Expr.mapList items
  | .map entries => .map <$> Expr.mapEntries entries
  | .binary op left right => do
    let left ← left.mapReferences
    return .binary op left (← right.mapReferences)
  | .unary op operand => .unary op <$> operand.mapReferences
  | .property object name => (.property · name) <$> object.mapReferences
  | .index object key => do
    let object ← object.mapReferences
    return .index object (← key.mapReferences)
  | .call object method args => do
    let object ← object.mapReferences
    return .call object method (← Expr.mapList args)
  | .superCall method args => .superCall method <$> Expr.mapList args
  | .functionCall name args => .functionCall name <$> Expr.mapList args
  | .staticCall className method args => do
    let className ← Reference.mapName rename ⟨.staticCall, className⟩
    return .staticCall className method (← Expr.mapList args)
  | .create className args => do
    let className ← Reference.mapName rename ⟨.create, className⟩
    return .create className (← Expr.mapList args)
  | .int n => pure (.int n)
  | .float x => pure (.float x)
  | .str s => pure (.str s)
  | .bool b => pure (.bool b)
  | .null => pure .null
  | .var name => pure (.var name)
  | .self => pure .self

def Expr.mapList : List Expr → M (List Expr)
  | [] => pure []
  | e :: es => do
    let e ← e.mapReferences
    return e :: (← Expr.mapList es)

def Expr.mapEntries : List (String × Expr) → M (List (String × Expr))
  | [] => pure []
  | (k, e) :: es => do
    let e ← e.mapReferences
    return (k, e) :: (← Expr.mapEntries es)

end

def TypeRef.mapReferences : Option TypeRef → M (Option TypeRef)
  | none => pure none
  | some t => do return some { t with name := ← Reference.mapName rename ⟨.typeUse, t.name⟩ }

def Expr.mapDefault : Option Expr → M (Option Expr)
  | none => pure none
  | some e => some <$> e.mapReferences rename

def Target.mapReferences : Target → M Target
  | .var name => pure (.var name)
  | .property object name => (.property · name) <$> object.mapReferences rename
  | .index object key => do
    let object ← object.mapReferences rename
    return .index object (← key.mapReferences rename)

mutual

def Statement.mapReferences : Statement → M Statement
  | .declare name type value => do
    let type ← TypeRef.mapReferences rename type
    return .declare name type (← value.mapReferences rename)
  | .assign target value => do
    let target ← target.mapReferences rename
    return .assign target (← value.mapReferences rename)
  | .expr e => .expr <$> e.mapReferences rename
  | .return e => .return <$> Expr.mapDefault rename e
  | .cond condition thenBranch none => do
    let condition ← condition.mapReferences rename
    return .cond condition (← Statement.mapList thenBranch) none
  | .cond condition thenBranch (some elseBranch) => do
    let condition ← condition.mapReferences rename
    let thenBranch ← Statement.mapList thenBranch
    return .cond condition thenBranch (some (← Statement.mapList elseBranch))
  | .while condition body => do
    let condition ← condition.mapReferences rename
    return .while condition (← Statement.mapList body)
  | .for name iterable body => do
    let iterable ← iterable.mapReferences rename
    return .for name iterable (← Statement.mapList body)
  | .break => pure .break
  | .continue => pure .continue

def Statement.mapList : List Statement → M (List Statement)
  | [] => pure []
  | s :: rest => do
    let s ← s.mapReferences
    return s :: (← Statement.mapList rest)

end

def Parameter.mapReferences (p : Parameter) : M Parameter := do
  let type ← TypeRef.mapReferences rename p.type
  return { p with type, default := ← Expr.mapDefault rename p.default }

def Parameter.mapList : List Parameter → M (List Parameter)
  | [] => pure []
  | p :: ps => do
    let p ← p.mapReferences rename
    return p :: (← Parameter.mapList ps)

/-- The method with each class reference that `rename` gives a name under that name. -/
def Method.mapReferences (m : Method) : M Method := do
  let parameters ← Parameter.mapList rename m.parameters
  let returnType ← TypeRef.mapReferences rename m.returnType
  return { m with parameters, returnType, body := ← Statement.mapList rename m.body }

end Rename

/-- The method with its class references renamed. -/
def Method.renameReferences (rename : Reference → Option String) (m : Method) : Method :=
  m.mapReferences (M := Id) rename

end AspectProxy
