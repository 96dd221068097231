import AspectProxy.Token

/-!
The tree of a Weave source unit: a package, imports and declarations of classes and traits, whose
members are properties and methods over statements and expressions.
-/

namespace AspectProxy

inductive BinaryOp where
  | add | subtract | multiply | divide | modulo
  | equal | notEqual | less | lessEqual | greater | greaterEqual
  | and | or
  deriving DecidableEq, Repr

inductive UnaryOp where
  | not | negate
  deriving DecidableEq, Repr

namespace BinaryOp

def symbol : BinaryOp → Symbol
  | add => .plus
  | subtract => .minus
  | multiply => .star
  | divide => .slash
  | modulo => .percent
  | equal => .doubleEqual
  | notEqual => .bangEqual
  | less => .less
  | lessEqual => .lessEqual
  | greater => .greater
  | greaterEqual => .greaterEqual
  | and => .doubleAnd
  | or => .doubleBar

/-- How tightly an operator binds, from one for `||` to six for `*`. -/
def level : BinaryOp → Nat
  | or => 1
  | and => 2
  | equal | notEqual => 3
  | less | lessEqual | greater | greaterEqual => 4
  | add | subtract => 5
  | multiply | divide | modulo => 6

def all : List BinaryOp :=
  [add, subtract, multiply, divide, modulo, equal, notEqual, less, lessEqual, greater, greaterEqual,
   and, or]

/-- The operator that a symbol stands for between two operands. -/
def ofSymbol? (s : Symbol) : Option BinaryOp :=
  all.find? fun op => op.symbol = s

end BinaryOp

def UnaryOp.symbol : UnaryOp → Symbol
  | not => .bang
  | negate => .minus

inductive Expr where
  | int (value : Int64)
  | float (value : Float)
  | str (value : String)
  | bool (value : Bool)
  | null
  | var (name : String)
  | self
  | list (items : List Expr)
  | map (entries : List (String × Expr))
  | binary (op : BinaryOp) (left right : Expr)
  | unary (op : UnaryOp) (operand : Expr)
  /-- `object.name` -/
  | property (object : Expr) (name : String)
  /-- `object[key]` -/
  | index (object key : Expr)
  /-- `object.method(args)` -/
  | call (object : Expr) (method : String) (args : List Expr)
  /-- `super.method(args)` -/
  | superCall (method : String) (args : List Expr)
  /-- `class::method(args)` -/
  | staticCall (className method : String) (args : List Expr)
  /-- `name(args)` -/
  | functionCall (name : String) (args : List Expr)
  /-- `new class(args)` -/
  | create (className : String) (args : List Expr)

instance : Inhabited Expr := ⟨.null⟩

/-- A type annotation; a question mark makes it nullable. -/
structure TypeRef where
  name : String
  nullable : Bool
  deriving DecidableEq, Repr

/-- The left side of an assignment. -/
inductive Target where
  | var (name : String)
  | property (object : Expr) (name : String)
  | index (object key : Expr)

namespace Target

/-- The expressions that may stand on the left of an assignment. -/
def ofExpr? : Expr → Option Target
  | .var name => some (.var name)
  | .property object name => some (.property object name)
  | .index object key => some (.index object key)
  | _ => none

/-- The expression that reads what the target writes. -/
def toExpr : Target → Expr
  | var name => .var name
  | property object name => .property object name
  | index object key => .index object key

end Target

inductive Statement where
  | declare (name : String) (type : Option TypeRef) (value : Expr)
  | assign (target : Target) (value : Expr)
  | expr (e : Expr)
  | return (value : Option Expr)
  | cond (condition : Expr) (thenBranch : List Statement) (elseBranch : Option (List Statement))
  | while (condition : Expr) (body : List Statement)
  | for (name : String) (iterable : Expr) (body : List Statement)
  | break
  | continue

instance : Inhabited Statement := ⟨.break⟩

/-- The statements between two braces. -/
abbrev Block := List Statement

inductive Visibility where
  | everyone | lineage | owner
  deriving DecidableEq, Repr

def Visibility.keyword : Visibility → String
  | everyone => "public"
  | lineage => "protected"
  | owner => "private"

structure Modifiers where
  visibility : Visibility := .everyone
  isStatic : Bool := false
  isFinal : Bool := false
  deriving DecidableEq, Repr

structure Property where
  modifiers : Modifiers
  name : String
  type : Option TypeRef
  default : Option Expr

structure Parameter where
  name : String
  type : Option TypeRef
  default : Option Expr

structure Method where
  modifiers : Modifiers
  name : String
  parameters : List Parameter
  returnType : Option TypeRef
  body : Block

inductive Member where
  | property (p : Property)
  | method (m : Method)

structure ClassDecl where
  name : String
  isFinal : Bool
  parent : Option String
  members : List Member

structure TraitDecl where
  name : String
  members : List Member

inductive Declaration where
  | class (c : ClassDecl)
  | trait (t : TraitDecl)

structure Import where
  path : String
  localName : Option String
  deriving DecidableEq, Repr

/-- One source text. -/
structure SourceUnit where
  package : Option String := none
  imports : List Import := []
  declarations : List Declaration := []

/-- The name of the method that runs when an object is made. -/
def constructorName : String := "init"

def Method.isConstructor (m : Method) : Bool :=
  m.name = constructorName

/-- The names of types that are no classes. -/
def primitiveTypes : List String :=
  ["int", "float", "string", "bool", "list", "map", "any", "void", "null"]

def TypeRef.isPrimitive (t : TypeRef) : Bool :=
  t.name ∈ primitiveTypes

namespace Member

def method? : Member → Option Method
  | method m => some m
  | property _ => none

def property? : Member → Option Property
  | property p => some p
  | method _ => none

def name : Member → String
  | method m => m.name
  | property p => p.name

end Member

/-- The methods among some members, in order. -/
def Member.methods (members : List Member) : List Method :=
  members.filterMap Member.method?

/-- The properties among some members, in order. -/
def Member.properties (members : List Member) : List Property :=
  members.filterMap Member.property?

def ClassDecl.methods (c : ClassDecl) : List Method :=
  Member.methods c.members

def ClassDecl.method? (c : ClassDecl) (name : String) : Option Method :=
  c.methods.find? (·.name = name)

namespace Declaration

def name : Declaration → String
  | .class c => c.name
  | .trait t => t.name

def members : Declaration → List Member
  | .class c => c.members
  | .trait t => t.members

def methods (d : Declaration) : List Method :=
  Member.methods d.members

def isTrait : Declaration → Bool
  | .class _ => false
  | .trait _ => true

def class? : Declaration → Option ClassDecl
  | .class c => some c
  | .trait _ => none

end Declaration

def SourceUnit.classes (u : SourceUnit) : List ClassDecl :=
  u.declarations.filterMap Declaration.class?

end AspectProxy
