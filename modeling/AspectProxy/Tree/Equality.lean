import AspectProxy.Tree

/-!
When two trees are the same: equal in every part, with float literals compared as numbers, so that
`0.0` and `-0.0` are the same literal and a NaN is not even the same as itself.
-/

namespace AspectProxy

mutual

def Expr.same : Expr → Expr → Bool
  | .int a, .int b => a == b
  | .float a, .float b => a == b
  | .str a, .str b => a == b
  | .bool a, .bool b => a == b
  | .null, .null => true
  | .var a, .var b => a == b
  | .self, .self => true
  | .list a, .list b => Expr.sameList a b
  | .map a, .map b => Expr.sameEntries a b
  | .binary o a b, .binary p c d => o == p && a.same c && b.same d
  | .unary o a, .unary p b => o == p && a.same b
  | .property a m, .property b n => a.same b && m == n
  | .index a b, .index c d => a.same c && b.same d
  | .call a m xs, .call b n ys => a.same b && m == n && Expr.sameList xs ys
  | .superCall m xs, .superCall n ys => m == n && Expr.sameList xs ys
  | .staticCall c m xs, .staticCall d n ys => c == d && m == n && Expr.sameList xs ys
  | .functionCall m xs, .functionCall n ys => m == n && Expr.sameList xs ys
  | .create c xs, .create d ys => c == d && Expr.sameList xs ys
  | _, _ => false

def Expr.sameList : List Expr → List Expr → Bool
  | [], [] => true
  | a :: as, b :: bs => a.same b && Expr.sameList as bs
  | _, _ => false

def Expr.sameEntries : List (String × Expr) → List (String × Expr) → Bool
  | [], [] => true
  | (k, a) :: as, (l, b) :: bs => k == l && a.same b && Expr.sameEntries as bs
  | _, _ => false

end

instance : BEq Expr := ⟨Expr.same⟩

def Target.same : Target → Target → Bool
  | .var a, .var b => a == b
  | .property a m, .property b n => a == b && m == n
  | .index a b, .index c d => a == c && b == d
  | _, _ => false

instance : BEq Target := ⟨Target.same⟩

mutual

def Statement.same : Statement → Statement → Bool
  | .declare m t a, .declare n u b => m == n && t == u && a == b
  | .assign s a, .assign t b => s == t && a == b
  | .expr a, .expr b => a == b
  | .return a, .return b => a == b
  | .cond c a none, .cond d b none => c == d && Statement.sameBlock a b
  | .cond c a (some e), .cond d b (some f) =>
    c == d && Statement.sameBlock a b && Statement.sameBlock e f
  | .while c a, .while d b => c == d && Statement.sameBlock a b
  | .for m c a, .for n d b => m == n && c == d && Statement.sameBlock a b
  | .break, .break => true
  | .continue, .continue => true
  | _, _ => false

def Statement.sameBlock : List Statement → List Statement → Bool
  | [], [] => true
  | a :: as, b :: bs => a.same b && Statement.sameBlock as bs
  | _, _ => false

end

instance : BEq Statement := ⟨Statement.same⟩

deriving instance BEq for Property
deriving instance BEq for Parameter
deriving instance BEq for Method
deriving instance BEq for Member
deriving instance BEq for ClassDecl
deriving instance BEq for TraitDecl
deriving instance BEq for Declaration
deriving instance BEq for SourceUnit

end AspectProxy
