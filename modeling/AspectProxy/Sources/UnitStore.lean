import AspectProxy.Sources
import AspectProxy.Tree.Parser

/-!
Parsed units by class. A class is looked up in the places and its source is parsed when it is first
asked for; from then on the same unit is given. What fails is not kept, so it is tried again. A file that
is located first and then cannot be read is an error even if another place has the class.
-/

namespace AspectProxy

/-- How files are read on request: at once, or located first and read afterwards. -/
inductive ReadMode where
  | blocking | async
  deriving DecidableEq, Repr

structure UnitStore where
  places : SourceChain
  mode : ReadMode := .blocking
  units : List (ClassName × SourceUnit) := []

namespace UnitStore

def unit? (s : UnitStore) (c : ClassName) : Option SourceUnit :=
  (s.units.find? fun (n, _) => n == c).map (·.2)

def isCached (s : UnitStore) (c : ClassName) : Bool :=
  (s.unit? c).isSome

def size (s : UnitStore) : Nat :=
  s.units.length

/-- Parses the source of a class and keeps the unit, unless one is kept already. -/
def store (s : UnitStore) (c : ClassName) (text : String) : Except UnitError SourceUnit × UnitStore :=
  match SourceUnit.ofString? text with
  | .error fault => (.error (.malformed c.text fault), s)
  | .ok u =>
    if u.declarations.isEmpty then (.error (.empty c.text), s)
    else
      match s.unit? c with
      | some kept => (.ok kept, s)
      | none => (.ok u, { s with units := s.units ++ [(c, u)] })

/-- The unit of a class. -/
def get (s : UnitStore) (c : ClassName) : Except UnitError SourceUnit × UnitStore :=
  match s.unit? c with
  | some u => (.ok u, s)
  | none =>
    match s.places.resolve c with
    | .error e => (.error e, s)
    | .ok source => s.store c source.text

/-- The unit of a class, where a file is read in the mode of the store. -/
def request (s : UnitStore) (c : ClassName) : Except UnitError SourceUnit × UnitStore :=
  match s.unit? c with
  | some u => (.ok u, s)
  | none =>
    match s.mode with
    | .blocking => s.get c
    | .async =>
      match s.places.locate? c with
      | some (_, .ok text) => s.store c text
      | some (path, .error fault) => (.error (.notFound c.text (fault.reason path)), s)
      | none => s.get c

/-- Gives a class a source in the first memory among the places. -/
def addSource (s : UnitStore) (c : ClassName) (text : String) : UnitStore :=
  { s with places := go s.places }
where
  go : List SourcePlace → List SourcePlace
    | [] => []
    | .memory sources :: rest => .memory (setSource c text sources) :: rest
    | p :: rest => p :: go rest

end UnitStore

end AspectProxy
