import AspectProxy.Machine

/-!
Defining the classes of a unit, and loading a class that is not defined from its unit. A unit is defined as
a whole or not at all; the units of parents that it does not declare are loaded first. Loading goes from
unit to unit, each being loaded only once at a time, so a chain of loads is no longer than there are
units.
-/

namespace AspectProxy

/-- Steps that change a machine and may fail; the changes stay when they fail. -/
abbrev Change (ε : Type) := ExceptT ε (StateM Machine)

namespace Machine

/-- The same step with another error. -/
def mapError (f : ε → δ) (step : Change ε α) : Change δ α :=
  fun m =>
    match step m with
    | (.ok a, m) => (.ok a, m)
    | (.error e, m) => (.error (f e), m)

/-- The class that a parent reference means. -/
def parentName (u : SourceUnit) (name : ClassName) (reference : String) :
    Except DefinitionError ClassName :=
  if reference = selfClass then .error (.invalidSource (.extendsItself name.text))
  else
    let resolved := u.resolve reference
    match ClassName.parse resolved with
    | .ok c => .ok c
    | .error _ => .error (.unresolvedParent name.text resolved)

/-- Whether a class may be the parent of another. -/
def checkParent (name : ClassName) (parent : LoadedClass) : Except DefinitionError Unit :=
  if parent.own.isTrait then .error (.invalidSource (.extendsTrait name.text parent.name.text))
  else if parent.own.isFinal then .error (.finalParent name.text parent.name.text)
  else .ok ()

/-- Whether a parent has a final method of a name. -/
def overridesFinal (parent : Option LoadedClass) (method : String) : Bool :=
  match parent.bind (·.findMethod method) with
  | some (_, inherited) => inherited.modifiers.isFinal
  | none => false

/-- The methods and properties among members, behind those of the members before. -/
def collectMembers (name : ClassName) (parent : Option LoadedClass) :
    List Member → List Method → List Property → Except DefinitionError (List Method × List Property)
  | [], methods, properties => .ok (methods, properties)
  | .method m :: rest, methods, properties =>
    if overridesFinal parent m.name then .error (.finalOverride name.text m.name)
    else if methods.any (·.name = m.name) then
      .error (.invalidSource (.methodTwice m.name name.text))
    else collectMembers name parent rest (methods ++ [m]) properties
  | .property p :: rest, methods, properties =>
    if properties.any (·.name = p.name) then
      .error (.invalidSource (.propertyTwice p.name name.text))
    else collectMembers name parent rest methods (properties ++ [p])

/-- The class of a declaration under its parent. -/
def bodyOf (u : SourceUnit) (name : ClassName) (d : Declaration) (parent : Option LoadedClass) :
    Except DefinitionError LoadedClass := do
  let (methods, properties) ← collectMembers name parent d.members [] []
  let isFinal := match d with
    | .class c => c.isFinal
    | .trait _ => false
  return LoadedClass.extending ⟨name, isFinal, d.isTrait, u.scope, methods, properties⟩ parent

def parentReference : Declaration → Option String
  | .class c => c.parent
  | .trait _ => none

/-- Steps of defining a unit, with the classes of the unit that are built so far. -/
abbrev Build := StateT (List LoadedClass) (Change DefinitionError)

def Build.lift (r : Except DefinitionError α) : Build α :=
  fun built m => (r.map fun a => (a, built), m)

section Define

variable (load : ClassName → Change LoadError LoadedClass)

/-- A parent that the unit does not declare. -/
def outsideParent (name parent : ClassName) : Change DefinitionError LoadedClass :=
  mapError (fun
    | .missing _ => .unresolvedParent name.text parent.text
    | .invalid e => e) (load parent)

/-- The class of a declaration; its parent is built first if the unit declares it. The declarations on
the way stand in `path`, so that a cycle is found before the fuel is used up. -/
def build (u : SourceUnit) (entries : List (ClassName × Declaration)) :
    Nat → List ClassName → ClassName → Declaration → Build LoadedClass
  | 0, _, name, _ => Build.lift (.error (.invalidSource (.inheritanceCycle name.text)))
  | fuel + 1, path, name, d => do
    match (← get).find? fun c => c.name == name with
    | some c => return c
    | none =>
      if path.any (· == name) then
        Build.lift (.error (.invalidSource (.inheritanceCycle name.text)))
      let parent ← match parentReference d with
        | none => pure none
        | some reference => do
          let parentName ← Build.lift (parentName u name reference)
          let parent ← match entries.find? fun (n, _) => n == parentName with
            | some (n, e) => build u entries fuel (name :: path) n e
            | none => StateT.lift (outsideParent load name parentName)
          Build.lift (checkParent name parent)
          pure (some parent)
      let c ← Build.lift (bodyOf u name d parent)
      modify (· ++ [c])
      return c

/-- The names of declarations; none may be taken, by a class or by a declaration before. -/
def declaredNames (u : SourceUnit) (m : Machine) :
    List Declaration → List ClassName → Except DefinitionError (List ClassName)
  | [], names => .ok names
  | d :: rest, names =>
    match u.qualified d.name with
    | .error e => .error (.invalidSource (.invalidName e))
    | .ok name =>
      if names.any (· == name) || m.isDefined name then .error (.duplicate name.text)
      else declaredNames u m rest (names ++ [name])

/-- Builds declarations one after the other. -/
def buildAll (u : SourceUnit) (entries : List (ClassName × Declaration)) :
    List (ClassName × Declaration) → Build Unit
  | [] => return ()
  | (name, d) :: rest => do
    let _ ← build load u entries (entries.length + 1) [] name d
    buildAll u entries rest

/-- Puts classes into the table in the order of their declarations; none may have been defined
meanwhile. -/
def register (names : List ClassName) (built : List LoadedClass) : Change DefinitionError (List ClassHandle) :=
  fun m =>
    match names.find? m.isDefined with
    | some taken => (.error (.duplicate taken.text), m)
    | none =>
      let classes := names.filterMap fun n => built.find? fun c => c.name == n
      (.ok (classes.map (·.handle)), classes.foldl addClass m)

/-- Defines every declaration of a unit. -/
def defineWith (u : SourceUnit) : Change DefinitionError (List ClassHandle) := do
  if u.declarations.isEmpty then throw (.invalidSource .declaresNothing)
  let names ← liftExcept (declaredNames u (← get) u.declarations [])
  let entries := names.zip u.declarations
  let ((), built) ← (buildAll load u entries entries).run []
  register names built
where
  liftExcept {α : Type} (r : Except DefinitionError α) : Change DefinitionError α :=
    fun m => (r, m)

end Define

def beginLoading (name : ClassName) (m : Machine) : Machine :=
  { m with loading := name :: m.loading }

def endLoading (name : ClassName) (m : Machine) : Machine :=
  { m with loading := m.loading.filter fun n => !(n == name) }

/-- The unit of a class, from where the machine loads classes. -/
def fetchUnit (store : UnitStore) (name : ClassName) : Change LoadError SourceUnit :=
  fun m =>
    match store.get name with
    | (.ok u, store) => (.ok u, { m with units := some store })
    | (.error e, store) => (.error (.missing (.noUnit e)), { m with units := some store })

/-- A class, loaded from its unit if it is not defined; at most `fuel` loads are within each other. -/
def loadWithin : (fuel : Nat) → ClassName → Change LoadError LoadedClass
  | 0, name => throw (.invalid (.invalidSource (.inheritanceCycle name.text)))
  | fuel + 1, name => fun m =>
    match m.class? name with
    | some c => (.ok c, m)
    | none =>
      match m.units with
      | none => (.error (.missing (.notDefined name.text)), m)
      | some store =>
        if m.loading.any (· == name) then
          (.error (.invalid (.invalidSource (.inheritanceCycle name.text))), m)
        else
          let step : Change LoadError Unit := do
            let u ← fetchUnit store name
            let _ ← mapError .invalid (defineWith (loadWithin fuel) u)
          let (result, m) := step (m.beginLoading name)
          let m := m.endLoading name
          match result with
          | .error e => (.error e, m)
          | .ok () =>
            match m.class? name with
            | some c => (.ok c, m)
            | none => (.error (.missing (.notDeclared name.text)), m)

/-- More loads than can be within each other: one for each unit there is, and one that finds none. -/
def loadBound (m : Machine) : Nat :=
  match m.units with
  | none => 2
  | some store => store.places.size + store.size + 2

/-- A class, loaded from its unit if it is not defined. -/
def load (name : ClassName) : Change LoadError LoadedClass :=
  fun m => loadWithin m.loadBound name m

/-- Defines every declaration of a unit, and gives their handles in order. -/
def defineUnit (u : SourceUnit) : Change DefinitionError (List ClassHandle) :=
  fun m => defineWith load u m

/-- The place of the first class among declarations, or zero. -/
def firstClass (u : SourceUnit) : Nat :=
  (u.declarations.findIdx? fun d => !d.isTrait).getD 0

/-- Defines the unit of a source text, and gives the handle of its first class. -/
def define (source : String) : Change DefinitionError ClassHandle := do
  match SourceUnit.ofString? source with
  | .error fault => throw (.invalidSource (.malformed fault))
  | .ok u =>
    let handles ← defineUnit u
    match handles[firstClass u]? with
    | some h => return h
    | none => throw (.invalidSource .declaresNothing)

end Machine

end AspectProxy
