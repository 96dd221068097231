import AspectProxy.Machine.Host
import AspectProxy.Proxy.Ledger
import AspectProxy.Proxy.Workshop
import AspectProxy.Settings
import AspectProxy.Tree.Printer

/-!
A session: a machine with the proxies that were made of its classes. A proxy is written as text and defined
from it like any other class. The units that proxies are made from are those the machine loads classes
from, unless the session is given others.
-/

namespace AspectProxy

structure Session where
  machine : Machine
  aspect : ClassName
  policy : Policy := {}
  hooks : Option HookSet := none
  printer : Printer := .standard 4
  ledger : Ledger := {}
  /-- How many proxies were made as far as to define them; their numbers are spent. -/
  numbered : Nat := 0
  /-- The units that proxies are made from, if they are not those of the machine. -/
  ownUnits : Option UnitStore := none

/-- A proxy that was made. -/
structure Proxy where
  identity : Identity
  unit : SourceUnit
  source : String
  handle : ClassHandle

/-- What keeps a session from opening. -/
inductive SettingsError where
  | invalidAspect (e : InvalidClassName)
  | noDepth
  | aspectSource (path : String) (fault : ReadFault)
  deriving DecidableEq

def SettingsError.message : SettingsError → String
  | invalidAspect e => e.message
  | noDepth => "max_call_depth must be at least 1"
  | aspectSource path fault => "aspect source " ++ path ++ ": " ++ fault.message

/-- What fails in a session. -/
inductive SessionError where
  | settings (e : SettingsError)
  | className (e : InvalidClassName)
  | proxy (e : ProxyError)
  | run (e : Stop)

def SessionError.message : SessionError → String
  | settings e => "Configuration error: " ++ e.message
  | className e => e.message
  | proxy e => "Proxy error: " ++ e.message
  | run e => "Evaluation error: " ++ e.message

namespace Session

/-- The places that a session looks for sources in: its memory, its directories, and what is built in. -/
def placesOf (settings : Settings) (memory : List (ClassName × String)) (roots : List SourceRoot) : SourceChain :=
  [.memory memory, .files roots (trimDots settings.fileExtension), .builtin]

/-- The sources that the settings put into memory; `read` gives the text of a file. -/
def memoryOf (aspect : ClassName) (source : Option (String × FileContent)) :
    Except SettingsError (List (ClassName × String)) :=
  match source with
  | none => .ok []
  | some (_, .ok text) => .ok [(aspect, text)]
  | some (path, .error fault) => .error (.aspectSource path fault)

/-- A session with some directories to look for sources in, and with what was read from the file that has the
source of the aspect. -/
def open? (settings : Settings) (roots : List SourceRoot) (aspectText : FileContent) :
    Except SettingsError Session := do
  let aspect ← (ClassName.parse settings.aspect).mapError .invalidAspect
  if settings.maxDepth = 0 then throw .noDepth
  let memory ← memoryOf aspect (settings.aspectSource.map fun path => (path, aspectText))
  let units : UnitStore := { places := placesOf settings memory roots, mode := settings.mode }
  return {
    machine := { units := some units, maxDepth := settings.maxDepth }
    aspect
    policy := settings.policy }

/-- The units that the machine loads classes from. -/
def machineUnits (s : Session) : UnitStore :=
  s.machine.units.getD { places := [] }

def setMachineUnits (s : Session) (units : UnitStore) : Session :=
  { s with machine := { s.machine with units := some units } }

/-- The unit of a class, from those the machine loads classes from. -/
def fetch (access : UnitAccess) (c : ClassName) (s : Session) : Except UnitError SourceUnit × Session :=
  match access s.machineUnits c with
  | (r, units) => (r, s.setMachineUnits units)

/-- Gives a class a source, which counts before a file of the class. -/
def addSource (s : Session) (c : ClassName) (text : String) : Session :=
  s.setMachineUnits (s.machineUnits.addSource c text)

/-- The workshop that proxies are made in. -/
def workshop (s : Session) : Workshop where
  units := s.ownUnits.getD s.machineUnits
  aspect := s.aspect
  policy := s.policy
  hooks := s.hooks

/-- The session with its workshop as it is after some work. -/
def setWorkshop (s : Session) (w : Workshop) : Session :=
  match s.ownUnits with
  | some _ => { s with ownUnits := some w.units, hooks := w.hooks }
  | none => { s.setMachineUnits w.units with hooks := w.hooks }

def work (work : Work α) (s : Session) : Except ProxyError α × Session :=
  match work.run s.workshop with
  | (r, w) => (r, s.setWorkshop w)

/-- Defines the class of a proxy from its text, and gives the entry for the ledger. -/
def define (i : Identity) (source : String) (s : Session) : Except DefinitionError ProxyRecord × Session :=
  if s.ledger.contains i.proxy then (.error (.duplicate i.proxy.text), s)
  else
    match Machine.define source s.machine with
    | (.error e, machine) => (.error e, { s with machine })
    | (.ok handle, machine) =>
      let s := { s with machine }
      if handle.name == i.proxy then
        let entry : ProxyRecord := ⟨i, handle⟩
        match s.ledger.record entry with
        | .error e => (.error e, s)
        | .ok ledger => (.ok entry, { s with ledger })
      else (.error (.invalidSource (.definesOther handle.name.text)), s)

/-- Writes the unit of a proxy and defines its class. -/
def activate (i : Identity) (unit : SourceUnit) (s : Session) : Except ProxyError Proxy × Session :=
  let source := s.printer.print unit
  match define i source { s with numbered := s.numbered + 1 } with
  | (.error e, s) => (.error (.activation i.proxy.text e), s)
  | (.ok entry, s) => (.ok ⟨i, unit, source, entry.handle⟩, s)

/-- Makes a proxy of given names. -/
def generateAs (access : UnitAccess) (i : Identity) (s : Session) : Except ProxyError Proxy × Session :=
  match s.work (Workshop.proxyUnit access i) with
  | (.error e, s) => (.error e, s)
  | (.ok unit, s) => s.activate i unit

/-- Makes a proxy of a class under the next number. -/
def generate (access : UnitAccess) (c : ClassName) (s : Session) : Except ProxyError Proxy × Session :=
  s.generateAs access (Identity.numbered c (s.numbered + 1))

/-- Makes a proxy of a class whose unit the machine requests first. -/
def generateRequested (c : ClassName) (s : Session) : Except ProxyError Proxy × Session :=
  match s.fetch UnitStore.request c with
  | (.error e, s) => (.error (.noUnit e), s)
  | (.ok _, s) => s.generate UnitStore.get c

/-- The names of the hooks that every proxy gets. -/
def hookNames (s : Session) : Except ProxyError (List String) × Session :=
  match s.work Workshop.hookSet with
  | (r, s) => (r.map HookSet.names, s)

/-- Does something on the machine. -/
def onMachine (step : Machine → Except Stop α × Machine) (s : Session) : Except Stop α × Session :=
  match step s.machine with
  | (r, machine) => (r, { s with machine })

def instantiate (c : ClassName) (args : List Value) : Session → Except Stop Value × Session :=
  onMachine (Machine.instantiate Machine.plentySteps c args)

def callMethod (target : Value) (method : String) (args : List Value) : Session → Except Stop Value × Session :=
  onMachine (Machine.callMethod Machine.plentySteps target method args)

def callStatic (c : ClassName) (method : String) (args : List Value) : Session → Except Stop Value × Session :=
  onMachine (Machine.callStatic Machine.plentySteps c method args)

end Session

end AspectProxy
