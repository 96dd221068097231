import AspectProxy.Machine.Loading
import AspectProxy.Value.Arithmetic

/-!
Running programs. Expressions and statements are run by recursion on their form, over a way to call methods and
to make objects; calls and objects are made by recursion on a number of steps that bounds how deeply they nest
and how often a loop goes round. Running out of steps is apart from failing: a run that ends is the same with
any greater number.
-/

namespace AspectProxy

/-- What the code of a method runs in: its object, the class whose source it is, and how many calls
are around it. -/
structure Frame where
  this : Option ObjectRef
  owner : LoadedClass
  depth : Nat

/-- What code changes: the machine, and the local variables of its method. -/
structure Store where
  machine : Machine
  locals : List (String × Value) := []

/-- Why a run does not end with a value. -/
inductive Stop where
  | outOfSteps
  | failed (e : EvalError)

def Stop.message : Stop → String
  | outOfSteps => "Out of steps"
  | failed e => e.message

abbrev Eval := ExceptT Stop (StateM Store)

/-- How the code behind a statement goes on. -/
inductive Flow where
  | next
  | break
  | continue
  | return (v : Value)

namespace Flow

/-- The result of a method whose body ends this way. -/
def result : Flow → Except EvalError Value
  | next => .ok .null
  | .return v => .ok v
  | .break => .error .strayBreak
  | .continue => .error .strayContinue

end Flow

namespace Eval

def fail (e : EvalError) : Eval α :=
  throw (.failed e)

def ofExcept (r : Except EvalError α) : Eval α :=
  fun s => (r.mapError .failed, s)

/-- A step of the machine whose error is put into words of the program. -/
def onMachine (describe : ε → EvalError) (step : Change ε α) : Eval α :=
  fun s =>
    match step s.machine with
    | (r, m) => (r.mapError fun e => .failed (describe e), { s with machine := m })

def getMachine : Eval Machine :=
  fun s => (.ok s.machine, s)

def modifyMachine (f : Machine → Machine) : Eval Unit :=
  fun s => (.ok (), { s with machine := f s.machine })

/-- Runs code with local variables of its own, and has those before back afterwards. -/
def withLocals (code : Eval α) : Eval α :=
  fun s =>
    match code { s with locals := [] } with
    | (r, t) => (r, { t with locals := s.locals })

def getLocal (name : String) : Eval Value :=
  fun s =>
    match getEntry name s.locals with
    | some v => (.ok v, s)
    | none => (.error (.failed (.variableNotFound name)), s)

def setLocal (name : String) (v : Value) : Eval Unit :=
  fun s => (.ok (), { s with locals := setEntry name v s.locals })

def alloc (c : LoadedClass) : Eval ObjectRef :=
  fun s =>
    match s.machine.heap.alloc c with
    | (o, heap) => (.ok o, { s with machine := { s.machine with heap } })

def setField (o : ObjectRef) (field : String) (v : Value) : Eval Unit :=
  modifyMachine fun m => { m with heap := m.heap.set o field v }

def loadClass (name : ClassName) : Eval LoadedClass :=
  onMachine (LoadError.toEvalError name) (Machine.load name)

end Eval

open Eval

/-- Runs the advice for a call that a context describes. -/
def advise (kind : AdviceKind) (context result : Value) : Eval Value := do
  let point ← ofExcept (JoinPoint.ofContext context)
  let table := (← getMachine).advice
  match kind with
  | .before =>
    let (r, table) := table.runBefore point
    modifyMachine fun m => { m with advice := table }
    match r with
    | .ok () => return .null
    | .error e => fail (.advice e)
  | .after =>
    let (r, table) := table.runAfter point result
    modifyMachine fun m => { m with advice := table }
    match r with
    | .ok v => return v
    | .error e => fail (.advice e)

/-- The kind of advice that a value names. -/
def adviceKind : Value → Except EvalError AdviceKind
  | .str s =>
    match AdviceKind.ofString? s with
    | some kind => .ok kind
    | none => .error (.misuse (.unknownAdviceKind s))
  | v => .error (.operand "advise" "string" v.typeName)

/-- The number of characters, items or entries. -/
def lengthOf : Value → Except EvalError Nat
  | .str s => .ok s.length
  | .list items => .ok items.length
  | .map entries => .ok entries.length
  | v => .error (.operand "len" "string, list or map" v.typeName)

def classOf : Value → Except EvalError Value
  | .object o => .ok (.str o.type.name.text)
  | v => .error (.operand "class_of" "object" v.typeName)

def keysOf : Value → Except EvalError Value
  | .map entries => .ok (.list (entries.map fun (k, _) => .str k))
  | v => .error (.operand "keys" "map" v.typeName)

/-- Calls a function by its name. -/
def callFunction (name : String) (args : List Value) : Eval Value :=
  match name, args with
  | "advise", [kind, context, result] => do
    let kind ← ofExcept (adviceKind kind)
    advise kind context result
  | "len", [v] => do
    let n ← ofExcept (lengthOf v)
    return .int (Int64.ofNat n)
  | "str", [v] => return .str v.text
  | "print", args => do
    modifyMachine (·.write (" ".intercalate (args.map Value.text)))
    return .null
  | "class_of", [v] => ofExcept (classOf v)
  | "type_of", [v] => return .str v.typeName
  | "keys", [v] => ofExcept (keysOf v)
  | name, args =>
    if name = "advise" then fail (.arity name 3 3 args.length)
    else if name ∈ ["len", "str", "class_of", "type_of", "keys"] then fail (.arity name 1 1 args.length)
    else fail (.functionNotFound name)

/-- How methods are called and objects made. -/
structure Calls where
  /-- Calls a method of a class, perhaps on an object, under a number of calls. -/
  invoke : LoadedClass → Method → Option ObjectRef → List Value → Nat → Eval Value
  /-- Makes an object of a class, under a number of calls. -/
  construct : LoadedClass → List Value → Nat → Eval Value

/-- The class that a reference in the code of a frame means. -/
def resolveClass (frame : Frame) (reference : String) : Eval LoadedClass :=
  if reference = selfClass then return frame.owner
  else
    let resolved := frame.owner.own.scope.resolve reference
    match ClassName.parse resolved with
    | .ok name => loadClass name
    | .error _ => fail (.classNotFound resolved none)

def thisObject (frame : Frame) : Except EvalError ObjectRef :=
  match frame.this with
  | some o => .ok o
  | none => .error (.misuse .selfOutsideMethod)

def parentClass (frame : Frame) : Except EvalError LoadedClass :=
  match frame.owner.parent? with
  | some p => .ok p
  | none => .error (.misuse (.noParent frame.owner.name.text))

def findMethod (c : LoadedClass) (method : String) : Except EvalError (LoadedClass × Method) :=
  match c.findMethod method with
  | some found => .ok found
  | none => .error (.methodNotFound method c.name.text)

/-- The object that a method is called on. -/
def receiver : Value → Except EvalError ObjectRef
  | .object o => .ok o
  | v => .error (.operand "method call" "object" v.typeName)

/-- `value.name` -/
def readProperty (name : String) : Value → Eval Value
  | .object o => do
    match (← getMachine).heap.get? o name with
    | some v => return v
    | none => fail (.propertyNotFound name o.type.name.text)
  | .map entries => return (getEntry name entries).getD .null
  | v => fail (.operand "property access" "object or map" v.typeName)

section Code

variable (calls : Calls) (frame : Frame)

mutual

def Expr.eval : Expr → Eval Value
  | .int n => return .int n
  | .float x => return .float x
  | .str s => return .str s
  | .bool b => return .bool b
  | .null => return .null
  | .var name => getLocal name
  | .self => do return .object (← ofExcept (thisObject frame))
  | .list items => do return .list (← Expr.evalList items)
  | .map entries => do return .map (entriesOf (← Expr.evalEntries entries))
  | .binary op left right => do
    let l ← left.eval
    match op with
    | .and => if l.truthy then return .bool (← right.eval).truthy else return .bool false
    | .or => if l.truthy then return .bool true else return .bool (← right.eval).truthy
    | op =>
      let r ← right.eval
      ofExcept (Value.binary op l r)
  | .unary op operand => do
    let v ← operand.eval
    ofExcept (Value.unary op v)
  | .property object name => do
    let v ← object.eval
    readProperty name v
  | .index object key => do
    let container ← object.eval
    let k ← key.eval
    ofExcept (Value.index container k)
  | .call object method args => do
    let target ← object.eval
    let args ← Expr.evalList args
    let o ← ofExcept (receiver target)
    let (owner, m) ← ofExcept (findMethod o.type method)
    calls.invoke owner m (some o) args frame.depth
  | .superCall method args => do
    let this ← ofExcept (thisObject frame)
    let parent ← ofExcept (parentClass frame)
    let (owner, m) ← ofExcept (findMethod parent method)
    let args ← Expr.evalList args
    calls.invoke owner m (some this) args frame.depth
  | .staticCall className method args => do
    let c ← resolveClass frame className
    let (owner, m) ← ofExcept (findMethod c method)
    if m.modifiers.isStatic then
      let args ← Expr.evalList args
      calls.invoke owner m none args frame.depth
    else fail (.misuse (.notStatic owner.name.text method))
  | .functionCall name args => do
    let args ← Expr.evalList args
    callFunction name args
  | .create className args => do
    let c ← resolveClass frame className
    let args ← Expr.evalList args
    calls.construct c args frame.depth

def Expr.evalList : List Expr → Eval (List Value)
  | [] => return []
  | e :: es => do
    let v ← e.eval
    return v :: (← Expr.evalList es)

def Expr.evalEntries : List (String × Expr) → Eval (List (String × Value))
  | [] => return []
  | (k, e) :: es => do
    let v ← e.eval
    return (k, v) :: (← Expr.evalEntries es)

end

/-- Stores a value where an expression reads it. Lists and maps are values, so a changed one is stored in turn
where it came from. -/
def Expr.assign : Expr → Value → Eval Unit
  | .var name, v => do
    let _ ← getLocal name
    setLocal name v
  | .property object name, v => do
    match ← object.eval calls frame with
    | .object o => setField o name v
    | .map entries => object.assign (.map (setEntry name v entries))
    | other => fail (.operand "property assignment" "object or map" other.typeName)
  | .index object key, v => do
    let k ← key.eval calls frame
    let container ← object.eval calls frame
    let updated ← ofExcept (Value.setIndex container k v)
    object.assign updated
  | _, _ => fail (.misuse .temporaryTarget)

/-- Goes round while a condition holds, at most `steps` times. -/
def whileLoop (condition : Eval Value) (body : Eval Flow) : (steps : Nat) → Eval Flow
  | 0 => throw .outOfSteps
  | steps + 1 => do
    if (← condition).truthy then
      match ← body with
      | .break => return .next
      | .return v => return .return v
      | _ => whileLoop condition body steps
    else return .next

/-- Goes through values, each in turn under a name. -/
def forLoop (name : String) (body : Eval Flow) : List Value → Eval Flow
  | [] => return .next
  | v :: vs => do
    setLocal name v
    match ← body with
    | .break => return .next
    | .return v => return .return v
    | _ => forLoop name body vs

variable (steps : Nat)

mutual

def Statement.run : Statement → Eval Flow
  | .declare name _ value => do
    let v ← value.eval calls frame
    setLocal name v
    return .next
  | .assign target value => do
    let v ← value.eval calls frame
    target.toExpr.assign calls frame v
    return .next
  | .expr e => do
    let _ ← e.eval calls frame
    return .next
  | .return none => return .return .null
  | .return (some e) => do return .return (← e.eval calls frame)
  | .cond condition thenBranch none => do
    if (← condition.eval calls frame).truthy then Statement.runBlock thenBranch else return .next
  | .cond condition thenBranch (some elseBranch) => do
    if (← condition.eval calls frame).truthy then Statement.runBlock thenBranch
    else Statement.runBlock elseBranch
  | .while condition body => whileLoop (condition.eval calls frame) (Statement.runBlock body) steps
  | .for name iterable body => do
    let v ← iterable.eval calls frame
    let items ← ofExcept v.iterated
    forLoop name (Statement.runBlock body) items
  | .break => return .break
  | .continue => return .continue

def Statement.runBlock : List Statement → Eval Flow
  | [] => return .next
  | s :: rest => do
    match ← s.run with
    | .next => Statement.runBlock rest
    | flow => return flow

end

/-- Sets parameters to arguments, and to their defaults where the arguments end. -/
def bindParameters : List Parameter → List Value → Eval Unit
  | [], _ => return ()
  | p :: ps, v :: vs => do
    setLocal p.name v
    bindParameters ps vs
  | p :: ps, [] => do
    let v ← match p.default with
      | some e => e.eval calls frame
      | none => pure .null
    setLocal p.name v
    bindParameters ps []

/-- Sets parameters and runs the body of a method. -/
def Method.runBody (m : Method) (args : List Value) : Eval Value := do
  bindParameters calls frame m.parameters args
  let flow ← Statement.runBlock calls frame steps m.body
  ofExcept flow.result

/-- Sets the properties that a class declares to their defaults. -/
def setProperties (o : ObjectRef) : List Property → Eval Unit
  | [] => return ()
  | p :: ps => do
    let v ← match p.default with
      | some e => e.eval calls frame
      | none => pure .null
    setField o p.name v
    setProperties o ps

end Code

/-- How many parameters have no default. -/
def Method.required (m : Method) : Nat :=
  m.parameters.countP (·.default.isNone)

/-- Whether a method takes a number of arguments. -/
def checkArity (owner : LoadedClass) (m : Method) (args : List Value) : Except EvalError Unit :=
  if m.required ≤ args.length ∧ args.length ≤ m.parameters.length then .ok ()
  else .error (.arity (owner.name.text ++ "::" ++ m.name) m.required m.parameters.length args.length)

/-- Calls a method whose code makes calls by `calls`. -/
def invokeOver (calls : Calls) (steps : Nat) (owner : LoadedClass) (m : Method) (this : Option ObjectRef)
    (args : List Value) (depth : Nat) : Eval Value := do
  let limit := (← getMachine).maxDepth
  if limit < depth + 1 then fail (.callDepth limit)
  ofExcept (checkArity owner m args)
  withLocals (m.runBody calls ⟨this, owner, depth + 1⟩ steps args)

/-- Sets the properties of an object for the classes of its lineage, the root first. -/
def fillFields (calls : Calls) (o : ObjectRef) (depth : Nat) : List LoadedClass → Eval Unit
  | [] => return ()
  | owner :: rest => do
    withLocals (setProperties calls ⟨some o, owner, depth⟩ o owner.own.properties)
    fillFields calls o depth rest

/-- Makes an object: its properties, and then what its constructor does. -/
def constructOver (calls : Calls) (c : LoadedClass) (args : List Value) (depth : Nat) : Eval Value := do
  if c.own.isTrait then fail (.definition (.notInstantiable c.name.text))
  let o ← alloc c
  fillFields calls o depth c.lineage
  match c.findMethod constructorName with
  | some (owner, m) =>
    let _ ← calls.invoke owner m (some o) args depth
    return .object o
  | none =>
    if args.isEmpty then return .object o
    else fail (.arity (c.name.text ++ "::" ++ constructorName) 0 0 args.length)

mutual

def invokeWithin : (steps : Nat) → LoadedClass → Method → Option ObjectRef → List Value → Nat → Eval Value
  | 0 => fun _ _ _ _ _ => throw .outOfSteps
  | steps + 1 => invokeOver ⟨invokeWithin steps, constructWithin steps⟩ steps

def constructWithin : (steps : Nat) → LoadedClass → List Value → Nat → Eval Value
  | 0 => fun _ _ _ => throw .outOfSteps
  | steps + 1 => constructOver ⟨invokeWithin steps, constructWithin steps⟩

end

/-- The calls that a number of steps is enough for. -/
def Calls.within (steps : Nat) : Calls :=
  ⟨invokeWithin steps, constructWithin steps⟩

end AspectProxy
