import Concolic.Observed.Compare
import Concolic.Tracer.Action

/-!
# Steps of an execution

One action for each kind of event that reports an entered method or an executed instruction. Each
looks up the instruction and its operands by name, defines the term of its result, uses the terms of
its operands and adds a clause. The order matters in two ways: the first failing lookup is the one
reported, and a result is defined before its operands are used.
-/

namespace Concolic.Tracer.Action

/-! ## Methods -/

/-- Binds the parameters of an inlined method to the terms of the call. -/
def inlined (m : Method) (call : PendingCall) : Bindings :=
  let (receiver, arguments) := m.parameters
  let receivers := receiver.toList.zip call.callee.toList
  .ofList (receivers ++ arguments.zip call.arguments)

/-- Binds the parameters of a method that was entered from outside and records their values. -/
def defineAll : List Value → List Observed → Action Unit
  | v :: vs, o :: os => do
    let _ ← define ⟨v, o⟩
    defineAll vs os
  | _, _ => pure ()

def pushFrame (f : Frame) : Action Unit := modify fun t => { t with frames := f :: t.frames }

/-- Enters a method. It answers a pending call if it can be its target. Otherwise the call was made
to something else, in which the method runs. -/
def enter (spelling : MethodSpelling) (args : List Observed) : Action Unit := do
  let t ← get
  let m ← t.program.method spelling.owner spelling.name spelling.args spelling.ret
  match t.pending with
  | some call =>
    if t.dispatch t.program.hierarchy m call.method then
      pushFrame { Frame.enter m call.receiver with values := inlined m call }
      modify fun t => { t with pending := none, callTrace := t.callTrace.tail }
    else
      pushFrame (Frame.enter m none)
      flush
  | none =>
    pushFrame (Frame.enter m none)
    if ← isCollecting then defineAll m.parameters.2 args

/-- The instruction after a call, at which the execution goes on. -/
def nextOf (i : Instruction) : Action Instruction := do
  match (← (← get).program.body i.method).next? i with
  | some next => pure next
  | none => broken (.callAtBlockEnd i.text)

/-- Runs an action on a value that may be missing. -/
def forValue? (act : Value → Action Term) : Option Value → Action (Option Term)
  | some v => return some (← act v)
  | none => pure none

/-- Makes a call, which is pending from then on. -/
def call (name : String) (spelling : MethodSpelling) (result callee : Option String)
    (arguments : List String) (observed : List Observed) : Action Unit := start name do
  let (i, _) ← select name "call" fun | .call => some () | _ => none
  let next ← nextOf i
  let m ← (← get).program.method spelling.owner spelling.name spelling.args spelling.ret
  let result ← value? result
  let callee ← value? callee
  let arguments ← values arguments
  let received ← forValue? defineUnseen result
  let callee ← forValue? useUnseen callee
  let arguments ← useAll arguments observed
  let term ← Term.call (callee.getD (Term.staticRef m.owner)) m arguments
  let predicate ← i.effect.call received term
  modify fun t => { t with
    callTrace := ⟨i, next⟩ :: t.callTrace
    pending := some
      { instruction := i, method := m, receiver := result.bind fun v => received.map (v, ·)
        callee, arguments, predicate } }
  trace i

/-- Returns from the active method; its result goes to the term that receives it. -/
def ret (name : String) (result : Option String) (observed : Observed) : Action Unit :=
  start name do
    let (i, _) ← select name "return" fun | .ret => some () | _ => none
    let result ← value? result
    let returned ← forValue? termOf result
    match (← get).frames with
    | [] => broken (.returnWithoutFrame i.text)
    | f :: callers =>
      modify fun t => { t with frames := callers }
      match returned, f.receiver with
      | some returned, some (v, received) =>
        noteOrigin received ((callers.head?.map Frame.method).getD f.method) v
        noteConcrete received observed
        addClause (.state i (i.effect.equality received returned))
      | _, _ => pure ()
      modify fun t => { t with trace := t.trace ++ [i] }

/-! ## Memory -/

def arrayLoad (result array index : Operand) : Action Unit := start result.name do
  let (i, _) ← select result.name "array load" fun | .arrayLoad => some () | _ => none
  let r ← resultOf i
  let array ← resolve array
  let index ← resolve index
  let term ← define ⟨r, result.observed⟩
  let array ← use array
  let index ← use index
  emit i (i.effect.equality term (← Term.load (← Term.arrayIndex array index)))

def arrayStore (name : String) (array index stored : Operand) : Action Unit := start name do
  let (i, _) ← select name "array store" fun | .arrayStore => some () | _ => none
  let array ← resolve array
  let index ← resolve index
  let stored ← resolve stored
  let array ← use array
  let index ← use index
  let stored ← use stored
  emit i (← i.effect.store (← Term.arrayIndex array index) stored)

/-- The owner of a field: an object, or the static part of the class. -/
def ownerOf (field : FieldRef) (observed : Observed) : Option Value → Action Term
  | some v => use ⟨v, observed⟩
  | none => pure (Term.staticRef field.owner)

def fieldLoad (result : Operand) (spelling : FieldSpelling) (owner : Option String)
    (observedOwner : Observed) : Action Unit := start result.name do
  let (i, _) ← select result.name "field load" fun | .fieldLoad => some () | _ => none
  let r ← resultOf i
  let field ← (← get).program.field spelling.owner spelling.name spelling.ty
  let owner ← value? owner
  let term ← define ⟨r, result.observed⟩
  let owner ← ownerOf field observedOwner owner
  emit i (i.effect.equality term (← Term.fieldLoad (← Term.field owner field.ty field.name)))

def fieldStore (name : String) (spelling : FieldSpelling) (stored : Operand)
    (owner : Option String) (observedOwner : Observed) : Action Unit := start name do
  let (i, _) ← select name "field store" fun | .fieldStore => some () | _ => none
  let field ← (← get).program.field spelling.owner spelling.name spelling.ty
  let stored ← resolve stored
  let owner ← value? owner
  let stored ← use stored
  let owner ← ownerOf field observedOwner owner
  emit i (← i.effect.store (← Term.field owner field.ty field.name) stored)

/-- A fresh allocation is not null and has exactly its type. -/
def allocated (term : Term) (ty : Ty) : Action Unit :=
  modify fun t => { t with
    nullChecked := term :: t.nullChecked
    typeChecked := t.typeChecked.insert term ty }

def newArray (result : Operand) (dimensions : List String) (observed : List Observed) :
    Action Unit := start result.name do
  let (i, _) ← select result.name "new array" fun | .newArray => some () | _ => none
  let r ← resultOf i
  let dimensions ← values dimensions
  let term ← define ⟨r, result.observed⟩
  allocated term r.ty
  let dimensions ← useAll dimensions observed
  emit i (i.effect.newArray term dimensions)

def newObject (result : String) : Action Unit := start result do
  let (i, _) ← select result "new" fun | .new => some () | _ => none
  let r ← resultOf i
  let term ← defineUnseen r
  allocated term r.ty
  emit i (i.effect.newObject term)

/-! ## Operators -/

def binary (result left right : Operand) : Action Unit := start result.name do
  let (i, op) ← select result.name "binary" fun | .binary op => some op | _ => none
  let r ← resultOf i
  let left ← resolve left
  let right ← resolve right
  let term ← define ⟨r, result.observed⟩
  let left ← use left
  let right ← use right
  emit i (i.effect.equality term (← Term.binary (← get).program.hierarchy op left right))

def unary (result operand : Operand) : Action Unit := start result.name do
  let (i, op) ← select result.name "unary" fun | .unary op => some op | _ => none
  let r ← resultOf i
  let operand ← resolve operand
  let term ← define ⟨r, result.observed⟩
  let operand ← use operand
  emit i (i.effect.equality term (← Term.unary op operand))

/-- The result of a comparison is not reported; it follows from the operands if they compare. -/
def compare (result : String) (left right : Operand) : Action Unit := start result do
  let (i, op) ← select result "cmp" fun | .compare op => some op | _ => none
  let r ← resultOf i
  let left ← resolve left
  let right ← resolve right
  let term ← match Observed.compare op left.observed right.observed with
    | .ok outcome => define ⟨r, outcome⟩
    | .error _ => defineUnseen r
  let left ← use left
  let right ← use right
  emit i (i.effect.equality term (← Term.compare op left right))

def cast (result operand : Operand) : Action Unit := start result.name do
  let (i, _) ← select result.name "cast" fun | .cast => some () | _ => none
  let r ← resultOf i
  let operand ← resolve operand
  let term ← define ⟨r, result.observed⟩
  let operand ← use operand
  emit i (i.effect.equality term (← Term.cast r.ty operand))

def instanceOf (result operand : Operand) : Action Unit := start result.name do
  let (i, checked) ← select result.name "instanceof" fun | .instanceOf ty => some ty | _ => none
  let r ← resultOf i
  let operand ← resolve operand
  let term ← define ⟨r, result.observed⟩
  let operand ← use operand
  emit i (i.effect.equality term (← Term.instanceOf operand checked))

/-! ## Lambdas -/

/-- The parameters of a lambda as named values. -/
def lambdaParameters (m : Method) : List Term :=
  m.signature.args.mapIdx fun i ty => Term.value ty ("lambda_" ++ m.name ++ "_" ++ toString i)

/-- The lambda of a method whose body is a single expression: its arguments become the parameters,
and its named values are renamed apart. -/
def lambdaOf (ty : Ty) (m : Method) (body : Term) : Result Term := do
  let parameters := lambdaParameters m
  let arguments := m.signature.args.mapIdx fun i ty => Term.argument ty i
  let body ← body.rename (".lambda." ++ m.name) (.ofList (arguments.zip parameters))
  Term.lambda ty parameters body

/-- Creates a lambda; without the expression of its body nothing is known of it. -/
def invokeDynamic (result : Operand) (operands : List String) (observed : List Observed) :
    Action Unit := start result.name do
  let (i, base) ←
    select result.name "invokedynamic" fun | .invokeDynamic base => some base | _ => none
  let r ← resultOf i
  let operands ← values operands
  let term ← define ⟨r, result.observed⟩
  (operands.zip observed).forM fun (v, o) => do
    let _ ← use ⟨v, o⟩
  match base.body with
  | none => pure ()
  | some body => emit i (i.effect.equality term (← lambdaOf term.ty base.method body))

/-! ## Control flow -/

/-- Takes a branch by the recorded value of its condition. -/
def branch (name condition : String) : Action Unit := start name do
  let (i, _) ← select name "branch" fun | .branch => some () | _ => none
  let condition ← value condition
  let term ← termOf condition
  match ((← get).concrete.get? term).bind Description.bool? with
  | some taken => decide i (i.decision.equality term (Term.bool taken))
  | none => broken (.unknownCondition term.name i.text)

def jump (name : String) : Action Unit := start name do
  let (i, _) ← select name "jump" fun | .jump => some () | _ => none
  leaveBlock i
  trace i

/-- The key that a switch is taken by. -/
def switchKey (observed : Observed) : Result Int32 :=
  match observed.int? with
  | none => malformed (.switchKeyKind observed.debug)
  | some n =>
    if n.toInt32.toInt64 = n then .ok n.toInt32 else malformed (.switchKeyRange n.toInt)

def switch (name : String) (key : Operand) : Action Unit := start name do
  let (i, keys) ← select name "switch" fun | .switch keys => some keys | _ => none
  let key ← resolve key
  let term ← use key
  let n ← switchKey key.observed
  decide i <|
    if keys.contains n then i.decision.equality term (Term.int n)
    else i.decision.defaultSwitch term (keys.map Term.int)

def tableSwitch (name : String) (key : Operand) : Action Unit := start name do
  let (i, _) ← select name "table switch" fun | .tableSwitch _ _ => some () | _ => none
  let key ← resolve key
  let term ← use key
  let n ← switchKey key.observed
  decide i (i.decision.equality term (Term.int n))

/-- Merges control: the result is the value that comes in from the previous block. -/
def phi (result : Operand) : Action Unit := start result.name do
  let (i, incoming) ← select result.name "phi" fun | .phi incoming => some incoming | _ => none
  let previous := (← frame).previousBlock
  match incoming.find? (·.1 == previous) with
  | none => broken (.phiWithoutIncoming i.text previous)
  | some (_, v) =>
    let r ← resultOf i
    let term ← define ⟨r, result.observed⟩
    let source ← useUnseen v
    emit i (i.effect.equality term source)

/-! ## Exceptions and monitors -/

def throwing (name : String) (exception : Operand) : Action Unit := start name do
  let (i, _) ← select name "throw" fun | .throwing => some () | _ => none
  let exception ← resolve exception
  let term ← use exception
  modify fun t => { t with thrown := some term }
  emit i (i.effect.thrown term)

/-- The term of a caught exception: the thrown one if it was seen. -/
def caughtTerm (v : Value) : Action Term := do
  match (← get).thrown with
  | some term =>
    modify fun t => { t with thrown := none }
    assign v term
    pure term
  | none => bindFresh v

/-- Catches an exception in the innermost frame that handles it. -/
def caught (exception : Operand) : Action Unit := do
  flush
  match exception.observed.type? with
  | none => throw (.malformed (.nullException exception.name))
  | some type =>
    unwind type
    if ← isCollecting then
      let (i, _) ← select exception.name "catch" fun | .catching _ => some () | _ => none
      let r ← resultOf i
      let term ← caughtTerm r
      note term ⟨r, exception.observed⟩
      emit i (i.effect.caught term)

def enterMonitor (name : String) (operand : Operand) : Action Unit := start name do
  let (i, _) ← select name "monitor enter" fun | .enterMonitor => some () | _ => none
  let operand ← resolve operand
  emit i (i.effect.enterMonitor (← use operand))

def exitMonitor (name : String) (operand : Operand) : Action Unit := start name do
  let (i, _) ← select name "monitor exit" fun | .exitMonitor => some () | _ => none
  let operand ← resolve operand
  emit i (i.effect.exitMonitor (← use operand))

end Concolic.Tracer.Action
