import Concolic.Predicate.Build
import Concolic.Tracer.Basic
import Concolic.Tracer.Event

/-!
# Actions on a tracer

An `Action` reads and changes a tracer and may fail; what it changed before it failed stays changed.
The actions here are the parts that the handling of events is made of:

* `start` decides whether an event counts or is suppressed,
* `select`, `resultOf` and `resolve` look up what the event names,
* `define`, `use` and their variants bind values to terms and record what was observed of them,
* `emit` and `decide` add clauses,
* `unwind` looks for the frame that handles an exception.
-/

namespace Concolic

/-- Role and location of what an instruction does. -/
def Instruction.effect (i : Instruction) : Predicate.Context := ⟨.state, i.location⟩

/-- Role and location of what an instruction decides. -/
def Instruction.decision (i : Instruction) : Predicate.Context := ⟨.path, i.location⟩

/-- A value of the active method with what was observed of it. -/
structure Sighting where
  value : Value
  observed : Observed

namespace Tracer

/-- A step of a tracer that may fail. -/
abbrev Action := EStateM Error Tracer

instance : MonadLift Result Action where
  monadLift r := fun t =>
    match r with
    | .ok a => .ok a t
    | .error e => .error e t

/-- The instruction of a name in the active method. -/
def instruction? (t : Tracer) (name : String) : Option Instruction := do
  let f ← t.frames.head?
  let b ← (t.program.body f.method).toOption
  b.instruction? name

namespace Action

/-- Fails with a broken invariant. -/
def broken {α : Type} (cause : Broken) : Action α := throw (.broken cause)

/-! ## Pending and suppressed calls -/

/-- Turns a pending call into a clause. -/
def flush : Action Unit :=
  modify fun t => { t with clauses := t.clauses ++ t.pendingClauses, pending := none }

/-- Follows a suppressed execution: the call may be made again, control may be back after it, or a
method may return. -/
def follow (name : String) : Action Unit := do
  let t ← get
  match t.callTrace, t.instruction? name with
  | top :: rest, some current =>
    if current == top.call then set { t with callTrace := top :: top :: rest }
    else if current == top.next then set { t with callTrace := rest }
    else if current.isReturn then
      match t.frames with
      | [] => broken (.returnWithoutFrame current.text)
      | f :: fs =>
        if f.method = current.method then set { t with frames := fs }
        else broken (.foreignReturn current.text f.method.key)
  | _, _ => pure ()

/-- Whether events count. -/
def isCollecting : Action Bool := return (← get).callTrace.isEmpty

/-- Runs an action for an instruction unless it is suppressed. -/
def start (name : String) (act : Action Unit) : Action Unit := do
  follow name
  flush
  if ← isCollecting then act

/-! ## Names -/

/-- The active frame. -/
def frame : Action Frame := do
  match (← get).frames with
  | f :: _ => pure f
  | [] => broken .noFrame

def modifyFrame (change : Frame → Frame) : Action Unit := do
  match (← get).frames with
  | f :: fs => modify fun t => { t with frames := change f :: fs }
  | [] => broken .noFrame

/-- The body of the active method. -/
def body : Action Body := do
  let f ← frame
  (← get).program.body f.method

def value (name : String) : Action Value := do (← body).value name

def values (names : List String) : Action (List Value) := names.mapM value

/-- The value of a name that may be missing. -/
def value? : Option String → Action (Option Value)
  | some name => return some (← value name)
  | none => pure none

def resolve (o : Operand) : Action Sighting := return ⟨← value o.name, o.observed⟩

/-- The instruction of a name together with what its kind carries; the kind must be the expected
one. -/
def select {α : Type} (name expected : String) (accept : InstKind → Option α) :
    Action (Instruction × α) := do
  let i ← (← body).instruction name
  match accept i.kind with
  | some a => pure (i, a)
  | none => throw (.unexpectedInstruction name expected)

/-- The instruction of a name, of any kind. -/
def anyInstruction (name : String) : Action Instruction := do (← body).instruction name

/-- The value that an instruction produces. -/
def resultOf (i : Instruction) : Action Value :=
  match i.result with
  | some v => pure v
  | none => throw (.malformed (.noResult i.text))

/-! ## Terms -/

/-- A name that was not used before: the given one with a number. -/
def freshName (name : String) : Action String := do
  let n := ((← get).names.get? name).getD 0
  modify fun t => { t with names := t.names.insert name (n + 1) }
  pure (name ++ "_" ++ toString n)

def freshTerm : Value → Action Term
  | .receiver ty => pure (Term.receiver ty)
  | .argument index ty => pure (Term.argument ty index)
  | .constant c => pure (Term.constant c)
  | .result name ty => return Term.value ty (← freshName name)

/-- Binds a value to a term in the active frame. -/
def assign (v : Value) (t : Term) : Action Unit :=
  modifyFrame fun f => { f with values := f.values.insert v t }

/-- Binds a value to a fresh term. -/
def bindFresh (v : Value) : Action Term := do
  let t ← freshTerm v
  assign v t
  pure t

/-- The term of a value, a fresh one if it has none. -/
def termOf (v : Value) : Action Term := do
  match (← frame).values.get? v with
  | some t => pure t
  | none => bindFresh v

/-- Records the origin of a term, unless one is known. -/
def noteOrigin (t : Term) (method : Method) (v : Value) : Action Unit :=
  modify fun s => { s with origins := s.origins.insertNew t ⟨method, v⟩ }

/-- Records the concrete value of a term, unless one is known. -/
def noteConcrete (t : Term) (observed : Observed) : Action Unit :=
  modify fun s =>
    { s with concrete := s.concrete.insertNew t (observed.describeAs s.config.limits t.ty) }

/-- Records a term as a value of the active method. -/
def noteHere (t : Term) (v : Value) : Action Unit := do noteOrigin t (← frame).method v

/-- Records a term as a value of the active method with what was observed of it. -/
def note (t : Term) (s : Sighting) : Action Unit := do
  noteHere t s.value
  noteConcrete t s.observed

/-- Binds a result to a fresh term and records it. -/
def define (s : Sighting) : Action Term := do
  let t ← bindFresh s.value
  note t s
  pure t

/-- Binds a result of which nothing was observed to a fresh term. -/
def defineUnseen (v : Value) : Action Term := do
  let t ← bindFresh v
  noteHere t v
  pure t

/-- The term of an operand, recorded. -/
def use (s : Sighting) : Action Term := do
  let t ← termOf s.value
  note t s
  pure t

/-- The term of an operand of which nothing was observed. -/
def useUnseen (v : Value) : Action Term := do
  let t ← termOf v
  noteHere t v
  pure t

/-- The terms of operands; those beyond the observed ones are not recorded. -/
def useAll : List Value → List Observed → Action (List Term)
  | [], _ => pure []
  | v :: vs, [] => return (← termOf v) :: (← useAll vs [])
  | v :: vs, o :: os => return (← use ⟨v, o⟩) :: (← useAll vs os)

/-! ## Clauses -/

/-- Notes the handlers around an instruction, with the bindings that they start from. -/
def refreshHandlers (i : Instruction) : Action Unit := do
  let b ← (← get).program.body i.method
  match b.block? i.block with
  | none => broken (.noBlock i.text)
  | some block => modifyFrame (·.refreshed block.handlers)

/-- Adds an instruction to the trace. -/
def trace (i : Instruction) : Action Unit := do
  modify fun t => { t with trace := t.trace ++ [i] }
  refreshHandlers i

def addClause (c : Clause) : Action Unit := modify fun t => { t with clauses := t.clauses ++ [c] }

def addPath (c : PathClause) : Action Unit := modify fun t => { t with path := t.path ++ [c] }

/-- Adds the effect of a traced instruction. -/
def emit (i : Instruction) (p : Predicate) : Action Unit := do
  addClause (.state i p)
  trace i

/-- Control leaves the block of an instruction. -/
def leaveBlock (i : Instruction) : Action Unit :=
  modifyFrame fun f => { f with previousBlock := i.block }

/-- Adds the decision of a traced instruction that ends its block. -/
def decide (i : Instruction) (p : Predicate) : Action Unit := do
  leaveBlock i
  let c : PathClause := { check := .condition, instruction := i, predicate := p }
  addPath c
  addClause (.path c)
  trace i

/-! ## Exceptions -/

/-- The handler of a frame for an exception: among those that match, one that all others generalize.
-/
def handler? (h : Hierarchy) (f : Frame) (thrown : Ty) : Option Ty :=
  let candidates := f.catches.keys.filter fun handler => h.isSubtype thrown handler
  candidates.find? fun c => candidates.all fun other => h.isSubtype c other

/-- The calls that are left after a frame has handled an exception or was removed by it. -/
def callsAfter (t : Tracer) (f : Frame) : List CallSite → List CallSite
  | [] => []
  | top :: rest =>
    if t.dispatch t.program.hierarchy f.method top.call.method then rest else top :: rest

/-- The frames and calls that are left when an exception is handled, if a frame handles it. -/
def unwound (t : Tracer) (thrown : Ty) : List Frame → List CallSite → List Frame × List CallSite
  | [], calls => ([], calls)
  | f :: fs, calls =>
    let calls := callsAfter t f calls
    match handler? t.program.hierarchy f thrown with
    | some handler => (f.restored handler :: fs, calls)
    | none => unwound t thrown fs calls

/-- Removes frames until one handles the exception; its handler starts from the bindings noted for
it. -/
def unwind (thrown : Ty) : Action Unit := do
  modify fun t =>
    let (frames, callTrace) := unwound t thrown t.frames t.callTrace
    { t with frames, callTrace }
  if (← get).frames.isEmpty then broken (.uncaught thrown)

end Action

end Tracer

end Concolic
