import Concolic.Description.Describe
import Concolic.Dispatch
import Concolic.Program
import Concolic.Summary.Basic

/-!
# The tracer

A `Tracer` follows one execution event by event and builds its summary. It keeps a stack of frames,
one for each method that is being executed, and each frame binds the values of its method to terms.

A call is *pending* until the next event tells what became of it. If that event enters a method that
can be the target, the call is inlined: the parameters are bound to the terms of the caller.
Otherwise the call itself becomes a clause. If a method was entered that is not the target, events
are *suppressed* until the execution is back at the instruction after the call; the call sites to
come back to are the call trace.
-/

namespace Concolic

/-- The terms that the values of a method are bound to. -/
abbrev Bindings := Table Value Term

structure Frame where
  method : Method
  values : Bindings
  /-- The value and the term of the caller that receive the result. -/
  receiver : Option (Value × Term)
  /-- The exception types handled around the last instruction, each with the bindings that its
  handler starts from. -/
  catches : Table Ty Bindings
  /-- The block that control came from. -/
  previousBlock : Nat

namespace Frame

/-- The frame of a method that is entered. -/
def enter (method : Method) (receiver : Option (Value × Term)) : Frame where
  method
  values := ∅
  receiver
  catches := ∅
  previousBlock := 0

/-- Forgets what was noted for handlers, and notes the bindings of the frame for each of the given
ones. -/
def refreshed (f : Frame) (handlers : List Ty) : Frame :=
  { f with catches := handlers.foldl (fun catches ty => catches.insert ty f.values) ∅ }

/-- The frame where one of its handlers starts. -/
def restored (f : Frame) (handler : Ty) : Frame :=
  { f with values := (f.catches.get? handler).getD f.values }

end Frame

/-- A call instruction and the instruction after it. -/
structure CallSite where
  call : Instruction
  next : Instruction

/-- A call that was made and not yet answered. -/
structure PendingCall where
  instruction : Instruction
  method : Method
  /-- The value and the term that receive the result. -/
  receiver : Option (Value × Term)
  /-- The term of the object that the method is called on. -/
  callee : Option Term
  arguments : List Term
  predicate : Predicate

/-- What the tracer is doing. -/
inductive Phase where
  | idle
  | pendingCall
  | suppressed
deriving DecidableEq

namespace Phase

def text : Phase → String
  | .idle => "idle"
  | .pendingCall => "pending call"
  | .suppressed => "suppressed"

def debug : Phase → String
  | .idle => "Idle"
  | .pendingCall => "PendingCall"
  | .suppressed => "Suppressed"

end Phase

structure Tracer where
  program : Program
  dispatch : Dispatch
  config : Config
  clauses : List Clause
  path : List PathClause
  /-- The instructions that were traced. -/
  trace : List Instruction
  concrete : Table Term Description
  origins : Table Term Origin
  /-- The terms known or guarded not to be null. -/
  nullChecked : List Term
  /-- The type last checked for each term. -/
  typeChecked : Table Term Ty
  /-- The arrays and indices with a bounds guard. -/
  indexChecked : List (Term × Term)
  /-- The terms with length guards. -/
  lengthChecked : List Term
  /-- The frames, the innermost first. -/
  frames : List Frame
  /-- How many terms were made for each name. -/
  names : Table String Nat
  pending : Option PendingCall
  /-- The calls to come back to, the latest first. -/
  callTrace : List CallSite
  /-- The term of the exception last thrown and not yet caught. -/
  thrown : Option Term
  aborted : Bool

namespace Tracer

/-- A tracer before the first event. -/
def new (program : Program) (config : Config) (dispatch : Dispatch) : Tracer where
  program
  dispatch
  config
  clauses := []
  path := []
  trace := []
  concrete := ∅
  origins := ∅
  nullChecked := []
  typeChecked := ∅
  indexChecked := []
  lengthChecked := []
  frames := []
  names := ∅
  pending := none
  callTrace := []
  thrown := none
  aborted := false

variable (t : Tracer)

def phase : Phase :=
  if t.pending.isSome then .pendingCall
  else if t.callTrace.isEmpty then .idle
  else .suppressed

def depth : Nat := t.frames.length

/-- The clause of a pending call. -/
def pendingClauses : List Clause :=
  match t.pending with
  | some call => [.state call.instruction call.predicate]
  | none => []

/-- What is known of the execution so far; a pending call counts as made. -/
def summary : Summary where
  clauses := t.clauses ++ t.pendingClauses
  path := t.path
  concrete := t.concrete
  origins := t.origins

/-- The tracer in one line. -/
def debug : String :=
  "SymbolicTraceBuilder \x7b phase: " ++ t.phase.debug ++ ", depth: " ++ toString t.depth ++
    ", clauses: " ++ toString t.clauses.length ++ ", path: " ++ toString t.path.length ++
    ", aborted: " ++ boolText t.aborted ++ ", .. \x7d"

end Tracer

end Concolic
