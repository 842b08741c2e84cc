import Concolic.Tracer.Guard
import Concolic.Tracer.Step

/-!
# Running a tracer

`Tracer.deliver` hands one event to a tracer. A failure does not undo what the event changed. A
broken invariant aborts the tracer, and every later event fails.

`Tracer.replay` runs a recorded execution from the start: events that fail without breaking an
invariant are skipped, and the first broken invariant ends the run.
-/

namespace Concolic

/-- A failed event. -/
structure Failure where
  /-- What was being handled. -/
  task : String
  cause : Error
deriving DecidableEq

namespace Tracer

/-- How each event is handled. -/
def handle : Event → Action Unit
  | .methodEnter method _ args => .enter method args
  | .arrayLoad result array index => .arrayLoad result array index
  | .arrayStore name array index stored => .arrayStore name array index stored
  | .binary result left right => .binary result left right
  | .branch name condition => .branch name condition
  | .call name method result callee arguments observed =>
    .call name method result callee arguments observed
  | .cast result operand => .cast result operand
  | .caught exception => .caught exception
  | .compare result left right => .compare result left right
  | .enterMonitor name operand => .enterMonitor name operand
  | .exitMonitor name operand => .exitMonitor name operand
  | .fieldLoad result field owner observed => .fieldLoad result field owner observed
  | .fieldStore name field stored owner observed => .fieldStore name field stored owner observed
  | .instanceOf result operand => .instanceOf result operand
  | .invokeDynamic result operands observed => .invokeDynamic result operands observed
  | .jump name => .jump name
  | .newArray result dimensions observed => .newArray result dimensions observed
  | .new result => .newObject result
  | .phi result => .phi result
  | .ret name result observed => .ret name result observed
  | .switch name key => .switch name key
  | .tableSwitch name key => .tableSwitch name key
  | .throwing name exception => .throwing name exception
  | .unary result operand => .unary result operand
  | .guardNull name checked => .guardNull name checked
  | .guardType name checked => .guardType name checked
  | .guardExpectedType name checked ty => .guardExpectedType name checked ty
  | .guardIndex name array index => .guardIndex name array index
  | .guardLength name length => .guardLength name length

/-- Hands an event to a tracer. -/
def deliver (t : Tracer) (e : Event) : Except Failure Unit × Tracer :=
  if t.aborted then (.error ⟨e.task, .aborted⟩, t)
  else
    match handle e t with
    | .ok _ t => (.ok (), t)
    | .error cause t => (.error ⟨e.task, cause⟩, { t with aborted := cause.isFatal })

/-- The tracer after all events, whatever became of them. -/
def run (t : Tracer) (es : List Event) : Tracer := es.foldl (fun t e => (t.deliver e).2) t

/-- Hands events to a tracer until one breaks an invariant. -/
def runUntilFatal : Tracer → List Event → Except Failure Tracer
  | t, [] => .ok t
  | t, e :: es =>
    match t.deliver e with
    | (.ok _, t) => runUntilFatal t es
    | (.error failure, t) =>
      if failure.cause.isFatal then .error failure else runUntilFatal t es

/-- The summary of a recorded execution. -/
def replay (program : Program) (config : Config) (es : List Event) : Except Failure Summary := do
  .ok (← runUntilFatal (new program config .virtual) es).summary

end Tracer

end Concolic
