import Concolic.Program
import Concolic.Summary.Basic

/-!
# Records of summaries

A `Record` is a summary in a form that can be stored: instructions are replaced by the key of their
method and their name, and the maps by lists in the order of the names of their terms.
`Record.restore` finds the instructions again in a program.
-/

namespace Concolic

/-- An instruction by the key of its method and its name. -/
structure InstructionRef where
  method : String
  name : String
deriving DecidableEq

namespace InstructionRef

def of (i : Instruction) : InstructionRef := ⟨i.method.key, i.name⟩

/-- The instruction that the reference is to. -/
def resolve (program : Program) (r : InstructionRef) : Result Instruction := do
  match program.method? r.method with
  | none => .error (.methodNotFound r.method)
  | some m => (← program.body m).instruction r.name

end InstructionRef

structure ClauseRecord where
  instruction : InstructionRef
  /-- The check of a path clause. -/
  check : Option Check
  predicate : Predicate

namespace ClauseRecord

def ofPath (c : PathClause) : ClauseRecord where
  instruction := .of c.instruction
  check := some c.check
  predicate := c.predicate

def of : Clause → ClauseRecord
  | .state i p => { instruction := .of i, check := none, predicate := p }
  | .path c => ofPath c

def restore (program : Program) (r : ClauseRecord) : Result Clause := do
  let instruction ← r.instruction.resolve program
  match r.check with
  | some check => .ok (.path { check, instruction, predicate := r.predicate })
  | none => .ok (.state instruction r.predicate)

/-- A record of the path must have a check. -/
def restorePath (program : Program) (r : ClauseRecord) : Result PathClause := do
  match r.check with
  | none => malformed (.untypedPathEntry r.instruction.name)
  | some check =>
    let instruction ← r.instruction.resolve program
    .ok { check, instruction, predicate := r.predicate }

end ClauseRecord

structure OriginRecord where
  term : Term
  method : Method
  value : Value

structure Record where
  clauses : List ClauseRecord
  path : List ClauseRecord
  concrete : List (Term × Description)
  origins : List OriginRecord

namespace Record

def size (r : Record) : Nat := r.clauses.length

def isEmpty (r : Record) : Bool := r.clauses.isEmpty

/-- Entries in the order of the names of their terms; entries with one name stay as they were. -/
def byName {β : Type} (es : List (Term × β)) : List (Term × β) :=
  es.mergeSort fun d e => !(e.1.name < d.1.name)

def ofSummary (s : Summary) : Record where
  clauses := s.clauses.map .of
  path := s.path.map .ofPath
  concrete := byName s.concrete.entries
  origins := (byName s.origins.entries).map fun (term, o) =>
    { term, method := o.method, value := o.value }

/-- The origin that a record states, with the method as the program has it. -/
def restoreOrigin (program : Program) (r : OriginRecord) : Term × Origin :=
  (r.term, ⟨(program.method? r.method.key).getD r.method, r.value⟩)

/-- The summary of a record, in which all instructions are those of the program. -/
def restore (program : Program) (r : Record) : Result Summary := do
  let clauses ← r.clauses.mapM (·.restore program)
  let path ← r.path.mapM (·.restorePath program)
  .ok { clauses, path
        concrete := .ofList r.concrete
        origins := .ofList (r.origins.map (restoreOrigin program)) }

end Record

end Concolic
