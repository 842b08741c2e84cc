import Concolic.Body.Instruction
import Concolic.Predicate.Basic

/-!
# Clauses

A clause ties a predicate to the instruction it comes from. A path clause states a decision of the
execution, and its check says what was decided; every other clause states an effect.
-/

namespace Concolic

/-- What a path clause decides. -/
inductive Check where
  | null
  | type
  | overload
  | condition
  | bounds
deriving DecidableEq

namespace Check

def all : List Check := [.null, .type, .overload, .condition, .bounds]

def name : Check → String
  | .null => "NullCheck"
  | .type => "TypeCheck"
  | .overload => "OverloadCheck"
  | .condition => "ConditionCheck"
  | .bounds => "BoundsCheck"

/-- The mark behind a path clause's text. -/
def mark : Check → String
  | .null => "NULL_CHECK"
  | .type => "TYPE_CHECK"
  | .overload => "OVERLOAD_CHECK"
  | .condition => "CONDITION_CHECK"
  | .bounds => "BOUNDS_CHECK"

def ofName? (s : String) : Option Check := all.find? (·.name == s)

@[simp] theorem ofName?_name (check : Check) : ofName? check.name = some check := by
  cases check <;> decide

end Check

structure PathClause where
  check : Check
  instruction : Instruction
  predicate : Predicate

namespace PathClause

instance : BEq PathClause where
  beq c d := c.check == d.check && c.instruction == d.instruction && c.predicate == d.predicate

def text (c : PathClause) : String := c.predicate.text ++ " [" ++ c.check.mark ++ "]"

end PathClause

inductive Clause where
  | state (instruction : Instruction) (predicate : Predicate)
  | path (clause : PathClause)

namespace Clause

def instruction : Clause → Instruction
  | .state i _ => i
  | .path c => c.instruction

def predicate : Clause → Predicate
  | .state _ p => p
  | .path c => c.predicate

/-- The path clause, if the clause is one. -/
def path? : Clause → Option PathClause
  | .state _ _ => none
  | .path c => some c

def isPath (c : Clause) : Bool := c.path?.isSome

/-- The clause with another predicate. -/
def withPredicate (c : Clause) (p : Predicate) : Clause :=
  match c with
  | .state i _ => .state i p
  | .path c => .path { c with predicate := p }

def text : Clause → String
  | .state _ p => p.text
  | .path c => c.text

instance : BEq Clause where
  beq
    | .state i p, .state j q => i == j && p == q
    | .path c, .path d => c == d
    | _, _ => false

end Clause

end Concolic
