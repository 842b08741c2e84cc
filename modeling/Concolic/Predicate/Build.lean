import Concolic.Predicate.Basic

/-!
# Construction of predicates

All predicates about one instruction share their role and location, the `Predicate.Context`.
Predicates about calls, stores and generated arrays check the kind of their operand; the others
cannot fail.
-/

namespace Concolic.Predicate

/-- Role and location of the predicates to come. -/
structure Context where
  role : Role
  location : Location

namespace Context

variable (c : Context)

def make (kind : PredicateKind) (operands : List Term) : Predicate :=
  { kind, role := c.role, location := c.location, operands }

def equality (left right : Term) : Predicate := c.make .equality [left, right]

def inequality (left right : Term) : Predicate := c.make .inequality [left, right]

def defaultSwitch (condition : Term) (keys : List Term) : Predicate :=
  c.make .defaultSwitch (condition :: keys)

/-- A call, with the term that receives its result if there is one. -/
def call (result : Option Term) (call : Term) : Result Predicate :=
  match call.kind with
  | .call _ => .ok (c.make (.call result.isSome) (result.toList ++ [call]))
  | _ => typeFault (.notCall call.name)

/-- A store through a reference. -/
def store (target value : Term) : Result Predicate :=
  match target.kind with
  | .arrayIndex => .ok (c.make .arrayStore [target, value])
  | .field _ => .ok (c.make .fieldStore [target, value])
  | _ => typeFault (.cannotStore target.name)

/-- A store into a fresh allocation. -/
def initializer (target value : Term) : Result Predicate :=
  match target.kind with
  | .arrayIndex => .ok (c.make .arrayInitializer [target, value])
  | .field _ => .ok (c.make .fieldInitializer [target, value])
  | _ => typeFault (.cannotInitialize target.name)

def newObject (result : Term) : Predicate := c.make .new [result]

def newArray (result : Term) (dimensions : List Term) : Predicate :=
  c.make .newArray (result :: dimensions)

def newInitializer (result : Term) : Predicate := c.make .newInitializer [result]

def newArrayInitializer (result length : Term) : Predicate :=
  c.make .newArrayInitializer [result, length]

def caught (throwable : Term) : Predicate := c.make .caught [throwable]

def thrown (throwable : Term) : Predicate := c.make .thrown [throwable]

def enterMonitor (monitor : Term) : Predicate := c.make .enterMonitor [monitor]

def exitMonitor (monitor : Term) : Predicate := c.make .exitMonitor [monitor]

def boundStore (pointer bound : Term) : Predicate := c.make .boundStore [pointer, bound]

def generateArray (result length generator : Term) : Result Predicate :=
  match generator.kind with
  | .lambda => .ok (c.make .generateArray [result, length, generator])
  | _ => typeFault (.generatorNotLambda generator.name)

end Context

end Concolic.Predicate
