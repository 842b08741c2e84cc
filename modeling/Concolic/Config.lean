/-!
# Configuration

The bounds of a tracer: the array length up to which length guards count an allocation as
reasonable, and how much of an observed object graph is kept.
-/

namespace Concolic

/-- How much of an object graph a description keeps. -/
structure Limits where
  depth : Nat
  arrayLength : Nat
deriving DecidableEq

structure Config where
  maxArrayLength : Int32
  limits : Limits
deriving DecidableEq

namespace Config

def standard : Config := ⟨10000, ⟨10, 1000⟩⟩

/-- Small descriptions, for very large object graphs. -/
def shallow : Config := { standard with limits := ⟨2, 64⟩ }

/-- Near complete descriptions. -/
def deep : Config := { standard with limits := ⟨32, 100000⟩ }

end Config

end Concolic
