import Concolic.Error
import Concolic.Hierarchy.Subtype

/-!
# Merging types

The type of a value that comes from one of several places. Pointer types merge to one of them that
is above all others, or to a common superclass; primitives widen as arithmetic does; `null` fits
every type and counts only if nothing else is there.
-/

namespace Concolic.Hierarchy

/-- The item with the largest key; of several the last. -/
def lastMax {α : Type} (key : α → Nat) : α → List α → α
  | best, [] => best
  | best, a :: rest => lastMax key (if key best ≤ key a then a else best) rest

/-- The merged type of different primitives. The unsigned `char` and a signed narrow type have no
common narrow type. -/
def mergePrimitives (t : Ty) (rest : List Ty) : Ty :=
  let types := t :: rest
  if types.contains .double then .double
  else if types.contains .float then .float
  else if types.contains .long then .long
  else if types.contains .char && (types.contains .byte || types.contains .short) then .int
  else lastMax (fun t => t.bits?.getD 0) t rest

/-- The merged type of different pointer types. -/
def mergePointers (h : Hierarchy) (t : Ty) (rest : List Ty) : Ty :=
  match (t :: rest).find? fun u => (t :: rest).all (h.isSubtype · u) with
  | some u => u
  | none => rest.foldl h.commonSupertype t

/-- A type that holds no value of a program. -/
def isNonValue : Ty → Bool
  | .void | .reference _ => true
  | _ => false

def merge (h : Hierarchy) (types : List Ty) : Result Ty :=
  match (types.filter (· != .null)).eraseDups with
  | [] => .ok .null
  | [t] => .ok t
  | t :: rest =>
    if (t :: rest).any isNonValue then typeFault (.mergeNonValues (t :: rest))
    else if (t :: rest).all Ty.isPointer then .ok (h.mergePointers t rest)
    else if (t :: rest).all Ty.isPrimitive then .ok (mergePrimitives t rest)
    else typeFault (.mergeMixed (t :: rest))

end Concolic.Hierarchy
