import Concolic.Constant
import Concolic.Method

/-!
# Values and locations

A `Value` is what an instruction of a body uses or produces: the receiver, an argument, a literal or
the result of an instruction. A `Location` is a place in a source file.
-/

namespace Concolic

inductive Value where
  | receiver (ty : Ty)
  | argument (index : Nat) (ty : Ty)
  | constant (c : Constant)
  | result (name : String) (ty : Ty)
deriving DecidableEq

namespace Value

def ty : Value → Ty
  | .receiver t | .argument _ t | .result _ t => t
  | .constant c => c.ty

def isReceiver : Value → Bool
  | .receiver _ => true
  | _ => false

def isConstant : Value → Bool
  | .constant _ => true
  | _ => false

/-- The name of an argument. -/
def argumentName (index : Nat) : String := "arg$" ++ toString index

def text : Value → String
  | .receiver _ => "this"
  | .argument index _ => argumentName index
  | .constant c => c.text
  | .result name _ => name

end Value

/-- The receiver of a method, if it has one, and its arguments in order. -/
def Method.parameters (m : Method) : Option Value × List Value :=
  (m.receiver?.map .receiver, m.signature.args.mapIdx fun i t => .argument i t)

/-- A line of a file; line 0 without a file is unknown. -/
structure Location where
  file : Option String
  line : UInt32
deriving DecidableEq

namespace Location

def unknown : Location := ⟨none, 0⟩

def isUnknown (l : Location) : Bool := l.file.isNone && l.line == 0

def text (l : Location) : String :=
  match l.file with
  | some file => file ++ ":" ++ toString l.line.toNat
  | none => if l.line == 0 then "unknown" else "line " ++ toString l.line.toNat

end Location

end Concolic
