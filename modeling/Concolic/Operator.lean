/-!
# Operators

The arithmetic, comparison and unary operators of instructions and terms. Each has a `name`, by
which documents refer to it, and a `symbol`, which terms show.
-/

namespace Concolic

inductive BinaryOp where
  | add | sub | mul | div | rem | shl | shr | ushr | and | or | xor
deriving DecidableEq

namespace BinaryOp

def all : List BinaryOp := [.add, .sub, .mul, .div, .rem, .shl, .shr, .ushr, .and, .or, .xor]

def name : BinaryOp → String
  | .add => "Add" | .sub => "Sub" | .mul => "Mul" | .div => "Div" | .rem => "Rem"
  | .shl => "Shl" | .shr => "Shr" | .ushr => "Ushr" | .and => "And" | .or => "Or" | .xor => "Xor"

def symbol : BinaryOp → String
  | .add => "+" | .sub => "-" | .mul => "*" | .div => "/" | .rem => "%"
  | .shl => "<<" | .shr => ">>" | .ushr => ">>>" | .and => "&" | .or => "|" | .xor => "^"

def ofName? (s : String) : Option BinaryOp := all.find? (·.name == s)

@[simp] theorem ofName?_name (op : BinaryOp) : ofName? op.name = some op := by
  cases op <;> decide

end BinaryOp

inductive CompareOp where
  | eq | neq | lt | gt | le | ge | cmp | cmpg | cmpl
deriving DecidableEq

namespace CompareOp

def all : List CompareOp := [.eq, .neq, .lt, .gt, .le, .ge, .cmp, .cmpg, .cmpl]

def name : CompareOp → String
  | .eq => "Eq" | .neq => "Neq" | .lt => "Lt" | .gt => "Gt" | .le => "Le" | .ge => "Ge"
  | .cmp => "Cmp" | .cmpg => "Cmpg" | .cmpl => "Cmpl"

def symbol : CompareOp → String
  | .eq => "==" | .neq => "!=" | .lt => "<" | .gt => ">" | .le => "<=" | .ge => ">="
  | .cmp => "cmp" | .cmpg => "cmpg" | .cmpl => "cmpl"

def ofName? (s : String) : Option CompareOp := all.find? (·.name == s)

@[simp] theorem ofName?_name (op : CompareOp) : ofName? op.name = some op := by
  cases op <;> decide

/-- The operator yields an order (`-1`, `0`, `1`) and not a truth value. -/
def isThreeWay : CompareOp → Bool
  | .cmp | .cmpg | .cmpl => true
  | _ => false

/-- The operators that references support. -/
def isEquality : CompareOp → Bool
  | .eq | .neq => true
  | _ => false

/-- The operator that holds exactly when this one does not. -/
def negated? : CompareOp → Option CompareOp
  | .eq => some .neq
  | .neq => some .eq
  | .lt => some .ge
  | .ge => some .lt
  | .gt => some .le
  | .le => some .gt
  | _ => none

end CompareOp

inductive UnaryOp where
  | neg | length
deriving DecidableEq

namespace UnaryOp

def all : List UnaryOp := [.neg, .length]

def name : UnaryOp → String
  | .neg => "Neg" | .length => "Length"

def symbol : UnaryOp → String
  | .neg => "-" | .length => "length"

def ofName? (s : String) : Option UnaryOp := all.find? (·.name == s)

@[simp] theorem ofName?_name (op : UnaryOp) : ofName? op.name = some op := by
  cases op <;> decide

end UnaryOp

end Concolic
