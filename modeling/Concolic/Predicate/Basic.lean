import Concolic.Term.Traversal

/-!
# Predicates

A predicate states one fact about terms: the effect of an instruction, or a decision that an
execution took. Its role says which of the two it is, or that an analysis put it there. Its kind
says what it states, and the operands are the terms it states it about; their layout stands beside
each kind.

Two predicates are the same (`==`) if they state the same fact in the same role, wherever they come
from: the location does not count.
-/

namespace Concolic

inductive Role where
  /-- The effect of an executed instruction. -/
  | state
  /-- A decision taken by the execution. -/
  | path
  /-- Assumed by an analysis. -/
  | assumption
  /-- True of every execution. -/
  | fact
  /-- To be proven. -/
  | requirement
deriving DecidableEq

namespace Role

def all : List Role := [.state, .path, .assumption, .fact, .requirement]

def name : Role → String
  | .state => "State"
  | .path => "Path"
  | .assumption => "Assume"
  | .fact => "Axiom"
  | .requirement => "Require"

/-- The mark in front of a predicate's text. -/
def mark : Role → String
  | .state => "@S"
  | .path => "@P"
  | .assumption => "@A"
  | .fact => "@X"
  | .requirement => "@R"

def ofName? (s : String) : Option Role := all.find? (·.name == s)

@[simp] theorem ofName?_name (role : Role) : ofName? role.name = some role := by
  cases role <;> decide

end Role

inductive PredicateKind where
  /-- `[left, right]` -/
  | equality
  /-- `[left, right]` -/
  | inequality
  /-- `[condition, keys..]`, the condition is none of the keys. -/
  | defaultSwitch
  /-- `[result?, call]` -/
  | call (hasResult : Bool)
  /-- `[element reference, value]` -/
  | arrayStore
  /-- `[field reference, value]` -/
  | fieldStore
  /-- `[element reference, value]`, into a fresh array. -/
  | arrayInitializer
  /-- `[field reference, value]`, into a fresh object. -/
  | fieldInitializer
  /-- `[result]`, an object of the type of the result. -/
  | new
  /-- `[result, dimensions..]` -/
  | newArray
  /-- `[result]`, the fields follow as initializers. -/
  | newInitializer
  /-- `[result, length]`, the elements follow as initializers. -/
  | newArrayInitializer
  /-- `[throwable]` -/
  | caught
  /-- `[throwable]` -/
  | thrown
  /-- `[monitor]` -/
  | enterMonitor
  /-- `[monitor]` -/
  | exitMonitor
  /-- `[pointer, bound]` -/
  | boundStore
  /-- `[result, length, generator]`, the elements come from a lambda. -/
  | generateArray
deriving DecidableEq

/-- The word for the kind. -/
def PredicateKind.name : PredicateKind → String
  | .equality => "equality"
  | .inequality => "inequality"
  | .defaultSwitch => "default_switch"
  | .call _ => "call"
  | .arrayStore => "array_store"
  | .fieldStore => "field_store"
  | .arrayInitializer => "array_initializer"
  | .fieldInitializer => "field_initializer"
  | .new => "new"
  | .newArray => "new_array"
  | .newInitializer => "new_initializer"
  | .newArrayInitializer => "new_array_initializer"
  | .caught => "catch"
  | .thrown => "throw"
  | .enterMonitor => "enter_monitor"
  | .exitMonitor => "exit_monitor"
  | .boundStore => "bound_store"
  | .generateArray => "generate_array"

structure Predicate where
  kind : PredicateKind
  role : Role
  /-- Where the instruction stands that the predicate describes. -/
  location : Location
  operands : List Term

namespace Predicate

/-- The predicates state the same fact in the same role. -/
def same (p q : Predicate) : Bool :=
  p.kind == q.kind && p.role == q.role && p.operands == q.operands

instance : BEq Predicate := ⟨same⟩

theorem beq_def (p q : Predicate) : (p == q) = p.same q := rfl

/-- The first operand, which assignments bind; a call without a result binds nothing. -/
def left? (p : Predicate) : Option Term :=
  match p.kind with
  | .call false => none
  | _ => p.operands.head?

/-- The last operand, which assignments and stores assign. -/
def right? (p : Predicate) : Option Term := p.operands.getLast?

def withRole (p : Predicate) (role : Role) : Predicate := { p with role }

/-- What the predicate states, without the mark of its role. -/
def statement (p : Predicate) : String :=
  let op (i : Nat) : String := (p.operands[i]?.map Term.name).getD "?"
  let others := String.intercalate ", " ((p.operands.drop 1).map Term.name)
  let type := (p.operands.head?.map (·.ty.text)).getD "?"
  let element := ((p.operands.head?.bind (·.ty.element?)).map Ty.text).getD "?"
  match p.kind with
  | .equality | .call true => op 0 ++ " = " ++ op 1
  | .inequality => op 0 ++ " != " ++ op 1
  | .defaultSwitch => op 0 ++ " !in (" ++ others ++ ")"
  | .call false => op 0
  | .arrayStore | .fieldStore => "*(" ++ op 0 ++ ") = " ++ op 1
  | .arrayInitializer | .fieldInitializer => "*(" ++ op 0 ++ ") := " ++ op 1
  | .new | .newInitializer => op 0 ++ " = new " ++ type
  | .newArray => op 0 ++ " = new " ++ element ++ "[" ++ others ++ "]"
  | .newArrayInitializer => op 0 ++ " = new [" ++ op 1 ++ "]"
  | .caught => "catch " ++ op 0
  | .thrown => "throw " ++ op 0
  | .enterMonitor => "enterMonitor " ++ op 0
  | .exitMonitor => "exitMonitor " ++ op 0
  | .boundStore => "bound(" ++ op 0 ++ ") = " ++ op 1
  | .generateArray => op 0 ++ " = generate(" ++ op 1 ++ ", " ++ op 2 ++ ")"

def text (p : Predicate) : String := p.role.mark ++ " " ++ p.statement

/-- The opposite decision. An equality with a truth value gets the other truth value; any other
equality becomes an inequality, and an inequality an equality. -/
def inverse (p : Predicate) : Result Predicate :=
  match p.kind, p.operands with
  | .equality, [left, right] =>
    match right.bool? with
    | some b => .ok { p with operands := [left, Term.bool !b] }
    | none => .ok { p with kind := .inequality }
  | .inequality, [_, _] => .ok { p with kind := .equality }
  | _, _ => typeFault (.noInverse p.text p.kind.name)

end Predicate

/-- Visits the operands of a predicate; it stays as it is if none changed. -/
def Traversal.predicate {σ : Type} (r : Traversal σ) (p : Predicate) : Walk σ Predicate := do
  let operands ← r.terms p.operands
  if operands == p.operands then pure p else pure { p with operands }

end Concolic
