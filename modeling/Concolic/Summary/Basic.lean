import Concolic.Clause
import Concolic.Description.Basic

/-!
# Summaries

A `Summary` describes an execution symbolically: all clauses in order, the path (the decisions
alone), and for each term the concrete value it had and where it comes from. Summaries of
consecutive stretches of one execution can be joined, and a summary can be cut to a range of its
clauses.
-/

namespace Concolic

/-- The value of a method that a term stands for. -/
structure Origin where
  method : Method
  value : Value
deriving DecidableEq

def Origin.text (o : Origin) : String := o.value.text ++ " in " ++ o.method.key

structure Summary where
  clauses : List Clause
  path : List PathClause
  concrete : Table Term Description
  origins : Table Term Origin

namespace Summary

def empty : Summary := ⟨[], [], ∅, ∅⟩

instance : EmptyCollection Summary := ⟨empty⟩

variable (s : Summary)

def isEmpty : Bool := s.clauses.isEmpty && s.path.isEmpty

def predicates : List Predicate := s.clauses.map Clause.predicate

/-- The summary of an execution followed by another one; what the later one knows of a term counts.
-/
def join (later : Summary) : Summary where
  clauses := s.clauses ++ later.clauses
  path := s.path ++ later.path
  concrete := later.concrete.union s.concrete
  origins := later.origins.union s.origins

/-- The elements from `start` up to `stop`; positions beyond the end stand for the end. -/
def slice {α : Type} (start stop : Nat) (xs : List α) : List α := (xs.take stop).drop start

/-- The summary with a range of the clauses, and with the decisions among them as its path. -/
def cut (start stop : Nat) : Summary :=
  let clauses := slice start stop s.clauses
  { s with clauses, path := clauses.filterMap Clause.path? }

/-- One clause a line, in parentheses. -/
def text : String :=
  "(\n" ++ String.join (s.clauses.map fun c => "  " ++ c.text ++ "\n") ++ ")"

/-- Equality with the maps as finite maps. -/
def same (t : Summary) : Bool :=
  s.clauses == t.clauses && s.path == t.path && s.concrete.sameAs t.concrete &&
    s.origins.sameAs t.origins

instance : BEq Summary := ⟨same⟩

end Summary

end Concolic
