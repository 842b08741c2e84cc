import Concolic.Summary.Basic

/-!
# Traversals of summaries

A traversal of terms goes through a summary part by part: the clauses, the path, and the terms of
both maps. If two terms become the same one, the entry of the first stays.

`Traversal.recollect` also lets every clause be replaced by any number of clauses.
-/

namespace Concolic

namespace Traversal

variable {σ : Type} (r : Traversal σ)

def clause (c : Clause) : Walk σ Clause := return c.withPredicate (← r.predicate c.predicate)

def pathClause (c : PathClause) : Walk σ PathClause :=
  return { c with predicate := ← r.predicate c.predicate }

/-- Visits the keys of entries in order and puts what they became into a table. -/
def keys {β : Type} (t : Table Term β) : List (Term × β) → Walk σ (Table Term β)
  | [] => pure t
  | (k, v) :: es => do
    let k ← r.term k
    keys (t.insertNew k v) es

/-- Visits everything but the clauses. -/
def rest (s : Summary) (clauses : List Clause) : Walk σ Summary := do
  let path ← s.path.mapM r.pathClause
  let concrete ← r.keys ∅ s.concrete.entries
  let origins ← r.keys ∅ s.origins.entries
  pure { clauses, path, concrete, origins }

/-- Visits all terms of a summary. -/
def summary (s : Summary) : Walk σ Summary := do r.rest s (← s.clauses.mapM r.clause)

/-- Visits a summary and replaces every clause by its expansion. -/
def recollect (expand : Clause → Walk σ (List Clause)) (s : Summary) : Walk σ Summary := do
  r.rest s (← s.clauses.mapM expand).flatten

end Traversal

namespace Summary

/-- The summary with the named values of its terms renamed. -/
def rename (suffix : String) (mapping : Table Term Term) (s : Summary) : Result Summary :=
  ((Traversal.renamer suffix mapping).summary s).run' ()

end Summary

end Concolic
