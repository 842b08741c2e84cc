import Concolic.Table
import Concolic.Term.Rebuild

/-!
# Traversals of terms

A `Traversal` visits a term from the leaves up. `enter` may replace a term outright, without a look
at its subterms; otherwise the subterms are visited first, the term is rebuilt if one of them
changed, and `leave` sees the outcome. A traversal may gather a state on the way.

* `Traversal.renamer` replaces mapped terms and appends a suffix to the names of all other named
  values.
* `Traversal.collector` changes nothing and gathers the terms that a filter accepts.
-/

namespace Concolic

/-- What to do before and after the subterms of a term. -/
structure Traversal (σ : Type) where
  enter : Term → Option Term
  leave : Term → StateM σ Term

/-- The run of a traversal: it gathers a state and may fail. -/
abbrev Walk (σ : Type) := StateT σ Result

namespace Traversal

variable {σ : Type} (r : Traversal σ)

/-- The last step at a term. -/
def finish (t : Term) : Walk σ Term := fun s => .ok (r.leave t s)

mutual

/-- Visits a term and gives what it became. -/
def term : Term → Walk σ Term
  | ⟨kind, ty, subterms⟩ =>
    match r.enter ⟨kind, ty, subterms⟩ with
    | some replacement => pure replacement
    | none => do
      let children ← terms subterms
      if children == subterms then r.finish ⟨kind, ty, subterms⟩
      else r.finish (← liftM (Term.rebuild ⟨kind, ty, subterms⟩ children))

/-- Visits terms in order. -/
def terms : List Term → Walk σ (List Term)
  | [] => pure []
  | t :: ts => do
    let t ← term t
    let ts ← terms ts
    pure (t :: ts)

end

/-- Appends a suffix to the name of a named value. -/
def addSuffix (suffix : String) (t : Term) : Term :=
  match t.kind with
  | .value name => Term.value t.ty (name ++ suffix)
  | _ => t

/-- Replaces mapped terms as a whole and appends the suffix to every other named value. -/
def renamer (suffix : String) (mapping : Table Term Term) : Traversal Unit where
  enter := mapping.get?
  leave t := pure (addSuffix suffix t)

/-- Adds a term to a set. -/
def addTerm (seen : List Term) (t : Term) : List Term :=
  if seen.contains t then seen else seen ++ [t]

/-- Gathers every visited term that the filter accepts, once. -/
def collector (accept : Term → Bool) : Traversal (List Term) where
  enter _ := none
  leave t := fun seen => (t, if accept t then addTerm seen t else seen)

end Traversal

namespace Term

/-- The term with its named values renamed. -/
def rename (suffix : String) (mapping : Table Term Term) (t : Term) : Result Term :=
  ((Traversal.renamer suffix mapping).term t).run' ()

/-- The subterms of a term, itself included, that the filter accepts. -/
def collect (accept : Term → Bool) (t : Term) : Result (List Term) := do
  let (_, seen) ← ((Traversal.collector accept).term t).run []
  .ok seen

end Term

end Concolic
