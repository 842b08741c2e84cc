import Concolic.Proofs.Predicate
import Concolic.Proofs.Term.Rename
import Concolic.Summary.Traversal

/-!
# Renaming summaries

A summary is renamed part by part, and each part may fail or lose an entry: a clause whose operand
cannot be rebuilt, a table in which two terms become the same. Neither happens if the terms of the
clauses were built and the terms of the tables are leaves.

* `Clause.shape`: what a clause says apart from its terms. Renaming keeps it.
* `Summary.renamed suffix s`: what renaming makes of a summary.
* `rename_eq_renamed`: renaming succeeds, and this is the outcome.
-/

namespace Concolic

variable {suffix : String}

/-! ## Clauses -/

/-- Kind, role and location of a predicate, and the types of its operands. -/
def Predicate.shape (p : Predicate) : PredicateKind × Role × Location × List Ty :=
  (p.kind, p.role, p.location, p.operands.map Term.ty)

/-- The predicate with the suffix at the named values of its operands. -/
def Predicate.renamed (suffix : String) (p : Predicate) : Predicate :=
  { p with operands := p.operands.map (Term.renamed suffix ∅) }

namespace PathClause

def renamed (suffix : String) (c : PathClause) : PathClause :=
  { c with predicate := c.predicate.renamed suffix }

/-- What is decided, by which instruction, and the shape of the predicate. -/
def shape (c : PathClause) :
    Check × Instruction × PredicateKind × Role × Location × List Ty :=
  (c.check, c.instruction, c.predicate.shape)

end PathClause

namespace Clause

def renamed (suffix : String) (c : Clause) : Clause :=
  c.withPredicate (c.predicate.renamed suffix)

/-- What is decided if anything is, the instruction, and the shape of the predicate. -/
def shape (c : Clause) :
    Option Check × Instruction × PredicateKind × Role × Location × List Ty :=
  (c.path?.map PathClause.check, c.instruction, c.predicate.shape)

end Clause

/-- The table with other keys. -/
def Table.mapKeys {β : Type} (f : Term → Term) (t : Table Term β) : Table Term β :=
  ⟨t.entries.map fun e => (f e.1, e.2)⟩

/-- The summary with the suffix at the named values of all its terms. -/
def Summary.renamed (suffix : String) (s : Summary) : Summary where
  clauses := s.clauses.map (Clause.renamed suffix)
  path := s.path.map (PathClause.renamed suffix)
  concrete := s.concrete.mapKeys (Term.renamed suffix ∅)
  origins := s.origins.mapKeys (Term.renamed suffix ∅)

/-- The operands of the predicate were built. -/
def Predicate.Built (p : Predicate) : Prop := ∀ x ∈ p.operands, x.Built

namespace Predicate

variable {p : Predicate}

theorem shape_renamed (h : p.Built) : (p.renamed suffix).shape = p.shape := by
  have htypes : (p.renamed suffix).operands.map Term.ty = p.operands.map Term.ty := by
    rw [renamed, List.map_map]
    exact List.map_congr_left fun x hx => (Term.renamed_fits Term.mapsVariables_empty (h x hx)).ty
  rw [shape, shape, htypes]
  rfl

end Predicate

theorem Clause.shape_renamed {c : Clause} (h : c.predicate.Built) :
    (c.renamed suffix).shape = c.shape := by
  cases c with
  | state i p => exact congrArg (fun s => (none, i, s)) (Predicate.shape_renamed h)
  | path d => exact congrArg (fun s => (some d.check, d.instruction, s)) (Predicate.shape_renamed h)

theorem PathClause.shape_renamed {c : PathClause} (h : c.predicate.Built) :
    (c.renamed suffix).shape = c.shape :=
  congrArg (fun s => (c.check, c.instruction, s)) (Predicate.shape_renamed h)

theorem Clause.path?_renamed (c : Clause) :
    (c.renamed suffix).path? = c.path?.map (PathClause.renamed suffix) := by
  cases c <;> rfl

/-! ## Traversals -/

namespace Traversal

open Term (walk_bind_of_ok)

variable {α β : Type} {f : α → Walk Unit β} {g : α → β}

private theorem mapM_walk {as : List α} (h : ∀ a ∈ as, f a () = .ok (g a, ())) :
    (as.mapM f) () = .ok (as.map g, ()) := by
  induction as with
  | nil => rfl
  | cons a as ih =>
    rw [List.mapM_cons, walk_bind_of_ok (h a List.mem_cons_self),
      walk_bind_of_ok (ih fun b hb => h b (List.mem_cons_of_mem a hb))]
    rfl

theorem predicate_renamer {p : Predicate} (h : p.Built) :
    (renamer suffix ∅).predicate p () = .ok (p.renamed suffix, ()) := by
  have hterms : (renamer suffix ∅).terms p.operands () =
      .ok (p.operands.map (Term.renamed suffix ∅), ()) :=
    Term.terms_renamer fun x hx => Term.term_renamer Term.mapsVariables_empty (h x hx)
  rw [predicate, walk_bind_of_ok hterms]
  split
  · next hsame =>
    have hmap := Term.map_eq_of_beq hsame fun x hx =>
      Term.renamed_of_beq Term.mapsVariables_empty (h x hx)
    rw [Predicate.renamed, hmap]
    rfl
  · rfl

theorem clause_renamer {c : Clause} (h : c.predicate.Built) :
    (renamer suffix ∅).clause c () = .ok (c.renamed suffix, ()) := by
  rw [clause, walk_bind_of_ok (predicate_renamer h)]
  rfl

theorem pathClause_renamer {c : PathClause} (h : c.predicate.Built) :
    (renamer suffix ∅).pathClause c () = .ok (c.renamed suffix, ()) := by
  rw [pathClause, walk_bind_of_ok (predicate_renamer h)]
  rfl

/-- Entries whose keys stay apart are all put in, behind those that are there. -/
theorem keys_renamer (done : List (Term × β)) {es : List (Term × β)}
    (hbuilt : ∀ e ∈ es, e.1.Built)
    (h : (⟨done ++ es.map fun e => (e.1.renamed suffix ∅, e.2)⟩ : Table Term β).Distinct) :
    (renamer suffix ∅).keys ⟨done⟩ es () =
      .ok (⟨done ++ es.map fun e => (e.1.renamed suffix ∅, e.2)⟩, ()) := by
  induction es generalizing done with
  | nil => rw [List.map_nil, List.append_nil]; rfl
  | cons e es ih =>
    obtain ⟨k, v⟩ := e
    rw [List.map_cons, List.append_cons] at h ⊢
    have hterm : (renamer suffix ∅).term k () = .ok (k.renamed suffix ∅, ()) :=
      Term.term_renamer Term.mapsVariables_empty (hbuilt _ List.mem_cons_self)
    have hnew : (⟨done⟩ : Table Term β).insertNew (k.renamed suffix ∅) v =
        ⟨done ++ [(k.renamed suffix ∅, v)]⟩ := by
      have hdone := (List.pairwise_append.mp (List.pairwise_append.mp h).1).2.2
      exact Table.insertNew_of_new
        (Table.contains_eq_false_iff.mpr fun d hd => hdone d hd _ List.mem_cons_self) v
    rw [keys, walk_bind_of_ok hterm, hnew]
    exact ih _ (fun e he => hbuilt e (List.mem_cons_of_mem _ he)) h

end Traversal

namespace Table

variable {β : Type} {t : Table Term β}

/-- Leaves that are different stay different. -/
theorem Distinct.mapKeys_renamed (h : t.Distinct) (hleaf : ∀ x ∈ t.keys, ∃ k ty, x = .leaf k ty) :
    (t.mapKeys (Term.renamed suffix ∅)).Distinct := by
  refine List.pairwise_map.mpr (List.Pairwise.imp_of_mem (fun {d e} hd he hde => ?_) h)
  obtain ⟨k, ty, hk⟩ := hleaf d.1 (List.mem_map_of_mem hd)
  obtain ⟨k', ty', hk'⟩ := hleaf e.1 (List.mem_map_of_mem he)
  rw [hk, hk'] at hde
  rw [hk, hk', Term.renamed_beq_leaf, hde]

end Table

/-! ## Summaries -/

/-- The summary can be renamed without a failure and without a loss: the operands of its clauses
were built, its tables have no key twice, and the keys are leaves that were built. -/
structure Summary.Renameable (s : Summary) : Prop where
  clauses : ∀ c ∈ s.clauses, c.predicate.Built
  path : ∀ c ∈ s.path, c.predicate.Built
  concrete : s.concrete.Distinct
  origins : s.origins.Distinct
  keys : ∀ x, x ∈ s.concrete.keys ∨ x ∈ s.origins.keys → x.Built ∧ ∃ k ty, x = .leaf k ty

namespace Summary

variable {s : Summary}

/-- Renaming succeeds, and keeps every clause, every decision and every entry. -/
theorem rename_eq_renamed (h : s.Renameable) : s.rename suffix ∅ = .ok (s.renamed suffix) := by
  have hclauses : (s.clauses.mapM (Traversal.renamer suffix ∅).clause) () =
      .ok (s.clauses.map (Clause.renamed suffix), ()) :=
    Traversal.mapM_walk fun c hc => Traversal.clause_renamer (h.clauses c hc)
  have hpath : (s.path.mapM (Traversal.renamer suffix ∅).pathClause) () =
      .ok (s.path.map (PathClause.renamed suffix), ()) :=
    Traversal.mapM_walk fun c hc => Traversal.pathClause_renamer (h.path c hc)
  have hconcrete : (Traversal.renamer suffix ∅).keys ∅ s.concrete.entries () =
      .ok ((s.renamed suffix).concrete, ()) :=
    Traversal.keys_renamer []
      (fun e he => (h.keys e.1 (.inl (List.mem_map_of_mem he))).1)
      (h.concrete.mapKeys_renamed fun x hx => (h.keys x (.inl hx)).2)
  have horigins : (Traversal.renamer suffix ∅).keys ∅ s.origins.entries () =
      .ok ((s.renamed suffix).origins, ()) :=
    Traversal.keys_renamer []
      (fun e he => (h.keys e.1 (.inr (List.mem_map_of_mem he))).1)
      (h.origins.mapKeys_renamed fun x hx => (h.keys x (.inr hx)).2)
  have hsummary : (Traversal.renamer suffix ∅).summary s () = .ok (s.renamed suffix, ()) := by
    rw [Traversal.summary, Term.walk_bind_of_ok hclauses, Traversal.rest,
      Term.walk_bind_of_ok hpath, Term.walk_bind_of_ok hconcrete, Term.walk_bind_of_ok horigins]
    rfl
  show Prod.fst <$> (Traversal.renamer suffix ∅).summary s () = _
  rw [hsummary]
  rfl

end Summary

end Concolic
