import Concolic.Proofs.Summary
import Concolic.Proofs.Term.Method
import Mathlib.Logic.Relation

/-!
# Collecting terms

A collector looks at every subterm and replaces none. So no term is rebuilt on the way, and nothing
can fail, however a term was made.

* `Term.IsSubterm s t`: `s` is `t` or stands in it. `Term.visited t` lists these terms in the order
  in which a traversal leaves them (`mem_visited_iff`).
* `Traversal.Harmless`: the traversal replaces no term. It gives back every term, and has looked at
  each of its subterms (`Harmless.term`).
* `Traversal.Yields`: the outcome of a walk does not depend on what was gathered before. Harmless
  traversals yield predicates, clauses and tables as they are.
* `Traversal.Collected`: what a collector has gathered are the accepted ones among some terms.
-/

namespace Concolic

namespace Sample

/-- A call on a circle. -/
def scaled (owner : String) : Term :=
  ⟨.call (scale owner .int .int), .int, [.value (.object "app/Circle") "c", .null]⟩

/-- A term that no constructor makes: calls are taken for a text and a position. -/
def misfit : Term := ⟨.charAt, .char, [scaled "app/Shape", scaled "app/Circle"]⟩

def misfits : Summary where
  clauses := [.state ⟨"%a", .throwing, scale "app/Main" .int .int, 0, 0, .unknown, none⟩
    ⟨.thrown, .state, .unknown, [misfit]⟩]
  path := []
  concrete := ⟨[(misfit, .char 97), (scaled "app/Shape", .int 1)]⟩
  origins := ∅

end Sample

/-! ## Subterms -/

namespace Term

/-- The first term is the second one or stands in it. -/
def IsSubterm (s t : Term) : Prop := Relation.ReflTransGen (fun u w => u ∈ w.subterms) s t

mutual

/-- The term and all that stand in it, each of them behind its own subterms. -/
def visited : Term → List Term
  | ⟨kind, ty, subterms⟩ => visitedAll subterms ++ [⟨kind, ty, subterms⟩]

def visitedAll : List Term → List Term
  | [] => []
  | t :: ts => t.visited ++ visitedAll ts

end

theorem isSubterm_iff {s t : Term} : s.IsSubterm t ↔ (∃ u ∈ t.subterms, s.IsSubterm u) ∨ s = t := by
  unfold IsSubterm
  rw [Relation.ReflTransGen.cases_tail_iff, or_comm]
  exact or_congr (exists_congr fun u => and_comm) eq_comm

mutual

theorem mem_visited_iff (s : Term) : (t : Term) → (s ∈ t.visited ↔ s.IsSubterm t)
  | ⟨kind, ty, subterms⟩ => by
    rw [visited, List.mem_append, List.mem_singleton, mem_visitedAll_iff s subterms, isSubterm_iff]

theorem mem_visitedAll_iff (s : Term) : (ts : List Term) →
    (s ∈ visitedAll ts ↔ ∃ t ∈ ts, s.IsSubterm t)
  | [] => by simp [visitedAll]
  | t :: ts => by
    rw [visitedAll, List.mem_append, mem_visited_iff s t, mem_visitedAll_iff s ts,
      List.exists_mem_cons_iff]

end

end Term

namespace Traversal

open Term (walk_bind_of_ok)

variable {σ α β : Type} {r : Traversal σ}

/-! ## Traversals that replace nothing -/

/-- The traversal replaces no term, neither before nor after it has looked at the subterms. -/
structure Harmless (r : Traversal σ) : Prop where
  enter (t : Term) : r.enter t = none
  leave (t : Term) (s : σ) : (r.leave t s).1 = t

/-- What is gathered when terms are left, one after the other. -/
def gather (r : Traversal σ) (ts : List Term) (s : σ) : σ :=
  ts.foldl (fun s t => (r.leave t s).2) s

theorem gather_append (ts us : List Term) (s : σ) :
    r.gather (ts ++ us) s = r.gather us (r.gather ts s) := List.foldl_append

theorem Harmless.finish (h : r.Harmless) (t : Term) (s : σ) :
    r.finish t s = .ok (t, r.gather [t] s) :=
  congrArg Except.ok (Prod.ext (h.leave t s) rfl)

mutual

/-- A harmless traversal gives back the term and has gathered at each of its subterms. -/
theorem Harmless.term (h : r.Harmless) : (t : Term) → (s : σ) →
    r.term t s = .ok (t, r.gather t.visited s)
  | ⟨kind, ty, subterms⟩, s => by
    have hsame : (subterms == subterms) = true := BEq.rfl
    rw [Traversal.term, h.enter]
    dsimp only
    rw [walk_bind_of_ok (h.terms subterms s), if_pos hsame, h.finish, Term.visited, gather_append]

theorem Harmless.terms (h : r.Harmless) : (ts : List Term) → (s : σ) →
    r.terms ts s = .ok (ts, r.gather (Term.visitedAll ts) s)
  | [], _ => rfl
  | t :: ts, s => by
    rw [Traversal.terms, walk_bind_of_ok (h.term t s), walk_bind_of_ok (h.terms ts _),
      Term.visitedAll, gather_append]
    rfl

end

/-! ## Predicates, clauses and summaries -/

/-- The walk succeeds with this outcome, whatever was gathered before. -/
def Yields (w : Walk σ α) (a : α) : Prop := ∀ s, ∃ s', w s = .ok (a, s')

namespace Yields

variable {w : Walk σ α} {a : α} {b : β}

theorem pure (a : α) : Yields (Pure.pure a : Walk σ α) a := fun s => ⟨s, rfl⟩

theorem bind {f : α → Walk σ β} (h : Yields w a) (h' : Yields (f a) b) : Yields (w >>= f) b := by
  intro s
  obtain ⟨s', hs⟩ := h s
  rw [walk_bind_of_ok hs]
  exact h' s'

theorem mapM {f : α → Walk σ α} (h : ∀ a, Yields (f a) a) (as : List α) :
    Yields (as.mapM f) as := by
  induction as with
  | nil => exact .pure []
  | cons a as ih =>
    rw [List.mapM_cons]
    exact (h a).bind (ih.bind (.pure _))

end Yields

namespace Harmless

theorem predicate (h : r.Harmless) (p : Predicate) : Yields (r.predicate p) p := by
  have hterms : Yields (r.terms p.operands) p.operands := fun s => ⟨_, h.terms p.operands s⟩
  have hsame : (p.operands == p.operands) = true := BEq.rfl
  refine hterms.bind ?_
  rw [if_pos hsame]
  exact .pure p

theorem clause (h : r.Harmless) (c : Clause) : Yields (r.clause c) c := by
  have hself : c.withPredicate c.predicate = c := by cases c <;> rfl
  refine (h.predicate c.predicate).bind ?_
  rw [hself]
  exact .pure c

theorem pathClause (h : r.Harmless) (c : PathClause) : Yields (r.pathClause c) c :=
  (h.predicate c.predicate).bind (.pure c)

/-- The entries are put into the table as they are, unless their keys are there. -/
theorem keys (h : r.Harmless) (t : Table Term β) (es : List (Term × β)) :
    Yields (r.keys t es) (t.keepFirst es) := by
  induction es generalizing t with
  | nil => exact .pure t
  | cons e es ih =>
    have hterm : Yields (r.term e.1) e.1 := fun s => ⟨_, h.term e.1 s⟩
    exact hterm.bind (ih (t.insertNew e.1 e.2))

/-- The summary with its tables filled anew. -/
theorem summary (h : r.Harmless) (s : Summary) :
    Yields (r.summary s) { s with
      concrete := Table.keepFirst ∅ s.concrete.entries
      origins := Table.keepFirst ∅ s.origins.entries } :=
  (Yields.mapM h.clause s.clauses).bind ((Yields.mapM h.pathClause s.path).bind
    ((h.keys ∅ s.concrete.entries).bind ((h.keys ∅ s.origins.entries).bind (.pure _))))

end Harmless

/-! ## Collectors -/

variable {accept : Term → Bool} {among among' : Term → Prop} {found : List Term}

theorem harmless_collector (accept : Term → Bool) : (collector accept).Harmless :=
  ⟨fun _ => rfl, fun _ _ => rfl⟩

/-- The terms that were found are accepted ones among the given terms, each accepted one is found,
and none is found twice. -/
structure Collected (accept : Term → Bool) (among : Term → Prop) (found : List Term) : Prop where
  sound : ∀ x ∈ found, among x ∧ accept x = true
  complete : ∀ x, among x → accept x = true → ∃ y ∈ found, (y == x) = true
  once : found.Pairwise fun x y => (x == y) = false

theorem Collected.congr (h : Collected accept among found) (hiff : ∀ x, among x ↔ among' x) :
    Collected accept among' found where
  sound x hx := ⟨(hiff x).mp (h.sound x hx).1, (h.sound x hx).2⟩
  complete x hx := h.complete x ((hiff x).mpr hx)
  once := h.once

theorem contains_addTerm (seen : List Term) (t : Term) :
    ∃ y ∈ addTerm seen t, (y == t) = true := by
  unfold addTerm
  split
  · next h =>
    obtain ⟨y, hy, hsame⟩ := List.contains_iff_exists_mem_beq.mp h
    exact ⟨y, hy, BEq.symm hsame⟩
  · exact ⟨t, List.mem_append_right _ List.mem_cons_self, BEq.rfl⟩

theorem mem_addTerm {seen : List Term} {t x : Term} (h : x ∈ addTerm seen t) :
    x ∈ seen ∨ x = t := by
  unfold addTerm at h
  split at h
  · exact .inl h
  · exact (List.mem_append.mp h).imp_right List.mem_singleton.mp

theorem subset_addTerm {seen : List Term} {t x : Term} (h : x ∈ seen) : x ∈ addTerm seen t := by
  unfold addTerm
  split
  · exact h
  · exact List.mem_append_left _ h

theorem pairwise_addTerm {seen : List Term} (h : seen.Pairwise fun x y => (x == y) = false)
    (t : Term) : (addTerm seen t).Pairwise fun x y => (x == y) = false := by
  unfold addTerm
  split
  · exact h
  · next hnew =>
    refine List.pairwise_append.mpr ⟨h, List.pairwise_singleton _ _, fun x hx y hy => ?_⟩
    rw [List.mem_singleton.mp hy, ← Bool.not_eq_true]
    exact fun hsame => hnew (List.contains_iff_exists_mem_beq.mpr ⟨x, hx, BEq.symm hsame⟩)

/-- One more term is looked at. -/
theorem Collected.leave (h : Collected accept among found) (t : Term) :
    Collected accept (fun x => among x ∨ x = t) ((collector accept).leave t found).2 := by
  show Collected accept _ (if accept t then addTerm found t else found)
  split
  · next haccept =>
    refine ⟨fun x hx => ?_, fun x hx hxa => ?_, pairwise_addTerm h.once t⟩
    · rcases mem_addTerm hx with hx | rfl
      · exact ⟨.inl (h.sound x hx).1, (h.sound x hx).2⟩
      · exact ⟨.inr rfl, haccept⟩
    · rcases hx with hx | rfl
      · obtain ⟨y, hy, hsame⟩ := h.complete x hx hxa
        exact ⟨y, subset_addTerm hy, hsame⟩
      · exact contains_addTerm found x
  · next haccept =>
    refine ⟨fun x hx => ⟨.inl (h.sound x hx).1, (h.sound x hx).2⟩, fun x hx hxa => ?_, h.once⟩
    rcases hx with hx | rfl
    · exact h.complete x hx hxa
    · exact absurd hxa haccept

theorem Collected.gather (h : Collected accept among found) (ts : List Term) :
    Collected accept (fun x => among x ∨ x ∈ ts) ((collector accept).gather ts found) := by
  induction ts generalizing among found with
  | nil => exact h.congr fun x => by simp
  | cons t ts ih =>
    refine (ih (h.leave t)).congr fun x => ?_
    rw [List.mem_cons, or_assoc]

theorem collected_nil (accept : Term → Bool) : Collected accept (fun _ => False) [] :=
  ⟨nofun, nofun, .nil⟩

end Traversal

/-- Whatever the term, a collector finds exactly the accepted ones among its subterms; terms that
count as the same are found once. Whatever it has found before, it leaves every predicate, every
sequence of clauses or of decisions and every summary as they are: the tables of a summary find the
same values, and if no table has a key twice they are identical. -/
theorem Term.collect_subterms (accept : Term → Bool) :
    (∀ t : Term, ∃ found, t.collect accept = .ok found ∧
      Traversal.Collected accept (fun x => x.IsSubterm t) found) ∧
    (∀ p : Predicate, Traversal.Yields ((Traversal.collector accept).predicate p) p) ∧
    (∀ cs : List Clause, Traversal.Yields (cs.mapM (Traversal.collector accept).clause) cs) ∧
    (∀ cs : List PathClause,
      Traversal.Yields (cs.mapM (Traversal.collector accept).pathClause) cs) ∧
    ∀ s : Summary, ∃ u : Summary, Traversal.Yields ((Traversal.collector accept).summary s) u ∧
      u.clauses = s.clauses ∧ u.path = s.path ∧
      (∀ x, u.concrete.get? x = s.concrete.get? x ∧ u.origins.get? x = s.origins.get? x) ∧
      (s.concrete.Distinct → s.origins.Distinct → u = s) := by
  have hharmless := Traversal.harmless_collector accept
  -- What was gathered at the term is known exactly; of the rest only that nothing changes.
  refine ⟨fun t => ?_, hharmless.predicate, Traversal.Yields.mapM hharmless.clause,
    Traversal.Yields.mapM hharmless.pathClause, fun s => ?_⟩
  · refine ⟨(Traversal.collector accept).gather t.visited [], ?_, ?_⟩
    · show ((Traversal.collector accept).term t [] >>= fun p => .ok p.2) = _
      rw [hharmless.term]
      rfl
    · refine ((Traversal.collected_nil accept).gather t.visited).congr fun x => ?_
      rw [false_or, mem_visited_iff]
  · refine ⟨_, hharmless.summary s, rfl, rfl, fun x => ⟨?_, ?_⟩, fun hconcrete horigins => ?_⟩
    · exact (Table.get?_keepFirst ∅ s.concrete.entries x).trans Option.none_or
    · exact (Table.get?_keepFirst ∅ s.origins.entries x).trans Option.none_or
    · have hc : Table.keepFirst ∅ s.concrete.entries = s.concrete :=
        Table.keepFirst_eq hconcrete
      have ho : Table.keepFirst ∅ s.origins.entries = s.origins :=
        Table.keepFirst_eq horigins
      rw [hc, ho]

open Sample in
/-- A term that cannot be rebuilt. Its two calls are of different methods and count as the same. -/
theorem Term.collect_subterms_misfit :
    let accept (x : Term) : Bool := !x.kind.isLeaf
    (misfit.rebuild misfit.subterms).isOk = false ∧ misfits.concrete.Distinct ∧
      misfits.origins.Distinct ∧
      (∃ found, misfit.collect accept = .ok found ∧
        Traversal.Collected accept (fun x => x.IsSubterm misfit) found ∧
        found.map Term.name = ["c.scale(null)", misfit.name]) ∧
      Traversal.Yields ((Traversal.collector accept).summary misfits) misfits := by
  intro accept
  have hconcrete : misfits.concrete.Distinct := by
    unfold Table.Distinct
    decide +kernel
  have horigins : misfits.origins.Distinct := Table.distinct_empty
  obtain ⟨hterm, -, -, -, hsummary⟩ := Term.collect_subterms accept
  obtain ⟨found, hfound, hcollected⟩ := hterm misfit
  obtain ⟨u, hu, -, -, -, hsame⟩ := hsummary misfits
  have hnames : (misfit.collect accept).toOption.map (List.map Term.name) =
      some ["c.scale(null)", misfit.name] := by decide +kernel
  rw [hfound] at hnames
  rw [hsame hconcrete horigins] at hu
  refine ⟨by decide +kernel, hconcrete, horigins, ?_, hu⟩
  exact ⟨found, hfound, hcollected, Option.some.inj hnames⟩

end Concolic
