import Concolic.Proofs.Term
import Concolic.Proofs.Tracer.Output

/-!
# Joining summaries

A summary is cut into parts by its clauses, and the path of a part is found among them. So joining
the parts gives the clauses back, and the path as far as it is made of the decisions among the
clauses. In the summary of a run it is.

* `join_assoc`, `empty_join`, `join_empty`: summaries form a monoid.
* `get?_concrete_join`, `get?_origins_join`: what the later summary knows of a term counts.
* `join_cut_iff`: the two parts of a summary make it up just if its path agrees with its clauses.
-/

namespace Concolic

namespace Summary

variable (s t u : Summary)

@[simp] theorem empty_join : (∅ : Summary).join s = s := by
  show (⟨[] ++ s.clauses, [] ++ s.path, s.concrete.union ∅, s.origins.union ∅⟩ : Summary) = s
  rw [List.nil_append, List.nil_append, Table.union_empty, Table.union_empty]

@[simp] theorem join_empty : s.join ∅ = s := by
  show (⟨s.clauses ++ [], s.path ++ [], Table.union ∅ s.concrete, Table.union ∅ s.origins⟩ :
    Summary) = s
  rw [List.append_nil, List.append_nil, Table.empty_union, Table.empty_union]

theorem join_assoc : (s.join t).join u = s.join (t.join u) := by
  unfold join
  dsimp only
  rw [List.append_assoc, List.append_assoc, Table.union_assoc, Table.union_assoc]

theorem get?_concrete_join (x : Term) :
    (s.join t).concrete.get? x = (t.concrete.get? x).or (s.concrete.get? x) :=
  Table.get?_union t.concrete s.concrete x

theorem get?_origins_join (x : Term) :
    (s.join t).origins.get? x = (t.origins.get? x).or (s.origins.get? x) :=
  Table.get?_union t.origins s.origins x

/-- The clauses before a position and those behind it. -/
private theorem slice_append_slice {α : Type} (xs : List α) (k : Nat) :
    slice 0 k xs ++ slice k xs.length xs = xs := by
  rw [slice, slice, List.drop_zero, List.take_length, List.take_append_drop]

/-- The two parts of a summary make up all of it but the path, which is found among the clauses. -/
theorem join_cut (k : Nat) :
    (s.cut 0 k).join (s.cut k s.clauses.length) =
      { s with path := s.clauses.filterMap Clause.path? } := by
  unfold join cut
  dsimp only
  rw [← List.filterMap_append, slice_append_slice, Table.union_self, Table.union_self]

theorem join_cut_iff (k : Nat) :
    (s.cut 0 k).join (s.cut k s.clauses.length) = s ↔
      s.path = s.clauses.filterMap Clause.path? := by
  rw [join_cut]
  constructor
  · intro h
    exact (congrArg path h).symm
  · intro h
    rw [← h]

end Summary

/-- The summary of a run is made up by its two parts, wherever it is cut, also behind its end.
Summaries can be joined in any grouping, the empty summary adds nothing, and for a term that both
know the later one counts. -/
theorem Tracer.summary_split_join :
    (∀ (p : Program) (config : Config) (dispatch : Dispatch) (es : List Event) (k : Nat),
      let s := ((Tracer.new p config dispatch).run es).summary
      (s.cut 0 k).join (s.cut k s.clauses.length) = s) ∧
    (∀ s t u : Summary, (s.join t).join u = s.join (t.join u)) ∧
    (∀ s : Summary, (∅ : Summary).join s = s ∧ s.join ∅ = s) ∧
    ∀ (s t : Summary) (x : Term),
      (s.join t).concrete.get? x = (t.concrete.get? x).or (s.concrete.get? x) ∧
      (s.join t).origins.get? x = (t.origins.get? x).or (s.origins.get? x) := by
  refine ⟨fun p config dispatch es k => ?_, Summary.join_assoc, fun s => ?_, fun s t x => ?_⟩
  · exact (Summary.join_cut_iff _ k).mpr
      (Tracer.PathAgrees.run (t := Tracer.new p config dispatch) rfl es)
  · exact ⟨s.empty_join, s.join_empty⟩
  · exact ⟨s.get?_concrete_join t x, s.get?_origins_join t x⟩

end Concolic
