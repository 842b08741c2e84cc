import Concolic.Proofs.Tracer.Ending
import Concolic.Proofs.Tracer.Guarded
import Concolic.Proofs.Tracer.Snapshot

/-!
# Allocations

An instruction that makes an object gives its result a fresh term, remembers that the term is not
null and has the type of the result, and says so in one clause.

* `Tracer.Allocated t u`: what an event for an allocation makes of a tracer, whatever becomes of it
  (`deliver_allocated`).
* `Tracer.allocations t es`: the terms of the objects that are made in a run.
-/

namespace Concolic

/-- The event reports that an object or an array was made. -/
def Event.isAllocation : Event → Bool
  | .new .. | .newArray .. => true
  | _ => false

namespace Tracer

variable {t u w : Tracer} {e : Event} {f : Frame} {fs : List Frame}

/-- What is left of a tracer by the report of an allocation. Nothing was stated and no type is known
that was not; or the result of an instruction has got its fresh term and is the subject of a clause,
and it is known not to be null and to have its type. -/
inductive Allocated (t : Tracer) : Tracer → Prop
  | nothing {u : Tracer} (hclauses : u.summary.clauses = t.summary.clauses)
      (htyped : u.typeChecked = t.typeChecked) : Allocated t u
  | made {u : Tracer} {name : String} {i : Instruction} {v : Value} {q : Predicate}
      (hi : t.instruction? name = some i) (hv : i.result = some v)
      (hclauses : u.summary.clauses = t.summary.clauses ++ [.state i q])
      (hq : q.left? = some (t.fresh v)) (hnull : u.Checks (.null (t.fresh v)))
      (htyped : u.typeChecked = t.typeChecked.insert (t.fresh v) v.ty) : Allocated t u

namespace Action

variable {α : Type} {k : α → Action Unit}

/-- In a frame the values have terms or get them. -/
theorem useAll_ok (vs : List Value) (os : List Observed) (h : t.frames = f :: fs) :
    ∃ xs u, useAll vs os t = .ok xs u := by
  induction vs generalizing t f os with
  | nil => exact ⟨[], t, rfl⟩
  | cons v vs ih =>
    have hread := termOf_run v h
    have hlearned : t.Learned (t.reading f fs v) := after_of_ok hread ▸ Learns.termOf v t
    obtain ⟨g, hg⟩ := hlearned.frames_cons h
    cases os with
    | nil =>
      obtain ⟨xs, u, hxs⟩ := ih [] hg
      refine ⟨t.term f v :: xs, u, ?_⟩
      rw [useAll, bind_apply, hread]
      dsimp only
      rw [bind_apply, hxs]
      rfl
    | cons o os =>
      let w := (t.reading f fs v).noted g.method v (t.term f v) (some o)
      have huse : use ⟨v, o⟩ t = .ok (t.term f v) w := by
        rw [use, bind_apply, hread]
        dsimp only
        rw [bind_apply, note_run _ ⟨v, o⟩ hg]
        rfl
      obtain ⟨xs, u, hxs⟩ := ih (t := w) os hg
      refine ⟨t.term f v :: xs, u, ?_⟩
      rw [useAll, bind_apply, huse]
      dsimp only
      rw [bind_apply, hxs]
      rfl

/-- An allocation is remembered and stated, also if the instruction cannot be traced. -/
theorem allocation_after (x : Term) (ty : Ty) (vs : List Value) (os : List Observed)
    (i : Instruction) (p : List Term → Predicate) (h : t.frames = f :: fs) :
    ∃ xs, let u := (Ending.allocation x ty vs os i p).act.after t
      u.clauses = t.clauses ++ [.state i (p xs)] ∧ u.pending = t.pending ∧
        u.Checks (.null x) ∧ u.typeChecked = t.typeChecked.insert x ty := by
  let s : Tracer := { t with
    nullChecked := x :: t.nullChecked, typeChecked := t.typeChecked.insert x ty }
  obtain ⟨xs, w, huse⟩ := useAll_ok (t := s) vs os h
  have hlooked : s.Looked w := after_of_ok huse ▸ Looks.useAll vs os s
  have hchanged : s.Changed w := ((Ensures.useAll vs os).of_ok huse).1
  have hnull : w.Checks (.null x) := hchanged.checks (c := .null x) List.mem_cons_self
  have hafter : (Ending.allocation x ty vs os i p).act.after t =
      (trace i).after { w with clauses := w.clauses ++ [.state i (p xs)] } := by
    show (useAll vs os >>= fun xs => emit i (p xs)).after s = _
    rw [after_bind_of_ok huse]
    rfl
  obtain ⟨frames, hframes⟩ := trace_after i { w with clauses := w.clauses ++ [.state i (p xs)] }
  refine ⟨xs, ?_⟩
  rw [hafter, hframes]
  exact ⟨congrArg (· ++ _) hlooked.clauses, hlooked.pending, hnull, hlooked.typed⟩

/-- Where no call is pending, the action makes an allocation or nothing, whether it succeeds or
fails. -/
def Allocates (act : Action Unit) (t : Tracer) : Prop :=
  t.pending = none → t.Allocated (act.after t)

namespace Allocates

theorem read {x : Action α} (hx : x.Reads) (hk : ∀ a, x t = .ok a t → (k a).Allocates t) :
    (x >>= k).Allocates t := fun hpending => by
  cases h : x t with
  | ok a u =>
    obtain rfl := hx.ok h
    rw [after_bind_of_ok h]
    exact hk a h hpending
  | error cause u =>
    obtain rfl := hx.error h
    rw [after_bind_of_error h]
    exact .nothing rfl rfl

/-- The result of the instruction is bound to its fresh term, and then its object is made. -/
theorem define (vs : List Value) (os : List Observed) {p : Term → List Term → Predicate}
    {x : Action Term} {name : String} {i : Instruction} {v : Value} {seen : Option Observed}
    (hi : t.instruction? name = some i) (hv : i.result = some v) (hlooks : x.Looks)
    (hx : ∀ f fs, t.frames = f :: fs → x t = .ok (t.fresh v) (t.defining f fs v seen))
    (hp : ∀ x xs, (p x xs).left? = some x) :
    (x >>= fun x => (Ending.allocation x v.ty vs os i (p x)).act).Allocates t := fun hpending => by
  obtain ⟨f, fs, hframes⟩ := frames_of_instruction? hi
  have hrun := hx f fs hframes
  have hlooked : t.Looked (t.defining f fs v seen) := after_of_ok hrun ▸ hlooks t
  obtain ⟨xs, hclauses, hpending', hnull, htyped⟩ :=
    allocation_after (t := t.defining f fs v seen) (t.fresh v) v.ty vs os i (p (t.fresh v)) rfl
  rw [hlooked.clauses] at hclauses
  rw [hlooked.pending, hpending] at hpending'
  rw [hlooked.typed] at htyped
  rw [after_bind_of_ok hrun]
  refine .made hi hv ?_ (hp _ xs) hnull htyped
  rw [summary_clauses_of_none hpending, summary_clauses_of_none hpending', hclauses]

end Allocates

theorem newArray_allocates (result : Operand) (dimensions : List String)
    (observed : List Observed) :
    ∃ act, newArray result dimensions observed = start result.name act ∧
      ∀ t : Tracer, act.Allocates t := by
  refine ⟨_, rfl, fun t => .read (Reads.select _ _ _) fun found hfound => ?_⟩
  obtain ⟨hi, -⟩ := instruction?_of_select hfound
  refine .read (Reads.resultOf _) fun v hv => .read (Reads.values dimensions) fun vs _ => ?_
  exact .define vs observed (p := fun x xs => found.1.effect.newArray x xs) hi (resultOf_ok hv)
    (Looks.define _) (fun f fs h => define_run ⟨v, result.observed⟩ h) fun _ _ => rfl

theorem newObject_allocates (result : String) :
    ∃ act, newObject result = start result act ∧ ∀ t : Tracer, act.Allocates t := by
  refine ⟨_, rfl, fun t => .read (Reads.select _ _ _) fun found hfound => ?_⟩
  obtain ⟨hi, -⟩ := instruction?_of_select hfound
  refine .read (Reads.resultOf _) fun v hv => ?_
  exact .define [] [] (p := fun x _ => found.1.effect.newObject x) hi (resultOf_ok hv)
    (Looks.defineUnseen v) (fun f fs h => defineUnseen_run v h) fun _ _ => rfl

/-- An event that counts makes the allocation, any other event makes none. -/
theorem start_allocated {act : Action Unit} (name : String) (hact : ∀ t : Tracer, act.Allocates t)
    (t : Tracer) : t.Allocated ((start name act).after t) := by
  rcases start_after name act t with hpassed | hafter
  · exact .nothing (congrArg Summary.clauses hpassed.summary) hpassed.typed
  · have hclauses : t.resumed.summary.clauses = t.summary.clauses :=
      congrArg Summary.clauses (summary_flushed t)
    rw [hafter]
    cases hact t.resumed rfl with
    | nothing hnothing htyped => exact .nothing (hnothing.trans hclauses) htyped
    | made hi hv hmade hq hnull htyped =>
      exact .made hi hv (hmade.trans (congrArg (· ++ _) hclauses)) hq hnull htyped

end Action

/-- Whatever becomes of the report of an allocation, one is made and stated, or none. -/
theorem deliver_allocated (t : Tracer) (h : e.isAllocation = true) :
    t.Allocated (t.deliver e).2 := by
  have hhandle : t.Allocated ((handle e).after t) := by
    cases e with
    | newArray result dimensions observed =>
      obtain ⟨act, hstart, hact⟩ := Action.newArray_allocates result dimensions observed
      rw [handle, hstart]
      exact Action.start_allocated result.name hact t
    | new result =>
      obtain ⟨act, hstart, hact⟩ := Action.newObject_allocates result
      rw [handle, hstart]
      exact Action.start_allocated result hact t
    | _ => cases h
  refine deliver_of_after e (.nothing rfl rfl) hhandle fun u fatal hu => ?_
  cases hu with
  | nothing hclauses htyped => exact .nothing hclauses htyped
  | made hi hv hclauses hq hnull htyped => exact .made hi hv hclauses hq hnull htyped

/-- The terms of the objects that the events make: the subjects of the clauses that the reports of
allocations add. -/
def allocations (t : Tracer) : List Event → List Term
  | [] => []
  | e :: es =>
    let u := (t.deliver e).2
    (if e.isAllocation then
      (u.summary.clauses.drop t.summary.clauses.length).filterMap (·.predicate.left?)
    else []) ++ u.allocations es

end Tracer

end Concolic
