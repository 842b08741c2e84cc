import Concolic.Proofs.Program
import Concolic.Proofs.Tracer.Learn
import Concolic.Tracer.Run

/-!
# What an event contributes

The output of a tracer is its summary and its trace. An event that is handled first looks up and
learns, and then contributes to the output in one go, if at all. This file names the possible
contributions and gives the rules by which the handling of an event is seen to make one.

* `Contribution`: what one event can add. The clauses and the traced instructions that belong
  together are one constructor, and a constructor carries the facts that keep calls apart from
  everything else, so that every contribution traces as many calls as it states
  (`Contribution.countP_trace`).
* `Tracer.Contributed t t' c`: the output of `t'` is the output of `t` followed by `c`.
* `Action.Yields act t forms`: on `t` the action makes a contribution of one of the given forms or
  none. In a sound program, an action that fails makes none.
* `Action.Contributes o act forms`: the action yields so on every tracer with the outline `o`. The
  rules for it (`Contributes.learn`, `Contributes.select`, ...) follow the steps of the actions.
-/

namespace Concolic

/-- The instruction calls a method. -/
def Instruction.isCall (i : Instruction) : Bool :=
  match i.kind with
  | .call => true
  | _ => false

/-- The predicate states a call. -/
def Predicate.isCall (p : Predicate) : Bool :=
  match p.kind with
  | .call _ => true
  | _ => false

/-- A truth value that stands for a condition, with its definition and the value it was observed to
have. -/
structure Guard where
  check : Check
  instruction : Instruction
  name : String
  definition : Term
  observed : Bool

namespace Guard

variable (g : Guard)

def term : Term := Term.value .bool g.name

/-- The decision that fixes the truth value. -/
def fixed : PathClause where
  check := g.check
  instruction := g.instruction
  predicate := g.instruction.decision.equality g.term (Term.bool g.observed)

/-- The definition of the truth value, and at once the decision that fixes it. -/
def clauses : List Clause :=
  [.state g.instruction (g.instruction.effect.equality g.term g.definition), .path g.fixed]

end Guard

/-! ## Contributions -/

/-- What one event adds to the output. -/
inductive Contribution where
  | nothing
  /-- An instruction that is traced and states nothing. -/
  | passage (i : Instruction) (hi : i.isCall = false)
  /-- A traced instruction with its effect. -/
  | effect (i : Instruction) (p : Predicate) (hi : i.isCall = false) (hp : p.isCall = false)
  /-- A traced instruction with its decision. -/
  | decision (d : PathClause) (hi : d.instruction.isCall = false) (hp : d.predicate.isCall = false)
  /-- A traced call, which is pending. -/
  | call (i : Instruction) (p : Predicate) (hi : i.isCall = true) (hp : p.isCall = true)
  /-- A decision about an instruction to come. -/
  | check (d : PathClause) (hp : d.predicate.isCall = false)
  /-- Guards of an instruction to come. -/
  | guards (gs : List Guard)

namespace Contribution

/-- The forms of contributions other than `nothing`. -/
inductive Form where
  | passage
  | effect
  | decision
  | call
  | check
  | guards (count : Nat)
deriving DecidableEq

def form? : Contribution → Option Form
  | nothing => none
  | passage .. => some .passage
  | effect .. => some .effect
  | decision .. => some .decision
  | call .. => some .call
  | check .. => some .check
  | guards gs => some (.guards gs.length)

def clauses : Contribution → List Clause
  | nothing | passage .. => []
  | effect i p _ _ | call i p _ _ => [.state i p]
  | decision d _ _ | check d _ => [.path d]
  | guards gs => gs.flatMap Guard.clauses

/-- The decisions among the clauses. -/
def path (c : Contribution) : List PathClause := c.clauses.filterMap Clause.path?

def trace : Contribution → List Instruction
  | passage i _ | effect i _ _ _ | call i _ _ _ => [i]
  | decision d _ _ => [d.instruction]
  | nothing | check .. | guards _ => []

/-- A guard states no call. -/
private theorem countP_guards (gs : List Guard) :
    (gs.flatMap Guard.clauses).countP (·.predicate.isCall) = 0 := by
  induction gs with
  | nil => rfl
  | cons g gs ih => rw [List.flatMap_cons, List.countP_append, ih]; rfl

/-- A contribution traces a call exactly if it states one. -/
theorem countP_trace (c : Contribution) :
    c.trace.countP Instruction.isCall = c.clauses.countP (·.predicate.isCall) := by
  cases c with
  | nothing => rfl
  | passage i hi => simp [trace, clauses, hi]
  | effect i p hi hp => simp [trace, clauses, Clause.predicate, hi, hp]
  | decision d hi hp => simp [trace, clauses, Clause.predicate, hi, hp]
  | call i p hi hp => simp [trace, clauses, Clause.predicate, hi, hp]
  | check d hp => simp [trace, clauses, Clause.predicate, hp]
  | guards gs => exact (countP_guards gs).symm

end Contribution

/-- The forms of what an event can contribute. -/
def Event.forms : Event → List Contribution.Form
  | .methodEnter .. => []
  | .call .. => [.call]
  | .branch .. | .switch .. | .tableSwitch .. => [.decision]
  | .jump .. => [.passage]
  | .ret .. => [.passage, .effect]
  | .guardNull .. | .guardIndex .. => [.guards 1]
  | .guardLength .. => [.guards 2]
  | .guardType .. | .guardExpectedType .. => [.check]
  | .arrayLoad .. | .arrayStore .. | .binary .. | .cast .. | .caught .. | .compare ..
  | .enterMonitor .. | .exitMonitor .. | .fieldLoad .. | .fieldStore .. | .instanceOf ..
  | .invokeDynamic .. | .newArray .. | .new .. | .phi .. | .throwing .. | .unary .. => [.effect]

namespace Tracer

/-- The output of `t'` is that of `t` and then `c`; all records of `t` are still there. -/
structure Contributed (t t' : Tracer) (c : Contribution) : Prop where
  clauses : t'.summary.clauses = t.summary.clauses ++ c.clauses
  path : t'.path = t.path ++ c.path
  trace : t'.trace = t.trace ++ c.trace
  concrete : t.concrete.Within t'.concrete
  origins : t.origins.Within t'.origins
  /-- A call that is pending was pending before, or is what was contributed. -/
  pending : ∀ call, t'.pending = some call → t.pending = some call ∨
    ∃ hi hp, c = .call call.instruction call.predicate hi hp
  program : t'.program = t.program

theorem summary_clauses_of_none {t : Tracer} (h : t.pending = none) :
    t.summary.clauses = t.clauses := by
  simp [summary, pendingClauses, h]

theorem Learned.contributed {t t' : Tracer} (h : t.Learned t') : t.Contributed t' .nothing := by
  refine ⟨?_, ?_, ?_, h.concrete, h.origins, ?_, h.program⟩
  · simp [summary, pendingClauses, h.pending, h.clauses, Contribution.clauses]
  · simp [h.path, Contribution.path, Contribution.clauses]
  · simp [h.trace, Contribution.trace]
  · intro call hc
    rw [h.pending] at hc
    exact .inl hc

theorem Contributed.trans {t u w : Tracer} {c : Contribution} (h : t.Contributed u .nothing)
    (h' : u.Contributed w c) : t.Contributed w c := by
  refine ⟨?_, ?_, ?_, h.concrete.trans h'.concrete, h.origins.trans h'.origins, ?_,
    h'.program.trans h.program⟩
  · rw [h'.clauses, h.clauses]; simp [Contribution.clauses]
  · rw [h'.path, h.path]; simp [Contribution.path, Contribution.clauses]
  · rw [h'.trace, h.trace]; simp [Contribution.trace]
  · intro call hc
    rcases h'.pending call hc with hu | hu
    · rcases h.pending call hu with ht | ⟨_, _, ht⟩
      · exact .inl ht
      · cases ht
    · exact .inr hu

/-- There is an active frame, and the method of the instruction has a body with its block: adding
the instruction to the trace succeeds. -/
structure Traces (t : Tracer) (i : Instruction) : Prop where
  frames : t.frames ≠ []
  hosts : t.program.Hosts i

theorem traces_outline {t : Tracer} {i : Instruction} : t.outline.Traces i ↔ t.Traces i := by
  have hframes : t.outline.frames = t.frames.modifyHead Frame.unbound := rfl
  have hiff : t.outline.frames ≠ [] ↔ t.frames ≠ [] := by
    rw [hframes]; cases t.frames <;> simp
  exact ⟨fun h => ⟨hiff.mp h.frames, h.hosts⟩, fun h => ⟨hiff.mpr h.frames, h.hosts⟩⟩

namespace Action

variable {α β : Type} {forms : List Contribution.Form} {t o : Tracer}

/-- On the tracer `t` the action makes at most one contribution, of one of the forms, and in a sound
program none if it fails. -/
def Yields (act : Action α) (t : Tracer) (forms : List Contribution.Form) : Prop :=
  ∃ c : Contribution, (∀ form, c.form? = some form → form ∈ forms) ∧
    t.Contributed (act.after t) c ∧ (t.program.Sound → act.Fails t → c = .nothing)

/-- The action yields so on every tracer with the outline `o`. -/
def Contributes (o : Tracer) (act : Action α) (forms : List Contribution.Form) : Prop :=
  ∀ t : Tracer, t.outline = o → act.Yields t forms

theorem Yields.of_nothing {act : Action α} (h : t.Contributed (act.after t) .nothing) :
    act.Yields t forms :=
  ⟨.nothing, nofun, h, fun _ _ => rfl⟩

/-- A contribution that is made by an action that does not fail in a sound program. -/
theorem Yields.of_contribution {act : Action α} {c : Contribution} {form : Contribution.Form}
    (hform : c.form? = some form) (hmem : form ∈ forms) (hc : t.Contributed (act.after t) c)
    (hfail : t.program.Sound → ¬ act.Fails t) : act.Yields t forms := by
  refine ⟨c, fun form' h => ?_, hc, fun hs hf => absurd hf (hfail hs)⟩
  rw [hform] at h
  cases h
  exact hmem

/-- What comes first contributes nothing, so what follows decides. -/
theorem Yields.bind {x : Action α} {f : α → Action β}
    (hx : t.Contributed (x.after t) .nothing)
    (hf : ∀ a u, x t = .ok a u → (f a).Yields u forms) : (x >>= f).Yields t forms := by
  cases h : x t with
  | error e u =>
    refine .of_nothing ?_
    rw [after_bind_of_error h, ← after_of_error h]
    exact hx
  | ok a u =>
    obtain ⟨c, hform, hc, hfail⟩ := hf a u h
    rw [after_of_ok h] at hx
    refine ⟨c, hform, ?_, fun hs hb => hfail ?_ ((fails_bind_of_ok h).mp hb)⟩
    · rw [after_bind_of_ok h]
      exact hx.trans hc
    · rw [hx.program]
      exact hs

namespace Contributes

theorem of_learns {act : Action α} (h : act.Learns) : Contributes o act forms :=
  fun t _ => .of_nothing (h t).contributed

theorem learn {x : Action α} {f : α → Action β} (hx : x.Learns)
    (hf : ∀ a, Contributes o (f a) forms) : Contributes o (x >>= f) forms := fun t ht => by
  have hl := hx t
  refine .bind hl.contributed fun a u h => hf a u ?_
  rw [after_of_ok h] at hl
  exact hl.outline.trans ht

theorem read {x : Action α} {f : α → Action β} (hx : x.Reads)
    (hf : ∀ a, Contributes o (f a) forms) : Contributes o (x >>= f) forms :=
  learn hx.learns hf

theorem lift {r : Result α} {f : α → Action β} (hf : ∀ a, r = .ok a → Contributes o (f a) forms) :
    Contributes o (liftM r >>= f) forms := fun t ht => by
  refine .bind (Learns.lift r t).contributed fun a u h => ?_
  obtain ⟨hr, rfl⟩ := lift_ok h
  exact hf a hr u ht

/-- An instruction that was looked up can be traced. -/
theorem traces_of_anyInstruction {name : String} {i : Instruction} {u : Tracer}
    (h : Action.anyInstruction name t = .ok i u) (hs : t.program.Sound) : t.Traces i := by
  obtain ⟨-, f, fs, b, hfs, hb, hi⟩ := anyInstruction_ok h
  refine ⟨?_, hs.hosts hb hi⟩
  rw [hfs]
  exact List.cons_ne_nil f fs

theorem select {name expected : String} {accept : InstKind → Option α}
    {f : Instruction × α → Action β}
    (hf : ∀ i a, accept i.kind = some a → (o.program.Sound → o.Traces i) →
      Contributes o (f (i, a)) forms) :
    Contributes o (Action.select name expected accept >>= f) forms := fun t ht => by
  refine .bind ((Reads.select name expected accept).learns t).contributed fun (i, a) u h => ?_
  obtain ⟨rfl, hany, ha⟩ := select_ok h
  refine hf i a ha (fun hs => ?_) u ht
  subst ht
  exact traces_outline.mpr (traces_of_anyInstruction hany hs)

end Contributes

end Action

end Tracer

end Concolic
