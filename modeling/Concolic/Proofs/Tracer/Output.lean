import Concolic.Proofs.Tracer.Handler

/-!
# The output of a run

What delivering events does to the summary and the trace of a tracer. An event that enters a method
which answers the pending call takes the call back out of the summary (`deliver_of_answers`). Every
other event makes at most one contribution (`deliver_contributed`). What a whole run keeps follows
from these two.

* `path_eq_filterMap_clauses`: the path is the sequence of the decisions among the clauses.
* `deliver_appends`: output is only ever added, the call that is taken back apart.
* `deliver_error_appends_nothing`: an event that fails adds nothing, and guards are added whole.
* `countP_trace_run`: every call that was traced is stated or answered, and none is both.
-/

namespace Concolic

/-- How many guards an event states, if it states any. -/
def Event.guardCount : Event → Nat
  | .guardNull .. | .guardIndex .. => 1
  | .guardLength .. => 2
  | _ => 0

theorem Event.forms_of_guardCount {e : Event} (h : e.guardCount ≠ 0) :
    e.forms = [.guards e.guardCount] := by
  cases e with
  | guardNull | guardIndex | guardLength => rfl
  | _ => exact absurd rfl h

namespace Tracer

variable {t t' : Tracer} {e : Event}

/-! ## One event -/

theorem summary_clauses_of_some {call : PendingCall} (h : t.pending = some call) :
    t.summary.clauses = t.clauses ++ [.state call.instruction call.predicate] := by
  simp [summary, pendingClauses, h]

/-- That a tracer is aborted is no output. -/
theorem Contributed.abort {c : Contribution} (h : t.Contributed t' c) (b : Bool) :
    t.Contributed { t' with aborted := b } c :=
  ⟨h.clauses, h.path, h.trace, h.concrete, h.origins, h.pending, h.program⟩

/-- An event that answers the pending call succeeds and takes the call back. -/
theorem deliver_of_answers (h : t.answers e = true) :
    ∃ call frames, t.pending = some call ∧ t.deliver e =
      (.ok (), { t with frames, pending := none, callTrace := t.callTrace.tail }) := by
  cases e with
  | methodEnter spelling receiver args =>
    obtain ⟨ha, hs⟩ : t.aborted = false ∧ t.accepts spelling = true := by
      simpa [answers] using h
    obtain ⟨call, m, hc, hok⟩ := Action.enter_of_accepts args hs
    refine ⟨call, { Frame.enter m call.receiver with values := Action.inlined m call } :: t.frames,
      hc, ?_⟩
    rw [deliver, if_neg (by simp [ha]), handle, hok]
  | _ => cases h

/-- An event that does not answer the pending call makes at most one contribution of its forms, and
in a sound program none if it fails. -/
theorem deliver_contributed (h : t.answers e = false) :
    ∃ c : Contribution, (∀ form, c.form? = some form → form ∈ e.forms) ∧
      t.Contributed (t.deliver e).2 c ∧
      (t.program.Sound → ∀ failure, (t.deliver e).1 = .error failure → c = .nothing) := by
  unfold deliver
  cases ha : t.aborted with
  | true => exact ⟨.nothing, nofun, (Learned.refl t).contributed, fun _ _ _ => rfl⟩
  | false =>
    obtain ⟨c, hform, hc, hfail⟩ := handle_yields t ha e h
    refine ⟨c, hform, ?_⟩
    cases hr : handle e t with
    | ok _ u =>
      rw [Action.after_of_ok hr] at hc
      exact ⟨hc, nofun⟩
    | error cause u =>
      rw [Action.after_of_error hr] at hc
      exact ⟨hc.abort _, fun hs _ _ => hfail hs ⟨cause, u, hr⟩⟩

theorem deliver_program (t : Tracer) (e : Event) : (t.deliver e).2.program = t.program := by
  cases h : t.answers e with
  | true =>
    obtain ⟨call, frames, -, hd⟩ := deliver_of_answers h
    rw [hd]
  | false =>
    obtain ⟨c, -, hc, -⟩ := deliver_contributed h
    exact hc.program

theorem run_program (t : Tracer) (es : List Event) : (t.run es).program = t.program := by
  induction es generalizing t with
  | nil => rfl
  | cons e es ih => exact (ih (t.deliver e).2).trans (deliver_program t e)

/-! ## The path -/

/-- The path is the sequence of the decisions among the clauses. -/
def PathAgrees (t : Tracer) : Prop := t.path = t.summary.clauses.filterMap Clause.path?

theorem PathAgrees.deliver (h : t.PathAgrees) (e : Event) : (t.deliver e).2.PathAgrees := by
  unfold PathAgrees at h ⊢
  cases ha : t.answers e with
  | true =>
    obtain ⟨call, frames, hcall, hd⟩ := deliver_of_answers ha
    rw [summary_clauses_of_some hcall, List.filterMap_append] at h
    rw [hd, summary_clauses_of_none rfl]
    exact h.trans (List.append_nil _)
  | false =>
    obtain ⟨c, -, hc, -⟩ := deliver_contributed ha
    rw [hc.path, hc.clauses, List.filterMap_append, h]
    rfl

theorem PathAgrees.run (h : t.PathAgrees) (es : List Event) : (t.run es).PathAgrees := by
  induction es generalizing t with
  | nil => exact h
  | cons e es ih => exact ih (h.deliver e)

/-- The path of a summary is the sequence of the decisions among its clauses. So a cut that keeps
all clauses keeps the path. -/
theorem path_eq_filterMap_clauses (p : Program) (config : Config) (dispatch : Dispatch)
    (es : List Event) :
    let s := ((new p config dispatch).run es).summary
    s.path = s.clauses.filterMap Clause.path? ∧
      ∀ n, (s.cut 0 (s.clauses.length + n)).path = s.path := by
  intro s
  have hs : s.path = s.clauses.filterMap Clause.path? :=
    PathAgrees.run (t := new p config dispatch) rfl es
  refine ⟨hs, fun n => ?_⟩
  have hslice : Summary.slice 0 (s.clauses.length + n) s.clauses = s.clauses := by
    rw [Summary.slice, List.take_of_length_le (Nat.le_add_right _ n), List.drop_zero]
  rw [Summary.cut, hslice, hs]

/-! ## Append-only output -/

/-- No record is lost and no decision. The clauses are those from before and what was added, unless
the event enters a method that answers the pending call: then the clause of the call is gone. -/
theorem deliver_appends (t : Tracer) (e : Event) :
    let t' := (t.deliver e).2
    t.summary.path <+: t'.summary.path ∧
      t.summary.concrete.Within t'.summary.concrete ∧
      t.summary.origins.Within t'.summary.origins ∧
      if t.answers e then
        ∃ call, t.pending = some call ∧
          t.summary.clauses = t'.summary.clauses ++ [.state call.instruction call.predicate]
      else t.summary.clauses <+: t'.summary.clauses := by
  intro t'
  cases ha : t.answers e with
  | true =>
    obtain ⟨call, frames, hcall, hd⟩ := deliver_of_answers ha
    simp only [t', hd]
    refine ⟨List.prefix_rfl, .refl _, .refl _, call, hcall, ?_⟩
    rw [summary_clauses_of_some hcall, summary_clauses_of_none rfl]
  | false =>
    obtain ⟨c, -, hc, -⟩ := deliver_contributed ha
    refine ⟨?_, hc.concrete, hc.origins, ?_⟩
    · exact ⟨c.path, hc.path.symm⟩
    · exact ⟨c.clauses, hc.clauses.symm⟩

/-! ## Failed events -/

/-- An event that states guards answers no call. -/
theorem answers_of_guardCount (h : e.guardCount ≠ 0) : t.answers e = false := by
  cases e with
  | methodEnter => exact absurd rfl h
  | _ => rfl

/-- In a sound program a failed event adds nothing to the output. -/
theorem deliver_error {failure : Failure} (hs : t.program.Sound)
    (h : (t.deliver e).1 = .error failure) : t.Contributed (t.deliver e).2 .nothing := by
  cases ha : t.answers e with
  | true =>
    obtain ⟨call, frames, -, hd⟩ := deliver_of_answers ha
    rw [hd] at h
    cases h
  | false =>
    obtain ⟨c, -, hc, hfail⟩ := deliver_contributed ha
    rwa [hfail hs failure h] at hc

/-- Guards are stated all together or not at all, each with its definition and its decision. -/
theorem deliver_guards (t : Tracer) (h : e.guardCount ≠ 0) :
    ∃ gs : List Guard, (gs = [] ∨ gs.length = e.guardCount) ∧
      t.Contributed (t.deliver e).2 (.guards gs) := by
  obtain ⟨c, hform, hc, -⟩ := deliver_contributed (t := t) (answers_of_guardCount h)
  rw [Event.forms_of_guardCount h] at hform
  cases c with
  | nothing =>
    exact ⟨[], .inl rfl, hc.clauses, hc.path, hc.trace, hc.concrete, hc.origins,
      fun call h => .inl ((hc.pending call h).resolve_right nofun), hc.program⟩
  | guards gs =>
    have hlength := List.mem_singleton.mp (hform _ rfl)
    exact ⟨gs, .inr (Contribution.Form.guards.inj hlength), hc⟩
  | _ => cases List.mem_singleton.mp (hform _ rfl)

/-- In a program that was built, an event that fails leaves the clauses, the path and the trace as
they were. Whatever becomes of an event that states guards, it states all of them or none. -/
theorem deliver_error_appends_nothing {p : Program} (hp : p.Built) (config : Config)
    (dispatch : Dispatch) (es : List Event) (e : Event) :
    let t := (new p config dispatch).run es
    let t' := (t.deliver e).2
    (∀ failure, (t.deliver e).1 = .error failure →
      t'.summary.clauses = t.summary.clauses ∧ t'.summary.path = t.summary.path ∧
        t'.trace = t.trace) ∧
    (e.guardCount ≠ 0 → ∃ gs : List Guard, (gs = [] ∨ gs.length = e.guardCount) ∧
      t'.summary.clauses = t.summary.clauses ++ gs.flatMap Guard.clauses) := by
  intro t t'
  refine ⟨fun failure h => ?_, fun h => ?_⟩
  · have hs : t.program.Sound := by
      rw [run_program]
      exact hp.sound
    have hc := deliver_error hs h
    refine ⟨?_, ?_, ?_⟩
    · exact hc.clauses.trans (List.append_nil _)
    · exact hc.path.trans (List.append_nil _)
    · exact hc.trace.trans (List.append_nil _)
  · obtain ⟨gs, hgs, hc⟩ := deliver_guards t h
    exact ⟨gs, hgs, hc.clauses⟩

/-- A program with a method that takes an object and returns. -/
def skipProgram : Program :=
  let method := Method.new "app/Main" "skip" ⟨[.ofClassName "java/lang/Object"], .void⟩
    Method.staticFlag
  match ((Body.Builder.new method none).addBlock "entry").addInstruction 0 "return" .ret none with
  | .ok b => Program.empty.addBody b.body
  | .error _ => Program.empty

theorem built_skipProgram : skipProgram.Built := by
  unfold skipProgram
  dsimp only
  split
  · next b hb => exact .addBody .empty ⟨b, .addInstruction (.addBlock _ (.new _ _)) hb, rfl⟩
  · exact .empty

/-- The parameter is an object: the guard that it is not null is stated, and the guards that it is a
length of an array fail without a trace. -/
theorem deliver_error_appends_nothing_skipProgram :
    let t := (new skipProgram .standard .virtual).run
      [.methodEnter ⟨"app/Main", "skip", ["Ljava/lang/Object;"], "V"⟩ none [.null]]
    let null : Event := .guardNull "return" ⟨"arg$0", .null⟩
    let length : Event := .guardLength "return" ⟨"arg$0", .int 3⟩
    let u := (t.deliver null).2
    let v := (u.deliver length).2
    skipProgram.Built ∧ null.guardCount ≠ 0 ∧ u.summary.clauses.length = 2 ∧
      (∃ gs : List Guard, (gs = [] ∨ gs.length = null.guardCount) ∧
        u.summary.clauses = t.summary.clauses ++ gs.flatMap Guard.clauses) ∧
      ∃ failure, (u.deliver length).1 = .error failure ∧
        v.summary.clauses = u.summary.clauses ∧ v.summary.path = u.summary.path ∧
        v.trace = u.trace := by
  intro t null length u v
  have hnull : null.guardCount ≠ 0 := by decide
  have hfails : (u.deliver length).1.isOk = false := by decide +kernel
  refine ⟨built_skipProgram, hnull, by decide +kernel, ?_, ?_⟩
  · exact (deliver_error_appends_nothing built_skipProgram .standard .virtual [_] null).2 hnull
  · cases hr : (u.deliver length).1 with
    | ok => rw [hr] at hfails; cases hfails
    | error failure =>
      exact ⟨failure, rfl, (deliver_error_appends_nothing built_skipProgram .standard .virtual
        [_, null] length).1 failure hr⟩

/-! ## Calls -/

/-- How many of the events enter a method that answers the call that is pending then. -/
def answered (t : Tracer) : List Event → Nat
  | [] => 0
  | e :: es => (if t.answers e then 1 else 0) + (t.deliver e).2.answered es

/-- How many calls were traced. -/
def tracedCalls (t : Tracer) : Nat := t.trace.countP Instruction.isCall

/-- How many calls the summary states, the pending one included. -/
def statedCalls (t : Tracer) : Nat := t.summary.clauses.countP (·.predicate.isCall)

/-- What is pending is a call. -/
def PendingIsCall (t : Tracer) : Prop := ∀ call, t.pending = some call → call.predicate.isCall

theorem PendingIsCall.deliver (h : t.PendingIsCall) (e : Event) :
    (t.deliver e).2.PendingIsCall := by
  intro call hcall
  cases ha : t.answers e with
  | true =>
    obtain ⟨_, frames, -, hd⟩ := deliver_of_answers ha
    rw [hd] at hcall
    cases hcall
  | false =>
    obtain ⟨c, -, hc, -⟩ := deliver_contributed ha
    rcases hc.pending call hcall with ht | ⟨_, hp, -⟩
    · exact h call ht
    · exact hp

/-- A call that is traced is stated as well, and is stated until a method answers it. -/
theorem deliver_calls (h : t.PendingIsCall) (e : Event) :
    (t.deliver e).2.tracedCalls + t.statedCalls =
      t.tracedCalls + (t.deliver e).2.statedCalls + if t.answers e then 1 else 0 := by
  unfold tracedCalls statedCalls
  cases ha : t.answers e with
  | true =>
    obtain ⟨call, frames, hcall, hd⟩ := deliver_of_answers ha
    have hlast : [Clause.state call.instruction call.predicate].countP (·.predicate.isCall) = 1 :=
      by simp [Clause.predicate, h call hcall]
    rw [hd, summary_clauses_of_some hcall, summary_clauses_of_none rfl, List.countP_append, hlast,
      if_pos rfl]
    exact (Nat.add_assoc _ _ _).symm
  | false =>
    obtain ⟨c, -, hc, -⟩ := deliver_contributed ha
    rw [hc.trace, hc.clauses, List.countP_append, List.countP_append, c.countP_trace,
      if_neg Bool.false_ne_true]
    omega

theorem run_calls (h : t.PendingIsCall) (es : List Event) :
    (t.run es).tracedCalls + t.statedCalls =
      t.tracedCalls + (t.run es).statedCalls + t.answered es := by
  induction es generalizing t with
  | nil => rw [answered, run, List.foldl_nil]; rfl
  | cons e es ih =>
    have hstep := deliver_calls h e
    have hrest := ih (h.deliver e)
    rw [run, List.foldl_cons, answered, ← run]
    omega

/-- Every call that was traced is either stated or was answered by a method. -/
theorem countP_trace_run (p : Program) (config : Config) (dispatch : Dispatch)
    (es : List Event) :
    let t := (new p config dispatch).run es
    t.trace.countP Instruction.isCall =
      t.summary.clauses.countP (·.predicate.isCall) + (new p config dispatch).answered es := by
  intro t
  have h := run_calls (t := new p config dispatch) (fun _ h => nomatch h) es
  have htraced : (new p config dispatch).tracedCalls = 0 := rfl
  have hstated : (new p config dispatch).statedCalls = 0 := rfl
  rw [htraced, hstated, Nat.add_zero, Nat.zero_add] at h
  exact h

end Tracer

end Concolic
