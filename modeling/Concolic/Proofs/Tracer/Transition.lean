import Concolic.Proofs.Tracer.Follow

/-!
# The transitions of a tracer

Everything that one event can do to a tracer, in one place.

* `Tracer.Counts t e s`: the event is acted on, and `s` is the tracer at which this begins.
* `Tracer.Handled t e ok u`: the ways in which an event takes `t` to `u`, with success or without.
  Every event is handled in one of them (`handle_handled`), so a law of all runs needs one case for
  each of them. `deliver_keep` and `deliver_of_ok` carry it over to the delivery of the event.
-/

namespace Concolic.Tracer

variable {t u : Tracer} {e : Event} {name : String}

/-- The tracer at which an instruction that counts is acted on: the pending call is a clause, and
there is no call to come back to. -/
def resumed (t : Tracer) : Tracer := { t.flushed with callTrace := [] }

/-- A pending call becomes a clause that the summary has already. -/
theorem summary_flushed (t : Tracer) : t.flushed.summary = t.summary := by
  show ({ t.summary with clauses := (t.clauses ++ t.pendingClauses) ++ [] } : Summary) = _
  rw [List.append_nil]
  rfl

/-- The tracer after a method was entered that answers the pending call. -/
def answering (t : Tracer) (m : Method) (call : PendingCall) : Tracer :=
  { t with
    frames := { Frame.enter m call.receiver with values := Action.inlined m call } :: t.frames
    pending := none
    callTrace := t.callTrace.tail }

/-- The tracer after a method was entered of whose values nothing is known. -/
def pushing (t : Tracer) (m : Method) : Tracer :=
  { t.flushed with frames := Frame.enter m none :: t.frames }

/-- The event is acted on from the tracer `s` on. -/
inductive Counts (t : Tracer) : Event → Tracer → Prop
  | instruction {e : Event} {name : String} {u : Tracer} (hname : e.subject? = some name)
      (hcaught : e.isCaught = false) (hu : t.Followed name u) (hcalls : u.callTrace = []) :
      Counts t e t.resumed
  | caught {exception : Operand} {thrown : Ty} (htype : exception.observed.type? = some thrown)
      (hframes : (t.unwoundBy thrown).frames ≠ []) (hcalls : (t.unwoundBy thrown).callTrace = []) :
      Counts t (.caught exception) (t.unwoundBy thrown)

/-- The event takes the tracer to `u`, and `ok` says whether it succeeds. -/
inductive Handled (t : Tracer) : Event → Bool → Tracer → Prop
  | refused {e : Event} : Handled t e false t
  | answered {spelling : MethodSpelling} {receiver : Option Observed} {args : List Observed}
      {m : Method} {call : PendingCall} (hcall : t.pending = some call)
      (hm : t.program.method spelling.owner spelling.name spelling.args spelling.ret = .ok m)
      (hdispatch : t.dispatch t.program.hierarchy m call.method = true) :
      Handled t (.methodEnter spelling receiver args) true (t.answering m call)
  | pushed {spelling : MethodSpelling} {receiver : Option Observed} {args : List Observed}
      {m : Method}
      (hm : t.program.method spelling.owner spelling.name spelling.args spelling.ret = .ok m)
      (hforeign : t.accepts spelling = false) (hcalls : t.pending.isSome ∨ t.callTrace ≠ []) :
      Handled t (.methodEnter spelling receiver args) true (t.pushing m)
  | entered {spelling : MethodSpelling} {receiver : Option Observed} {args : List Observed}
      {m : Method} {u : Tracer} (hpending : t.pending = none) (hcalls : t.callTrace = [])
      (hm : t.program.method spelling.owner spelling.name spelling.args spelling.ret = .ok m)
      (hu : Action.defineAll m.parameters.2 args (t.pushing m) = .ok () u) :
      Handled t (.methodEnter spelling receiver args) true u
  | nullException {exception : Operand} : Handled t (.caught exception) false t.flushed
  | uncaught {exception : Operand} {thrown : Ty} (htype : exception.observed.type? = some thrown)
      (hframes : (t.unwoundBy thrown).frames = []) :
      Handled t (.caught exception) false (t.unwoundBy thrown)
  | unwound {exception : Operand} {thrown : Ty} (htype : exception.observed.type? = some thrown)
      (hcalls : (t.unwoundBy thrown).callTrace ≠ []) :
      Handled t (.caught exception) true (t.unwoundBy thrown)
  | skipped {e : Event} {name : String} {u : Tracer} (hname : e.subject? = some name)
      (hcaught : e.isCaught = false) (hu : t.Followed name u) (hcalls : u.callTrace ≠ []) :
      Handled t e true u.flushed
  | acted {e : Event} {s w u : Tracer} (hs : t.Counts e s) (hw : Event.Opened s e w)
      (hu : w.Changed u) : Handled t e true u
  | failed {e : Event} {s w u : Tracer} (hs : t.Counts e s) (hw : w = s ∨ Event.Opened s e w)
      (hu : w.Changed u) : Handled t e false u
  | notCalled {name : String} {spelling : MethodSpelling} {result callee : Option String}
      {arguments : List String} {observed : List Observed} {w u : Tracer}
      (hs : t.Counts (.call name spelling result callee arguments observed) t.resumed)
      (hw : t.resumed.Receiving w) (hu : w.Changed u) :
      Handled t (.call name spelling result callee arguments observed) false u
  | called {name : String} {spelling : MethodSpelling} {result callee : Option String}
      {arguments : List String} {observed : List Observed} {ok : Bool} {w u v : Tracer}
      {call : PendingCall} {next : Instruction}
      (hs : t.Counts (.call name spelling result callee arguments observed) t.resumed)
      (hw : t.resumed.Receiving w) (hu : w.Changed u)
      (hmade : u.Made name spelling result callee arguments call)
      (hv : (u.calling call next).Changed v)
      (hx : ∀ x ∈ call.predicate.operands, u.Expresses x) :
      Handled t (.call name spelling result callee arguments observed) ok v
  | returned {name : String} {result : Option String} {o : Observed} {i : Instruction} {f : Frame}
      {callers : List Frame} {v : Option Value} (hs : t.Counts (.ret name result o) t.resumed)
      (hi : t.instruction? name = some i) (hframes : t.frames = f :: callers)
      (hv : Option.Rel (fun n v => t.value? n = some v) result v) :
      Handled t (.ret name result o) true (t.resumed.returned i f callers v o)

/-- An instruction that counts is acted on with the frames as they are. -/
theorem Followed.flushed_eq_resumed (h : t.Followed name u) (hcalls : u.callTrace = []) :
    u.flushed = t.resumed := by
  unfold resumed
  rw [← hcalls]
  cases h with
  | idle | unknown | back => rfl
  | again => cases hcalls
  | left h | within h => rw [h] at hcalls; cases hcalls

/-- The tracer `u` differs from `t` at most in where the execution is. -/
structure Passed (t u : Tracer) : Prop where
  summary : u.summary = t.summary
  typed : u.typeChecked = t.typeChecked

/-- An event of an instruction that counts is acted on, any other event is passed over. -/
theorem Action.start_after (name : String) (act : Action Unit) (t : Tracer) :
    t.Passed ((start name act).after t) ∨ (start name act).after t = act.after t.resumed := by
  rcases start_cases name act t with ⟨cause, hr⟩ | ⟨u, hu, ⟨hcalls, hr⟩ | ⟨hcalls, hr⟩⟩
  · rw [after_of_error hr]
    exact .inl ⟨rfl, rfl⟩
  · rw [after_of_ok hr]
    refine .inl ⟨(summary_flushed u).trans ?_, ?_⟩
    · cases hu <;> rfl
    · cases hu <;> rfl
  · unfold after
    rw [hr, hu.flushed_eq_resumed hcalls]
    exact .inr rfl

/-! ## Positions -/

theorem Counts.pending {s : Tracer} (h : t.Counts e s) : s.pending = none := by
  cases h <;> rfl

theorem Counts.callTrace {s : Tracer} (h : t.Counts e s) : s.callTrace = [] := by
  cases h with
  | instruction => rfl
  | caught _ _ hcalls => exact hcalls

theorem returned_eq (t : Tracer) (i : Instruction) (f : Frame) (callers : List Frame)
    (v : Option Value) (o : Observed) :
    ∃ names origins concrete clauses trace, t.returned i f callers v o =
      { t with names, origins, concrete, clauses, trace, frames := callers } := by
  unfold returned
  cases v with
  | none => exact ⟨_, _, _, _, _, rfl⟩
  | some v =>
    obtain ⟨names, frames, heq⟩ := Action.reading_eq t f callers v
    dsimp only [Option.elim]
    rw [heq]
    cases f.receiver <;> exact ⟨_, _, _, _, _, rfl⟩

/-- The position after an event that is acted on, unless it calls or returns. -/
theorem position_of_begun {s w : Tracer} (hw : w = s ∨ Event.Opened s e w) (hu : w.Changed u) :
    u.position = s.position := by
  rw [hu.position]
  rcases hw with rfl | hw
  · rfl
  · exact opened_position hw

theorem opened_fixed {w : Tracer} (h : Event.Opened t e w) : w.fixed = t.fixed := by
  cases h with
  | same => rfl
  | defined => exact issued_fixed t _
  | caught =>
    unfold catching
    split
    · rfl
    · exact issued_fixed t _

/-! ## All events are handled -/

namespace Action

variable {spelling : MethodSpelling} {args : List Observed} {m : Method}

/-- Defining parameters succeeds in a frame, each on its own. -/
theorem defineAll_keep {P : Tracer → Prop} (vs : List Value) (os : List Observed)
    (hstep : ∀ {t : Tracer} {f : Frame} {fs : List Frame} (v : Value) (o : Observed),
      t.frames = f :: fs → P t → P (t.defining f fs v (some o)))
    {f : Frame} {fs : List Frame} (hframes : t.frames = f :: fs) (ht : P t) :
    ∃ u, defineAll vs os t = .ok () u ∧ P u := by
  induction vs generalizing os t f with
  | nil => exact ⟨t, rfl, ht⟩
  | cons v vs ih =>
    cases os with
    | nil => exact ⟨t, rfl, ht⟩
    | cons o os =>
      have hnext : (t.defining f fs v (some o)).frames =
          { f with values := f.values.insert v (t.fresh v) } :: fs := rfl
      obtain ⟨u, hu, hP⟩ := ih os hnext (hstep v o hframes ht)
      refine ⟨u, ?_, hP⟩
      rw [defineAll, bind_apply, define_run ⟨v, o⟩ hframes]
      exact hu

/-- What every definition keeps is kept when a method is entered from outside. -/
theorem entered_keep {P : Tracer → Prop} {vs : List Value} {os : List Observed}
    (hu : defineAll vs os (t.pushing m) = .ok () u)
    (hstep : ∀ {t : Tracer} {f : Frame} {fs : List Frame} (v : Value) (o : Observed),
      t.frames = f :: fs → P t → P (t.defining f fs v (some o)))
    (ht : P (t.pushing m)) : P u := by
  obtain ⟨u', hu', hP⟩ := defineAll_keep vs os hstep rfl ht
  rw [hu] at hu'
  cases hu'
  exact hP

theorem enter_of_accepted {call : PendingCall} (hcall : t.pending = some call)
    (hm : t.program.method spelling.owner spelling.name spelling.args spelling.ret = .ok m)
    (hdispatch : t.dispatch t.program.hierarchy m call.method = true) :
    enter spelling args t = .ok () (t.answering m call) := by
  unfold enter
  rw [get_bind, lift_bind_of_ok hm]
  simp only [hcall, if_pos hdispatch]
  rfl

private theorem enter_of_refused {call : PendingCall} (hcall : t.pending = some call)
    (hm : t.program.method spelling.owner spelling.name spelling.args spelling.ret = .ok m)
    (hdispatch : t.dispatch t.program.hierarchy m call.method = false) :
    enter spelling args t = .ok () (t.pushing m) := by
  unfold enter
  rw [get_bind, lift_bind_of_ok hm]
  simp only [hcall, hdispatch, Bool.false_eq_true, if_false]
  rfl

private theorem enter_of_idle (hpending : t.pending = none) (hcalls : t.callTrace = [])
    (hm : t.program.method spelling.owner spelling.name spelling.args spelling.ret = .ok m) :
    enter spelling args t = defineAll m.parameters.2 args (t.pushing m) := by
  have hpush : t.pushing m = { t with frames := Frame.enter m none :: t.frames } := by
    unfold pushing
    rw [flushed_of_none hpending]
  have hempty : t.callTrace.isEmpty = true := by rw [hcalls]; rfl
  unfold enter
  rw [get_bind, lift_bind_of_ok hm, hpush]
  cases hc : t.pending with
  | some call => rw [hpending] at hc; cases hc
  | none =>
    show (if t.callTrace.isEmpty then defineAll m.parameters.2 args else pure ())
      ({ t with frames := Frame.enter m none :: t.frames } : Tracer) = _
    rw [if_pos hempty, hc]

end Action

/-- The result of an event is one of the ways in which it can be handled. -/
def IsHandled (t : Tracer) (e : Event) (r : EStateM.Result Error Tracer Unit) : Prop :=
  match r with
  | .ok _ u => t.Handled e true u
  | .error _ u => t.Handled e false u

namespace Action

/-- Every entry of a method is handled. -/
theorem enter_handled (spelling : MethodSpelling) (receiver : Option Observed)
    (args : List Observed) (t : Tracer) :
    t.IsHandled (.methodEnter spelling receiver args) (enter spelling args t) := by
  cases hm : t.program.method spelling.owner spelling.name spelling.args spelling.ret with
  | error cause =>
    rw [enter_error hm]
    exact .refused
  | ok m =>
    cases hcall : t.pending with
    | some call =>
      cases hdispatch : t.dispatch t.program.hierarchy m call.method with
      | true =>
        rw [enter_of_accepted hcall hm hdispatch]
        exact .answered hcall hm hdispatch
      | false =>
        have hforeign : t.accepts spelling = false := by
          unfold accepts
          rw [hcall, hm]
          exact hdispatch
        rw [enter_of_refused hcall hm hdispatch]
        exact .pushed hm hforeign (.inl (Option.isSome_of_eq_some hcall))
    | none =>
      have hforeign := accepts_of_none hcall spelling
      by_cases hcalls : t.callTrace = []
      · obtain ⟨u, hu, -⟩ := defineAll_keep (P := fun _ => True) (t := t.pushing m)
          m.parameters.2 args (fun _ _ _ _ => trivial) rfl trivial
        rw [enter_of_idle hcall hcalls hm, hu]
        exact .entered hcall hcalls hm hu
      · rw [enter_of_foreign hm hforeign hcalls]
        exact .pushed hm hforeign (.inr hcalls)

/-- An event whose action opens and goes on with changes is handled. -/
theorem does_handled {act : Action Unit} {s : Tracer} (hdoes : e.Does act) (hs : t.Counts e s) :
    t.IsHandled e (act s) := by
  have hbegins := hdoes s
  unfold Begins at hbegins
  cases hact : act s with
  | ok a u =>
    rw [hact] at hbegins
    obtain ⟨⟨w, hw, hu⟩, -⟩ := hbegins
    exact .acted hs hw hu
  | error cause u =>
    rw [hact] at hbegins
    obtain ⟨w, hw, hu⟩ := hbegins
    exact .failed hs hw hu

/-- Every caught exception is handled. -/
theorem caught_handled (exception : Operand) (t : Tracer) :
    t.IsHandled (.caught exception) (caught exception t) := by
  cases htype : exception.observed.type? with
  | none =>
    rw [caught_of_none htype t]
    exact .nullException
  | some thrown =>
    obtain ⟨act, hdoes, hcaught⟩ := caught_does htype
    rw [caught_apply hcaught t]
    by_cases hframes : (t.unwoundBy thrown).frames = []
    · rw [hframes, List.isEmpty_nil, if_pos rfl]
      exact .uncaught htype hframes
    rw [if_neg (by simpa using hframes)]
    by_cases hcalls : (t.unwoundBy thrown).callTrace = []
    · rw [if_pos (by simpa using hcalls)]
      exact does_handled hdoes (.caught htype hframes hcalls)
    · rw [if_neg (by simpa using hcalls)]
      exact .unwound htype hcalls

/-- An event of an instruction is handled if its action is whenever it counts. -/
theorem start_handled {act : Action Unit} (hname : e.subject? = some name)
    (hcaught : e.isCaught = false)
    (hact : t.Counts e t.resumed → t.IsHandled e (act t.resumed)) :
    t.IsHandled e (start name act t) := by
  rcases start_cases name act t with ⟨cause, hr⟩ | ⟨u, hu, ⟨hcalls, hr⟩ | ⟨hcalls, hr⟩⟩
  · rw [hr]
    exact .refused
  · rw [hr]
    exact .skipped hname hcaught hu hcalls
  · rw [hr, hu.flushed_eq_resumed hcalls]
    exact hact (.instruction hname hcaught hu hcalls)

theorem call_handled (name : String) (spelling : MethodSpelling) (result callee : Option String)
    (arguments : List String) (observed : List Observed) (t : Tracer) :
    t.IsHandled (.call name spelling result callee arguments observed)
      (call name spelling result callee arguments observed t) := by
  obtain ⟨act, hstart, hcases⟩ := call_cases name spelling result callee arguments observed
  rw [hstart]
  refine start_handled rfl rfl fun hs => ?_
  obtain ⟨w, hw, ⟨hu, cause, u', hfail⟩ | ⟨u, c, next, hu, hmade, hv, hx⟩⟩ := hcases t.resumed
  · rw [hfail]
    rw [after_of_error hfail] at hu
    exact .notCalled hs hw hu
  · cases hr : act t.resumed with
    | ok a v =>
      rw [after_of_ok hr] at hv
      exact .called hs hw hu hmade hv hx
    | error cause v =>
      rw [after_of_error hr] at hv
      exact .called hs hw hu hmade hv hx

theorem ret_handled (name : String) (result : Option String) (o : Observed) (t : Tracer) :
    t.IsHandled (.ret name result o) (ret name result o t) := by
  obtain ⟨act, hstart, hcases⟩ := ret_cases name result o
  rw [hstart]
  refine start_handled rfl rfl fun hs => ?_
  rcases hcases t.resumed with ⟨cause, u, hr, hu⟩ | ⟨i, f, callers, v, hi, hframes, hv, hr⟩
  · rw [hr]
    exact .failed hs (.inl rfl) hu
  · rw [hr]
    exact .returned hs hi hframes hv

end Action

/-- Every event is handled in one of the ways that are listed. -/
theorem handle_handled (e : Event) (t : Tracer) : t.IsHandled e (handle e t) := by
  rcases event_cases e with
    ⟨spelling, receiver, args, rfl⟩ | ⟨exception, rfl⟩ | ⟨name, hname, hcaught⟩
  · exact Action.enter_handled spelling receiver args t
  · exact Action.caught_handled exception t
  · cases hread : e.isReadable with
    | false =>
      obtain ⟨cause, hr⟩ := handle_unreadable hread t
      rw [hr]
      exact .refused
    | true =>
      cases hcall : e.isCall with
      | true =>
        cases e with
        | call => exact Action.call_handled _ _ _ _ _ _ t
        | _ => cases hcall
      | false =>
        cases hret : e.isRet with
        | true =>
          cases e with
          | ret => exact Action.ret_handled _ _ _ t
          | _ => cases hret
        | false =>
          obtain ⟨act, hstart, hdoes⟩ := handle_does hname hcaught hcall hret hread
          rw [hstart]
          exact Action.start_handled hname hcaught fun hs => Action.does_handled hdoes hs

/-- What an event leaves is what its handling leaves, apart from whether a failure was fatal. -/
theorem deliver_handled (ha : t.aborted = false) (e : Event) :
    (∃ u, t.deliver e = (.ok (), u) ∧ t.Handled e true u) ∨
      ∃ cause u, t.deliver e = (.error ⟨e.task, cause⟩, { u with aborted := cause.isFatal }) ∧
        t.Handled e false u := by
  have h := handle_handled e t
  unfold deliver
  rw [ha, if_neg Bool.false_ne_true]
  cases hr : handle e t with
  | ok _ u => rw [hr] at h; exact .inl ⟨u, rfl, h⟩
  | error cause u => rw [hr] at h; exact .inr ⟨cause, u, rfl, h⟩

/-- What every way to handle an event leads to, and does not depend on whether the tracer is
aborted, holds after the delivery of the event. -/
theorem deliver_keep {P : Tracer → Prop} (e : Event) (ht : P t)
    (hhandled : ∀ ok u, t.Handled e ok u → P u)
    (habort : ∀ (u : Tracer) (fatal : Bool), P u → P { u with aborted := fatal }) :
    P (t.deliver e).2 := by
  cases ha : t.aborted with
  | true =>
    unfold deliver
    rw [if_pos ha]
    exact ht
  | false =>
    rcases deliver_handled ha e with ⟨u, hd, hu⟩ | ⟨cause, u, hd, hu⟩
    · rw [hd]
      exact hhandled true u hu
    · rw [hd]
      exact habort u cause.isFatal (hhandled false u hu)

theorem deliver_of_ok (h : (t.deliver e).1 = .ok ()) : t.Handled e true (t.deliver e).2 := by
  cases ha : t.aborted with
  | true =>
    unfold deliver at h
    rw [if_pos ha] at h
    cases h
  | false =>
    rcases deliver_handled ha e with ⟨u, hd, hu⟩ | ⟨cause, u, hd, -⟩
    · rw [hd]
      exact hu
    · rw [hd] at h
      cases h

/-! ## What a tracer is made with -/

theorem Counts.fixed {s : Tracer} (h : t.Counts e s) : s.fixed = t.fixed := by
  cases h <;> rfl

theorem Receiving.fixed {w : Tracer} (h : t.Receiving w) : w.fixed = t.fixed := by
  rcases h with rfl | ⟨v, f, fs, -, rfl⟩
  · rfl
  · exact issued_fixed t v

theorem Handled.fixed {ok : Bool} (h : t.Handled e ok u) : u.fixed = t.fixed := by
  cases h with
  | refused | answered | pushed | nullException | uncaught | unwound => rfl
  | entered _ _ _ hu =>
    exact Action.entered_keep (P := fun w => w.fixed = t.fixed) hu
      (fun v _ _ h => (issued_fixed _ v).trans h) rfl
  | skipped _ _ hu => cases hu <;> rfl
  | acted hs hw hu => exact hu.fixed.trans ((opened_fixed hw).trans hs.fixed)
  | failed hs hw hu =>
    rcases hw with rfl | hw
    · exact hu.fixed.trans hs.fixed
    · exact hu.fixed.trans ((opened_fixed hw).trans hs.fixed)
  | notCalled hs hw hu => exact hu.fixed.trans (hw.fixed.trans hs.fixed)
  | called hs hw hu _ hv =>
    have hcalling := hu.fixed.trans (hw.fixed.trans hs.fixed)
    exact hv.fixed.trans hcalling
  | returned =>
    obtain ⟨_, _, _, _, _, heq⟩ := returned_eq t.resumed _ _ _ _ _
    rw [heq]
    rfl

theorem Handled.setup {ok : Bool} (h : t.Handled e ok u) : u.setup = t.setup :=
  congrArg Prod.fst h.fixed

theorem run_setup (t : Tracer) (es : List Event) : (t.run es).setup = t.setup := by
  induction es generalizing t with
  | nil => rfl
  | cons e es ih =>
    refine (ih (t.deliver e).2).trans ?_
    exact deliver_keep (P := fun u => u.setup = t.setup) e rfl (fun _ _ h => h.setup)
      fun _ _ h => h

end Concolic.Tracer
