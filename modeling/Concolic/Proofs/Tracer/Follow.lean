import Concolic.Proofs.Tracer.Handling

/-!
# Following the execution

What one event does to the position of an execution.

* `Tracer.Followed t name u`: the ways in which `follow` takes the name of an instruction. It goes
  on as described there or fails and changes nothing (`follow_cases`).
* `start_cases`: an event that counts is acted on, any other only followed.
* `enter_ok`, `enter_of_foreign`: a method that is entered comes on top of the stack.
* `caught_of_some`: an exception unwinds the frames and only takes calls off the call trace
  (`unwound_callTrace`), and what it does then leaves the position alone.
* `Position.Grounded`: the calls to come back to are calls of the program with the instruction after
  them, and a pending call is the only one of them. It holds in every run (`grounded_run`).
-/

namespace Concolic

namespace Tracer

variable {t u : Tracer} {name : String} {e : Event}

/-! ## Names of instructions -/

/-- The tracer `u` is `t` after it has seen the name of an instruction: `idle`, `unknown` and
`within` change nothing, `again` repeats the suppressed call, `back` is back after it, and `left`
leaves a method by its return. -/
inductive Followed (t : Tracer) (name : String) : Tracer → Prop
  | idle (hcalls : t.callTrace = []) : Followed t name t
  | unknown (hname : t.instruction? name = none) : Followed t name t
  | again {top : CallSite} {rest : List CallSite} {i : Instruction}
      (hcalls : t.callTrace = top :: rest) (hname : t.instruction? name = some i)
      (hcall : (i == top.call) = true) :
      Followed t name { t with callTrace := top :: top :: rest }
  | back {top : CallSite} {rest : List CallSite} {i : Instruction}
      (hcalls : t.callTrace = top :: rest) (hname : t.instruction? name = some i)
      (hcall : (i == top.call) = false) (hnext : (i == top.next) = true) :
      Followed t name { t with callTrace := rest }
  | left {top : CallSite} {rest : List CallSite} {i : Instruction} {f : Frame} {fs : List Frame}
      (hcalls : t.callTrace = top :: rest) (hname : t.instruction? name = some i)
      (hcall : (i == top.call) = false) (hnext : (i == top.next) = false)
      (hret : i.isReturn = true) (hframes : t.frames = f :: fs) (hmethod : f.method = i.method) :
      Followed t name { t with frames := fs }
  | within {top : CallSite} {rest : List CallSite} {i : Instruction}
      (hcalls : t.callTrace = top :: rest) (hname : t.instruction? name = some i)
      (hcall : (i == top.call) = false) (hnext : (i == top.next) = false)
      (hret : i.isReturn = false) : Followed t name t

/-- Following only repeats or removes calls. -/
theorem Followed.mem_callTrace (h : t.Followed name u) {site : CallSite}
    (hsite : site ∈ u.callTrace) : site ∈ t.callTrace := by
  cases h with
  | idle | unknown | within | left => exact hsite
  | again hcalls =>
    rw [hcalls]
    simpa using hsite
  | back hcalls =>
    rw [hcalls]
    exact List.mem_cons_of_mem _ hsite

theorem Followed.program (h : t.Followed name u) : u.program = t.program := by
  cases h <;> rfl

/-- The tracer after an exception has unwound its frames. -/
def unwoundBy (t : Tracer) (thrown : Ty) : Tracer :=
  let left := Action.unwound t.flushed thrown t.frames t.callTrace
  { t.flushed with frames := left.1, callTrace := left.2 }

theorem accepts_of_none (h : t.pending = none) (spelling : MethodSpelling) :
    t.accepts spelling = false := by
  unfold accepts
  rw [h]

namespace Action

theorem follow_apply (name : String) (t : Tracer) :
    follow name t = (match t.callTrace, t.instruction? name with
      | top :: rest, some current =>
        if current == top.call then set { t with callTrace := top :: top :: rest }
        else if current == top.next then set { t with callTrace := rest }
        else if current.isReturn then
          match t.frames with
          | [] => broken (.returnWithoutFrame current.text)
          | f :: fs =>
            if f.method = current.method then set { t with frames := fs }
            else broken (.foreignReturn current.text f.method.key)
        else pure ()
      | _, _ => pure () : Action Unit) t := rfl

theorem follow_of_followed (h : t.Followed name u) : follow name t = .ok () u := by
  rw [follow_apply]
  cases h with
  | idle hcalls => rw [hcalls]; rfl
  | unknown hname =>
    rw [hname]
    cases t.callTrace <;> rfl
  | again hcalls hname hcall =>
    simp only [hcalls, hname, if_pos hcall]
    rfl
  | back hcalls hname hcall hnext =>
    simp only [hcalls, hname, hcall, Bool.false_eq_true, if_false, if_pos hnext]
    rfl
  | left hcalls hname hcall hnext hret hframes hmethod =>
    simp only [hcalls, hname, hcall, hnext, Bool.false_eq_true, if_false, if_pos hret, hframes,
      if_pos hmethod]
    rfl
  | within hcalls hname hcall hnext hret =>
    simp only [hcalls, hname, hcall, hnext, hret, Bool.false_eq_true, if_false]
    rfl

/-- Following goes on in one of its ways or fails and changes nothing. -/
theorem follow_cases (name : String) (t : Tracer) :
    (∃ u, t.Followed name u) ∨ ∃ cause, follow name t = .error cause t := by
  cases hcalls : t.callTrace with
  | nil => exact .inl ⟨_, .idle hcalls⟩
  | cons top rest =>
    cases hname : t.instruction? name with
    | none => exact .inl ⟨_, .unknown hname⟩
    | some i =>
      cases hcall : i == top.call with
      | true => exact .inl ⟨_, .again hcalls hname hcall⟩
      | false =>
        cases hnext : i == top.next with
        | true => exact .inl ⟨_, .back hcalls hname hcall hnext⟩
        | false =>
          cases hret : i.isReturn with
          | false => exact .inl ⟨_, .within hcalls hname hcall hnext hret⟩
          | true =>
            cases hframes : t.frames with
            | nil =>
              refine .inr ⟨.broken (.returnWithoutFrame i.text), ?_⟩
              rw [follow_apply]
              simp only [hcalls, hname, hcall, hnext, hret, hframes, Bool.false_eq_true, if_false,
                if_true]
              rfl
            | cons f fs =>
              by_cases hmethod : f.method = i.method
              · exact .inl ⟨_, .left hcalls hname hcall hnext hret hframes hmethod⟩
              · refine .inr ⟨.broken (.foreignReturn i.text f.method.key), ?_⟩
                rw [follow_apply]
                simp only [hcalls, hname, hcall, hnext, hret, hframes, Bool.false_eq_true, if_false,
                  if_true, if_neg hmethod]
                rfl

/-- The pending call becomes a clause, and if the execution is not suppressed the event is acted
on. -/
theorem start_of_followed (act : Action Unit) (h : t.Followed name u) :
    start name act t = if u.callTrace.isEmpty then act u.flushed else .ok () u.flushed := by
  rw [start, bind_apply, follow_of_followed h]
  show (if u.callTrace.isEmpty then act else pure ()) u.flushed = _
  by_cases hcalls : u.callTrace.isEmpty = true
  · rw [if_pos hcalls, if_pos hcalls]
  · rw [if_neg hcalls, if_neg hcalls]
    rfl

/-- An event fails to start without a trace, or it follows the execution and then counts or not. -/
theorem start_cases (name : String) (act : Action Unit) (t : Tracer) :
    (∃ cause, start name act t = .error cause t) ∨
      ∃ u, t.Followed name u ∧
        ((u.callTrace ≠ [] ∧ start name act t = .ok () u.flushed) ∨
          (u.callTrace = [] ∧ start name act t = act u.flushed)) := by
  rcases follow_cases name t with ⟨u, hu⟩ | ⟨cause, hc⟩
  · refine .inr ⟨u, hu, ?_⟩
    rw [start_of_followed act hu]
    cases hcalls : u.callTrace with
    | nil => exact .inr ⟨rfl, rfl⟩
    | cons top rest => exact .inl ⟨List.cons_ne_nil _ _, rfl⟩
  · refine .inl ⟨cause, ?_⟩
    rw [start, bind_apply, hc]

/-! ## Entered methods -/

variable {spelling : MethodSpelling} {args : List Observed}

theorem enter_error {cause : Error}
    (hm : t.program.method spelling.owner spelling.name spelling.args spelling.ret =
      .error cause) : enter spelling args t = .error cause t := by
  unfold enter
  rw [get_bind, hm]
  rfl

/-- A method that is entered comes on top of the stack, and no call is pending. -/
theorem enter_after {m : Method}
    (hm : t.program.method spelling.owner spelling.name spelling.args spelling.ret = .ok m) :
    ((enter spelling args).after t).position =
      { program := t.program, stack := m :: t.stack, pending := none
        callTrace := if t.accepts spelling then t.callTrace.tail else t.callTrace } := by
  unfold enter after
  rw [get_bind, lift_bind_of_ok hm]
  cases hc : t.pending with
  | some call =>
    have haccepts : t.accepts spelling = t.dispatch t.program.hierarchy m call.method := by
      unfold accepts
      rw [hc, hm]
    rw [haccepts]
    by_cases hd : t.dispatch t.program.hierarchy m call.method = true
    · simp only [if_pos hd]
      rfl
    · simp only [if_neg hd]
      rfl
  | none =>
    rw [accepts_of_none hc, if_neg Bool.false_ne_true]
    let u : Tracer := { t with frames := Frame.enter m none :: t.frames }
    have hstay : ((if t.callTrace.isEmpty then defineAll m.parameters.2 args else pure () :
        Action Unit).after u).position = u.position := by
      split
      · exact (Learns.defineAll _ _).stays u
      · rfl
    have hu : u.position = ⟨t.program, m :: t.stack, t.callTrace, none⟩ := by
      rw [← hc]
      rfl
    exact hstay.trans hu

theorem enter_ok (h : enter spelling args t = .ok () u) :
    ∃ m, t.program.method spelling.owner spelling.name spelling.args spelling.ret = .ok m ∧
      u.position =
        { program := t.program, stack := m :: t.stack, pending := none
          callTrace := if t.accepts spelling then t.callTrace.tail else t.callTrace } := by
  cases hm : t.program.method spelling.owner spelling.name spelling.args spelling.ret with
  | ok m =>
    refine ⟨m, rfl, ?_⟩
    rw [← after_of_ok h]
    exact enter_after hm
  | error cause =>
    rw [enter_error hm] at h
    cases h

/-- Inside a call, a method that does not answer it is entered with nothing known of its values. -/
theorem enter_of_foreign {m : Method}
    (hm : t.program.method spelling.owner spelling.name spelling.args spelling.ret = .ok m)
    (haccepts : t.accepts spelling = false) (hcalls : t.callTrace ≠ []) :
    enter spelling args t =
      .ok () { t.flushed with frames := Frame.enter m none :: t.frames } := by
  unfold enter
  rw [get_bind, lift_bind_of_ok hm]
  cases hc : t.pending with
  | some call =>
    have hd : t.dispatch t.program.hierarchy m call.method = false := by
      simpa [accepts, hc, hm] using haccepts
    simp only [hd, Bool.false_eq_true, if_false]
    rfl
  | none =>
    have hsuppressed : t.callTrace.isEmpty = false := by simpa using hcalls
    rw [flushed_of_none hc]
    show (if t.callTrace.isEmpty then defineAll m.parameters.2 args else pure ())
      ({ t with frames := Frame.enter m none :: t.frames } : Tracer) = _
    rw [hsuppressed]
    rfl

/-! ## Caught exceptions -/

theorem unwound_callTrace (t : Tracer) (thrown : Ty) (fs : List Frame) (calls : List CallSite) :
    (unwound t thrown fs calls).2 <:+ calls := by
  have hafter (f : Frame) (calls : List CallSite) : callsAfter t f calls <:+ calls := by
    cases calls with
    | nil => exact List.suffix_refl _
    | cons top rest =>
      show (if _ then rest else top :: rest) <:+ _
      split
      · exact List.suffix_cons top rest
      · exact List.suffix_refl _
  induction fs generalizing calls with
  | nil => exact List.suffix_refl _
  | cons f fs ih =>
    unfold unwound
    dsimp only
    split
    · exact hafter f calls
    · exact (ih _).trans (hafter f calls)

theorem unwind_flushed (thrown : Ty) (t : Tracer) :
    unwind thrown t.flushed =
      if (t.unwoundBy thrown).frames.isEmpty then
        .error (.broken (.uncaught thrown)) (t.unwoundBy thrown)
      else .ok () (t.unwoundBy thrown) := by
  show (if (t.unwoundBy thrown).frames.isEmpty then broken (.uncaught thrown) else pure ())
    (t.unwoundBy thrown) = _
  split
  · rfl
  · rfl

theorem caught_of_none {exception : Operand} (h : exception.observed.type? = none) (t : Tracer) :
    caught exception t = .error (.malformed (.nullException exception.name)) t.flushed := by
  have hflush : flush t = .ok () t.flushed := rfl
  rw [caught, bind_apply, hflush]
  simp only [h]
  rfl

/-- An exception unwinds the frames, and it counts if that ends every suppressed call. -/
theorem caught_eq {exception : Operand} {type : Ty} (h : exception.observed.type? = some type) :
    ∃ act : Action Unit, act.Stays ∧
      caught exception = (do flush; unwind type; if ← isCollecting then act) := by
  -- The action is read off the definition, so the equation comes first.
  refine ⟨?act, ?stays, ?eq⟩
  case eq =>
    unfold caught
    rw [h]
  case stays =>
    refine .select fun i _ => .read (Reads.resultOf i) fun r => ?_
    refine .learn (Learns.caughtTerm r) fun term => ?_
    exact .learn (Learns.note term _) fun _ => .emit _ _

/-- Frames are unwound; then the exception is fatal, or counts, or is suppressed. -/
theorem caught_apply {exception : Operand} {type : Ty} {act : Action Unit}
    (h : caught exception = (do flush; unwind type; if ← isCollecting then act)) (t : Tracer) :
    caught exception t =
      if (t.unwoundBy type).frames.isEmpty then
        .error (.broken (.uncaught type)) (t.unwoundBy type)
      else if (t.unwoundBy type).callTrace.isEmpty then act (t.unwoundBy type)
      else .ok () (t.unwoundBy type) := by
  have hflush : flush t = .ok () t.flushed := rfl
  rw [h, bind_apply, hflush]
  dsimp only
  rw [bind_apply, unwind_flushed]
  by_cases hframes : (t.unwoundBy type).frames.isEmpty = true
  · rw [if_pos hframes, if_pos hframes]
  · rw [if_neg hframes, if_neg hframes]
    show (if (t.unwoundBy type).callTrace.isEmpty then act else pure ()) (t.unwoundBy type) = _
    split
    · rfl
    · rfl

theorem caught_of_some {exception : Operand} {type : Ty}
    (h : exception.observed.type? = some type) :
    ∃ act : Action Unit, act.Stays ∧ ∀ t : Tracer, caught exception t =
      if (t.unwoundBy type).frames.isEmpty then
        .error (.broken (.uncaught type)) (t.unwoundBy type)
      else if (t.unwoundBy type).callTrace.isEmpty then act (t.unwoundBy type)
      else .ok () (t.unwoundBy type) := by
  obtain ⟨act, hact, hcaught⟩ := caught_eq h
  exact ⟨act, hact, caught_apply hcaught⟩

theorem caught_after_some (exception : Operand) {type : Ty}
    (h : exception.observed.type? = some type) (t : Tracer) :
    ((caught exception).after t).position = (t.unwoundBy type).position := by
  obtain ⟨act, hact, hcaught⟩ := caught_of_some h
  unfold after
  rw [hcaught]
  by_cases hframes : (t.unwoundBy type).frames.isEmpty = true
  · rw [if_pos hframes]
  rw [if_neg hframes]
  by_cases hcalls : (t.unwoundBy type).callTrace.isEmpty = true
  · rw [if_pos hcalls]
    exact hact (t.unwoundBy type)
  · rw [if_neg hcalls]

end Action

/-! ## One event -/

/-- An event enters a method, or reports a caught exception or another instruction. -/
theorem event_cases (e : Event) :
    (∃ spelling receiver args, e = .methodEnter spelling receiver args) ∨
      (∃ exception, e = .caught exception) ∨
      ∃ name, e.subject? = some name ∧ e.isCaught = false := by
  cases e with
  | methodEnter spelling receiver args => exact .inl ⟨spelling, receiver, args, rfl⟩
  | caught exception => exact .inr (.inl ⟨exception, rfl⟩)
  | _ => exact .inr (.inr ⟨_, rfl, rfl⟩)

/-- An event with a type that is none fails at once. -/
theorem handle_unreadable (h : e.isReadable = false) (t : Tracer) :
    ∃ cause, handle e t = .error cause t := by
  cases e with
  | guardExpectedType name checked ty =>
    cases hty : Ty.parse ty with
    | ok expected => simp [Event.isReadable, hty, Except.isOk, Except.toBool] at h
    | error cause =>
      refine ⟨cause, ?_⟩
      show Action.guardExpectedType name checked ty t = _
      unfold Action.guardExpectedType
      rw [hty]
      rfl
  | _ => cases h

/-- An event that succeeds is one that was handled. -/
theorem handle_of_deliver_ok (h : (t.deliver e).1 = .ok ()) :
    t.aborted = false ∧ handle e t = .ok () (t.deliver e).2 := by
  unfold deliver at h ⊢
  cases ha : t.aborted with
  | true => rw [ha] at h; cases h
  | false =>
    simp only [ha, Bool.false_eq_true, if_false] at h ⊢
    cases hr : handle e t with
    | ok _ u => exact ⟨trivial, rfl⟩
    | error cause u => rw [hr] at h; cases h

theorem deliver_of_handle_ok (ha : t.aborted = false) (h : handle e t = .ok () u) :
    t.deliver e = (.ok (), u) := by
  unfold deliver
  rw [ha, if_neg Bool.false_ne_true, h]

theorem deliver_of_handle_error {cause : Error} (ha : t.aborted = false)
    (h : handle e t = .error cause u) :
    t.deliver e = (.error ⟨e.task, cause⟩, { u with aborted := cause.isFatal }) := by
  unfold deliver
  rw [ha, if_neg Bool.false_ne_true, h]

/-- What is left of an event is what its handler leaves, and whether that was fatal. -/
theorem deliver_after (ha : t.aborted = false) (e : Event) :
    ∃ fatal, (t.deliver e).2 = { (handle e).after t with aborted := fatal } := by
  unfold deliver
  rw [ha, if_neg Bool.false_ne_true]
  cases hr : handle e t with
  | ok _ u => exact ⟨u.aborted, by rw [Action.after_of_ok hr]⟩
  | error cause u => exact ⟨cause.isFatal, by rw [Action.after_of_error hr]⟩

/-- What the handler of an event leads to, and does not depend on whether the tracer is aborted,
holds after the delivery of the event. -/
theorem deliver_of_after {P : Tracer → Prop} (e : Event) (ht : P t) (hu : P ((handle e).after t))
    (habort : ∀ (u : Tracer) (fatal : Bool), P u → P { u with aborted := fatal }) :
    P (t.deliver e).2 := by
  cases ha : t.aborted with
  | true =>
    unfold deliver
    rw [if_pos ha]
    exact ht
  | false =>
    obtain ⟨fatal, hd⟩ := deliver_after ha e
    rw [hd]
    exact habort _ fatal hu

theorem deliver_position (ha : t.aborted = false) (e : Event) :
    (t.deliver e).2.position = ((handle e).after t).position := by
  obtain ⟨fatal, hd⟩ := deliver_after ha e
  rw [hd]
  rfl

/-- An event of an instruction that succeeds has followed the execution. It is acted on if that
leaves no call to come back to. -/
theorem deliver_ok_followed (hname : e.subject? = some name) (hcaught : e.isCaught = false)
    (h : (t.deliver e).1 = .ok ()) :
    ∃ u, t.Followed name u ∧
      ((u.callTrace ≠ [] ∧ (t.deliver e).2 = u.flushed) ∨
        (u.callTrace = [] ∧ ∃ act, e.Effect act ∧ act u.flushed = .ok () (t.deliver e).2)) := by
  obtain ⟨-, hr⟩ := handle_of_deliver_ok h
  cases hread : e.isReadable with
  | false =>
    obtain ⟨cause, hfail⟩ := handle_unreadable hread t
    rw [hfail] at hr
    cases hr
  | true =>
    obtain ⟨act, hstart, heffect⟩ := handle_eq_start hname hcaught hread
    rw [hstart] at hr
    rcases Action.start_cases name act t with ⟨cause, hfail⟩ | ⟨u, hu, hcase⟩
    · rw [hfail] at hr
      cases hr
    · refine ⟨u, hu, ?_⟩
      rcases hcase with ⟨hcalls, hs⟩ | ⟨hcalls, hs⟩
      · rw [hs] at hr
        injection hr with _ hr
        exact .inl ⟨hcalls, hr.symm⟩
      · rw [hs] at hr
        exact .inr ⟨hcalls, act, heffect, hr⟩

end Tracer

/-! ## Calls to come back to -/

namespace Position

/-- The program was built, the calls to come back to are known with the instructions after them, and
a pending call is the only one. -/
structure Grounded (o : Position) : Prop where
  built : o.program.Built
  known : ∀ site ∈ o.callTrace, o.program.Knows site.call
  isCall : ∀ site ∈ o.callTrace, site.call.isCall = true
  next : ∀ site ∈ o.callTrace, o.program.next? site.call = some site.next
  pending : ∀ call, o.pending = some call → ∃ next, o.callTrace = [⟨call.instruction, next⟩]

variable {o q : Position} {name : String}

theorem Grounded.of_mem (h : o.Grounded) (hprogram : q.program = o.program)
    (hcalls : ∀ site ∈ q.callTrace, site ∈ o.callTrace) (hpending : q.pending = none) :
    q.Grounded := by
  refine ⟨hprogram ▸ h.built, fun s hs => ?_, fun s hs => ?_, fun s hs => ?_, fun call hc => ?_⟩
  · rw [hprogram]
    exact h.known s (hcalls s hs)
  · exact h.isCall s (hcalls s hs)
  · rw [hprogram]
    exact h.next s (hcalls s hs)
  · rw [hpending] at hc
    cases hc

/-- A call that is made while nothing is suppressed. -/
theorem Called.grounded (h : o.Called name q) (hp : o.program.Built) (hcalls : o.callTrace = []) :
    q.Grounded := by
  obtain ⟨call, next, hnamed, hcall, hnext, rfl⟩ := h
  rw [hcalls]
  refine ⟨hp, fun s hs => ?_, fun s hs => ?_, fun s hs => ?_, fun c hc => ?_⟩
  · rw [List.mem_singleton.mp hs]
    exact hp.knows_of_named? hnamed
  · rw [List.mem_singleton.mp hs]
    exact hcall
  · rw [List.mem_singleton.mp hs]
    exact hnext
  · cases hc
    exact ⟨next, rfl⟩

end Position

namespace Tracer

variable {t : Tracer}

/-- The action of an event that counts keeps the calls grounded. -/
theorem grounded_effect {e : Event} {act : Action Unit} (heffect : e.Effect act)
    (h : t.position.Grounded) (hcalls : t.callTrace = []) :
    (act.after t).position.Grounded := by
  cases e with
  | call name =>
    rcases (heffect t.position).after rfl with hq | hq
    · rw [hq]
      exact h
    · exact hq.grounded h.built hcalls
  | ret =>
    rcases (heffect t.position).after rfl with hq | ⟨m, ms, -, hq⟩
    · rw [hq]
      exact h
    · rw [hq]
      exact ⟨h.built, h.known, h.isCall, h.next, h.pending⟩
  | _ =>
    have hq := heffect t
    rw [hq]
    exact h

theorem grounded_handle (h : t.position.Grounded) (e : Event) :
    ((handle e).after t).position.Grounded := by
  rcases event_cases e with
    ⟨spelling, receiver, args, rfl⟩ | ⟨exception, rfl⟩ | ⟨name, hname, hcaught⟩
  · show ((Action.enter spelling args).after t).position.Grounded
    cases hm : t.program.method spelling.owner spelling.name spelling.args spelling.ret with
    | ok m =>
      rw [Action.enter_after hm]
      refine h.of_mem rfl (fun s hs => ?_) rfl
      dsimp only at hs
      split at hs
      · exact List.mem_of_mem_tail hs
      · exact hs
    | error cause =>
      rw [Action.after_of_error (Action.enter_error hm)]
      exact h
  · show ((Action.caught exception).after t).position.Grounded
    cases htype : exception.observed.type? with
    | none =>
      rw [Action.after_of_error (Action.caught_of_none htype t)]
      exact h.of_mem rfl (fun _ hs => hs) rfl
    | some type =>
      rw [Action.caught_after_some exception htype t]
      have hcalls := Action.unwound_callTrace t.flushed type t.frames t.callTrace
      exact h.of_mem rfl (fun _ hs => hcalls.subset hs) rfl
  · cases hread : e.isReadable with
    | false =>
      obtain ⟨cause, hfail⟩ := handle_unreadable hread t
      rw [Action.after_of_error hfail]
      exact h
    | true =>
      obtain ⟨act, hstart, heffect⟩ := handle_eq_start hname hcaught hread
      rw [hstart]
      rcases Action.start_cases name act t with ⟨cause, hfail⟩ | ⟨u, hu, hcase⟩
      · rw [Action.after_of_error hfail]
        exact h
      have hflushed : u.flushed.position.Grounded :=
        h.of_mem hu.program (fun _ hs => hu.mem_callTrace hs) rfl
      rcases hcase with ⟨-, hs⟩ | ⟨hcalls, hs⟩
      · rw [Action.after_of_ok hs]
        exact hflushed
      · have hafter : (Action.start name act).after t = act.after u.flushed := by
          unfold Action.after
          rw [hs]
        rw [hafter]
        exact grounded_effect heffect hflushed hcalls

theorem grounded_deliver (h : t.position.Grounded) (e : Event) :
    (t.deliver e).2.position.Grounded := by
  cases ha : t.aborted with
  | true =>
    unfold deliver
    rw [if_pos ha]
    exact h
  | false =>
    rw [deliver_position ha]
    exact grounded_handle h e

theorem grounded_run (h : t.position.Grounded) (es : List Event) :
    (t.run es).position.Grounded := by
  induction es generalizing t with
  | nil => exact h
  | cons e es ih => exact ih (grounded_deliver h e)

theorem grounded_new {p : Program} (hp : p.Built) (config : Config) (dispatch : Dispatch) :
    (new p config dispatch).position.Grounded := by
  have hnone (site : CallSite) : site ∉ (new p config dispatch).position.callTrace :=
    List.not_mem_nil
  refine ⟨hp, fun s hs => ?_, fun s hs => ?_, fun s hs => ?_, fun call hc => ?_⟩
  · exact absurd hs (hnone s)
  · exact absurd hs (hnone s)
  · exact absurd hs (hnone s)
  · cases hc

end Tracer

end Concolic
