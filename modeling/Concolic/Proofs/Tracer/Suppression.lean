import Concolic.Proofs.Tracer.Nesting

/-!
# Suppressed calls

After a call that another method than its target answers, events are suppressed until the execution
is back after the call. Since the method that made the call may be entered again meanwhile, the
tracer counts: an event that names the call adds one call to come back to, and an event that names
the instruction after it takes one away.

* `Program.balance p site ms es`: how often well-nested events name the call, less how often they
  name the instruction after it.
* `inside_deliver`: inside a suppressed call, the number of calls to come back to changes with the
  balance, and the event that brings it to zero counts again.
* `suppressed_until_next_iff`: events are suppressed up to the instruction after the call and not
  beyond exactly if those before it are balanced. That is so if each activation names the call and
  the instruction after it in turn (`Program.turns`). Guards name them more often, and with a guard
  of the call in an inner activation the tracer never comes back (`suppressed_after_next_guarded`).
-/

namespace Concolic

namespace Program

/-! ## Balance -/

/-- The instruction that the event names, in the innermost of the methods that are executed. -/
def subject? (p : Program) (ms : List Method) (e : Event) : Option Instruction :=
  e.subject?.bind (p.named? ms)

/-- One more call to come back to, or one less. -/
def shift (p : Program) (site : CallSite) (ms : List Method) (e : Event) : Int :=
  match p.subject? ms e with
  | some i => if i == site.call then 1 else if i == site.next then -1 else 0
  | none => 0

/-- How often the events name the call, less how often they name the instruction after it. -/
def balance (p : Program) (site : CallSite) : List Method → List Event → Int
  | _, [] => 0
  | ms, e :: es => p.shift site ms e + (p.nest ms e).elim 0 fun ms => p.balance site ms es

/-- The events name the call as often as the instruction after it, and never less often. -/
structure Balanced (p : Program) (site : CallSite) (ms : List Method) (es : List Event) :
    Prop where
  nonneg : ∀ es', es' <+: es → 0 ≤ p.balance site ms es'
  total : p.balance site ms es = 0

/-- Activations, the innermost first, wait for the instruction after the call or do not. The
innermost one may name the call only if it does not wait, and the instruction after it only if it
does. -/
def wait : Int → List Bool → Option (List Bool)
  | 1, false :: rest => some (true :: rest)
  | -1, true :: rest => some (false :: rest)
  | 0, waiting => some waiting
  | _, _ => none

/-- An activation begins, or ends if it does not wait. -/
def activate : Event → List Bool → Option (List Bool)
  | .methodEnter .., waiting => some (false :: waiting)
  | .ret .., false :: rest => some rest
  | .ret .., _ => none
  | _, waiting => some waiting

/-- The activations that wait after the events, if each one names the call and the instruction after
it in turn. -/
def turns (p : Program) (site : CallSite) : List Method → List Event → List Bool →
    Option (List Bool)
  | _, [], waiting => some waiting
  | ms, e :: es, waiting => do
    p.turns site (← p.nest ms e) es (← activate e (← wait (p.shift site ms e) waiting))

variable {p : Program} {site : CallSite} {ms ms' : List Method} {e : Event} {es : List Event}

theorem shift_of_named {i : Instruction} (h : p.subject? ms e = some i) :
    p.shift site ms e = if i == site.call then 1 else if i == site.next then -1 else 0 := by
  unfold shift
  rw [h]

theorem balance_cons (h : p.nest ms e = some ms') :
    p.balance site ms (e :: es) = p.shift site ms e + p.balance site ms' es := by
  rw [balance, h]
  rfl

private theorem count_wait {shift : Int} {waiting waiting' : List Bool}
    (h : wait shift waiting = some waiting') :
    (waiting'.count true : Int) = waiting.count true + shift := by
  unfold wait at h
  split at h
  · cases h
    rw [List.count_cons_self, List.count_cons_of_ne Bool.false_ne_true]
    omega
  · cases h
    rw [List.count_cons_self, List.count_cons_of_ne Bool.false_ne_true]
    omega
  · cases h
    exact (Int.add_zero _).symm
  · cases h

private theorem count_activate {waiting waiting' : List Bool}
    (h : activate e waiting = some waiting') : waiting'.count true = waiting.count true := by
  unfold activate at h
  split at h
  all_goals cases h
  all_goals simp

theorem turns_cons {waiting waiting' : List Bool}
    (h : p.turns site ms (e :: es) waiting = some waiting') :
    ∃ ms' waiting₁ waiting₂, p.nest ms e = some ms' ∧
      wait (p.shift site ms e) waiting = some waiting₁ ∧ activate e waiting₁ = some waiting₂ ∧
      p.turns site ms' es waiting₂ = some waiting' := by
  obtain ⟨ms', hstep, h⟩ := Option.bind_eq_some_iff.mp h
  obtain ⟨waiting₁, hwait, h⟩ := Option.bind_eq_some_iff.mp h
  obtain ⟨waiting₂, hactivate, h⟩ := Option.bind_eq_some_iff.mp h
  exact ⟨ms', waiting₁, waiting₂, hstep, hwait, hactivate, h⟩

/-- The balance is how many more activations wait. -/
theorem balance_turns {waiting waiting' : List Bool}
    (h : p.turns site ms es waiting = some waiting') :
    p.balance site ms es = waiting'.count true - waiting.count true := by
  induction es generalizing ms waiting with
  | nil =>
    cases h
    simp [balance]
  | cons e es ih =>
    obtain ⟨ms', waiting₁, waiting₂, hstep, hwait, hactivate, h⟩ := turns_cons h
    have hcount := count_wait hwait
    rw [balance_cons hstep, ih h, count_activate hactivate]
    omega

theorem turns_of_prefix {es' : List Event} {waiting waiting' : List Bool}
    (h : p.turns site ms es waiting = some waiting') (hes : es' <+: es) :
    ∃ waiting₁, p.turns site ms es' waiting = some waiting₁ := by
  induction es generalizing ms waiting es' with
  | nil =>
    rw [List.prefix_nil.mp hes]
    exact ⟨waiting, rfl⟩
  | cons e es ih =>
    rcases List.prefix_cons_iff.mp hes with rfl | ⟨es', rfl, hes'⟩
    · exact ⟨waiting, rfl⟩
    · obtain ⟨ms', waiting₁, waiting₂, hstep, hwait, hactivate, h⟩ := turns_cons h
      obtain ⟨waiting₃, h⟩ := ih h hes'
      refine ⟨waiting₃, ?_⟩
      simp only [turns, hstep, hwait, hactivate, Option.bind_eq_bind, Option.bind_some, h]

/-- If no activation waits before or after, the call is named as often as the instruction after
it. -/
theorem balanced_of_turns {waiting waiting' : List Bool}
    (h : p.turns site ms es waiting = some waiting') (hbefore : true ∉ waiting)
    (hafter : true ∉ waiting') : p.Balanced site ms es := by
  have hnone := List.count_eq_zero.mpr hbefore
  constructor
  · intro es' hes
    obtain ⟨waiting₁, h₁⟩ := turns_of_prefix h hes
    rw [balance_turns h₁, hnone]
    omega
  · rw [balance_turns h, hnone, List.count_eq_zero.mpr hafter]
    rfl

end Program

namespace Tracer

variable {t : Tracer} {site : CallSite} {n : Nat} {e : Event} {es : List Event} {ms : List Method}

/-! ## Inside a suppressed call -/

theorem phase_eq_suppressed_iff : t.phase = .suppressed ↔ t.pending = none ∧ t.callTrace ≠ [] := by
  unfold phase
  cases t.pending <;> cases t.callTrace <;> simp

/-- An event that counts leaves the tracer collecting, or with the call it has made. -/
theorem phase_effect {act : Action Unit} (heffect : e.Effect act) (hcalls : t.callTrace = []) :
    (act.after t).phase ≠ .suppressed := by
  rw [ne_eq, phase_eq_suppressed_iff]
  rintro ⟨hpending, hsome⟩
  have hstays (h : (act.after t).position = t.position) : False :=
    hsome ((congrArg Position.callTrace h).trans hcalls)
  cases e with
  | call name =>
    rcases (heffect t.position).after rfl with hq | ⟨call, next, -, -, -, hq⟩
    · exact hstays hq
    · have hcall : (act.after t).pending = some call := congrArg Position.pending hq
      rw [hpending] at hcall
      cases hcall
  | ret =>
    rcases (heffect t.position).after rfl with hq | ⟨m, ms, -, hq⟩
    · exact hstays hq
    · exact hsome ((congrArg Position.callTrace hq).trans hcalls)
  | _ => exact hstays (heffect t)

/-- The tracer has to come back after the call `n` times. -/
structure Inside (t : Tracer) (site : CallSite) (n : Nat) : Prop where
  calls : t.callTrace = List.replicate n site
  pending : t.pending = none

theorem Inside.phase (h : t.Inside site (n + 1)) : t.phase = .suppressed :=
  phase_eq_suppressed_iff.mpr ⟨h.pending, by simp [h.calls]⟩

/-- Following the name of the call adds a call to come back to, that of the instruction after it
takes one away, and any other leaves them alone. -/
theorem followed_calls {u : Tracer} {name : String} {i : Instruction}
    (htrace : t.callTrace = List.replicate (n + 1) site) (hi : t.instruction? name = some i)
    (hu : t.Followed name u) :
    ∃ k : Nat,
      (k : Int) = n + 1 + (if i == site.call then 1 else if i == site.next then -1 else 0) ∧
        u.callTrace = List.replicate k site := by
  rw [List.replicate_succ] at htrace
  cases hu with
  | idle hcalls =>
    rw [htrace] at hcalls
    cases hcalls
  | unknown hnone =>
    rw [hi] at hnone
    cases hnone
  | again hcalls hfound hcall =>
    cases hi.symm.trans hfound
    cases htrace.symm.trans hcalls
    rw [if_pos hcall]
    exact ⟨n + 2, rfl, rfl⟩
  | back hcalls hfound hcall hnext =>
    cases hi.symm.trans hfound
    cases htrace.symm.trans hcalls
    rw [if_neg (Bool.eq_false_iff.mp hcall), if_pos hnext]
    exact ⟨n, by omega, rfl⟩
  | left hcalls hfound hcall hnext =>
    cases hi.symm.trans hfound
    cases htrace.symm.trans hcalls
    rw [if_neg (Bool.eq_false_iff.mp hcall), if_neg (Bool.eq_false_iff.mp hnext)]
    exact ⟨n + 1, (Int.add_zero _).symm, htrace⟩
  | within hcalls hfound hcall hnext =>
    cases hi.symm.trans hfound
    cases htrace.symm.trans hcalls
    rw [if_neg (Bool.eq_false_iff.mp hcall), if_neg (Bool.eq_false_iff.mp hnext)]
    exact ⟨n + 1, (Int.add_zero _).symm, htrace⟩

/-- Inside a suppressed call, an event changes the number of calls to come back to by its shift. The
event that leaves none counts. -/
theorem inside_deliver (h : t.Inside site (n + 1)) (hnest : t.program.nest t.stack e = some ms)
    (hok : (t.deliver e).1 = .ok ()) :
    ∃ k : Nat, (k : Int) = n + 1 + t.program.shift site t.stack e ∧
      (k = 0 → (t.deliver e).2.phase ≠ .suppressed) ∧
      (k ≠ 0 → (t.deliver e).2.Inside site k) := by
  rcases event_cases e with
    ⟨spelling, receiver, args, rfl⟩ | ⟨exception, rfl⟩ | ⟨name, hname, hcaught⟩
  · obtain ⟨-, hr⟩ := handle_of_deliver_ok hok
    obtain ⟨m, -, hpos⟩ := Action.enter_ok hr
    rw [accepts_of_none h.pending, if_neg Bool.false_ne_true] at hpos
    have hinside : (t.deliver (.methodEnter spelling receiver args)).2.Inside site (n + 1) :=
      ⟨(congrArg Position.callTrace hpos).trans h.calls, congrArg Position.pending hpos⟩
    exact ⟨n + 1, (Int.add_zero _).symm, nofun, fun _ => hinside⟩
  · cases hnest
  · obtain ⟨i, hi, -, -⟩ := Program.nest_subject hname hnest
    have hsubject : t.program.subject? t.stack e = some i := by
      rw [Program.subject?, hname]
      exact hi
    obtain ⟨u, hu, hcase⟩ := deliver_ok_followed hname hcaught hok
    obtain ⟨k, hk, hcalls⟩ := followed_calls h.calls ((instruction?_eq t name).trans hi) hu
    refine ⟨k, Program.shift_of_named hsubject ▸ hk, fun hzero => ?_, fun hne => ?_⟩
    · rcases hcase with ⟨hsome, -⟩ | ⟨hnil, act, heffect, hr⟩
      · rw [hzero] at hcalls
        exact absurd hcalls hsome
      · rw [← Action.after_of_ok hr]
        exact phase_effect heffect hnil
    · rcases hcase with ⟨-, hd⟩ | ⟨hnil, -⟩
      · rw [hd]
        exact ⟨hcalls, rfl⟩
      · rw [hnil, eq_comm, List.replicate_eq_nil_iff] at hcalls
        exact absurd hcalls hne

/-- The events are well nested from the frames of the tracer, succeed and lose no return. -/
structure Faithful (t : Tracer) (es : List Event) : Prop where
  grounded : t.position.Grounded
  nested : ∃ ms, t.program.nests t.stack es = some ms
  succeeds : t.succeeds es = true
  kept : t.keepsReturns es = true

theorem Faithful.cons (h : t.Faithful (e :: es)) :
    t.program.nest t.stack e = some (t.deliver e).2.stack ∧ (t.deliver e).1 = .ok () ∧
      (t.deliver e).2.Faithful es := by
  obtain ⟨ms, hnest⟩ := h.nested
  obtain ⟨ms₁, hstep, -⟩ := Program.nests_cons hnest
  obtain ⟨hok, hoks⟩ := succeeds_cons h.succeeds
  obtain ⟨hkept, hkepts⟩ := keepsReturns_cons h.kept
  have hrest := nests_deliver h.grounded hnest hok hkept
  refine ⟨(nest_eq_stack_iff h.grounded hstep hok).mpr hkept, hok, ?_⟩
  exact ⟨grounded_deliver h.grounded e, ⟨ms, hrest⟩, hoks, hkepts⟩

theorem balance_deliver (site : CallSite)
    (h : t.program.nest t.stack e = some (t.deliver e).2.stack) (es : List Event) :
    t.program.balance site t.stack (e :: es) =
      t.program.shift site t.stack e +
        (t.deliver e).2.program.balance site (t.deliver e).2.stack es := by
  rw [Program.balance_cons h, deliver_program]

/-- Events that never name the instruction after the call too often stay inside the call. -/
theorem inside_run (hes : t.Faithful es) (h : t.Inside site (n + 1))
    (hpos : ∀ es', es' <+: es → 0 ≤ n + t.program.balance site t.stack es') :
    (∀ es', es' <+: es → (t.run es').phase = .suppressed) ∧
      ∃ k : Nat, (k : Int) = n + t.program.balance site t.stack es ∧
        (t.run es).Inside site (k + 1) := by
  induction es generalizing t n with
  | nil =>
    refine ⟨fun es' hes' => ?_, n, (Int.add_zero _).symm, h⟩
    rw [List.prefix_nil.mp hes']
    exact h.phase
  | cons e es ih =>
    obtain ⟨hmirror, hok, hes⟩ := hes.cons
    obtain ⟨k, hk, -, hinside⟩ := inside_deliver h hmirror hok
    simp only [forall_prefix_cons, balance_deliver site hmirror] at hpos ⊢
    have hfirst := hpos.2 [] List.nil_prefix
    rw [Program.balance] at hfirst
    obtain ⟨k, rfl⟩ : ∃ k', k = k' + 1 := ⟨k - 1, by omega⟩
    obtain ⟨hphase, l, hl, hrun⟩ := ih hes (hinside (Nat.succ_ne_zero k)) fun es' hes' => by
      have := hpos.2 es' hes'
      omega
    exact ⟨⟨h.phase, hphase⟩, l, by omega, hrun⟩

/-- Events that are all suppressed never name the instruction after the call too often. -/
theorem balance_of_suppressed (hes : t.Faithful es) (h : t.Inside site (n + 1))
    (hphase : ∀ es', es' <+: es → (t.run es').phase = .suppressed) :
    ∀ es', es' <+: es → 0 ≤ n + t.program.balance site t.stack es' := by
  induction es generalizing t n with
  | nil =>
    intro es' hes'
    rw [List.prefix_nil.mp hes', Program.balance]
    omega
  | cons e es ih =>
    obtain ⟨hmirror, hok, hes⟩ := hes.cons
    obtain ⟨k, hk, hzero, hinside⟩ := inside_deliver h hmirror hok
    rw [forall_prefix_cons] at hphase ⊢
    have hne : k ≠ 0 := fun hk => hzero hk (hphase.2 [] List.nil_prefix)
    obtain ⟨k, rfl⟩ : ∃ k', k = k' + 1 := ⟨k - 1, by omega⟩
    refine ⟨by rw [Program.balance]; omega, fun es' hes' => ?_⟩
    have := ih hes (hinside hne) hphase.2 es' hes'
    rw [balance_deliver site hmirror]
    omega

/-! ## The extent of a suppressed call -/

theorem Faithful.append {es' : List Event} (h : t.Faithful (es ++ es')) :
    t.program.nests t.stack es = some (t.run es).stack ∧ (t.run es).Faithful es' := by
  induction es generalizing t with
  | nil => exact ⟨rfl, h⟩
  | cons e es ih =>
    obtain ⟨hmirror, -, h⟩ := h.cons
    obtain ⟨hnest, h⟩ := ih h
    refine ⟨?_, h⟩
    rw [Program.nests, hmirror, ← deliver_program t e]
    exact hnest

/-- When another method than its target answers a call, it is to be come back to once. -/
theorem inside_of_foreign {call : PendingCall} {next : Instruction} (hg : t.position.Grounded)
    (hcall : t.pending = some call) (hnext : t.program.next? call.instruction = some next)
    (henter : e.subject? = none) (hforeign : t.answers e = false)
    (hok : (t.deliver e).1 = .ok ()) : (t.deliver e).2.Inside ⟨call.instruction, next⟩ 1 := by
  obtain ⟨ha, hr⟩ := handle_of_deliver_ok hok
  cases e with
  | methodEnter spelling receiver args =>
    have haccepts : t.accepts spelling = false := by
      rw [answers, ha] at hforeign
      exact hforeign
    obtain ⟨m, -, hpos⟩ := Action.enter_ok hr
    rw [haccepts, if_neg Bool.false_ne_true] at hpos
    obtain ⟨next', hcalls⟩ := hg.pending call hcall
    have hnext' := hg.next _ (hcalls ▸ List.mem_singleton_self _)
    cases hnext.symm.trans hnext'
    exact ⟨(congrArg Position.callTrace hpos).trans hcalls, congrArg Position.pending hpos⟩
  | _ => cases henter

/-- Events are suppressed up to one that names the instruction after the call, and this one counts,
exactly if those before it are balanced. -/
theorem suppressed_until_iff {f : Event} (hes : t.Faithful es) (h : t.Inside site 1)
    (hlast : t.program.nest (t.run es).stack f = some ms)
    (hsubject : t.program.subject? (t.run es).stack f = some site.next)
    (hok : ((t.run es).deliver f).1 = .ok ()) :
    (∀ es', es' <+: es → (t.run es').phase = .suppressed) ∧
        (t.run (es ++ [f])).phase ≠ .suppressed ↔
      t.program.Balanced site t.stack es := by
  have hsite : site ∈ t.callTrace := h.calls ▸ List.mem_singleton_self site
  have hne := hes.grounded.built.beq_next? (hes.grounded.known site hsite)
    (hes.grounded.next site hsite)
  have hshift : (t.run es).program.shift site (t.run es).stack f = -1 := by
    rw [run_program, Program.shift_of_named hsubject, if_neg (Bool.eq_false_iff.mp hne),
      if_pos (Instruction.beq_iff.mpr ⟨rfl, rfl⟩)]
  rw [← run_program t es] at hlast
  have hrun : t.run (es ++ [f]) = ((t.run es).deliver f).2 := run_append t es [f]
  rw [hrun]
  constructor
  · rintro ⟨hphase, hlastPhase⟩
    have hpos := balance_of_suppressed hes h hphase
    obtain ⟨-, k, hk, hinside⟩ := inside_run hes h hpos
    obtain ⟨l, hl, -, hstill⟩ := inside_deliver hinside hlast hok
    rw [hshift] at hl
    refine ⟨fun es' hes' => by simpa using hpos es' hes', ?_⟩
    cases l with
    | zero => omega
    | succ l => exact absurd (hstill (Nat.succ_ne_zero l)).phase hlastPhase
  · intro hbalanced
    obtain ⟨hphase, k, hk, hinside⟩ := inside_run (n := 0) hes h fun es' hes' => by
      simpa using hbalanced.nonneg es' hes'
    obtain ⟨l, hl, hends, -⟩ := inside_deliver hinside hlast hok
    rw [hshift] at hl
    have htotal := hbalanced.total
    exact ⟨hphase, hends (by omega)⟩

/-- A pending call is answered by a method that is not its target, and later an event `f` names the
instruction after the call. The events `w` between are all suppressed and `f` counts exactly if `w`
is balanced. It is if each activation names the call and the instruction after it in turn. -/
theorem suppressed_until_next_iff {p : Program} (hp : p.Built) (config : Config)
    (dispatch : Dispatch) {es w : List Event} {enter f : Event} {call : PendingCall}
    {next : Instruction} {ms ms' ms'' : List Method}
    (hcall : ((new p config dispatch).run es).pending = some call)
    (hnext : p.next? call.instruction = some next) (henter : enter.subject? = none)
    (hforeign : ((new p config dispatch).run es).answers enter = false)
    (hstart : p.nests [] (es ++ [enter]) = some ms) (hnest : p.nests ms w = some ms')
    (hlast : p.nest ms' f = some ms'') (hsubject : p.subject? ms' f = some next)
    (hok : (new p config dispatch).succeeds (es ++ [enter] ++ w ++ [f]) = true)
    (hkept : (new p config dispatch).keepsReturns (es ++ [enter] ++ w) = true) :
    let t := (new p config dispatch).run (es ++ [enter])
    let site : CallSite := ⟨call.instruction, next⟩
    ((∀ w', w' <+: w → (t.run w').phase = .suppressed) ∧ (t.run (w ++ [f])).phase ≠ .suppressed ↔
        p.Balanced site ms w) ∧
      ∀ waiting, p.turns site ms w [false] = some waiting → true ∉ waiting →
        p.Balanced site ms w := by
  intro t site
  rw [succeeds_append, succeeds_append, succeeds_append, Bool.and_eq_true, Bool.and_eq_true,
    Bool.and_eq_true] at hok
  obtain ⟨⟨⟨hok, hokEnter⟩, hokRest⟩, hokLast⟩ := hok
  have hfaithful : (new p config dispatch).Faithful (es ++ [enter] ++ w) := by
    refine ⟨grounded_new hp config dispatch, ⟨ms', ?_⟩, ?_, hkept⟩
    · show p.nests [] (es ++ [enter] ++ w) = some ms'
      rw [Program.nests_append, hstart]
      exact hnest
    · rw [succeeds_append, succeeds_append, hok, hokEnter, hokRest]
      rfl
  have hprogram : t.program = p := run_program _ _
  -- The frames are the executed stack before and after the events between.
  obtain ⟨hmirror, hw⟩ := hfaithful.append
  have hstack : t.stack = ms := Option.some.inj (hmirror.symm.trans hstart)
  have hstack' : (t.run w).stack = ms' := by
    have hwhole : t.Faithful (w ++ []) := (List.append_nil w).symm ▸ hw
    have hmirror' := hwhole.append.1
    rw [hprogram, hstack, hnest] at hmirror'
    exact (Option.some.inj hmirror').symm
  have hinside : t.Inside site 1 := by
    have hrun : t = (((new p config dispatch).run es).deliver enter).2 :=
      run_append (new p config dispatch) es [enter]
    rw [hrun]
    exact inside_of_foreign (grounded_run (grounded_new hp config dispatch) es) hcall
      ((run_program _ es).symm ▸ hnext) henter hforeign (succeeds_cons hokEnter).1
  refine ⟨?_, fun waiting hturns hwaiting => ?_⟩
  · have hlast' : t.program.nest (t.run w).stack f = some ms'' := by
      rw [hprogram, hstack']
      exact hlast
    have hsubject' : t.program.subject? (t.run w).stack f = some site.next := by
      rw [hprogram, hstack']
      exact hsubject
    rw [run_append] at hokLast
    have hiff := suppressed_until_iff hw hinside hlast' hsubject' (succeeds_cons hokLast).1
    rw [hprogram, hstack] at hiff
    exact hiff
  · exact Program.balanced_of_turns hturns (by decide) hwaiting

open Sample

/-- The list enters the method again while it is asked for its size, and the method asks it again
then. -/
theorem suppressed_until_next_iff_grown :
    let p := Program.ofBodies [grown]
    let es := [enter "grown", size]
    let w := [size, increment, ret "%b" 4]
    let t := (new p .standard .virtual).run (es ++ [enter "grown"])
    (∃ call next, ((new p .standard .virtual).run es).pending = some call ∧
        p.next? call.instruction = some next ∧
        p.subject? [method "grown"] increment = some next) ∧
      (∀ w', w' <+: w → (t.run w').phase = .suppressed) ∧
      (t.run (w ++ [increment])).phase ≠ .suppressed := by
  intro p es w t
  have hp : p.Built := Program.built_ofBodies fun b hb => List.mem_singleton.mp hb ▸ built_grown
  have hrun : ((new p .standard .virtual).run es).answers (enter "grown") = false ∧
      p.nests [] (es ++ [enter "grown"]) = some [method "grown", method "grown"] ∧
      p.nests [method "grown", method "grown"] w = some [method "grown"] ∧
      p.nest [method "grown"] increment = some [method "grown"] ∧
      (new p .standard .virtual).succeeds (es ++ [enter "grown"] ++ w ++ [increment]) = true ∧
      (new p .standard .virtual).keepsReturns (es ++ [enter "grown"] ++ w) = true ∧
      (((new p .standard .virtual).run es).pending.any fun call =>
        (p.next? call.instruction).any fun next =>
          (p.subject? [method "grown"] increment).any (· == next) &&
            p.turns ⟨call.instruction, next⟩ [method "grown", method "grown"] w [false] ==
              some []) = true := by decide +kernel
  obtain ⟨hforeign, hstart, hnest, hlast, hok, hkept, hcall⟩ := hrun
  obtain ⟨call, hcall, hsite⟩ := Option.any_eq_true _ _ |>.mp hcall
  obtain ⟨next, hnext, hsite⟩ := Option.any_eq_true _ _ |>.mp hsite
  obtain ⟨hsame, hturns⟩ := (Bool.and_eq_true _ _).mp hsite
  obtain ⟨i, hi, hsame⟩ := Option.any_eq_true _ _ |>.mp hsame
  have hsubject : p.subject? [method "grown"] increment = some next := by
    obtain ⟨name, -, hnamed⟩ := Option.bind_eq_some_iff.mp hi
    rw [hi, (hp.knows_of_named? hnamed).eq_of_beq (hp.knows_of_next? hnext) hsame]
  have hiff := suppressed_until_next_iff hp .standard .virtual hcall hnext rfl hforeign hstart hnest
    hlast hsubject hok hkept
  exact ⟨⟨call, next, hcall, hnext, hsubject⟩,
    hiff.1.mpr (hiff.2 [] (eq_of_beq hturns) List.not_mem_nil)⟩

/-- The same with guards that the list is not null: the one inside the inner call is taken for one
more call, and the tracer does not come back after the outer one. -/
theorem suppressed_after_next_guarded :
    let p := Program.ofBodies [grown]
    let guard : Event := .guardNull "%a" ⟨"arg$0", list⟩
    let es := [enter "grown", guard, size]
    let w := [guard, size, increment, ret "%b" 4]
    let t := new p .standard .virtual
    p.Built ∧ p.nests [] (es ++ [enter "grown"] ++ w ++ [increment]) = some [method "grown"] ∧
      t.succeeds (es ++ [enter "grown"] ++ w ++ [increment]) = true ∧
      t.keepsReturns (es ++ [enter "grown"] ++ w) = true ∧ (t.run es).depth = 1 ∧
      (t.run es).answers (enter "grown") = false ∧
      ((t.run es).pending.any fun call => (p.next? call.instruction).any fun next =>
        (p.subject? [method "grown"] increment).any (· == next)) = true ∧
      (t.run (es ++ [enter "grown"] ++ w)).depth = 1 ∧
      (t.run (es ++ [enter "grown"] ++ w ++ [increment])).phase = .suppressed := by
  intro p guard es w t
  have hp : p.Built := Program.built_ofBodies fun b hb => List.mem_singleton.mp hb ▸ built_grown
  exact ⟨hp, by decide +kernel⟩

end Tracer

end Concolic
