import Concolic.Proofs.Tracer.Callback
import Concolic.Proofs.Tracer.Steady

/-!
# Failures that a replay skips

A replay goes on after an event that failed without breaking an invariant. What the event changed
before it failed stays changed.

* `handle_ends`: from tracers that are alike every event leads to tracers that are alike, and it
  breaks the same invariant or none.
* `handle_rest`: an event that fails without breaking an invariant, while no call is pending,
  changes names, terms of values, records and calls to come back to, and nothing else that can be
  seen.
* `runUntilFatal_alike`: runs from tracers that are alike break the same invariant or have the same
  summary.
* `replay_skip_iff`: a failure can be seen at once exactly if something was recorded, and it can
  never be seen if also names, terms of values and calls are spared.
* `replay_shows_failures`: none of these conditions can be left out.
-/

namespace Concolic.Tracer

variable {t u : Tracer} {p : Program} {e : Event}

namespace Action

variable {α β : Type}

namespace Parallel

theorem follow (name : String) : (Action.follow name).Parallel := fun t u h => by
  have hcalls (calls : List CallSite) :
      ({ t with callTrace := calls } : Tracer).Alike { u with callTrace := calls } :=
    h.of_view (fun w => { w with callTrace := calls }) rfl rfl h.concrete h.origins
  rw [follow_apply, follow_apply, h.callTrace, h.instruction? name]
  cases t.callTrace with
  | nil => exact .ok () h
  | cons top rest =>
    cases t.instruction? name with
    | none => exact .ok () h
    | some i =>
      dsimp only
      split
      · exact .ok () (hcalls _)
      · split
        · exact .ok () (hcalls _)
        · split
          · cases hframes : t.frames with
            | nil =>
              rw [h.frames_nil hframes]
              exact .error _ h
            | cons f fs =>
              obtain ⟨g, gs, hu, hview, hrest⟩ := h.frames_cons hframes
              rw [hu]
              dsimp only
              rw [show g.method = f.method from congrArg Frame.View.method hview]
              split
              · refine .ok () ((hcalls (top :: rest)).of_view
                  (fun w => { w with frames := fs.map Frame.view }) rfl ?_ h.concrete h.origins)
                rw [← hrest]
                rfl
              · exact .error _ h
          · exact .ok () h

theorem flush : Action.flush.Parallel := .modify fun {t u} h => by
  have hpending : u.pendingClauses = t.pendingClauses := by
    rw [pendingClauses, pendingClauses, h.pending]
  refine h.of_view (fun w => { w with
    clauses := t.clauses ++ t.pendingClauses
    pending := none }) rfl ?_ h.concrete h.origins
  rw [← h.clauses, ← hpending]
  rfl

theorem isCollecting : Action.isCollecting.Parallel :=
  .get (fun h => by rw [h.callTrace]) fun _ => .pure _

theorem pushFrame (f : Frame) : (Action.pushFrame f).Parallel :=
  .modify fun h => h.of_view (fun w => { w with frames := f.view :: w.frames }) rfl rfl h.concrete
    h.origins

theorem defineAll (vs : List Value) (os : List Observed) : (Action.defineAll vs os).Parallel := by
  induction vs generalizing os with
  | nil => exact .pure ()
  | cons v vs ih =>
    cases os with
    | nil => exact .pure ()
    | cons o os => exact .bind (Plain.define ⟨v, o⟩).parallel fun _ => ih os

theorem enter (spelling : MethodSpelling) (args : List Observed) :
    (Action.enter spelling args).Parallel := by
  refine .get (fun {t u} h => ?_) fun t => .bind (.lift _) fun m => ?_
  · rw [h.program, h.pending, show u.dispatch = t.dispatch from congrArg (·.2.1) h.setup]
  · split
    · split
      · refine .bind (.pushFrame _) fun _ => .modify fun h => ?_
        exact h.of_view (fun w => { w with pending := none, callTrace := w.callTrace.tail }) rfl rfl
          h.concrete h.origins
      · exact .bind (.pushFrame _) fun _ => .flush
    · refine .bind (.pushFrame _) fun _ => .bind .isCollecting fun collecting => ?_
      split
      · exact .defineAll _ _
      · exact .pure ()

/-- Frames that look the same handle the same exceptions. -/
theorem unwound_alike (h : t.Alike u) (thrown : Ty) {fs gs : List Frame} (calls : List CallSite)
    (hframes : gs.map Frame.view = fs.map Frame.view) :
    (unwound u thrown gs calls).1.map Frame.view = (unwound t thrown fs calls).1.map Frame.view ∧
      (unwound u thrown gs calls).2 = (unwound t thrown fs calls).2 := by
  induction fs generalizing gs calls with
  | nil =>
    obtain rfl := List.map_eq_nil_iff.mp hframes
    exact ⟨rfl, rfl⟩
  | cons f fs ih =>
    obtain ⟨g, gs, rfl, hview, hrest⟩ := List.map_eq_cons_iff.mp hframes
    have hafter : callsAfter u g calls = callsAfter t f calls := by
      cases calls with
      | nil => rfl
      | cons top rest =>
        rw [callsAfter, callsAfter, h.program,
          show u.dispatch = t.dispatch from congrArg (·.2.1) h.setup,
          show g.method = f.method from congrArg Frame.View.method hview]
    have hhandler :
        handler? u.program.hierarchy g thrown = handler? t.program.hierarchy f thrown := by
      have hkeys (f : Frame) : f.view.catches.keys = f.catches.keys := Table.keys_mapValues _ _
      rw [handler?, handler?, h.program, ← hkeys g, ← hkeys f, hview]
    rw [unwound, unwound, hafter, hhandler]
    split
    · refine ⟨?_, rfl⟩
      rw [List.map_cons, List.map_cons, hrest, Frame.view_restored, Frame.view_restored, hview]
    · exact ih _ hrest

theorem unwind (thrown : Ty) : (Action.unwind thrown).Parallel := by
  refine .bind (.modify fun {t u} h => ?_) fun _ => .get (fun {t u} h => ?_) fun t => ?_
  · obtain ⟨hframes, hcalls⟩ := unwound_alike h thrown t.callTrace h.frames
    refine h.of_view (fun w => { w with
      frames := (unwound t thrown t.frames t.callTrace).1.map Frame.view
      callTrace := (unwound t thrown t.frames t.callTrace).2 }) rfl ?_ h.concrete h.origins
    rw [← hframes, ← hcalls, ← h.callTrace]
    rfl
  · have hempty : u.frames.isEmpty = t.frames.isEmpty := by
      rw [← List.isEmpty_map, h.frames, List.isEmpty_map]
    rw [hempty]
  · split
    · exact .throw _
    · exact .pure ()

end Parallel

/-! ## Events -/

theorem start_ends {name : String} {act : Action Unit} (hact : act.Ends p) :
    (start name act).Ends p := by
  refine .bind (.follow name) (fun {t u a} h => ?_) fun _ _ => ?_
  · rcases follow_cases name t with ⟨w, hw⟩ | ⟨cause, hc⟩
    · rw [follow_of_followed hw] at h
      cases h
      exact hw.program
    · rw [hc] at h
      cases h
  · refine .bind .flush (fun h => by cases h; rfl) fun _ _ => ?_
    refine .bind .isCollecting (fun h => by cases h; rfl) fun {t u collecting} _ _ => ?_
    split
    · exact hact
    · exact .of_parallel (.pure ())

theorem caught_ends (hp : p.Sound) (exception : Operand) : (caught exception).Ends p := by
  cases htype : exception.observed.type? with
  | none =>
    refine .of_parallel (.bind .flush fun _ => ?_)
    rw [htype]
    exact .throw _
  | some thrown =>
    obtain ⟨act, hcaught, hact⟩ := caught_steady hp htype
    rw [hcaught]
    refine .bind .flush (fun h => by cases h; rfl) fun _ _ => ?_
    refine .bind (.unwind thrown) (fun {t u a} h => ?_) fun _ _ => ?_
    · have hrun : unwind thrown t =
          (if (unwound t thrown t.frames t.callTrace).1.isEmpty then broken (.uncaught thrown)
            else pure ())
          { t with
            frames := (unwound t thrown t.frames t.callTrace).1
            callTrace := (unwound t thrown t.frames t.callTrace).2 } := rfl
      rw [hrun] at h
      split at h
      · cases h
      · cases h
        rfl
    · refine .bind .isCollecting (fun h => by cases h; rfl) fun {t u collecting} _ _ => ?_
      split
      · exact hact.toEnds
      · exact .of_parallel (.pure ())

end Action

/-- An event of an instruction is acted on steadily, if it counts. -/
theorem handle_steady (hp : p.Sound) {name : String} (hname : e.subject? = some name)
    (hcaught : e.isCaught = false) (hread : e.isReadable = true) :
    ∃ act, handle e = Action.start name act ∧ act.Steady p := by
  cases e with
  | methodEnter => cases hname
  | caught => cases hcaught
  | guardExpectedType name checked ty =>
    cases hname
    cases hty : Ty.parse ty with
    | ok expected => exact Action.guardExpectedType_steady name checked hty
    | error e => simp [Event.isReadable, hty, Except.isOk, Except.toBool] at hread
  | arrayLoad => cases hname; exact Action.arrayLoad_steady hp _ _ _
  | arrayStore => cases hname; exact Action.arrayStore_steady hp _ _ _ _
  | binary => cases hname; exact Action.binary_steady hp _ _ _
  | branch => cases hname; exact Action.branch_steady hp _ _
  | call => cases hname; exact Action.call_steady hp _ _ _ _ _ _
  | cast => cases hname; exact Action.cast_steady hp _ _
  | compare => cases hname; exact Action.compare_steady hp _ _ _
  | enterMonitor => cases hname; exact Action.enterMonitor_steady hp _ _
  | exitMonitor => cases hname; exact Action.exitMonitor_steady hp _ _
  | fieldLoad => cases hname; exact Action.fieldLoad_steady hp _ _ _ _
  | fieldStore => cases hname; exact Action.fieldStore_steady hp _ _ _ _ _
  | instanceOf => cases hname; exact Action.instanceOf_steady hp _ _
  | invokeDynamic => cases hname; exact Action.invokeDynamic_steady hp _ _ _
  | jump => cases hname; exact Action.jump_steady hp _
  | newArray => cases hname; exact Action.newArray_steady hp _ _ _
  | new => cases hname; exact Action.newObject_steady hp _
  | phi => cases hname; exact Action.phi_steady hp _
  | ret => cases hname; exact Action.ret_steady hp _ _ _
  | switch => cases hname; exact Action.switch_steady hp _ _
  | tableSwitch => cases hname; exact Action.tableSwitch_steady hp _ _
  | throwing => cases hname; exact Action.throwing_steady hp _ _
  | unary => cases hname; exact Action.unary_steady hp _ _
  | guardNull => cases hname; exact Action.guardNull_steady _ _
  | guardType => cases hname; exact Action.guardType_steady _ _
  | guardIndex => cases hname; exact Action.guardIndex_steady _ _ _
  | guardLength => cases hname; exact Action.guardLength_steady _ _

/-- No event tells tracers apart that are alike. -/
theorem handle_ends (hp : p.Sound) (e : Event) : (handle e).Ends p := by
  rcases event_cases e with
    ⟨spelling, receiver, args, rfl⟩ | ⟨exception, rfl⟩ | ⟨name, hname, hcaught⟩
  · exact .of_parallel (.enter spelling args)
  · exact Action.caught_ends hp exception
  · cases hread : e.isReadable with
    | true =>
      obtain ⟨act, hstart, hact⟩ := handle_steady hp hname hcaught hread
      rw [hstart]
      exact Action.start_ends hact.toEnds
    | false =>
      cases e with
      | guardExpectedType name checked ty =>
        cases hty : Ty.parse ty with
        | ok expected => simp [Event.isReadable, hty, Except.isOk, Except.toBool] at hread
        | error cause =>
          refine .of_parallel fun t u h => ?_
          rw [handle, Action.guardExpectedType, hty]
          exact .error cause h
      | _ => cases hread

/-- A failure that breaks no invariant shows in names, terms of values, records and calls only. -/
theorem handle_rest {cause : Error} (hp : t.program.Sound) (hpending : t.pending = none)
    (h : handle e t = .error cause u) (hcause : cause.isFatal = false)
    (hcalls : u.callTrace = t.callTrace) : u.rest = t.rest := by
  have hflushed : t.flushed = t := flushed_of_none hpending
  rcases event_cases e with
    ⟨spelling, receiver, args, rfl⟩ | ⟨exception, rfl⟩ | ⟨name, hname, hcaught⟩
  · have hhandled := handle_handled (.methodEnter spelling receiver args) t
    rw [h] at hhandled
    cases hhandled with
    | refused => rfl
    | failed hs =>
      cases hs with
      | instruction hname => cases hname
  · cases htype : exception.observed.type? with
    | none =>
      rw [show handle (.caught exception) t = _ from Action.caught_of_none htype t, hflushed] at h
      cases h
      rfl
    | some thrown =>
      obtain ⟨act, hcaught, hact⟩ := Action.caught_steady hp htype
      rw [show handle (.caught exception) t = _ from Action.caught_apply hcaught t] at h
      split at h
      · cases h
        cases hcause
      · split at h
        · have hrest : u.rest = (t.unwoundBy thrown).rest := hact.rest (by
            unfold unwoundBy
            rw [hflushed]) h hcause
          have hleft : (t.unwoundBy thrown).callTrace = t.callTrace :=
            (congrArg View.callTrace hrest).symm.trans hcalls
          have hback : (t.unwoundBy thrown).rest =
              { t.rest with callTrace := (t.unwoundBy thrown).callTrace } := by
            unfold unwoundBy
            rw [hflushed]
            rfl
          rw [hrest, hback, hleft]
          rfl
        · cases h
  · cases hread : e.isReadable with
    | false =>
      obtain ⟨cause', hfail⟩ := handle_unreadable hread t
      rw [hfail] at h
      cases h
      rfl
    | true =>
      obtain ⟨act, hstart, hact⟩ := handle_steady hp hname hcaught hread
      rw [hstart] at h
      rcases Action.start_cases name act t with ⟨cause', hr⟩ | ⟨w, hw, ⟨-, hr⟩ | ⟨hempty, hr⟩⟩
      · rw [hr] at h
        cases h
        rfl
      · rw [hr] at h
        cases h
      · rw [hr, hw.flushed_eq_resumed hempty] at h
        have hrest : u.rest = t.resumed.rest := hact.rest rfl h hcause
        have hidle : t.callTrace = [] := hcalls.symm.trans (congrArg View.callTrace hrest)
        have hresumed : t.resumed = t := by
          unfold resumed
          rw [hflushed, ← hidle]
        rw [hrest, hresumed]

/-! ## Runs -/

/-- The failure that ends a replay, if the event failed so. -/
def fatalFailure? : Except Failure Unit → Option Failure
  | .ok _ => none
  | .error failure => if failure.cause.isFatal then some failure else none

theorem deliver_eq_after (ha : t.aborted = false) (e : Event) :
    (t.deliver e).2 =
        { (handle e).after t with aborted := ((handle e).fatal? t).isSome } ∧
      fatalFailure? (t.deliver e).1 = ((handle e).fatal? t).map (⟨e.task, ·⟩) := by
  have hhandled := handle_handled e t
  unfold deliver
  rw [if_neg (by rw [ha]; exact Bool.false_ne_true)]
  cases hr : handle e t with
  | ok _ u =>
    rw [hr] at hhandled
    have hstays : u.aborted = false := (congrArg Prod.snd hhandled.fixed).trans ha
    have hnone : (handle e).fatal? t = none := by
      unfold Action.fatal?
      rw [hr]
    rw [Action.after_of_ok hr, hnone]
    exact ⟨by rw [Option.isSome_none, ← hstays], rfl⟩
  | error cause u =>
    rw [Action.after_of_error hr, Action.fatal?_of_error hr]
    cases hcause : cause.isFatal with
    | true => simp [fatalFailure?, hcause]
    | false => simp [fatalFailure?, hcause]

theorem deliver_alike (hp : t.program.Sound) (h : t.Alike u) (e : Event) :
    fatalFailure? (u.deliver e).1 = fatalFailure? (t.deliver e).1 ∧
      (t.deliver e).2.Alike (u.deliver e).2 := by
  cases ha : t.aborted with
  | true =>
    rw [deliver, deliver, if_pos ha, if_pos (h.aborted.trans ha)]
    exact ⟨rfl, h⟩
  | false =>
    obtain ⟨ht, hfatal⟩ := deliver_eq_after ha e
    obtain ⟨hu, hfatal'⟩ := deliver_eq_after (h.aborted.trans ha) e
    have hends := handle_ends hp e
    have hsame := hends.fatal rfl h
    have hafter := hends.after rfl h
    rw [ht, hu, hfatal, hfatal', hsame]
    exact ⟨rfl, hafter.of_view (fun w => { w with aborted := _ }) rfl rfl hafter.concrete
      hafter.origins⟩

theorem runUntilFatal_cons (t : Tracer) (e : Event) (es : List Event) :
    runUntilFatal t (e :: es) =
      (fatalFailure? (t.deliver e).1).elim (runUntilFatal (t.deliver e).2 es) .error := by
  rw [runUntilFatal]
  rcases t.deliver e with ⟨r, u⟩
  cases r with
  | ok => rfl
  | error failure =>
    cases hcause : failure.cause.isFatal with
    | true => simp [fatalFailure?, hcause]
    | false => simp [fatalFailure?, hcause]

/-- Runs from tracers that are alike break the same invariant, or they have the same summary. -/
theorem runUntilFatal_alike (hp : t.program.Sound) (h : t.Alike u) (es : List Event) :
    (runUntilFatal u es).map summary = (runUntilFatal t es).map summary := by
  induction es generalizing t u with
  | nil => exact congrArg Except.ok h.summary
  | cons e es ih =>
    obtain ⟨hfatal, halike⟩ := deliver_alike hp h e
    rw [runUntilFatal_cons, runUntilFatal_cons, hfatal]
    cases fatalFailure? (t.deliver e).1 with
    | some failure => rfl
    | none => exact ih (by rw [deliver_program]; exact hp) halike

private theorem runUntilFatal_append (t : Tracer) (es fs : List Event) :
    runUntilFatal t (es ++ fs) = (runUntilFatal t es).bind (runUntilFatal · fs) := by
  induction es generalizing t with
  | nil => rfl
  | cons e es ih =>
    rw [List.cons_append, runUntilFatal_cons, runUntilFatal_cons]
    cases fatalFailure? (t.deliver e).1 with
    | some failure => rfl
    | none => exact ih _

private theorem run_of_aborted (ha : t.aborted = true) (es : List Event) : t.run es = t := by
  induction es with
  | nil => rfl
  | cons e es ih =>
    show (t.deliver e).2.run es = t
    rw [deliver, if_pos ha]
    exact ih

/-- A run that breaks no invariant goes through all events, and one that breaks an invariant leaves
the tracer aborted. -/
private theorem runUntilFatal_cases (t : Tracer) (es : List Event) :
    runUntilFatal t es = .ok (t.run es) ∨
      (∃ failure, runUntilFatal t es = .error failure) ∧ (t.run es).aborted = true := by
  induction es generalizing t with
  | nil => exact .inl rfl
  | cons e es ih =>
    rw [runUntilFatal_cons]
    cases hfatal : fatalFailure? (t.deliver e).1 with
    | none => exact ih (t.deliver e).2
    | some failure =>
      refine .inr ⟨⟨failure, rfl⟩, ?_⟩
      cases ha : t.aborted with
      | true =>
        rw [deliver, if_pos ha] at hfatal
        cases hfatal
      | false =>
        obtain ⟨hu, hsome⟩ := deliver_eq_after ha e
        rw [hsome, Option.map_eq_some_iff] at hfatal
        obtain ⟨cause, hcause, -⟩ := hfatal
        show ((t.deliver e).2.run es).aborted = true
        rw [run_of_aborted (by rw [hu, hcause]; rfl), hu, hcause]
        rfl

/-- After an event that broke no invariant, the replay goes on with the tracer that it left. -/
private theorem runUntilFatal_of_recoverable {failure : Failure}
    (h : (t.deliver e).1 = .error failure) (hcause : failure.cause.isFatal = false)
    (es : List Event) :
    runUntilFatal t (e :: es) = runUntilFatal (t.deliver e).2 es := by
  rw [runUntilFatal_cons, h, fatalFailure?, hcause]
  rfl

theorem replay_eq (p : Program) (config : Config) (es : List Event) :
    replay p config es = (runUntilFatal (new p config .virtual) es).map summary := by
  unfold replay
  cases runUntilFatal (new p config .virtual) es <;> rfl

/-- A failure that breaks no invariant and spares what can be seen leaves a tracer that is alike. -/
theorem alike_of_spares {failure : Failure} (hp : t.program.Sound) (hpending : t.pending = none)
    (h : (t.deliver e).1 = .error failure) (hcause : failure.cause.isFatal = false)
    (hspares : t.Spares (t.deliver e).2) : t.Alike (t.deliver e).2 := by
  refine hspares.alike ?_
  have hcalls := hspares.callTrace
  unfold deliver at h hcalls ⊢
  split at h
  · next ha => rw [if_pos ha]
  · next ha =>
    rw [if_neg ha] at hcalls ⊢
    cases hr : handle e t with
    | ok _ u => rw [hr] at h; cases h
    | error cause u =>
      rw [hr] at h hcalls
      cases h
      have hrest : u.rest = t.rest := handle_rest hp hpending hr hcause hcalls
      show ({ u.rest with aborted := cause.isFatal } : View) = t.rest
      rw [hrest, show cause.isFatal = t.aborted from
        Eq.trans hcause (eq_false_of_ne_true ha).symm]
      rfl

/-- An event that fails without breaking an invariant, while no call is pending, can be seen at once
exactly if something was recorded of a term. If nothing was recorded, no name was given out, all
values have the terms they had and the calls to come back to are the same, then every replay is as
if the event had not been there. -/
theorem replay_skip_iff {p : Program} (hp : p.Built) (config : Config) (xs : List Event)
    (e : Event) :
    let t := (new p config .virtual).run xs
    let u := (t.deliver e).2
    ∀ failure, (t.deliver e).1 = .error failure → failure.cause.isFatal = false →
      t.pending = none →
      (replay p config (xs ++ [e]) = replay p config xs ↔
        u.concrete = t.concrete ∧ u.origins = t.origins) ∧
      (t.Spares u → ∀ ys, replay p config (xs ++ e :: ys) = replay p config (xs ++ ys)) := by
  intro t u failure hfailure hcause hpending
  have hsound : t.program.Sound := by
    rw [run_program]
    exact hp.sound
  have hreplay (es : List Event) : replay p config (xs ++ es) =
      ((runUntilFatal (new p config .virtual) xs).bind (runUntilFatal · es)).map summary := by
    rw [replay_eq, runUntilFatal_append]
  rcases runUntilFatal_cases (new p config .virtual) xs with hrun | ⟨⟨broken, hrun⟩, haborted⟩
  · have hskip (es : List Event) :
        replay p config (xs ++ e :: es) = (runUntilFatal u es).map summary := by
      rw [hreplay, hrun]
      show (runUntilFatal t (e :: es)).map summary = _
      rw [runUntilFatal_of_recoverable hfailure hcause]
    have hgo (es : List Event) : replay p config (xs ++ es) = (runUntilFatal t es).map summary := by
      rw [hreplay, hrun]
      rfl
    refine ⟨?_, fun hspares ys => ?_⟩
    · have hnow : replay p config xs = .ok t.summary := List.append_nil xs ▸ hgo []
      have hnothing : t.Contributed u .nothing := deliver_error hsound hfailure
      rw [hskip, hnow]
      refine ⟨fun h => ?_, fun ⟨hconcrete, horigins⟩ => congrArg Except.ok ?_⟩
      · have hsummary : u.summary = t.summary := Except.ok.inj h
        exact ⟨congrArg Summary.concrete hsummary, congrArg Summary.origins hsummary⟩
      · have hclauses : u.summary.clauses = t.summary.clauses ++ [] := hnothing.clauses
        have hpath : u.path = t.path ++ [] := hnothing.path
        rw [List.append_nil] at hclauses hpath
        show (⟨u.summary.clauses, u.path, u.concrete, u.origins⟩ : Summary) =
          ⟨t.summary.clauses, t.path, t.concrete, t.origins⟩
        rw [hclauses, hpath, hconcrete, horigins]
    · rw [hskip, hgo]
      exact runUntilFatal_alike hsound (alike_of_spares hsound hpending hfailure hcause hspares) ys
  · have hsame : u = t := by
      show (t.deliver e).2 = t
      rw [deliver, if_pos haborted]
    have hstop (es : List Event) : replay p config (xs ++ es) = .error broken := by
      rw [hreplay, hrun]
      rfl
    refine ⟨?_, fun _ ys => ?_⟩
    · have hnil : replay p config xs = .error broken := List.append_nil xs ▸ hstop []
      rw [hstop, hnil, hsame]
      exact ⟨fun _ => ⟨rfl, rfl⟩, fun _ => rfl⟩
    · rw [hstop, hstop]

open Sample

theorem built_grown_guarded : (Program.ofBodies [grown, guarded]).Built := by
  refine Program.built_ofBodies fun b hb => ?_
  rcases List.mem_cons.mp hb with rfl | hb
  · exact built_grown
  · exact List.mem_singleton.mp hb ▸ built_guarded

/-- An exception that is null is not caught, and this can never be seen. -/
theorem replay_skip_iff_nullException :
    let p := Program.ofBodies [grown, guarded]
    let t := (new p .standard .virtual).run [enterGuarded, throwing]
    let e : Event := .caught ⟨"%e", .null⟩
    t.depth = 1 ∧ t.clauses.length = 1 ∧
      (t.deliver e).1 = .error ⟨"catch", .malformed (.nullException "%e")⟩ ∧
      ∀ ys, replay p .standard ([enterGuarded, throwing] ++ e :: ys) =
        replay p .standard ([enterGuarded, throwing] ++ ys) := by
  intro p t e
  have hrun : t.depth = 1 ∧ t.clauses.length = 1 ∧ t.pending.isNone = true ∧
      t.aborted = false := by decide +kernel
  obtain ⟨hdepth, hclauses, hnone, ha⟩ := hrun
  have hpending : t.pending = none := Option.isNone_iff_eq_none.mp hnone
  have hdeliver : t.deliver e =
      (.error ⟨"catch", .malformed (.nullException "%e")⟩, { t with aborted := false }) := by
    have hhandle : handle e t = .error (.malformed (.nullException "%e")) t.flushed := by
      show Action.caught ⟨"%e", .null⟩ t = _
      exact Action.caught_of_none rfl t
    rw [deliver, if_neg (by rw [ha]; exact Bool.false_ne_true), hhandle, flushed_of_none hpending]
    rfl
  have hfailure : (t.deliver e).1 = .error ⟨"catch", .malformed (.nullException "%e")⟩ := by
    rw [hdeliver]
  refine ⟨hdepth, hclauses, hfailure, ?_⟩
  refine (replay_skip_iff built_grown_guarded .standard _ e _ hfailure rfl hpending).2 ?_
  rw [hdeliver]
  exact ⟨rfl, rfl, rfl, rfl, rfl⟩

/-- The event fails without breaking an invariant, while no call is pending. -/
def lapses (t : Tracer) (e : Event) : Bool :=
  t.pending.isNone && (fatalFailure? (t.deliver e).1).isNone && !(t.deliver e).1.isOk

/-- Four events that fail without breaking an invariant, and what shows it. The first has recorded a
result before its operands turned out not to fit. The second has given a name to a value that had
none yet, so that the call gets the next one. The third has left the frame in which the call would
be made. The fourth has taken the suppressed execution for one that is back, so that the guard after
it counts. -/
theorem replay_shows_failures :
    let p := Program.ofBodies [grown, guarded]
    let runs : List (List Event × Event × List Event) :=
      [([enter "grown"], .binary ⟨"%b", .int 4⟩ ⟨"arg$0", list⟩ ⟨"1", .int 1⟩, []),
        ([enter "grown"], .guardNull "ret" ⟨"%a", .int 3⟩, [size]),
        ([enterGuarded, throwing, enter "grown"], .caught ⟨"%x", runtimeException⟩, [size]),
        ([enter "grown", size, enterGuarded, .ret "ret" none .null],
          .unary ⟨"%b", .int 4⟩ ⟨"%a", .int 3⟩, [.guardNull "ret" ⟨"arg$0", list⟩])]
    p.Built ∧ ∀ r ∈ runs, ((new p .standard .virtual).run r.1).lapses r.2.1 = true ∧
      replay p .standard (r.1 ++ r.2.1 :: r.2.2) ≠ replay p .standard (r.1 ++ r.2.2) := by
  intro p runs
  refine ⟨built_grown_guarded, fun r hr => ?_⟩
  let shown (result : Except Failure Summary) : Option (List String × List String) :=
    result.toOption.map fun s => (s.clauses.map Clause.text, s.origins.keys.map Term.debug)
  have hruns : (runs.all fun r => ((new p .standard .virtual).run r.1).lapses r.2.1 &&
      shown (replay p .standard (r.1 ++ r.2.1 :: r.2.2)) !=
        shown (replay p .standard (r.1 ++ r.2.2))) = true := by decide +kernel
  obtain ⟨hlapses, hshown⟩ := Bool.and_eq_true_iff.mp (List.all_eq_true.mp hruns r hr)
  exact ⟨hlapses, fun h => bne_iff_ne.mp hshown (congrArg shown h)⟩

end Concolic.Tracer
