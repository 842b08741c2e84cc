import Concolic.Proofs.Tracer.Suppression

/-!
# Callbacks

The library may call methods of the program back while the program calls it. Nothing is known of
their values, so the tracer keeps a bare frame for each of them (`Tracer.withCallback`).

* `deliver_withCallback`: an event of a callback only changes which methods are entered there.
* `run_callback`: a callback that does not enter the method that made the call leaves no trace. It
  is as if the pending call had just become a clause.
* `caught_leaves_callback`: the frame of a method that was called back handles no exception, however
  its body is guarded. An exception caught in it unwinds the frames below, and the tracer is aborted
  if none of them handles it (`caught_aborts_guarded`).
-/

namespace Concolic

namespace Program

variable {p : Program} {m : Method} {ms : List Method} {i : Instruction} {name : String}

/-- The instructions of a body that was built for the method belong to the method. -/
theorem method_of_named? (hp : p.Built) (hown : p.hasOwnBody m = true)
    (h : p.named? (m :: ms) name = some i) : i.method = m := by
  obtain ⟨_, _, b, heq, hb, hi⟩ := named?_eq_some h
  cases heq
  have hmethod : b.method = m := by
    unfold hasOwnBody at hown
    rw [hb] at hown
    exact of_decide_eq_true hown
  rw [← hmethod]
  exact (hp.sound.body _ _ (body_eq_ok hb)).method i (Body.mem_of_instruction? hi)

/-- The methods on the stack after an event were there before or are entered. -/
theorem mem_entered_of_nest {e : Event} {es : List Event} {ms' : List Method}
    (h : p.nest ms e = some ms') (hm : m ∈ ms' ++ p.entered es) :
    m ∈ ms ++ p.entered (e :: es) := by
  cases hname : e.subject? with
  | none =>
    cases e with
    | methodEnter spelling receiver args =>
      obtain ⟨m', -, hm', -, rfl⟩ := nest_methodEnter h
      have hentered : p.entered (.methodEnter spelling receiver args :: es) =
          m' :: p.entered es := by
        rw [entered, hm']
        rfl
      rw [hentered]
      simp only [List.cons_append, List.mem_cons, List.mem_append] at hm ⊢
      rcases hm with hm | hm | hm
      · exact .inr (.inl hm)
      · exact .inl hm
      · exact .inr (.inr hm)
    | _ => cases hname
  | some name =>
    have hentered : p.entered (e :: es) = p.entered es := by
      cases e with
      | methodEnter => cases hname
      | _ => rfl
    have hstack : ∀ m ∈ ms', m ∈ ms := by
      obtain ⟨i, -, -, rfl⟩ := nest_subject hname h
      split
      · exact fun m hm => List.mem_of_mem_tail hm
      · exact fun m hm => hm
    rw [hentered, List.mem_append]
    rcases List.mem_append.mp hm with hm | hm
    · exact .inl (hstack m hm)
    · exact .inr hm

end Program

namespace Tracer

variable {t u : Tracer} {site : CallSite} {e : Event} {es : List Event} {m : Method}
  {ms ms' : List Method}

/-! ## Events of a callback -/

/-- Inside a call, a method that does not answer it gets a bare frame. -/
theorem deliver_enter_foreign {spelling : MethodSpelling} {receiver : Option Observed}
    {args : List Observed} (ha : t.aborted = false) (hcalls : t.callTrace ≠ [])
    (hm : t.program.method spelling.owner spelling.name spelling.args spelling.ret = .ok m)
    (hforeign : t.accepts spelling = false) :
    t.deliver (.methodEnter spelling receiver args) =
      (.ok (), { t.flushed with frames := Frame.enter m none :: t.frames }) :=
  deliver_of_handle_ok ha (Action.enter_of_foreign hm hforeign hcalls)

/-- The tracer while the methods were entered by a callback, the innermost first. -/
def withCallback (t : Tracer) (ms : List Method) : Tracer :=
  { t.flushed with frames := ms.map (Frame.enter · none) ++ t.frames }

/-- Within a callback events change nothing but the methods that are entered there. -/
theorem deliver_withCallback (hp : t.program.Built) (ha : t.aborted = false)
    (hcalls : t.callTrace = [site]) (hsite : site.next.method = site.call.method)
    (hread : e.isReadable = true)
    (hforeign : ∀ m ∈ ms, t.program.hasOwnBody m = true ∧ m ≠ site.call.method)
    (hnest : t.program.nest ms e = some ms') :
    (t.withCallback ms).deliver e = (.ok (), t.withCallback ms') := by
  have hcalls' : (t.withCallback ms).callTrace = [site] := hcalls
  rcases event_cases e with
    ⟨spelling, receiver, args, rfl⟩ | ⟨exception, rfl⟩ | ⟨name, hname, hcaught⟩
  · obtain ⟨m, -, hm, -, rfl⟩ := Program.nest_methodEnter hnest
    rw [deliver_enter_foreign (t := t.withCallback ms) ha (hcalls' ▸ List.cons_ne_nil _ _) hm rfl,
      flushed_of_none rfl]
    rfl
  · cases hnest
  obtain ⟨i, hi, hret, rfl⟩ := Program.nest_subject hname hnest
  obtain ⟨m, rest, b, rfl, hb, hb'⟩ := Program.named?_eq_some hi
  obtain ⟨hown, hne⟩ := hforeign m List.mem_cons_self
  have hmethod := Program.method_of_named? hp hown hi
  have hi' : (t.withCallback (m :: rest)).instruction? name = some i := by
    rw [instruction?_eq]
    exact (Program.named?_cons hb name).trans hb'
  have hother (j : Instruction) (hj : j.method = site.call.method) : (i == j) = false := by
    rw [Bool.eq_false_iff, ne_eq, Instruction.beq_iff, hmethod, hj]
    exact fun h => hne h.2
  obtain ⟨act, hstart, -⟩ := handle_eq_start hname hcaught hread
  have hskip (u : Tracer) (hu : (t.withCallback (m :: rest)).Followed name u)
      (hucalls : u.callTrace = [site]) (hpending : u.pending = none) :
      (t.withCallback (m :: rest)).deliver e = (.ok (), u) := by
    refine deliver_of_handle_ok ha ?_
    rw [hstart, Action.start_of_followed act hu, hucalls, flushed_of_none hpending]
    rfl
  cases hreturn : i.isReturn with
  | true =>
    rw [← hret, hreturn, if_pos rfl]
    exact hskip _ (.left hcalls' hi' (hother _ rfl) (hother _ hsite) hreturn rfl hmethod.symm)
      hcalls rfl
  | false =>
    rw [← hret, hreturn, if_neg Bool.false_ne_true]
    exact hskip _ (.within hcalls' hi' (hother _ rfl) (hother _ hsite) hreturn) hcalls rfl

/-- A callback begins with a method that does not answer the call. -/
theorem deliver_first (ha : t.aborted = false) (hcalls : t.callTrace ≠ [])
    (hforeign : t.answers e = false) (hnest : t.program.nest [] e = some ms) :
    t.deliver e = (.ok (), t.withCallback ms) := by
  cases hname : e.subject? with
  | none =>
    cases e with
    | methodEnter spelling receiver args =>
      obtain ⟨m, -, hm, -, rfl⟩ := Program.nest_methodEnter hnest
      rw [answers, ha] at hforeign
      exact deliver_enter_foreign ha hcalls hm hforeign
    | _ => cases hname
  | some name =>
    obtain ⟨i, hi, -⟩ := Program.nest_subject hname hnest
    cases hi

theorem run_withCallback (hp : t.program.Built) (ha : t.aborted = false)
    (hcalls : t.callTrace = [site]) (hsite : site.next.method = site.call.method)
    (hread : ∀ e ∈ es, e.isReadable = true)
    (hforeign : ∀ m ∈ ms ++ t.program.entered es,
      t.program.hasOwnBody m = true ∧ m ≠ site.call.method)
    (hnest : t.program.nests ms es = some ms') :
    (t.withCallback ms).succeeds es = true ∧ (t.withCallback ms).run es = t.withCallback ms' := by
  induction es generalizing ms with
  | nil =>
    cases hnest
    exact ⟨rfl, rfl⟩
  | cons e es ih =>
    obtain ⟨ms₁, hstep, hrest⟩ := Program.nests_cons hnest
    have hd := deliver_withCallback hp ha hcalls hsite (hread e List.mem_cons_self)
      (fun m hm => hforeign m (List.mem_append_left _ hm)) hstep
    have hforeign' : ∀ m ∈ ms₁ ++ t.program.entered es,
        t.program.hasOwnBody m = true ∧ m ≠ site.call.method :=
      fun m hm => hforeign m (Program.mem_entered_of_nest hstep hm)
    obtain ⟨hok, hrun⟩ := ih (fun f hf => hread f (List.mem_cons_of_mem e hf)) hforeign' hrest
    rw [succeeds, run, List.foldl_cons, hd, hok]
    exact ⟨rfl, hrun⟩

/-! ## Continuing after a callback -/

theorem Followed.flushed {name : String} (h : t.Followed name u) :
    t.flushed.Followed name u.flushed := by
  cases h with
  | idle hcalls => exact .idle hcalls
  | unknown hname => exact .unknown hname
  | again hcalls hname hcall => exact .again hcalls hname hcall
  | back hcalls hname hcall hnext => exact .back hcalls hname hcall hnext
  | left hcalls hname hcall hnext hret hframes hmethod =>
    exact .left hcalls hname hcall hnext hret hframes hmethod
  | within hcalls hname hcall hnext hret => exact .within hcalls hname hcall hnext hret

theorem handle_flushed (hsubject : e.subject? ≠ none) (hok : handle e t = .ok () u) :
    handle e t.flushed = .ok () u := by
  rcases event_cases e with
    ⟨spelling, receiver, args, rfl⟩ | ⟨exception, rfl⟩ | ⟨name, hname, hcaught⟩
  · exact absurd rfl hsubject
  · have hflush (t : Tracer) : Action.flush t = .ok () t.flushed := rfl
    have hsame : Action.caught exception t.flushed = Action.caught exception t := by
      unfold Action.caught
      rw [Action.bind_apply, Action.bind_apply, hflush, hflush, flushed_flushed]
    exact hsame.trans hok
  cases hread : e.isReadable with
  | false =>
    obtain ⟨cause, hfail⟩ := handle_unreadable hread t
    rw [hfail] at hok
    cases hok
  | true =>
    obtain ⟨act, hstart, -⟩ := handle_eq_start hname hcaught hread
    rw [hstart] at hok ⊢
    rcases Action.follow_cases name t with ⟨w, hw⟩ | ⟨cause, hfail⟩
    · rw [Action.start_of_followed act hw] at hok
      rw [Action.start_of_followed act hw.flushed, flushed_flushed]
      exact hok
    · rw [Action.start, Action.bind_apply, hfail] at hok
      cases hok

/-- An event that turns a pending call into a clause does the same when it already is one. -/
theorem deliver_flushed (hsubject : e.subject? ≠ none) (hok : (t.deliver e).1 = .ok ()) :
    t.flushed.deliver e = t.deliver e := by
  obtain ⟨ha, hr⟩ := handle_of_deliver_ok hok
  rw [deliver_of_handle_ok ha hr]
  exact deliver_of_handle_ok ha (handle_flushed hsubject hr)

/-- A callback that does not enter the method that made the call leaves no trace: all its events
succeed, and after it the tracer is as if the pending call had just become a clause. So whatever
comes next goes on as it would without the callback. -/
theorem run_callback {p : Program} (hp : p.Built) (config : Config) (dispatch : Dispatch)
    {es w : List Event} {enter : Event} {call : PendingCall} {t : Tracer}
    (ht : t = (new p config dispatch).run es) (ha : t.aborted = false)
    (hcall : t.pending = some call) (hforeign : t.answers enter = false)
    (hnest : p.nests [] (enter :: w) = some [])
    (hentered : ∀ m ∈ p.entered (enter :: w),
      p.hasOwnBody m = true ∧ m ≠ call.instruction.method)
    (hread : ∀ e ∈ enter :: w, e.isReadable = true) :
    t.succeeds (enter :: w) = true ∧ t.run (enter :: w) = t.flushed ∧
      (∀ es', t.run (enter :: w ++ es') = t.flushed.run es') ∧
      ∀ e es', e.subject? ≠ none → (t.deliver e).1 = .ok () →
        t.run (enter :: w ++ e :: es') = t.run (e :: es') := by
  have hg : t.position.Grounded := ht ▸ grounded_run (grounded_new hp config dispatch) es
  obtain rfl : t.program = p := ht ▸ run_program _ es
  obtain ⟨next, hcalls⟩ : ∃ next, t.callTrace = [⟨call.instruction, next⟩] := hg.pending call hcall
  have hsite := hp.method_of_next? (hg.next ⟨_, next⟩ (hcalls ▸ List.mem_singleton_self _))
  obtain ⟨ms, hstep, hrest⟩ := Program.nests_cons hnest
  have hd := deliver_first ha (hcalls ▸ List.cons_ne_nil _ _) hforeign hstep
  obtain ⟨hok, hrun⟩ := run_withCallback hp ha hcalls hsite
    (fun e he => hread e (List.mem_cons_of_mem _ he))
    (fun m hm => hentered m (Program.mem_entered_of_nest hstep hm)) hrest
  have hrun : t.run (enter :: w) = t.flushed := by
    rw [run, List.foldl_cons, hd]
    exact hrun
  have happend (es' : List Event) : t.run (enter :: w ++ es') = t.flushed.run es' := by
    rw [run_append, hrun]
  refine ⟨?_, hrun, happend, fun e es' hsubject hok => ?_⟩
  · rw [succeeds, hd]
    exact hok
  · rw [happend, run, run, List.foldl_cons, List.foldl_cons, deliver_flushed hsubject hok]

open Sample in
/-- While the list is asked for its size, another method is called back, calls and is called back
again inside that call. -/
theorem run_callback_tail :
    let p := Program.ofBodies [grown, tail]
    let t := (new p .standard .virtual).run [enter "grown", size]
    let w := [size, enter "tail", ret "%a" 3, ret "%a" 3]
    t.phase = .pendingCall ∧ p.nests [] (enter "tail" :: w) = some [] ∧
      t.succeeds (enter "tail" :: w) = true ∧ t.run (enter "tail" :: w) = t.flushed ∧
      t.run (enter "tail" :: w ++ [increment]) = t.run [increment] := by
  intro p t w
  have hp : p.Built := by
    refine Program.built_ofBodies fun b hb => ?_
    rcases List.mem_cons.mp hb with rfl | hb
    · exact built_grown
    · exact List.mem_singleton.mp hb ▸ built_tail
  have hrun : t.phase = .pendingCall ∧ t.aborted = false ∧ t.answers (enter "tail") = false ∧
      p.nests [] (enter "tail" :: w) = some [] ∧ t.succeeds [increment] = true ∧
      (t.pending.any fun call => (p.entered (enter "tail" :: w)).all fun m =>
        p.hasOwnBody m && m ≠ call.instruction.method) = true ∧
      ((enter "tail" :: w).all Event.isReadable) = true := by decide +kernel
  obtain ⟨hphase, ha, hforeign, hnest, hok, hentered, hread⟩ := hrun
  obtain ⟨call, hcall, hentered⟩ := Option.any_eq_true _ _ |>.mp hentered
  have hforeign' : ∀ m ∈ p.entered (enter "tail" :: w),
      p.hasOwnBody m = true ∧ m ≠ call.instruction.method := fun m hm => by
    simpa using List.all_eq_true.mp hentered m hm
  obtain ⟨hsucceeds, hflushed, -, hnext⟩ := run_callback hp .standard .virtual rfl ha hcall hforeign
    hnest hforeign' (List.all_eq_true.mp hread)
  exact ⟨hphase, hnest, hsucceeds, hflushed, hnext increment [] (by decide) (succeeds_cons hok).1⟩

end Tracer

/-! ## Exceptions in a callback -/

namespace Sample

def guardedMethod : Method :=
  Method.new "app/Main" "guarded" ⟨[.object "java/lang/RuntimeException"], .void⟩ Method.staticFlag

/-- Throws its argument and catches what is thrown. -/
def guarded : Body.Builder :=
  let blocks := ((Body.Builder.new guardedMethod none).addBlock "body").addBlock "handler"
  ((blocks.addHandler 0 (.object "java/lang/Throwable")).toOption.getD blocks).addAll
    [(0, "thr", .throwing, none),
      (1, "%e", .catching (.object "java/lang/Throwable"), some (.object "java/lang/Throwable")),
      (1, "ret", .ret, none)]

theorem built_guarded : guarded.Built := by
  have hblocks :
      (((Body.Builder.new guardedMethod none).addBlock "body").addBlock "handler").Built :=
    .addBlock _ (.addBlock _ (.new _ _))
  exact (hblocks.getD fun _ h => .addHandler hblocks h).addAll _

def runtimeException : Observed := .object 2 "java/lang/RuntimeException" []

def enterGuarded : Event :=
  .methodEnter ⟨"app/Main", "guarded", ["Ljava/lang/RuntimeException;"], "V"⟩ none
    [runtimeException]

def throwing : Event := .throwing "thr" ⟨"arg$0", runtimeException⟩

end Sample

namespace Tracer

variable {t u : Tracer} {e : Event} {es : List Event} {m : Method} {ms : List Method}

namespace Action

private theorem handler?_bare (h : Hierarchy) (m : Method) (thrown : Ty) :
    handler? h (Frame.enter m none) thrown = none := rfl

/-- An exception removes the frames of a callback. -/
private theorem unwound_bare (t : Tracer) (thrown : Ty) (ms : List Method) (fs : List Frame)
    (calls : List CallSite) :
    ∃ calls', unwound t thrown (ms.map (Frame.enter · none) ++ fs) calls =
      unwound t thrown fs calls' := by
  induction ms generalizing calls with
  | nil => exact ⟨calls, rfl⟩
  | cons m ms ih =>
    rw [List.map_cons, List.cons_append, unwound, handler?_bare]
    exact ih _

/-- The frames that are left are those from the first one on that handles the exception. -/
private theorem unwound_stack (t : Tracer) (thrown : Ty) (fs : List Frame) (calls : List CallSite) :
    (unwound t thrown fs calls).1.map Frame.method =
      (fs.dropWhile fun f => (handler? t.program.hierarchy f thrown).isNone).map Frame.method := by
  induction fs generalizing calls with
  | nil => rfl
  | cons f fs ih =>
    rw [unwound]
    cases hf : handler? t.program.hierarchy f thrown with
    | none =>
      rw [List.dropWhile_cons_of_pos (by rw [hf]; rfl)]
      exact ih _
    | some handler =>
      rw [List.dropWhile_cons_of_neg (by rw [hf]; exact Bool.false_ne_true)]
      rfl

end Action

/-- What an event does to the frames if it is suppressed: nothing, or it enters a method, or leaves
one by its return or by an exception. -/
private theorem frames_of_handle (hpending : t.pending = none) (hcalls : t.callTrace ≠ [])
    (hu : (handle e).after t = u) (hphase : u.phase = .suppressed) :
    u.frames = t.frames ∨ (∃ m, u.frames = Frame.enter m none :: t.frames) ∨
      (∃ f, t.frames = f :: u.frames) ∨ ∃ thrown, u.stack = (t.unwoundBy thrown).stack := by
  rcases event_cases e with
    ⟨spelling, receiver, args, rfl⟩ | ⟨exception, rfl⟩ | ⟨name, hname, hcaught⟩
  · cases hm : t.program.method spelling.owner spelling.name spelling.args spelling.ret with
    | error cause =>
      have hr : handle (.methodEnter spelling receiver args) t = .error cause t :=
        Action.enter_error hm
      rw [← hu, Action.after_of_error hr]
      exact .inl rfl
    | ok m =>
      have hr : handle (.methodEnter spelling receiver args) t = .ok () _ :=
        Action.enter_of_foreign hm (accepts_of_none hpending spelling) hcalls
      rw [← hu, Action.after_of_ok hr]
      exact .inr (.inl ⟨m, rfl⟩)
  · cases htype : exception.observed.type? with
    | none =>
      have hr : handle (.caught exception) t = .error _ t.flushed := Action.caught_of_none htype t
      rw [← hu, Action.after_of_error hr]
      exact .inl rfl
    | some thrown =>
      have hposition : u.position = (t.unwoundBy thrown).position :=
        hu ▸ Action.caught_after_some exception htype t
      exact .inr (.inr (.inr ⟨thrown, congrArg Position.stack hposition⟩))
  · cases hread : e.isReadable with
    | false =>
      obtain ⟨cause, hr⟩ := handle_unreadable hread t
      rw [← hu, Action.after_of_error hr]
      exact .inl rfl
    | true =>
      obtain ⟨act, hstart, heffect⟩ := handle_eq_start hname hcaught hread
      rw [hstart] at hu
      rcases Action.start_cases name act t with ⟨cause, hr⟩ | ⟨w, hw, ⟨-, hr⟩ | ⟨hnil, hr⟩⟩
      · rw [← hu, Action.after_of_error hr]
        exact .inl rfl
      · rw [← hu, Action.after_of_ok hr]
        cases hw with
        | left _ _ _ _ _ hframes => exact .inr (.inr (.inl ⟨_, hframes⟩))
        | _ => exact .inl rfl
      · -- An event that counts does not leave the tracer suppressed.
        have hacted : (Action.start name act).after t = act.after w.flushed := by
          unfold Action.after
          rw [hr]
        rw [← hu, hacted] at hphase
        exact absurd hphase (phase_effect heffect hnil)

/-- The frames at which an exception is handled: those from the first one on that handles it. -/
def handling (h : Hierarchy) (thrown : Ty) (fs : List Frame) : List Frame :=
  fs.dropWhile fun f => (Action.handler? h f thrown).isNone

theorem length_handling_le (h : Hierarchy) (thrown : Ty) (fs : List Frame) :
    (handling h thrown fs).length ≤ fs.length :=
  (List.dropWhile_sublist _).length_le

theorem handling_eq_nil {h : Hierarchy} {thrown : Ty} {fs : List Frame}
    (hnone : ∀ f ∈ fs, Action.handler? h f thrown = none) : handling h thrown fs = [] := by
  induction fs with
  | nil => rfl
  | cons f fs ih =>
    rw [handling, List.dropWhile_cons_of_pos (by rw [hnone f List.mem_cons_self]; rfl)]
    exact ih fun f' hf' => hnone f' (List.mem_cons_of_mem f hf')

theorem depth_eq (t : Tracer) : t.depth = t.stack.length := by
  rw [depth, stack, List.length_map]

/-- Below a callback, an exception is handled as if the callback were not there. -/
theorem unwoundBy_bare {fs : List Frame}
    (hframes : t.frames = ms.map (Frame.enter · none) ++ fs) (thrown : Ty) :
    (t.unwoundBy thrown).stack =
      (handling t.program.hierarchy thrown fs).map Frame.method := by
  obtain ⟨calls, hcalls⟩ := Action.unwound_bare t.flushed thrown ms fs t.callTrace
  show (Action.unwound t.flushed thrown t.frames t.callTrace).1.map Frame.method = _
  rw [hframes, hcalls]
  exact Action.unwound_stack t.flushed thrown fs calls

/-- As long as events are suppressed and do not leave the callback, its first method stays the
lowest of its frames. -/
theorem bare_deliver {fs : List Frame} (hphase : t.phase = .suppressed)
    (hframes : t.frames = (ms ++ [m]).map (Frame.enter · none) ++ fs)
    (hafter : (t.deliver e).2.phase = .suppressed) (hdepth : fs.length < (t.deliver e).2.depth) :
    ∃ ms', (t.deliver e).2.frames = (ms' ++ [m]).map (Frame.enter · none) ++ fs := by
  obtain ⟨hpending, hcalls⟩ := phase_eq_suppressed_iff.mp hphase
  cases ha : t.aborted with
  | true =>
    unfold deliver
    rw [if_pos ha]
    exact ⟨ms, hframes⟩
  | false =>
    obtain ⟨fatal, hd⟩ := deliver_after ha e
    rw [hd] at hafter hdepth ⊢
    rcases frames_of_handle hpending hcalls rfl hafter with h | ⟨m', h⟩ | ⟨f, h⟩ | ⟨thrown, h⟩
    · exact ⟨ms, h.trans hframes⟩
    · refine ⟨m' :: ms, h.trans ?_⟩
      rw [hframes]
      rfl
    · cases ms with
      | nil =>
        have htail : fs = ((handle e).after t).frames := (List.cons.inj (hframes.symm.trans h)).2
        rw [htail] at hdepth
        exact absurd hdepth (Nat.lt_irrefl _)
      | cons m' ms' => exact ⟨ms', (List.cons.inj (hframes.symm.trans h)).2.symm⟩
    · have hlength : ((handle e).after t).depth ≤ fs.length := by
        rw [depth_eq, h, unwoundBy_bare hframes thrown, List.length_map]
        exact length_handling_le _ _ _
      exact absurd hdepth (Nat.not_lt.mpr hlength)

theorem bare_run {fs : List Frame} (hphase : t.phase = .suppressed)
    (hframes : t.frames = (ms ++ [m]).map (Frame.enter · none) ++ fs)
    (hinside : ∀ es', es' <+: es →
      (t.run es').phase = .suppressed ∧ fs.length < (t.run es').depth) :
    ∃ ms', (t.run es).frames = (ms' ++ [m]).map (Frame.enter · none) ++ fs := by
  induction es generalizing t ms with
  | nil => exact ⟨ms, hframes⟩
  | cons e es ih =>
    rw [forall_prefix_cons] at hinside
    obtain ⟨hphase', hdepth⟩ := hinside.2 [] List.nil_prefix
    obtain ⟨ms', hframes'⟩ := bare_deliver hphase hframes hphase' hdepth
    exact ih hphase' hframes' hinside.2

/-- A callback that has come back to its first method has only the bare frame of it. -/
theorem callback_frames {enter : Event} (ha : t.aborted = false) (hcalls : t.callTrace ≠ [])
    (hforeign : t.answers enter = false) (hnest : t.program.nest [] enter = some [m])
    (hinside : ∀ es', es' <+: es → (t.run (enter :: es')).phase = .suppressed ∧
      t.depth < (t.run (enter :: es')).depth)
    (hdepth : (t.run (enter :: es)).depth = t.depth + 1) :
    (t.run (enter :: es)).frames = [m].map (Frame.enter · none) ++ t.frames := by
  have hrun (es' : List Event) : t.run (enter :: es') = (t.withCallback [m]).run es' := by
    show (t.deliver enter).2.run es' = _
    rw [deliver_first ha hcalls hforeign hnest]
  simp only [hrun] at hinside hdepth ⊢
  have hphase : (t.withCallback [m]).phase = .suppressed := (hinside [] List.nil_prefix).1
  have hframes : (t.withCallback [m]).frames =
      ([] ++ [m]).map (Frame.enter · none) ++ t.frames := rfl
  obtain ⟨ms, hms⟩ := bare_run hphase hframes hinside
  have hnil : ms = [] := by
    rw [depth, depth, hms] at hdepth
    simpa using hdepth
  rw [hms, hnil]
  rfl

/-- A method `m` is called back, and the events `es` are suppressed and do not leave the callback.
Then the frame of `m` handles no exception: one that is caught while `m` is executed again removes
it, and is fatal if no frame below the callback handles it. -/
theorem caught_leaves_callback {enter : Event} {exception : Operand} {thrown : Ty}
    (ha : t.aborted = false) (hcalls : t.callTrace ≠ []) (hforeign : t.answers enter = false)
    (hnest : t.program.nest [] enter = some [m])
    (hinside : ∀ es', es' <+: es → (t.run (enter :: es')).phase = .suppressed ∧
      t.depth < (t.run (enter :: es')).depth)
    (hdepth : (t.run (enter :: es)).depth = t.depth + 1)
    (ha' : (t.run (enter :: es)).aborted = false)
    (hthrown : exception.observed.type? = some thrown) :
    let u := t.run (enter :: es)
    u.stack = m :: t.stack ∧
      (u.deliver (.caught exception)).2.stack =
        (handling t.program.hierarchy thrown t.frames).map Frame.method ∧
      (u.deliver (.caught exception)).2.depth ≤ t.depth ∧
      ((∀ f ∈ t.frames, Action.handler? t.program.hierarchy f thrown = none) →
        (u.deliver (.caught exception)).1 = .error ⟨"catch", .broken (.uncaught thrown)⟩ ∧
          (u.deliver (.caught exception)).2.aborted = true) := by
  intro u
  have hprogram : u.program = t.program := run_program t _
  have hframes := callback_frames ha hcalls hforeign hnest hinside hdepth
  have hstack : (u.deliver (.caught exception)).2.stack =
      (handling t.program.hierarchy thrown t.frames).map Frame.method := by
    have hposition : (u.deliver (.caught exception)).2.position = (u.unwoundBy thrown).position :=
      (deliver_position ha' _).trans (Action.caught_after_some exception hthrown u)
    rw [← hprogram, ← unwoundBy_bare hframes thrown]
    exact congrArg Position.stack hposition
  refine ⟨?_, hstack, ?_, fun hnone => ?_⟩
  · rw [stack, hframes]
    rfl
  · rw [depth_eq, hstack, List.length_map]
    exact length_handling_le _ _ _
  · have hleft : (u.unwoundBy thrown).frames = [] := by
      have hempty : handling u.program.hierarchy thrown t.frames = [] := by
        rw [hprogram]
        exact handling_eq_nil hnone
      have hstack := unwoundBy_bare hframes thrown
      rw [hempty] at hstack
      exact List.map_eq_nil_iff.mp hstack
    obtain ⟨act, -, hcaught⟩ := Action.caught_of_some hthrown
    have hr : handle (.caught exception) u =
        .error (.broken (.uncaught thrown)) (u.unwoundBy thrown) := by
      refine (hcaught u).trans ?_
      rw [hleft]
      rfl
    unfold deliver
    rw [ha', if_neg Bool.false_ne_true, hr]
    exact ⟨rfl, rfl⟩

open Sample

/-- While the list is asked for its size, the guarded method is called back. It enters and leaves
another method before it throws. -/
theorem caught_leaves_callback_guarded :
    let p := Program.ofBodies [grown, tail, guarded]
    let t := (new p .standard .virtual).run [enter "grown", size]
    let es := [enter "tail", ret "%a" 3, throwing]
    let u := t.run (enterGuarded :: es)
    t.stack = [method "grown"] ∧ u.stack = guardedMethod :: t.stack ∧
      (u.deliver (.caught ⟨"%e", runtimeException⟩)).2.depth ≤ t.depth ∧
      (u.deliver (.caught ⟨"%e", runtimeException⟩)).2.aborted = true := by
  intro p t es u
  have hrun : t.stack = [method "grown"] ∧ t.aborted = false ∧ t.callTrace.isEmpty = false ∧
      t.answers enterGuarded = false ∧ t.program.nest [] enterGuarded = some [guardedMethod] ∧
      ((List.range 4).all fun k => (t.run (enterGuarded :: es.take k)).phase = .suppressed ∧
        t.depth < (t.run (enterGuarded :: es.take k)).depth) = true ∧
      (t.run (enterGuarded :: es)).depth = t.depth + 1 ∧
      (t.run (enterGuarded :: es)).aborted = false ∧
      (t.frames.all fun f => (Action.handler? t.program.hierarchy f
        (.object "java/lang/RuntimeException")).isNone) = true := by decide +kernel
  obtain ⟨hstack, ha, hcalls, hforeign, hnest, hprefixes, hdepth, ha', hnone⟩ := hrun
  have hinside : ∀ es', es' <+: es → (t.run (enterGuarded :: es')).phase = .suppressed ∧
      t.depth < (t.run (enterGuarded :: es')).depth := by
    intro es' hes
    have hlength : es'.length ∈ List.range 4 := List.mem_range.mpr (Nat.lt_succ_of_le hes.length_le)
    rw [List.prefix_iff_eq_take.mp hes]
    exact of_decide_eq_true (List.all_eq_true.mp hprefixes _ hlength)
  have hthrown : (Operand.mk "%e" runtimeException).observed.type? =
      some (.object "java/lang/RuntimeException") := by decide +kernel
  obtain ⟨hu, -, hle, hfatal⟩ := caught_leaves_callback ha (List.isEmpty_eq_false_iff.mp hcalls)
    hforeign hnest hinside hdepth ha' hthrown
  refine ⟨hstack, hu, hle, (hfatal fun f hf => ?_).2⟩
  exact Option.isNone_iff_eq_none.mp (List.all_eq_true.mp hnone f hf)

/-- The exception is thrown in a block that is guarded, and caught by the handler of the block. The
tracer does not find the handler and is aborted. -/
theorem caught_aborts_guarded :
    let p := Program.ofBodies [grown, guarded]
    let t := (new p .standard .virtual).run [enter "grown", size, enterGuarded, throwing]
    let caught : Event := .caught ⟨"%e", runtimeException⟩
    p.Built ∧ t.phase = .suppressed ∧ t.stack = [guardedMethod, method "grown"] ∧
      t.aborted = false ∧
      (p.subject? t.stack throwing).any (fun i => i.block = 0) = true ∧
      (guarded.body.block? 0).any (fun b => b.handlers = [.object "java/lang/Throwable"]) = true ∧
      p.hierarchy.isSubtype (.object "java/lang/RuntimeException") (.object "java/lang/Throwable") =
        true ∧
      t.succeeds [caught] = false ∧ (t.run [caught]).stack = [] ∧
      (t.run [caught]).aborted = true := by
  intro p t caught
  have hp : p.Built := by
    refine Program.built_ofBodies fun b hb => ?_
    rcases List.mem_cons.mp hb with rfl | hb
    · exact built_grown
    · exact List.mem_singleton.mp hb ▸ built_guarded
  exact ⟨hp, by decide +kernel⟩

end Tracer

end Concolic
