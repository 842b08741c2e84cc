import Concolic.Proofs.Tracer.Locality
import Mathlib.Data.List.Induction

/-!
# Inlined calls

A call that is answered by a method of the program is inlined: the method gets the terms of the
arguments, and its result is equated with the term that receives it.

* `pending_run`: a pending call is what the last event that was not refused says, a call
  (`Tracer.Made`).
* `inlined_argument`, `inlined_receiver`: the parameters of the method that is entered are bound to
  the terms of the call.
* `deliver_ret`: a return that counts removes the frame that was on top and adds one clause at most.
* `inlined_exactly`: a call that is answered and the return that comes back to the caller, with
  anything in between.
-/

namespace Concolic

namespace Sample

def secondMethod : Method :=
  Method.new "app/Main" "second" ⟨[.int, .object "java/util/List"], .int⟩ Method.staticFlag

/-- Calls another method with its second argument and returns what it gets. -/
def second : Body.Builder :=
  ((Body.Builder.new secondMethod none).addBlock "entry").addAll
    [(0, "%a", .call, some .int), (0, "ret", .ret, none)]

theorem built_second : second.Built := .addAll (.addBlock _ (.new _ _)) _

def enterSecond : Event :=
  .methodEnter ⟨"app/Main", "second", ["I", "Ljava/util/List;"], "I"⟩ none [.int 7, list]

def callTail : Event :=
  .call "%a" ⟨"app/Main", "tail", ["Ljava/util/List;"], "I"⟩ (some "%a") none ["arg$1"] [list]

end Sample

variable {m : Method} {call : PendingCall}

/-! ## Parameters -/

theorem Dispatch.signature_of_virtual {h : Hierarchy} {candidate declared : Method}
    (hv : Dispatch.virtual h candidate declared = true) :
    candidate.signature = declared.signature := by
  unfold Dispatch.virtual at hv
  simp only [Bool.or_eq_true, Bool.and_eq_true, beq_iff_eq] at hv
  rcases hv with heq | hv
  · rw [heq]
  · exact hv.1.2

namespace Tracer

/-- An entry of an inlined frame is the receiver or an argument of the call. -/
theorem mem_inlined {k : Value} {x : Term}
    (h : (k, x) ∈ (m.parameters.1.toList.zip call.callee.toList ++
      m.parameters.2.zip call.arguments)) :
    (∃ ty, m.receiver? = some ty ∧ k = .receiver ty ∧ call.callee = some x) ∨
      ∃ i ty, m.signature.args[i]? = some ty ∧ k = .argument i ty ∧
        call.arguments[i]? = some x := by
  rcases List.mem_append.mp h with h | h
  · obtain ⟨hk, hx⟩ := List.of_mem_zip h
    obtain ⟨ty, hty, rfl⟩ := Option.map_eq_some_iff.mp (Option.mem_toList.mp hk)
    exact .inl ⟨ty, hty, rfl, Option.mem_toList.mp hx⟩
  · obtain ⟨i, hi⟩ := List.getElem?_of_mem h
    obtain ⟨hk, hx⟩ := List.getElem?_zip_eq_some.mp hi
    have hk' : m.signature.args[i]?.map (Value.argument i) = some k := by
      rw [← hk]
      exact List.getElem?_mapIdx.symm
    obtain ⟨ty, hty, rfl⟩ := Option.map_eq_some_iff.mp hk'
    exact .inr ⟨i, ty, hty, rfl, hx⟩

/-- An argument of the method is bound to the argument of the call. -/
theorem inlined_argument {i : Nat} {ty : Ty} {x : Term} (hty : m.signature.args[i]? = some ty)
    (hx : call.arguments[i]? = some x) :
    (Action.inlined m call).get? (.argument i ty) = some x := by
  have hk : m.parameters.2[i]? = some (.argument i ty) := by
    show (m.signature.args.mapIdx fun i t => Value.argument i t)[i]? = _
    rw [List.getElem?_mapIdx, hty]
    rfl
  refine Table.get?_ofList ?_ fun w hw => ?_
  · refine List.mem_append_right _ (List.mem_of_getElem? (i := i) ?_)
    exact List.getElem?_zip_eq_some.mpr ⟨hk, hx⟩
  · rcases mem_inlined hw with ⟨_, _, heq, _⟩ | ⟨j, ty', _, heq, hw'⟩
    · cases heq
    · cases heq
      rw [hx] at hw'
      exact (Option.some.inj hw').symm

/-- The receiver of the method is bound to the object of the call. -/
theorem inlined_receiver {ty : Ty} {x : Term} (hty : m.receiver? = some ty)
    (hx : call.callee = some x) : (Action.inlined m call).get? (.receiver ty) = some x := by
  refine Table.get?_ofList ?_ fun w hw => ?_
  · refine List.mem_append_left _ ?_
    rw [hty, hx]
    exact List.mem_singleton_self _
  · rcases mem_inlined hw with ⟨_, _, _, hw'⟩ | ⟨_, _, _, heq, _⟩
    · rw [hx] at hw'
      exact (Option.some.inj hw').symm
    · cases heq

/-! ## Pending calls -/

variable {t u : Tracer} {e : Event}

/-- What names stand for and which terms are bound does not depend on the calls. -/
theorem Made.calling {name : String} {spelling : MethodSpelling} {result callee : Option String}
    {arguments : List String} {next : Instruction}
    (h : t.Made name spelling result callee arguments call) :
    (t.calling call next).Made name spelling result callee arguments call :=
  ⟨h.instruction, h.method, h.receiver, h.callee, h.arguments, h.arity⟩

private theorem rel_imp {α β : Type} {R S : α → β → Prop} {a : Option α} {b : Option β}
    (hab : Option.Rel R a b) (h : ∀ a b, R a b → S a b) : Option.Rel S a b := by
  cases hab with
  | none => exact .none
  | some hr => exact .some (h _ _ hr)

theorem Made.changed {name : String} {spelling : MethodSpelling} {result callee : Option String}
    {arguments : List String} (h : t.Made name spelling result callee arguments call)
    (hu : t.Changed u) : u.Made name spelling result callee arguments call := by
  have hvalue (n : String) : u.value? n = t.value? n := value?_of_position hu.position n
  have hmeans {n : String} {x : Term} (hn : t.Means n x) : u.Means n x := by
    obtain ⟨v, hv, hx⟩ := hn
    exact ⟨v, (hvalue n).trans hv, hu.binds hx⟩
  refine ⟨?_, ?_, ?_, rel_imp h.callee fun _ _ => hmeans, h.arguments.imp fun _ _ => hmeans,
    h.arity⟩
  · exact (hu.instruction? name).trans h.instruction
  · rw [hu.program]
    exact h.method
  · exact rel_imp h.receiver fun n r hr => ⟨(hvalue n).trans hr.1, hu.binds hr.2⟩

/-- The event reports the call. -/
def Reports (t : Tracer) (e : Event) (call : PendingCall) : Prop :=
  ∃ name spelling result callee arguments observed,
    e = .call name spelling result callee arguments observed ∧
      t.Made name spelling result callee arguments call

/-- A call is pending after an event that reports it, or after one that was refused. -/
theorem handled_pending {ok : Bool} (h : t.Handled e ok u) (hcall : u.pending = some call) :
    u = t ∨ u.Reports e call := by
  have hnone (hu : u.pending = none) : u = t ∨ u.Reports e call := by
    rw [hcall] at hu
    cases hu
  cases h with
  | refused => exact .inl rfl
  | answered | pushed | nullException | uncaught | unwound | skipped => cases hcall
  | entered _ _ _ hu =>
    refine hnone (Action.entered_keep (P := fun w => w.pending = none) hu (fun v o hframes h => ?_)
      rfl)
    rw [← h]
    exact congrArg Position.pending (Action.defining_position v (some o) hframes)
  | acted hs hw hu =>
    exact hnone ((congrArg Position.pending (position_of_begun (.inr hw) hu)).trans hs.pending)
  | failed hs hw hu =>
    exact hnone ((congrArg Position.pending (position_of_begun hw hu)).trans hs.pending)
  | notCalled hs hw hu =>
    exact hnone ((congrArg Position.pending (hu.position.trans hw.position)).trans hs.pending)
  | called _ _ _ hmade hv =>
    rw [hv.pending] at hcall
    cases hcall
    exact .inr ⟨_, _, _, _, _, _, rfl, hmade.calling.changed hv⟩
  | returned =>
    obtain ⟨_, _, _, _, _, heq⟩ := returned_eq t.resumed _ _ _ _ _
    rw [heq] at hcall
    cases hcall

theorem deliver_pending (ha : (t.deliver e).2.aborted = false)
    (hcall : (t.deliver e).2.pending = some call) :
    (t.deliver e).2 = t ∨ (t.deliver e).2.Reports e call := by
  cases hstop : t.aborted with
  | true =>
    refine .inl ?_
    unfold deliver
    rw [if_pos hstop]
  | false =>
    rcases deliver_handled hstop e with ⟨u, hd, hu⟩ | ⟨cause, u, hd, hu⟩
    · rw [hd] at hcall ⊢
      exact handled_pending hu hcall
    · rw [hd] at ha hcall ⊢
      rcases handled_pending (u := u) hu hcall with rfl | hreports
      · refine .inl ?_
        show ({ u with aborted := cause.isFatal } : Tracer) = u
        rw [show cause.isFatal = u.aborted from Eq.trans ha hstop.symm]
      · obtain ⟨_, _, _, _, _, _, heq, h⟩ := hreports
        exact .inr ⟨_, _, _, _, _, _, heq, h.instruction, h.method, h.receiver, h.callee,
          h.arguments, h.arity⟩

/-- A pending call was reported by an event, and nothing has changed since. -/
theorem pending_run {s : Tracer} {es : List Event} (hs : s.pending = none)
    (ha : (s.run es).aborted = false) (hcall : (s.run es).pending = some call) :
    ∃ es₁ e es₂, es = es₁ ++ e :: es₂ ∧ s.run es = s.run (es₁ ++ [e]) ∧
      (s.run es).Reports e call := by
  induction es using List.reverseRecOn with
  | nil =>
    rw [run, List.foldl_nil, hs] at hcall
    cases hcall
  | append_singleton es e ih =>
    have hlast : s.run (es ++ [e]) = ((s.run es).deliver e).2 := run_append s es [e]
    rw [hlast] at ha hcall ⊢
    rcases deliver_pending ha hcall with hsame | hreports
    · rw [hsame] at ha hcall ⊢
      obtain ⟨es₁, e', es₂, heq, hrun, hreports⟩ := ih ha hcall
      refine ⟨es₁, e', es₂ ++ [e], ?_, hrun, hreports⟩
      rw [heq, List.append_assoc, List.cons_append]
    · exact ⟨es, e, [], rfl, hlast.symm, hreports⟩

/-! ## Returns -/

theorem phase_eq_idle_iff : t.phase = .idle ↔ t.pending = none ∧ t.callTrace = [] := by
  unfold phase
  cases t.pending <;> cases t.callTrace <;> simp

theorem handled_ret {name : String} {result : Option String} {o : Observed} {ok : Bool}
    (h : t.Handled (.ret name result o) ok u) (hdepth : u.depth ≠ t.depth)
    (hphase : u.phase = .idle) :
    ok = true ∧ ∃ f callers i v, t.frames = f :: callers ∧ t.instruction? name = some i ∧
      Option.Rel (fun n v => t.value? n = some v) result v ∧
      u = t.resumed.returned i f callers v o := by
  cases h with
  | refused => exact absurd rfl hdepth
  | skipped _ _ _ hcalls => exact absurd (phase_eq_idle_iff.mp hphase).2 hcalls
  | acted hs hw hu =>
    cases hs with
    | instruction => exact absurd ((opened_same hw).trans hu.same).length hdepth
  | failed hs hw hu =>
    cases hs with
    | instruction =>
      rcases hw with rfl | hw
      · exact absurd hu.same.length hdepth
      · exact absurd ((opened_same hw).trans hu.same).length hdepth
  | returned _ hi hframes hv => exact ⟨rfl, _, _, _, _, hframes, hi, hv, rfl⟩

/-- A return that counts and changes the depth removes the active frame. -/
theorem deliver_ret {name : String} {result : Option String} {o : Observed}
    (hdepth : (t.deliver (.ret name result o)).2.depth ≠ t.depth)
    (hphase : (t.deliver (.ret name result o)).2.phase = .idle) :
    ∃ f callers i v, t.frames = f :: callers ∧ t.instruction? name = some i ∧
      Option.Rel (fun n v => t.value? n = some v) result v ∧
      (t.deliver (.ret name result o)).2 = t.resumed.returned i f callers v o := by
  cases ha : t.aborted with
  | true =>
    unfold deliver at hdepth
    rw [if_pos ha] at hdepth
    exact absurd rfl hdepth
  | false =>
    rcases deliver_handled ha (.ret name result o) with ⟨u, hd, hu⟩ | ⟨cause, u, hd, hu⟩
    · rw [hd] at hdepth hphase ⊢
      exact (handled_ret hu hdepth hphase).2
    · rw [hd] at hdepth hphase
      have hok := (handled_ret (u := u) hu hdepth hphase).1
      cases hok

/-- What a return adds: the clause that equates what receives the result with what is returned, if
there are both. -/
def passing (t : Tracer) (i : Instruction) (f : Frame) (v : Option Value) : List Clause :=
  match v, f.receiver with
  | some v, some (_, y) => [.state i (i.effect.equality y (t.term f v))]
  | _, _ => []

private theorem passing_some (t : Tracer) (i : Instruction) {f : Frame} {r : Value} {y : Term}
    (v : Value) (h : f.receiver = some (r, y)) :
    t.passing i f (some v) = [.state i (i.effect.equality y (t.term f v))] := by
  unfold passing
  rw [h]

private theorem passing_eq_nil (t : Tracer) (i : Instruction) {f : Frame} {v : Option Value}
    (h : f.receiver = none ∨ v = none) : t.passing i f v = [] := by
  unfold passing
  rcases h with h | h
  · rw [h]
    cases v <;> rfl
  · rw [h]

private theorem resumed_passing (t : Tracer) (i : Instruction) (f : Frame) (v : Option Value) :
    t.resumed.passing i f v = t.passing i f v := by
  have hterm (v : Value) : t.resumed.term f v = t.term f v := by
    unfold term
    cases v <;> rfl
  unfold passing
  simp only [hterm]

theorem returned_clauses (t : Tracer) (i : Instruction) (f : Frame) (callers : List Frame)
    (v : Option Value) (o : Observed) :
    (t.returned i f callers v o).clauses = t.clauses ++ t.passing i f v := by
  unfold returned passing
  cases v with
  | none => cases f.receiver <;> exact (List.append_nil _).symm
  | some v =>
    obtain ⟨names, frames, heq⟩ := Action.reading_eq t f callers v
    cases f.receiver with
    | none =>
      dsimp only [Option.elim]
      rw [heq]
      exact (List.append_nil _).symm
    | some r => rfl

theorem returned_frames (t : Tracer) (i : Instruction) (f : Frame) (callers : List Frame)
    (v : Option Value) (o : Observed) : (t.returned i f callers v o).frames = callers := by
  obtain ⟨_, _, _, _, _, heq⟩ := returned_eq t i f callers v o
  rw [heq]

private theorem returned_summary (t : Tracer) (i : Instruction) (f : Frame) (callers : List Frame)
    (v : Option Value) (o : Observed) :
    (t.resumed.returned i f callers v o).summary.clauses =
      t.summary.clauses ++ t.passing i f v := by
  have hpending : (t.resumed.returned i f callers v o).pending = none := by
    obtain ⟨_, _, _, _, _, heq⟩ := returned_eq t.resumed i f callers v o
    rw [heq]
    rfl
  rw [summary_clauses_of_none hpending, returned_clauses, resumed_passing]
  rfl

/-- A return that comes back to the callers finds them untouched. Then the frame that returns is the
one that was put on top of them. -/
private theorem ret_above {callers : List Frame} {a : Method × Option (Value × Term)}
    {name : String} {result : Option String} {o : Observed}
    (habove : Frame.Above callers a t.frames) (hinside : t.depth ≠ callers.length)
    (hdepth : (t.deliver (.ret name result o)).2.depth = callers.length)
    (hphase : (t.deliver (.ret name result o)).2.phase = .idle) :
    ∃ f i v, f.anchor = a ∧ t.frames = f :: callers ∧ t.instruction? name = some i ∧
      Option.Rel (fun n v => t.value? n = some v) result v ∧
      (t.deliver (.ret name result o)).2 = t.resumed.returned i f callers v o := by
  have hleft : (t.deliver (.ret name result o)).2.depth ≠ t.depth := by
    rw [hdepth]
    exact Ne.symm hinside
  obtain ⟨f, fs, i, v, hframes, hi, hv, hu⟩ := deliver_ret hleft hphase
  have hlength : fs.length = callers.length := by
    rw [← hdepth, hu, depth, returned_frames]
  rw [hframes] at habove
  rcases habove with ⟨g, hg, hsuffix⟩ | hshort
  · have heq : g :: callers = f :: fs := hsuffix.eq_of_length (by simp [hlength])
    cases heq
    exact ⟨f, i, v, hg, hframes, hi, hv, hu⟩
  · rw [List.length_cons] at hshort
    omega

/-- A method that overrides the called one answers the call: it is entered with its parameters bound
to the terms of the call, and nothing else changes. -/
theorem deliver_answering {spelling : MethodSpelling} (receiver : Option Observed)
    (args : List Observed) (ha : t.aborted = false) (hcall : t.pending = some call)
    (hm : t.program.method spelling.owner spelling.name spelling.args spelling.ret = .ok m)
    (hdispatch : t.dispatch t.program.hierarchy m call.method = true) :
    t.deliver (.methodEnter spelling receiver args) = (.ok (), t.answering m call) := by
  have hr : handle (.methodEnter spelling receiver args) t = .ok () (t.answering m call) :=
    Action.enter_of_accepted hcall hm hdispatch
  unfold deliver
  rw [ha, if_neg Bool.false_ne_true, hr]

/-- Inlining passes parameters and results exactly. A call is pending, and a method is entered that
overrides the called one. Then

* the call is what the last event that was not refused reported, and nothing has changed since;
* the method is entered with its parameters bound to the terms of the call, and no clause is added;
* the first return to the caller finds its frame as the call left it, and adds the clause that
  equates what receives the result with the returned term, if the call has the one and the return
  the other. -/
theorem inlined_exactly {p : Program} (hp : p.Built) (config : Config) {es : List Event}
    {t : Tracer} (spelling : MethodSpelling) (receiver : Option Observed) (args : List Observed)
    (ht : t = (new p config .virtual).run es) (ha : t.aborted = false)
    (hcall : t.pending = some call)
    (hm : p.method spelling.owner spelling.name spelling.args spelling.ret = .ok m)
    (hoverrides : Dispatch.virtual p.hierarchy m call.method = true) :
    let enter := Event.methodEnter spelling receiver args
    let u := (t.deliver enter).2
    (∃ es₁ e es₂, es = es₁ ++ e :: es₂ ∧ t = (new p config .virtual).run (es₁ ++ [e]) ∧
      t.Reports e call) ∧
    (t.deliver enter).1 = .ok () ∧ u.depth = t.depth + 1 ∧ u.phase = .idle ∧
    u.clauses = t.clauses ∧ u.summary.clauses = t.clauses ∧
    (∃ f, u.frames = f :: t.frames ∧ f.method = m ∧
      (∀ i ty, m.signature.args[i]? = some ty →
        ∃ x, call.arguments[i]? = some x ∧ f.values.get? (.argument i ty) = some x) ∧
      ∀ x ty, call.callee = some x → m.receiver? = some ty →
        f.values.get? (.receiver ty) = some x) ∧
    ∀ es' name result o, (∀ es'', es'' <+: es' → (u.run es'').depth ≠ t.depth) →
      let s := u.run es'
      let s' := (s.deliver (.ret name result o)).2
      s'.depth = t.depth → s'.phase = .idle →
        s'.frames = t.frames ∧ ∃ i f, s.instruction? name = some i ∧ s.frames = f :: t.frames ∧
          f.method = m ∧
          (∀ r y n, call.receiver = some (r, y) → result = some n →
            ∃ v, s.value? n = some v ∧ s'.summary.clauses = s.summary.clauses ++
              [.state i (i.effect.equality y ((f.values.get? v).getD (s.fresh v)))]) ∧
          (call.receiver = none ∨ result = none →
            s'.summary.clauses = s.summary.clauses) := by
  intro enter u
  have hsetup : t.setup = (p, .virtual, config) := ht ▸ run_setup _ es
  obtain ⟨hprogram, hdispatch, -⟩ : t.program = p ∧ t.dispatch = .virtual ∧ t.config = config := by
    simpa [setup] using hsetup
  subst hprogram
  have hu : t.deliver enter = (.ok (), t.answering m call) :=
    deliver_answering receiver args ha hcall hm (by rw [hdispatch]; exact hoverrides)
  obtain ⟨es₁, e, es₂, hes, hrun, hreports⟩ : ∃ es₁ e es₂, es = es₁ ++ e :: es₂ ∧
      t = (new t.program config .virtual).run (es₁ ++ [e]) ∧ t.Reports e call := by
    have h := pending_run (s := new t.program config .virtual) rfl (ht ▸ ha) (ht ▸ hcall)
    rwa [← ht] at h
  have hgrounded : t.position.Grounded := ht ▸ grounded_run (grounded_new hp config .virtual) es
  obtain ⟨next, hcalls⟩ : ∃ next, t.callTrace = [⟨call.instruction, next⟩] :=
    hgrounded.pending call hcall
  have hphase : (t.answering m call).phase = .idle := by
    refine phase_eq_idle_iff.mpr ⟨rfl, ?_⟩
    show t.callTrace.tail = []
    rw [hcalls]
    rfl
  have hanswer : u = t.answering m call := congrArg Prod.snd hu
  clear_value u
  subst hanswer
  refine ⟨⟨es₁, e, es₂, hes, hrun, hreports⟩, congrArg Prod.fst hu, rfl, hphase, rfl, ?_, ?_, ?_⟩
  · exact summary_clauses_of_none rfl
  · refine ⟨_, rfl, rfl, fun i ty hty => ?_, fun x ty hx hty => inlined_receiver hty hx⟩
    obtain ⟨_, _, _, _, _, _, -, hmade⟩ := hreports
    have harity : i < call.arguments.length := by
      rw [hmade.arity, ← Dispatch.signature_of_virtual hoverrides]
      exact (List.getElem?_eq_some_iff.mp hty).1
    have hx := List.getElem?_eq_getElem harity
    exact ⟨_, hx, inlined_argument hty hx⟩
  · intro es' name result o hinside s s' hdepth hidle
    have habove : Frame.Above t.frames (m, call.receiver) s.frames :=
      above_run (.inl ⟨_, rfl, List.suffix_refl _⟩) hinside
    obtain ⟨f, i, v, hanchor, hframes, hi, hv, hret⟩ := ret_above habove
      (hinside es' (List.prefix_refl _)) hdepth hidle
    obtain ⟨hmethod, hreceiver⟩ := Prod.mk.inj hanchor
    have hclauses : s'.summary.clauses = s.summary.clauses ++ s.passing i f v := by
      rw [← returned_summary s i f t.frames v o, ← hret]
    refine ⟨?_, i, f, hi, hframes, hmethod, fun r y n hr hn => ?_, fun hnone => ?_⟩
    · rw [← returned_frames s.resumed i f t.frames v o, ← hret]
    · rw [hn] at hv
      cases hv with
      | some hv =>
        refine ⟨_, hv, hclauses.trans ?_⟩
        rw [passing_some s i _ (hreceiver.trans hr)]
        rfl
    · have hnone' : f.receiver = none ∨ v = none := by
        rcases hnone with hnone | hnone
        · exact .inl (hreceiver.trans hnone)
        · rw [hnone] at hv
          cases hv
          exact .inr rfl
      rw [hclauses, passing_eq_nil s i hnone', List.append_nil]

open Sample in
/-- The second argument is passed as the first one of `tail`, which asks the list for its size and
is called back there. The result is passed to the caller. -/
theorem inlined_exactly_tail :
    let p := Program.ofBodies [second, tail, grown]
    let t := (new p .standard .virtual).run [enterSecond, callTail]
    let u := (t.deliver (enter "tail")).2
    let s := u.run [size, enter "grown", ret "%b" 4]
    let s' := (s.deliver (ret "%a" 3)).2
    t.phase = .pendingCall ∧ u.depth = t.depth + 1 ∧ u.phase = .idle ∧ u.clauses = t.clauses ∧
      (∃ x, x.name = "arg$1" ∧ u.Binds (.argument 0 (.object "java/util/List")) x) ∧
      s'.frames = t.frames ∧ s'.summary.clauses.length = s.summary.clauses.length + 1 := by
  intro p t u s s'
  have hp : p.Built := by
    refine Program.built_ofBodies fun b hb => ?_
    simp only [List.mem_cons, List.not_mem_nil, or_false] at hb
    rcases hb with rfl | rfl | rfl
    · exact built_second
    · exact built_tail
    · exact built_grown
  have hrun : t.phase = .pendingCall ∧ t.aborted = false ∧
      (p.method "app/Main" "tail" ["Ljava/util/List;"] "I").toOption = some (method "tail") ∧
      (t.pending.any fun call => Dispatch.virtual p.hierarchy (method "tail") call.method &&
        call.receiver.isSome && call.arguments.map Term.name == ["arg$1"]) = true ∧
      ((List.range 4).all fun k =>
        (u.run ([size, enter "grown", ret "%b" 4].take k)).depth ≠ t.depth) = true ∧
      s'.depth = t.depth ∧ s'.phase = .idle := by
    decide +kernel
  obtain ⟨hphase, ha, hm, hpending, hprefixes, hdepth, hidle⟩ := hrun
  obtain ⟨call, hcall, hpending⟩ := Option.any_eq_true _ _ |>.mp hpending
  simp only [Bool.and_eq_true, beq_iff_eq] at hpending
  obtain ⟨⟨hoverrides, hreceiver⟩, hnames⟩ := hpending
  obtain ⟨⟨r, y⟩, hreceiver⟩ := Option.isSome_iff_exists.mp hreceiver
  have hinside : ∀ es, es <+: [size, enter "grown", ret "%b" 4] → (u.run es).depth ≠ t.depth := by
    intro es hes
    have hlength : es.length ∈ List.range 4 := List.mem_range.mpr (Nat.lt_succ_of_le hes.length_le)
    rw [List.prefix_iff_eq_take.mp hes]
    exact of_decide_eq_true (List.all_eq_true.mp hprefixes _ hlength)
  obtain ⟨-, -, hu, hphase', hclauses, -, ⟨f, hframes, -, hbound, -⟩, hreturn⟩ :=
    inlined_exactly hp .standard ⟨"app/Main", "tail", ["Ljava/util/List;"], "I"⟩ none [list] rfl ha
      hcall (Program.toOption_eq_some hm) hoverrides
  obtain ⟨x, hx, hget⟩ := hbound 0 (.object "java/util/List") rfl
  obtain ⟨hcallers, i, g, -, -, -, hpassed, -⟩ :=
    hreturn _ "ret" (some "%a") (.int 3) hinside hdepth hidle
  obtain ⟨v, -, hsummary⟩ := hpassed r y "%a" hreceiver rfl
  refine ⟨hphase, hu, hphase', hclauses, ⟨x, ?_, f, _, hframes, hget⟩, hcallers, ?_⟩
  · have hname := congrArg (fun names : List String => names[0]?) hnames
    simpa [hx] using hname
  · have hlength := congrArg List.length hsummary
    rwa [List.length_append] at hlength

end Tracer

end Concolic
