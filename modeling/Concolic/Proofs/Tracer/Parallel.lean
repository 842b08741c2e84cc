import Concolic.Proofs.Tracer.View

/-!
# Actions on tracers that are alike

* `Action.Parallel act`: from tracers that are alike the action comes to the same result, and to
  tracers that are alike.
* `Action.Plain act`: the action is parallel, and whatever becomes of it, only names, terms of
  values and records change. Looking up names and using terms is plain.
* `Action.Steady p act`: in the program `p` the action is parallel as far as a replay can tell, and
  if it fails without breaking an invariant, only names, terms of values and records have changed.
  A plain action in front of a steady one is steady (`Steady.andThen`), so a handler is steady if it
  ends so.
-/

namespace Concolic.Tracer

variable {t u : Tracer}

namespace Action

variable {α β : Type} {x act : Action α} {k : α → Action β}

/-- The results are the same, and the tracers are alike. -/
inductive Same : EStateM.Result Error Tracer α → EStateM.Result Error Tracer α → Prop
  | ok (a : α) {t u : Tracer} (h : t.Alike u) : Same (.ok a t) (.ok a u)
  | error (e : Error) {t u : Tracer} (h : t.Alike u) : Same (.error e t) (.error e u)

/-- The action cannot tell tracers apart that are alike. -/
def Parallel (act : Action α) : Prop := ∀ ⦃t u : Tracer⦄, t.Alike u → Same (act t) (act u)

namespace Parallel

theorem pure (a : α) : (Pure.pure a : Action α).Parallel := fun _ _ h => .ok a h

theorem throw (e : Error) : (MonadExcept.throw e : Action α).Parallel := fun _ _ h => .error e h

theorem lift (r : Result α) : (liftM r : Action α).Parallel := fun _ _ h => by
  cases r with
  | ok a => exact .ok a h
  | error e => exact .error e h

theorem bind (hx : x.Parallel) (hk : ∀ a, (k a).Parallel) : (x >>= k).Parallel := fun t u h => by
  rw [bind_apply, bind_apply]
  have hsame := hx h
  generalize x t = r, x u = s at hsame
  cases hsame with
  | ok a h => exact hk a h
  | error e h => exact .error e h

/-- What is asked of the tracer does not tell it apart. -/
theorem get {k : Tracer → Action β} (hask : ∀ {t u : Tracer}, t.Alike u → k u = k t)
    (hk : ∀ t, (k t).Parallel) : (MonadState.get >>= k).Parallel := fun t u h => by
  rw [get_bind, get_bind, hask h]
  exact hk t h

theorem modify {g : Tracer → Tracer} (hg : ∀ {t u : Tracer}, t.Alike u → (g t).Alike (g u)) :
    (modify g : Action PUnit).Parallel := fun t u h => by
  exact Same.ok PUnit.unit (hg h)

/-- What is asked of the active frame does not tell it apart. -/
theorem frame {k : Frame → Action β} (hask : ∀ {f g : Frame}, g.view = f.view → k g = k f)
    (hk : ∀ f, (k f).Parallel) : (Action.frame >>= k).Parallel := fun t u h => by
  rw [bind_apply, bind_apply]
  cases hframes : t.frames with
  | nil =>
    rw [frame_nil hframes, frame_nil (h.frames_nil hframes)]
    exact .error _ h
  | cons f fs =>
    obtain ⟨g, gs, hu, hview, -⟩ := h.frames_cons hframes
    rw [frame_run hframes, frame_run hu]
    dsimp only
    rw [hask hview]
    exact hk f h

/-- The active frame is changed in what can be seen of it. -/
theorem modifyFrame {change : Frame → Frame} {g : Frame.View → Frame.View}
    (hchange : ∀ f : Frame, (change f).view = g f.view) :
    (Action.modifyFrame change).Parallel := fun t u h => by
  cases hframes : t.frames with
  | nil =>
    rw [modifyFrame_nil _ hframes, modifyFrame_nil _ (h.frames_nil hframes)]
    exact .error _ h
  | cons f fs =>
    obtain ⟨f', fs', hu, hview, hrest⟩ := h.frames_cons hframes
    rw [modifyFrame_cons _ hframes, modifyFrame_cons _ hu]
    refine .ok () (h.of_view (fun w => { w with frames := g f.view :: fs.map Frame.view }) ?_ ?_
      h.concrete h.origins)
    · rw [← hchange, ← List.map_cons]
      rfl
    · rw [← hview, ← hchange, ← hrest, ← List.map_cons]
      rfl

theorem bindFresh (v : Value) : (Action.bindFresh v).Parallel := fun t u h => by
  have hfresh : u.fresh v = t.fresh v := fresh_of_count h.count v
  cases hframes : t.frames with
  | nil =>
    rw [bindFresh_nil v hframes, bindFresh_nil v (h.frames_nil hframes)]
    refine .error _ (h.of_view (·.issued v) (view_issued t v) (view_issued u v) ?_ ?_)
    · rw [issued_concrete, issued_concrete, h.concrete]
    · cases v <;> exact h.origins
  | cons f fs =>
    obtain ⟨g, gs, hu, hview, hrest⟩ := h.frames_cons hframes
    rw [bindFresh_run v hframes, bindFresh_run v hu, hfresh]
    refine .ok _ ⟨?_, ?_, ?_⟩
    · rw [view_binding, view_binding, h.view, hview, hrest, hfresh]
    · exact (issued_concrete u v).trans (h.concrete.trans (issued_concrete t v).symm)
    · cases v <;> exact h.origins

end Parallel

/-! ## Plain actions -/

/-- The action cannot tell tracers apart that are alike, and besides records it changes names and
terms of values only. -/
structure Plain (act : Action α) : Prop where
  parallel : act.Parallel
  rest : ∀ t : Tracer, (act.after t).rest = t.rest

namespace Plain

theorem of_reads (hact : act.Reads) (h : act.Parallel) : act.Plain :=
  ⟨h, fun t => by rw [hact t]⟩

theorem pure (a : α) : (Pure.pure a : Action α).Plain := of_reads (Reads.pure a) (.pure a)

theorem throw (e : Error) : (MonadExcept.throw e : Action α).Plain :=
  of_reads (Reads.throw e) (.throw e)

theorem lift (r : Result α) : (liftM r : Action α).Plain := of_reads (Reads.lift r) (.lift r)

theorem bind (hx : x.Plain) (hk : ∀ a, (k a).Plain) : (x >>= k).Plain := by
  have hrest := Sequential.of_relation (R := fun t u => u.rest = t.rest) (fun _ => rfl)
    fun h h' => h'.trans h
  exact ⟨hx.parallel.bind fun a => (hk a).parallel, hrest.bind hx.rest fun a => (hk a).rest⟩

theorem sequential : Sequential Plain := ⟨pure, bind⟩

/-- What is asked of the tracer does not tell it apart. -/
theorem get {k : Tracer → Action β} (hask : ∀ {t u : Tracer}, t.Alike u → k u = k t)
    (hk : ∀ t, (k t).Plain) : (MonadState.get >>= k).Plain := by
  refine ⟨.get hask fun t => (hk t).parallel, fun t => ?_⟩
  rw [after_bind_of_ok (x := MonadState.get) (a := t) rfl]
  exact (hk t).rest t

/-- What is asked of the active frame does not tell it apart. -/
theorem frame {k : Frame → Action β} (hask : ∀ {f g : Frame}, g.view = f.view → k g = k f)
    (hk : ∀ f, (k f).Plain) : (Action.frame >>= k).Plain := by
  refine ⟨.frame hask fun f => (hk f).parallel, fun t => ?_⟩
  cases hframes : t.frames with
  | nil =>
    rw [after_bind_of_error (frame_nil hframes)]
  | cons f fs =>
    rw [after_bind_of_ok (frame_run hframes)]
    exact (hk f).rest t

/-- What is recorded of terms is not in the view. -/
theorem modify {g : Tracer → Tracer} (hrest : ∀ t, (g t).rest = t.rest)
    (hg : ∀ {t u : Tracer}, t.Alike u → (g t).Alike (g u)) : (modify g : Action PUnit).Plain :=
  ⟨.modify hg, hrest⟩

theorem forM {f : α → Action PUnit} (hf : ∀ a, (f a).Plain) (as : List α) :
    (as.forM f).Plain := sequential.forM hf as

/-! ### Names -/

theorem body : Action.body.Plain := by
  refine frame (fun {f g} hview => ?_) fun f => get (fun h => by rw [h.program]) fun t => lift _
  rw [show g.method = f.method from congrArg Frame.View.method hview]

theorem value (name : String) : (Action.value name).Plain := bind body fun _ => lift _

theorem values (names : List String) : (Action.values names).Plain := sequential.mapM value names

theorem value? : (name : Option String) → (Action.value? name).Plain
  | some name => bind (value name) fun _ => pure _
  | none => pure none

theorem resolve (o : Operand) : (Action.resolve o).Plain := bind (value o.name) fun _ => pure _

theorem anyInstruction (name : String) : (Action.anyInstruction name).Plain :=
  bind body fun _ => lift _

theorem resultOf (i : Instruction) : (Action.resultOf i).Plain := by
  unfold Action.resultOf
  split
  · exact pure _
  · exact throw _

theorem select (name expected : String) (accept : InstKind → Option α) :
    (Action.select name expected accept).Plain := by
  refine bind body fun b => bind (lift _) fun i => ?_
  split
  · exact pure _
  · exact throw _

theorem nextOf (i : Instruction) : (Action.nextOf i).Plain := by
  refine get (fun h => by rw [h.program]) fun t => bind (lift _) fun b => ?_
  split
  · exact pure _
  · exact throw _

/-! ### Terms -/

theorem bindFresh (v : Value) : (Action.bindFresh v).Plain := by
  refine ⟨.bindFresh v, fun t => ?_⟩
  cases hframes : t.frames with
  | nil =>
    rw [after_of_error (bindFresh_nil v hframes)]
    cases v <;> rfl
  | cons f fs =>
    rw [after_of_ok (bindFresh_run v hframes)]
    cases v <;> rfl

theorem termOf (v : Value) : (Action.termOf v).Plain := by
  cases hown : v.own? with
  | some x =>
    -- Whether the value is bound or not, it is seen to have the same term before and after.
    refine ⟨fun t u h => ?_, fun t => ?_⟩
    · cases hframes : t.frames with
      | nil =>
        rw [Action.termOf, bind_apply, bind_apply, frame_nil hframes,
          frame_nil (h.frames_nil hframes)]
        exact .error _ h
      | cons f fs =>
        obtain ⟨g, gs, hu, hview, -⟩ := h.frames_cons hframes
        rw [termOf_run v hframes, termOf_run v hu, term_eq, term_eq, hview,
          fresh_of_count h.count v]
        obtain ⟨names, frames, ht⟩ := reading_eq t f fs v
        obtain ⟨names', frames', hu'⟩ := reading_eq u g gs v
        refine .ok _ (h.of_view id (view_reading_of_own hown hframes) (view_reading_of_own hown hu)
          ?_ ?_)
        · rw [ht, hu']
          exact h.concrete
        · rw [ht, hu']
          exact h.origins
    · cases hframes : t.frames with
      | nil =>
        rw [Action.termOf, after_bind_of_error (frame_nil hframes)]
      | cons f fs =>
        rw [after_of_ok (termOf_run v hframes), Tracer.rest, view_reading_of_own hown hframes]
        rfl
  | none =>
    cases v with
    | receiver | argument | constant => cases hown
    | result name ty =>
      have hget (f : Frame) : f.values.get? (.result name ty) = f.view.values (.result name ty) :=
        (Option.or_none).symm
      refine frame (fun {f g} hview => ?_) fun f => ?_
      · rw [hget, hview, ← hget]
      · split
        · exact pure _
        · exact bindFresh _

theorem noteOrigin (x : Term) (m : Method) (v : Value) : (Action.noteOrigin x m v).Plain := by
  refine modify (fun t => rfl) fun {t u} h => ⟨h.view, h.concrete, ?_⟩
  show u.origins.insertNew x ⟨m, v⟩ = t.origins.insertNew x ⟨m, v⟩
  rw [h.origins]

theorem noteConcrete (x : Term) (o : Observed) : (Action.noteConcrete x o).Plain := by
  refine modify (fun t => rfl) fun {t u} h => ⟨h.view, ?_, h.origins⟩
  show u.concrete.insertNew x (o.describeAs u.setup.2.2.limits x.ty) =
    t.concrete.insertNew x (o.describeAs t.setup.2.2.limits x.ty)
  rw [h.concrete, h.setup]

theorem noteHere (x : Term) (v : Value) : (Action.noteHere x v).Plain := by
  refine frame (fun {f g} hview => ?_) fun f => noteOrigin x f.method v
  rw [show g.method = f.method from congrArg Frame.View.method hview]

theorem recording : Recording Plain where
  toSequential := sequential
  bindFresh := bindFresh
  termOf := termOf
  noteHere := noteHere
  noteConcrete := noteConcrete

theorem note (x : Term) (s : Sighting) : (Action.note x s).Plain := recording.note x s

theorem define (s : Sighting) : (Action.define s).Plain := recording.define s

theorem defineUnseen (v : Value) : (Action.defineUnseen v).Plain := recording.defineUnseen v

theorem use (s : Sighting) : (Action.use s).Plain := recording.use s

theorem useUnseen (v : Value) : (Action.useUnseen v).Plain := recording.useUnseen v

theorem useAll (vs : List Value) (os : List Observed) : (Action.useAll vs os).Plain :=
  recording.useAll vs os

theorem forValue? {act : Value → Action Term} (h : ∀ v, (act v).Plain) (v : Option Value) :
    (Action.forValue? act v).Plain := sequential.forValue? h v

theorem ownerOf (field : FieldRef) (o : Observed) (v : Option Value) :
    (Action.ownerOf field o v).Plain := recording.ownerOf field o v

end Plain

/-! ## Steady actions -/

/-- The failure of the action that breaks an invariant, if it fails so. -/
def fatal? (act : Action α) (t : Tracer) : Option Error :=
  match act t with
  | .ok .. => none
  | .error e _ => if e.isFatal then some e else none

theorem fatal?_bind_of_ok {a : α} (h : x t = .ok a u) : (x >>= k).fatal? t = (k a).fatal? u := by
  unfold fatal?
  rw [bind_apply, h]

theorem fatal?_of_error {e : Error} (h : act t = .error e u) :
    act.fatal? t = if e.isFatal then some e else none := by
  unfold fatal?
  rw [h]

/-- In the program, the action comes from tracers that are alike to tracers that are alike, and it
breaks the same invariant or none. -/
structure Ends (p : Program) (act : Action α) : Prop where
  after : ∀ {t u : Tracer}, t.program = p → t.Alike u → (act.after t).Alike (act.after u)
  fatal : ∀ {t u : Tracer}, t.program = p → t.Alike u → act.fatal? u = act.fatal? t

/-- In the program, the action ends like that, and a failure that breaks no invariant changes names,
terms of values and records only. -/
structure Steady (p : Program) (act : Action α) : Prop extends Ends p act where
  rest : ∀ {t u : Tracer} {e : Error}, t.program = p → act t = .error e u → e.isFatal = false →
    u.rest = t.rest

/-- In the program, the action fails only by breaking an invariant. -/
def Firm (p : Program) (act : Action α) : Prop :=
  ∀ {t u : Tracer} {e : Error}, t.program = p → act t = .error e u → e.isFatal = true

private theorem program_of_rest (h : u.rest = t.rest) : u.program = t.program :=
  congrArg (fun w => w.setup.1) h

variable {p : Program}

theorem Ends.of_parallel (h : act.Parallel) : act.Ends p := by
  refine ⟨fun {t u} _ hu => ?_, fun {t u} _ hu => ?_⟩
  all_goals
    have hsame := h hu
    first | unfold Action.after | unfold fatal?
    generalize act t = r, act u = s at hsame
    cases hsame with
    | ok a h => first | exact h | rfl
    | error e h => first | exact h | rfl

/-- An action that keeps the program, and then another. -/
theorem Ends.bind (hx : x.Parallel) (hprogram : ∀ {t u a}, x t = .ok a u → u.program = t.program)
    (hk : ∀ {t u a}, t.program = p → x t = .ok a u → (k a).Ends p) : (x >>= k).Ends p := by
  have hcases {t u : Tracer} (ht : t.program = p) (hu : t.Alike u) :
      ((x >>= k).after t).Alike ((x >>= k).after u) ∧ (x >>= k).fatal? u = (x >>= k).fatal? t := by
    have hsame := hx hu
    cases ht' : x t with
    | ok a t' =>
      rw [ht'] at hsame
      generalize hu' : x u = s at hsame
      cases hsame with
      | ok _ h =>
        have hp : t'.program = p := (hprogram ht').trans ht
        rw [after_bind_of_ok ht', after_bind_of_ok hu', fatal?_bind_of_ok ht',
          fatal?_bind_of_ok hu']
        exact ⟨(hk ht ht').after hp h, (hk ht ht').fatal hp h⟩
    | error e t' =>
      rw [ht'] at hsame
      generalize hu' : x u = s at hsame
      cases hsame with
      | error _ h =>
        rw [after_bind_of_error ht', after_bind_of_error hu']
        refine ⟨h, ?_⟩
        unfold fatal?
        rw [bind_apply, bind_apply, ht', hu']
  exact ⟨fun ht hu => (hcases ht hu).1, fun ht hu => (hcases ht hu).2⟩

namespace Firm

theorem bind (hx : Firm p x) (hlearns : x.Learns) (hk : ∀ a, Firm p (k a)) :
    Firm p (x >>= k) := fun {t u e} ht h => by
  rw [bind_apply] at h
  cases hx' : x t with
  | ok a t' =>
    rw [hx'] at h
    have hl := hlearns t
    rw [after_of_ok hx'] at hl
    exact hk a (hl.program.trans ht) h
  | error e' t' =>
    rw [hx'] at h
    cases h
    exact hx ht hx'

/-- A frame is changed, or there is none. -/
theorem modifyFrame (change : Frame → Frame) : Firm p (Action.modifyFrame change) :=
  fun {t u e} _ h => by
    cases hframes : t.frames with
    | nil =>
      rw [modifyFrame_nil _ hframes] at h
      cases h
      rfl
    | cons f fs =>
      rw [modifyFrame_cons _ hframes] at h
      cases h

/-- An instruction of the program can be traced where there is a frame. -/
theorem trace {i : Instruction} (hi : p.Hosts i) : Firm p (Action.trace i) := fun {t u e} ht h => by
  obtain ⟨b, block, hb, hblock⟩ := hi
  rw [Action.trace, modify_bind, Action.refreshHandlers, get_bind] at h
  rw [lift_bind_of_ok (show t.program.body i.method = .ok b from ht ▸ hb)] at h
  simp only [hblock] at h
  exact modifyFrame (p := p) _ (t := { t with trace := t.trace ++ [i] }) ht h

theorem emit {i : Instruction} (hi : p.Hosts i) (q : Predicate) : Firm p (Action.emit i q) :=
  fun {t _ _} ht h => trace hi (t := { t with clauses := t.clauses ++ [.state i q] }) ht h

/-- The block can be left where there is a frame, and the program stays. -/
theorem leaveBlock {i : Instruction} {act : Action Unit} (hact : Firm p act) :
    Firm p (do Action.leaveBlock i; act) := fun {t u e} ht h => by
  rw [Action.leaveBlock, bind_apply] at h
  cases hframes : t.frames with
  | nil =>
    rw [modifyFrame_nil _ hframes] at h
    cases h
    rfl
  | cons f fs =>
    rw [modifyFrame_cons _ hframes] at h
    exact hact (by exact ht) h

theorem decide {i : Instruction} (hi : p.Hosts i) (q : Predicate) : Firm p (Action.decide i q) :=
  leaveBlock fun {t _ _} ht h => by
    let c : PathClause := { check := .condition, instruction := i, predicate := q }
    exact trace hi (t := { t with path := t.path ++ [c], clauses := t.clauses ++ [.path c] }) ht h

end Firm

namespace Parallel

theorem addClause (c : Clause) : (Action.addClause c).Parallel :=
  modify fun h => h.of_view (fun w => { w with clauses := w.clauses ++ [c] }) rfl rfl h.concrete
    h.origins

theorem addPath (c : PathClause) : (Action.addPath c).Parallel :=
  modify fun h => h.of_view (fun w => { w with path := w.path ++ [c] }) rfl rfl h.concrete h.origins

theorem trace (i : Instruction) : (Action.trace i).Parallel := by
  refine bind (modify fun h => ?_) fun _ => get (fun h => by rw [h.program]) fun t => ?_
  · exact h.of_view (fun w => { w with trace := w.trace ++ [i] }) rfl rfl h.concrete h.origins
  · refine bind (lift _) fun b => ?_
    split
    · exact throw _
    · next block _ =>
      exact modifyFrame (g := (·.refreshed block.handlers)) fun f =>
        f.view_refreshed block.handlers

theorem emit (i : Instruction) (q : Predicate) : (Action.emit i q).Parallel :=
  bind (addClause _) fun _ => trace i

theorem leaveBlock (i : Instruction) : (Action.leaveBlock i).Parallel :=
  modifyFrame (g := fun f => { f with previousBlock := i.block }) fun _ => rfl

theorem decide (i : Instruction) (q : Predicate) : (Action.decide i q).Parallel :=
  bind (leaveBlock i) fun _ => bind (addPath _) fun _ => bind (addClause _) fun _ => trace i

end Parallel

namespace Steady

theorem of_firm (hact : act.Parallel) (hfirm : Firm p act) : act.Steady p :=
  ⟨.of_parallel hact, fun ht h he => by rw [hfirm ht h] at he; cases he⟩

theorem of_plain (hact : act.Plain) : act.Steady p :=
  ⟨.of_parallel hact.parallel, fun {t u e} _ h _ => by rw [← after_of_error h, hact.rest t]⟩

/-- A plain action, and then a steady one for every result that it has in the program. -/
theorem andThen_of (hx : x.Plain)
    (hk : ∀ {t u : Tracer} {a : α}, t.program = p → x t = .ok a u → (k a).Steady p) :
    (x >>= k).Steady p := by
  have hkeeps {t u : Tracer} {a : α} (h : x t = .ok a u) : u.rest = t.rest := by
    rw [← after_of_ok h, hx.rest t]
  refine ⟨.bind hx.parallel (fun h => program_of_rest (hkeeps h)) fun ht h => (hk ht h).toEnds, ?_⟩
  intro t u e ht h he
  cases hx' : x t with
  | ok a t' =>
    rw [bind_apply, hx'] at h
    rw [(hk ht hx').rest ((program_of_rest (hkeeps hx')).trans ht) h he, hkeeps hx']
  | error e' t' =>
    rw [bind_apply, hx'] at h
    cases h
    rw [← after_of_error hx', hx.rest t]

theorem andThen (hx : x.Plain) (hk : ∀ a, (k a).Steady p) : (x >>= k).Steady p :=
  andThen_of hx fun _ _ => hk _

/-- What is asked of the tracer does not tell it apart. -/
theorem get {k : Tracer → Action β} (hask : ∀ {t u : Tracer}, t.Alike u → k u = k t)
    (hk : ∀ t, (k t).Steady p) : (MonadState.get >>= k).Steady p := by
  refine ⟨⟨fun {t u} ht h => ?_, fun {t u} ht h => ?_⟩, fun {t u e} ht h he => ?_⟩
  · rw [after_bind_of_ok (x := MonadState.get) (a := t) rfl,
      after_bind_of_ok (x := MonadState.get) (a := u) rfl, hask h]
    exact (hk t).after ht h
  · rw [fatal?_bind_of_ok (x := MonadState.get) (a := t) rfl,
      fatal?_bind_of_ok (x := MonadState.get) (a := u) rfl, hask h]
    exact (hk t).fatal ht h
  · exact (hk t).rest ht h he

/-- What is asked of the active frame does not tell it apart. -/
theorem frame {k : Frame → Action β} (hask : ∀ {f g : Frame}, g.view = f.view → k g = k f)
    (hk : ∀ f, (k f).Steady p) : (Action.frame >>= k).Steady p := by
  refine ⟨⟨fun {t u} ht h => ?_, fun {t u} ht h => ?_⟩, fun {t u e} ht h he => ?_⟩
  all_goals cases hframes : t.frames
  · rw [after_bind_of_error (frame_nil hframes),
      after_bind_of_error (frame_nil (h.frames_nil hframes))]
    exact h
  · obtain ⟨g, gs, hu, hview, -⟩ := h.frames_cons hframes
    rw [after_bind_of_ok (frame_run hframes), after_bind_of_ok (frame_run hu), hask hview]
    exact (hk _).after ht h
  · unfold fatal?
    rw [bind_apply, bind_apply, frame_nil hframes, frame_nil (h.frames_nil hframes)]
  · obtain ⟨g, gs, hu, hview, -⟩ := h.frames_cons hframes
    rw [fatal?_bind_of_ok (frame_run hframes), fatal?_bind_of_ok (frame_run hu), hask hview]
    exact (hk _).fatal ht h
  · rw [bind_apply, frame_nil hframes] at h
    cases h
    rfl
  · rw [bind_apply, frame_run hframes] at h
    exact (hk _).rest ht h he

theorem emit {i : Instruction} (hi : p.Hosts i) (q : Predicate) : (Action.emit i q).Steady p :=
  of_firm (.emit i q) (Firm.emit hi q)

theorem decide {i : Instruction} (hi : p.Hosts i) (q : Predicate) : (Action.decide i q).Steady p :=
  of_firm (.decide i q) (Firm.decide hi q)

/-- An instruction that is selected is one of the program. -/
theorem select {name expected : String} {accept : InstKind → Option α}
    {k : Instruction × α → Action β} (hp : p.Sound)
    (hk : ∀ i a, p.Hosts i → (k (i, a)).Steady p) :
    (Action.select name expected accept >>= k).Steady p := by
  refine andThen_of (.select name expected accept) fun {t u} (i, a) ht h => hk i a ?_
  obtain ⟨-, hany, -⟩ := select_ok h
  obtain ⟨-, f, fs, b, -, hb, hi⟩ := anyInstruction_ok hany
  exact hp.hosts (ht ▸ hb) hi

end Steady

end Action

end Concolic.Tracer
