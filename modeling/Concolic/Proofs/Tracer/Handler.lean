import Concolic.Proofs.Tracer.Contribution

/-!
# Contributions of the handlers

What handling each event contributes. An action that was found to learn changes nothing of the
output, so the contribution of a handler is made at its end:

* `Contributes.emit`, `Contributes.decide`, `Contributes.call`, `Contributes.guard`, ...: the
  actions that contribute. Those that trace an instruction note its handlers last of all. In a sound
  program this succeeds for every instruction that was looked up (`not_fails_trace`), so there is no
  failure after a contribution.
* `Yields.start`: an event that is suppressed contributes nothing, and turning a pending call into a
  clause is no contribution, since the summary shows it already.
* `handle_yields`: every event yields a contribution of its forms or none, unless it is the entry of
  a method that answers the pending call. That one takes the call back (`enter_of_accepts`).
-/

namespace Concolic.Tracer

variable {t t' o : Tracer}

/-- A method of this spelling can be the target of the pending call. -/
def accepts (t : Tracer) (spelling : MethodSpelling) : Bool :=
  match t.pending, t.program.method spelling.owner spelling.name spelling.args spelling.ret with
  | some call, .ok m => t.dispatch t.program.hierarchy m call.method
  | _, _ => false

/-- The event enters a method that answers the pending call. -/
def answers (t : Tracer) : Event → Bool
  | .methodEnter spelling _ _ => !t.aborted && t.accepts spelling
  | _ => false

/-- The tracer `t'` has more output than `t`, and otherwise nothing of it that differs. -/
theorem contributed_of_none {c : Contribution} (hn : t.pending = none) (hn' : t'.pending = none)
    (hclauses : t'.clauses = t.clauses ++ c.clauses) (hpath : t'.path = t.path ++ c.path)
    (htrace : t'.trace = t.trace ++ c.trace) (hconcrete : t'.concrete = t.concrete)
    (horigins : t'.origins = t.origins) (hprogram : t'.program = t.program) :
    t.Contributed t' c := by
  refine ⟨?_, hpath, htrace, hconcrete ▸ .refl _, horigins ▸ .refl _, ?_, hprogram⟩
  · rw [summary_clauses_of_none hn, summary_clauses_of_none hn', hclauses]
  · intro call hc
    rw [hn'] at hc
    cases hc

/-- Frames and calls to come back to are no output. -/
theorem contributed_frames (t : Tracer) (calls : List CallSite) (fs : List Frame) :
    t.Contributed { t with callTrace := calls, frames := fs } .nothing := by
  refine ⟨?_, ?_, ?_, .refl _, .refl _, fun call hc => .inl hc, rfl⟩
  · exact (List.append_nil _).symm
  · exact (List.append_nil _).symm
  · exact (List.append_nil _).symm

/-- The summary shows a pending call as made, so making it changes nothing there. -/
theorem contributed_flush (t : Tracer) :
    t.Contributed { t with clauses := t.clauses ++ t.pendingClauses, pending := none }
      .nothing := by
  refine ⟨?_, ?_, ?_, .refl _, .refl _, (fun call hc => nomatch hc), rfl⟩
  · rw [summary_clauses_of_none rfl]
    exact (List.append_nil _).symm
  · exact (List.append_nil _).symm
  · exact (List.append_nil _).symm

namespace Action

variable {α β : Type} {forms : List Contribution.Form} {i : Instruction} {p : Predicate}

/-- An instruction of a kind that is accepted is no call if calls are not. -/
private theorem isCall_of_accept {accept : InstKind → Option α} {a : α}
    (hcall : accept .call = none) (h : accept i.kind = some a) : i.isCall = false := by
  unfold Instruction.isCall
  split
  · next hk =>
    rw [hk, hcall] at h
    cases h
  · rfl

/-! ## Tracing -/

private theorem refreshHandlers_after (i : Instruction) (t : Tracer) :
    ∃ fs, (refreshHandlers i).after t = { t with frames := fs } := by
  unfold refreshHandlers after
  rw [get_bind]
  cases hb : t.program.body i.method with
  | error e => exact ⟨t.frames, rfl⟩
  | ok b =>
    rw [lift_bind_of_ok rfl]
    cases b.block? i.block with
    | none => exact ⟨t.frames, rfl⟩
    | some block =>
      cases hf : t.frames with
      | nil => exact ⟨t.frames, by simp only [modifyFrame_nil _ hf]⟩
      | cons f fs => exact ⟨_, by simp only [modifyFrame_cons _ hf]; rfl⟩

private theorem not_fails_refreshHandlers (h : t.Traces i) : ¬ (refreshHandlers i).Fails t := by
  obtain ⟨b, block, hb, hblock⟩ := h.hosts
  obtain ⟨f, fs, hf⟩ := List.exists_cons_of_ne_nil h.frames
  rintro ⟨e, u, he⟩
  unfold refreshHandlers at he
  rw [get_bind, lift_bind_of_ok hb] at he
  simp only [hblock, modifyFrame_cons _ hf] at he
  cases he

theorem trace_after (i : Instruction) (t : Tracer) :
    ∃ fs, (trace i).after t = { t with trace := t.trace ++ [i], frames := fs } := by
  unfold trace after
  rw [modify_bind]
  exact refreshHandlers_after i { t with trace := t.trace ++ [i] }

/-- Tracing succeeds for an instruction that has its block. -/
theorem not_fails_trace (h : t.Traces i) : ¬ (trace i).Fails t := by
  unfold trace Fails
  rw [modify_bind]
  exact not_fails_refreshHandlers (t := { t with trace := t.trace ++ [i] }) ⟨h.frames, h.hosts⟩

/-- What is put out in front of tracing an instruction is contributed together with it. -/
theorem Yields.trace {u : Tracer} {act : Action Unit} {c : Contribution} {form : Contribution.Form}
    (hact : act t = Action.trace i u) (hform : c.form? = some form)
    (hc : ∀ fs, t.Contributed { u with trace := u.trace ++ [i], frames := fs } c)
    (hi : t.program.Sound → u.Traces i) : act.Yields t [form] := by
  refine .of_contribution hform List.mem_cons_self ?_ fun hs => ?_
  · obtain ⟨fs, hfs⟩ := trace_after i u
    have hafter : act.after t = (Action.trace i).after u := by unfold after; rw [hact]
    rw [hafter, hfs]
    exact hc fs
  · have hfails : act.Fails t ↔ (Action.trace i).Fails u := by unfold Fails; rw [hact]
    rw [hfails]
    exact not_fails_trace (hi hs)

/-- Leaving a block needs an active frame and is no output. -/
theorem Yields.leaveBlock {rest : Action Unit}
    (h : ∀ u : Tracer, u.pending = t.pending → u.program = t.program → u.frames ≠ [] →
      rest.Yields u forms) :
    (do Action.leaveBlock i; rest : Action Unit).Yields t forms := by
  cases hf : t.frames with
  | nil =>
    refine .of_nothing ?_
    rw [Action.leaveBlock, after_bind_of_error (modifyFrame_nil _ hf)]
    exact contributed_frames t t.callTrace t.frames
  | cons f fs =>
    refine .bind ?_ fun _ u hu => ?_
    · rw [Action.leaveBlock, after_of_ok (modifyFrame_cons _ hf)]
      exact contributed_frames t t.callTrace _
    · rw [Action.leaveBlock, modifyFrame_cons _ hf] at hu
      cases hu
      exact h _ rfl rfl (List.cons_ne_nil _ _)

namespace Contributes

/-- An instruction that is selected for a kind other than a call. -/
theorem selectOther {name expected : String} {accept : InstKind → Option α}
    {f : Instruction × α → Action β} (hcall : accept .call = none)
    (hf : ∀ i a, i.isCall = false → (o.program.Sound → o.Traces i) →
      Contributes o (f (i, a)) forms) :
    Contributes o (Action.select name expected accept >>= f) forms :=
  select fun i a hk ht => hf i a (isCall_of_accept hcall hk) ht

theorem emit (hn : o.pending = none) (ht : o.program.Sound → o.Traces i)
    (hi : i.isCall = false) (hp : p.isCall = false) :
    Contributes o (Action.emit i p) [.effect] := fun t h => by
  subst h
  refine .trace (c := .effect i p hi hp) (u := { t with clauses := t.clauses ++ [.state i p] })
    rfl rfl (fun fs => ?_) fun hs => ?_
  · exact contributed_of_none hn hn rfl (List.append_nil _).symm rfl rfl rfl rfl
  · obtain ⟨hf, hh⟩ := traces_outline.mp (ht hs)
    exact ⟨hf, hh⟩

theorem decide (hn : o.pending = none) (ht : o.program.Sound → o.Traces i)
    (hi : i.isCall = false) (hp : p.isCall = false) :
    Contributes o (Action.decide i p) [.decision] := fun t h => by
  subst h
  refine .leaveBlock fun u hpending hprogram hframes => ?_
  have hu : u.pending = none := hpending.trans hn
  let d : PathClause := { check := .condition, instruction := i, predicate := p }
  refine .trace (c := .decision d hi hp)
    (u := { u with path := u.path ++ [d], clauses := u.clauses ++ [.path d] })
    rfl rfl (fun fs => ?_) fun hs => ?_
  · exact contributed_of_none hu hu rfl rfl rfl rfl rfl rfl
  · rw [hprogram] at hs
    exact ⟨hframes, by rw [hprogram]; exact (ht hs).hosts⟩

theorem jump (hn : o.pending = none) (ht : o.program.Sound → o.Traces i)
    (hi : i.isCall = false) :
    Contributes o (do leaveBlock i; Action.trace i) [.passage] := fun t h => by
  subst h
  refine .leaveBlock fun u hpending hprogram hframes => ?_
  have hu : u.pending = none := hpending.trans hn
  refine .trace (c := .passage i hi) rfl rfl (fun fs => ?_) fun hs => ?_
  · exact contributed_of_none hu hu (List.append_nil _).symm (List.append_nil _).symm rfl rfl rfl
      rfl
  · rw [hprogram] at hs
    exact ⟨hframes, by rw [hprogram]; exact (ht hs).hosts⟩

/-- A call is traced at once and stays pending. -/
theorem call {site : CallSite} {pc : PendingCall} (hn : o.pending = none)
    (ht : o.program.Sound → o.Traces pc.instruction) (hi : pc.instruction.isCall = true)
    (hp : pc.predicate.isCall = true) :
    Contributes o
      (do
        modify fun t => { t with callTrace := site :: t.callTrace, pending := some pc }
        Action.trace pc.instruction)
      [.call] := fun t h => by
  subst h
  refine .trace (c := .call pc.instruction pc.predicate hi hp)
    (u := { t with callTrace := site :: t.callTrace, pending := some pc }) rfl rfl (fun fs => ?_)
    fun hs => ?_
  · refine ⟨?_, (List.append_nil _).symm, rfl, .refl _, .refl _, ?_, rfl⟩
    · rw [summary_clauses_of_none (t := t) hn]
      rfl
    · intro call hc
      cases hc
      exact .inr ⟨hi, hp, rfl⟩
  · obtain ⟨hf, hh⟩ := traces_outline.mp (ht hs)
    exact ⟨hf, hh⟩

/-! ## Guards -/

/-- A decision about an instruction to come. -/
theorem addDecision {check : Check} (hn : o.pending = none) (hp : p.isCall = false) :
    Contributes o (Action.addDecision check i p) [.check] := fun t h => by
  subst h
  let d : PathClause := { check, instruction := i, predicate := p }
  refine .of_contribution (c := .check d hp) rfl List.mem_cons_self ?_ fun _ => ?_
  · exact contributed_of_none hn hn rfl rfl (List.append_nil _).symm rfl rfl rfl
  · exact not_fails_of_ok rfl

/-- A guard is stated by its definition and the decision, and stating it succeeds. -/
theorem guarded_run (g : Guard) (t : Tracer) :
    guarded g.check g.instruction g.name g.definition g.observed t =
      .ok () { t with clauses := t.clauses ++ g.clauses, path := t.path ++ [g.fixed] } := by
  show EStateM.Result.ok () { t with
    clauses := (t.clauses ++ [_]) ++ [_]
    path := t.path ++ [g.fixed] } = _
  rw [List.append_assoc]
  rfl

theorem guard (g : Guard) (hn : o.pending = none) :
    Contributes o (guarded g.check g.instruction g.name g.definition g.observed) [.guards 1] :=
  fun t h => by
    subst h
    refine .of_contribution (c := .guards [g]) rfl List.mem_cons_self ?_ fun _ => ?_
    · rw [after_of_ok (guarded_run g t)]
      exact contributed_of_none hn hn rfl rfl (List.append_nil _).symm rfl rfl rfl
    · exact not_fails_of_ok (guarded_run g t)

/-- Two guards of which the second has a definition once the first has one. -/
theorem guards {r : Result Term} {check : Check} {name : String} {observed : Bool} (g : Guard)
    (hn : o.pending = none) {definition : Term} (hr : r = .ok definition) :
    Contributes o
      (do
        guarded g.check g.instruction g.name g.definition g.observed
        guarded check i name (← r) observed)
      [.guards 2] := fun t h => by
  subst h
  let g' : Guard := { check, instruction := i, name, definition, observed }
  have hrun : (do
      guarded g.check g.instruction g.name g.definition g.observed
      guarded check i name (← r) observed : Action Unit) t =
        .ok () { t with
          clauses := (t.clauses ++ g.clauses) ++ g'.clauses
          path := (t.path ++ [g.fixed]) ++ [g'.fixed] } := by
    rw [bind_apply, guarded_run g t]
    show ((liftM r : Action Term) >>= _) _ = _
    rw [lift_bind_of_ok hr]
    exact guarded_run g' _
  refine .of_contribution (c := .guards [g, g']) rfl List.mem_cons_self ?_ fun _ => ?_
  · rw [after_of_ok hrun]
    refine contributed_of_none hn hn ?_ ?_ (List.append_nil _).symm rfl rfl rfl
    · exact List.append_assoc _ _ _
    · exact List.append_assoc _ _ _
  · exact not_fails_of_ok hrun

end Contributes

/-! ## The start of an event -/

private theorem follow_after (name : String) (t : Tracer) :
    ∃ calls fs, (follow name).after t = { t with callTrace := calls, frames := fs } := by
  unfold follow
  rw [after_bind_of_ok (x := get) (a := t) rfl]
  split
  · split
    · exact ⟨_, _, rfl⟩
    · split
      · exact ⟨_, _, rfl⟩
      · split
        · split
          · exact ⟨_, _, rfl⟩
          · split
            · exact ⟨_, _, rfl⟩
            · exact ⟨_, _, rfl⟩
        · exact ⟨_, _, rfl⟩
  · exact ⟨_, _, rfl⟩

/-- An event that counts contributes what its action contributes without a pending call. -/
theorem Yields.start {name : String} {act : Action Unit}
    (h : ∀ o : Tracer, o.pending = none → Contributes o act forms) (t : Tracer) :
    (Action.start name act).Yields t forms := by
  refine .bind ?_ fun _ u _ => ?_
  · obtain ⟨calls, fs, hfollow⟩ := follow_after name t
    rw [hfollow]
    exact contributed_frames t calls fs
  refine .bind (contributed_flush u) fun _ w hw => ?_
  cases hw
  refine .bind (Learned.refl _).contributed fun counts w' hw' => ?_
  cases hw'
  split
  · exact h _ rfl _ rfl
  · exact .of_nothing (Learned.refl _).contributed

/-! ## Memory -/

theorem arrayLoad_yields (result array index : Operand) (t : Tracer) :
    (arrayLoad result array index).Yields t [.effect] := by
  refine .start (fun o hn => .selectOther rfl fun i _ hi ht => ?_) t
  refine .read (Reads.resultOf i) fun r => ?_
  refine .read (Reads.resolve array) fun array => ?_
  refine .read (Reads.resolve index) fun index => ?_
  refine .learn (Learns.define _) fun term => ?_
  refine .learn (Learns.use array) fun array => .learn (Learns.use index) fun index => ?_
  refine .learn (Learns.lift _) fun element => .learn (Learns.lift _) fun loaded => ?_
  exact .emit hn ht hi rfl

/-- A store through a reference states no call. -/
theorem isCall_of_store {c : Predicate.Context} {target stored : Term}
    (h : c.store target stored = .ok p) : p.isCall = false := by
  unfold Predicate.Context.store at h
  split at h
  · cases h; rfl
  · cases h; rfl
  · cases h

theorem arrayStore_yields (name : String) (array index stored : Operand) (t : Tracer) :
    (arrayStore name array index stored).Yields t [.effect] := by
  refine .start (fun o hn => .selectOther rfl fun i _ hi ht => ?_) t
  refine .read (Reads.resolve array) fun array => ?_
  refine .read (Reads.resolve index) fun index => ?_
  refine .read (Reads.resolve stored) fun stored => ?_
  refine .learn (Learns.use array) fun array => .learn (Learns.use index) fun index => ?_
  refine .learn (Learns.use stored) fun stored => ?_
  refine .learn (Learns.lift _) fun element => .lift fun p hp => ?_
  exact .emit hn ht hi (isCall_of_store hp)

theorem fieldLoad_yields (result : Operand) (spelling : FieldSpelling) (owner : Option String)
    (observed : Observed) (t : Tracer) :
    (fieldLoad result spelling owner observed).Yields t [.effect] := by
  refine .start (fun o hn => .selectOther rfl fun i _ hi ht => ?_) t
  refine .read (Reads.resultOf i) fun r => ?_
  refine .learn Learns.get fun s => .learn (Learns.lift _) fun field => ?_
  refine .read (Reads.value? owner) fun owner => ?_
  refine .learn (Learns.define _) fun term => ?_
  refine .learn (Learns.ownerOf field observed owner) fun owner => ?_
  refine .learn (Learns.lift _) fun reference => .learn (Learns.lift _) fun loaded => ?_
  exact .emit hn ht hi rfl

theorem fieldStore_yields (name : String) (spelling : FieldSpelling) (stored : Operand)
    (owner : Option String) (observed : Observed) (t : Tracer) :
    (fieldStore name spelling stored owner observed).Yields t [.effect] := by
  refine .start (fun o hn => .selectOther rfl fun i _ hi ht => ?_) t
  refine .learn Learns.get fun s => .learn (Learns.lift _) fun field => ?_
  refine .read (Reads.resolve stored) fun stored => ?_
  refine .read (Reads.value? owner) fun owner => ?_
  refine .learn (Learns.use stored) fun stored => ?_
  refine .learn (Learns.ownerOf field observed owner) fun owner => ?_
  refine .learn (Learns.lift _) fun reference => .lift fun p hp => ?_
  exact .emit hn ht hi (isCall_of_store hp)

theorem newArray_yields (result : Operand) (dimensions : List String) (observed : List Observed)
    (t : Tracer) : (newArray result dimensions observed).Yields t [.effect] := by
  refine .start (fun o hn => .selectOther rfl fun i _ hi ht => ?_) t
  refine .read (Reads.resultOf i) fun r => ?_
  refine .read (Reads.values dimensions) fun dimensions => ?_
  refine .learn (Learns.define _) fun term => .learn (Learns.allocated term r.ty) fun _ => ?_
  refine .learn (Learns.useAll dimensions observed) fun dimensions => ?_
  exact .emit hn ht hi rfl

theorem newObject_yields (result : String) (t : Tracer) :
    (newObject result).Yields t [.effect] := by
  refine .start (fun o hn => .selectOther rfl fun i _ hi ht => ?_) t
  refine .read (Reads.resultOf i) fun r => ?_
  refine .learn (Learns.defineUnseen r) fun term => ?_
  refine .learn (Learns.allocated term r.ty) fun _ => ?_
  exact .emit hn ht hi rfl

/-! ## Operators and lambdas -/

theorem binary_yields (result left right : Operand) (t : Tracer) :
    (binary result left right).Yields t [.effect] := by
  refine .start (fun o hn => .selectOther rfl fun i op hi ht => ?_) t
  refine .read (Reads.resultOf i) fun r => ?_
  refine .read (Reads.resolve left) fun left => ?_
  refine .read (Reads.resolve right) fun right => ?_
  refine .learn (Learns.define _) fun term => ?_
  refine .learn (Learns.use left) fun left => .learn (Learns.use right) fun right => ?_
  refine .learn Learns.get fun s => .learn (Learns.lift _) fun value => ?_
  exact .emit hn ht hi rfl

theorem unary_yields (result operand : Operand) (t : Tracer) :
    (unary result operand).Yields t [.effect] := by
  refine .start (fun o hn => .selectOther rfl fun i op hi ht => ?_) t
  refine .read (Reads.resultOf i) fun r => ?_
  refine .read (Reads.resolve operand) fun operand => ?_
  refine .learn (Learns.define _) fun term => .learn (Learns.use operand) fun operand => ?_
  exact .learn (Learns.lift _) fun value => .emit hn ht hi rfl

theorem compare_yields (result : String) (left right : Operand) (t : Tracer) :
    (compare result left right).Yields t [.effect] := by
  refine .start (fun o hn => .selectOther rfl fun i op hi ht => ?_) t
  refine .read (Reads.resultOf i) fun r => ?_
  refine .read (Reads.resolve left) fun left => ?_
  refine .read (Reads.resolve right) fun right => ?_
  have hrest (term : Term) : Contributes o (do
      let left ← use left
      let right ← use right
      emit i (i.effect.equality term (← Term.compare op left right))) [.effect] := by
    refine .learn (Learns.use left) fun left => .learn (Learns.use right) fun right => ?_
    exact .learn (Learns.lift _) fun value => .emit hn ht hi rfl
  cases Observed.compare op left.observed right.observed with
  | ok outcome => exact .learn (Learns.define _) hrest
  | error e => exact .learn (Learns.defineUnseen r) hrest

theorem cast_yields (result operand : Operand) (t : Tracer) :
    (cast result operand).Yields t [.effect] := by
  refine .start (fun o hn => .selectOther rfl fun i _ hi ht => ?_) t
  refine .read (Reads.resultOf i) fun r => ?_
  refine .read (Reads.resolve operand) fun operand => ?_
  refine .learn (Learns.define _) fun term => .learn (Learns.use operand) fun operand => ?_
  exact .learn (Learns.lift _) fun value => .emit hn ht hi rfl

theorem instanceOf_yields (result operand : Operand) (t : Tracer) :
    (instanceOf result operand).Yields t [.effect] := by
  refine .start (fun o hn => .selectOther rfl fun i checked hi ht => ?_) t
  refine .read (Reads.resultOf i) fun r => ?_
  refine .read (Reads.resolve operand) fun operand => ?_
  refine .learn (Learns.define _) fun term => .learn (Learns.use operand) fun operand => ?_
  exact .learn (Learns.lift _) fun value => .emit hn ht hi rfl

theorem invokeDynamic_yields (result : Operand) (operands : List String) (observed : List Observed)
    (t : Tracer) : (invokeDynamic result operands observed).Yields t [.effect] := by
  refine .start (fun o hn => .selectOther rfl fun i base hi ht => ?_) t
  refine .read (Reads.resultOf i) fun r => ?_
  refine .read (Reads.values operands) fun operands => ?_
  refine .learn (Learns.define _) fun term => ?_
  refine .learn (Learns.forM (fun _ => .bind (Learns.use _) fun _ => Learns.pure _) _) fun _ => ?_
  split
  · exact .of_learns (Learns.pure _)
  · exact .learn (Learns.lift _) fun lambda => .emit hn ht hi rfl

/-! ## Control flow -/

theorem branch_yields (name condition : String) (t : Tracer) :
    (branch name condition).Yields t [.decision] := by
  refine .start (fun o hn => .selectOther rfl fun i _ hi ht => ?_) t
  refine .read (Reads.value condition) fun condition => ?_
  refine .learn (Learns.termOf condition) fun term => .learn Learns.get fun s => ?_
  split
  · exact .decide hn ht hi rfl
  · exact .of_learns (Learns.throw _)

theorem jump_yields (name : String) (t : Tracer) : (jump name).Yields t [.passage] :=
  .start (fun _ hn => .selectOther rfl fun _ _ hi ht => .jump hn ht hi) t

theorem switch_yields (name : String) (key : Operand) (t : Tracer) :
    (switch name key).Yields t [.decision] := by
  refine .start (fun o hn => .selectOther rfl fun i keys hi ht => ?_) t
  refine .read (Reads.resolve key) fun key => .learn (Learns.use key) fun term => ?_
  refine .learn (Learns.lift _) fun n => .decide hn ht hi ?_
  split
  · rfl
  · rfl

theorem tableSwitch_yields (name : String) (key : Operand) (t : Tracer) :
    (tableSwitch name key).Yields t [.decision] := by
  refine .start (fun o hn => .selectOther rfl fun i _ hi ht => ?_) t
  refine .read (Reads.resolve key) fun key => .learn (Learns.use key) fun term => ?_
  exact .learn (Learns.lift _) fun n => .decide hn ht hi rfl

theorem phi_yields (result : Operand) (t : Tracer) : (phi result).Yields t [.effect] := by
  refine .start (fun o hn => .selectOther rfl fun i incoming hi ht => ?_) t
  refine .read Reads.frame fun f => ?_
  dsimp only
  split
  · exact .of_learns (Learns.throw _)
  · refine .read (Reads.resultOf i) fun r => ?_
    refine .learn (Learns.define _) fun term => .learn (Learns.useUnseen _) fun source => ?_
    exact .emit hn ht hi rfl

/-! ## Exceptions and monitors -/

theorem throwing_yields (name : String) (exception : Operand) (t : Tracer) :
    (throwing name exception).Yields t [.effect] := by
  refine .start (fun o hn => .selectOther rfl fun i _ hi ht => ?_) t
  refine .read (Reads.resolve exception) fun exception => ?_
  refine .learn (Learns.use exception) fun term => ?_
  refine .learn (Learns.modify fun _ => ⟨rfl, .refl _, .refl _⟩) fun _ => ?_
  exact .emit hn ht hi rfl

theorem enterMonitor_yields (name : String) (operand : Operand) (t : Tracer) :
    (enterMonitor name operand).Yields t [.effect] := by
  refine .start (fun o hn => .selectOther rfl fun i _ hi ht => ?_) t
  refine .read (Reads.resolve operand) fun operand => ?_
  exact .learn (Learns.use operand) fun term => .emit hn ht hi rfl

theorem exitMonitor_yields (name : String) (operand : Operand) (t : Tracer) :
    (exitMonitor name operand).Yields t [.effect] := by
  refine .start (fun o hn => .selectOther rfl fun i _ hi ht => ?_) t
  refine .read (Reads.resolve operand) fun operand => ?_
  exact .learn (Learns.use operand) fun term => .emit hn ht hi rfl

private theorem unwind_after (thrown : Ty) (t : Tracer) :
    ∃ calls fs, (unwind thrown).after t = { t with callTrace := calls, frames := fs } := by
  unfold unwind
  rw [after_bind_of_ok (x := modify _) (a := PUnit.unit) rfl, after_bind_of_ok (x := get) rfl]
  dsimp only
  split
  · exact ⟨_, _, rfl⟩
  · exact ⟨_, _, rfl⟩

theorem caught_yields (exception : Operand) (t : Tracer) :
    (caught exception).Yields t [.effect] := by
  refine .bind (contributed_flush t) fun _ u hu => ?_
  cases hu
  split
  · exact .of_nothing (Learned.refl _).contributed
  · next type htype =>
    obtain ⟨calls, fs, hunwind⟩ := unwind_after type
      { t with clauses := t.clauses ++ t.pendingClauses, pending := none }
    refine .bind ?_ fun _ w hw => ?_
    · rw [hunwind]
      exact contributed_frames _ calls fs
    rw [after_of_ok hw] at hunwind
    refine .bind (Learned.refl _).contributed fun counts w' hw' => ?_
    cases hw'
    split
    · have hn : w.outline.pending = none := by rw [hunwind]; rfl
      refine Contributes.selectOther (o := w.outline) rfl (fun i _ hi ht => ?_) w rfl
      refine .read (Reads.resultOf i) fun r => ?_
      refine .learn (Learns.caughtTerm r) fun term => .learn (Learns.note term _) fun _ => ?_
      exact .emit hn ht hi rfl
    · exact .of_nothing (Learned.refl _).contributed

/-! ## Guards of instructions to come -/

theorem guardNull_yields (name : String) (checked : Operand) (t : Tracer) :
    (guardNull name checked).Yields t [.guards 1] := by
  refine .start (fun o hn => .read (Reads.anyInstruction name) fun i => ?_) t
  refine .read (Reads.value checked.name) fun v => ?_
  refine .learn (Learns.termOf v) fun term => .learn Learns.get fun s => ?_
  split
  · exact .of_learns (Learns.pure _)
  · refine .learn (Learns.modify fun _ => ⟨rfl, .refl _, .refl _⟩) fun _ => ?_
    refine .learn (Learns.lift _) fun definition => ?_
    exact .guard ⟨.null, i, _, definition, checked.observed.isNull⟩ hn

theorem guardInstance_contributes {check : Check} {term : Term} {ty : Ty} {observed : Bool}
    (hn : o.pending = none) :
    Contributes o (guardInstance check i term ty observed) [.check] := by
  refine .learn (Learns.modify fun _ => ⟨rfl, .refl _, .refl _⟩) fun _ => ?_
  exact .learn (Learns.lift _) fun tested => .addDecision hn rfl

theorem guardType_yields (name : String) (checked : Operand) (t : Tracer) :
    (guardType name checked).Yields t [.check] := by
  refine .start (fun o hn => ?_) t
  split
  · exact .of_learns (Learns.pure _)
  · refine .read (Reads.anyInstruction name) fun i => ?_
    refine .read (Reads.value checked.name) fun v => ?_
    refine .learn (Learns.termOf v) fun term => .learn Learns.get fun s => ?_
    split
    · exact .of_learns (Learns.pure _)
    · exact guardInstance_contributes hn

theorem guardExpectedType_yields (name : String) (checked : Operand) (ty : String) (t : Tracer) :
    (guardExpectedType name checked ty).Yields t [.check] := by
  refine .bind (Learns.lift _ t).contributed fun expected u _ => .start (fun o hn => ?_) u
  refine .read (Reads.anyInstruction name) fun i => ?_
  refine .read (Reads.value checked.name) fun v => ?_
  split
  · exact .of_learns (Learns.pure _)
  · refine .learn (Learns.termOf v) fun term => .learn Learns.get fun s => ?_
    split
    · exact .of_learns (Learns.pure _)
    · exact guardInstance_contributes hn

theorem guardIndex_yields (name : String) (array index : Operand) (t : Tracer) :
    (guardIndex name array index).Yields t [.guards 1] := by
  refine .start (fun o hn => ?_) t
  split
  · exact .of_learns (Learns.pure _)
  · refine .read (Reads.anyInstruction name) fun i => ?_
    refine .read (Reads.value array.name) fun a => ?_
    refine .read (Reads.value index.name) fun k => ?_
    refine .learn (Learns.termOf a) fun a => .learn (Learns.termOf k) fun k => ?_
    split
    · exact .of_learns (Learns.pure _)
    · refine .learn Learns.get fun s => ?_
      split
      · exact .of_learns (Learns.pure _)
      · refine .learn (Learns.modify fun _ => ⟨rfl, .refl _, .refl _⟩) fun _ => ?_
        refine .learn (Learns.lift _) fun length => .learn (Learns.lift _) fun definition => ?_
        exact .guard ⟨.bounds, i, _, definition, _⟩ hn

/-- Whether a term compares with a number depends on neither the operator nor the number. -/
theorem compare_int_ok {op op' : CompareOp} {term definition : Term} {n n' : Int32}
    (h : Term.compare op term (Term.int n) = .ok definition) :
    ∃ definition', Term.compare op' term (Term.int n') = .ok definition' := by
  have hint (m : Int32) : (Term.int m).ty = .int := rfl
  unfold Term.compare at h ⊢
  simp only [hint, Ty.isPrimitive, Ty.isPointer, Bool.and_false, Bool.false_and] at h ⊢
  split at h
  · cases h
  · next hterm => exact ⟨_, by rw [if_neg hterm]; rfl⟩

theorem guardLength_yields (name : String) (length : Operand) (t : Tracer) :
    (guardLength name length).Yields t [.guards 2] := by
  refine .start (fun o hn => .read (Reads.anyInstruction name) fun i => ?_) t
  refine .read (Reads.value length.name) fun v => ?_
  split
  · exact .of_learns (Learns.pure _)
  · refine .learn (Learns.termOf v) fun term => .learn Learns.get fun s => ?_
    split
    · exact .of_learns (Learns.pure _)
    · split
      · exact .of_learns (Learns.pure _)
      · refine .learn (Learns.modify fun _ => ⟨rfl, .refl _, .refl _⟩) fun _ => ?_
        refine .lift fun definition hdef => ?_
        obtain ⟨definition', hdef'⟩ := compare_int_ok hdef
        exact .guards ⟨.bounds, i, _, definition, _⟩ hn hdef'

/-! ## Methods -/

/-- A predicate about a call states a call. -/
private theorem isCall_of_call {c : Predicate.Context} {result : Option Term} {called : Term}
    (h : c.call result called = .ok p) : p.isCall = true := by
  unfold Predicate.Context.call at h
  split at h
  · cases h; rfl
  · cases h

theorem call_yields (name : String) (spelling : MethodSpelling) (result callee : Option String)
    (arguments : List String) (observed : List Observed) (t : Tracer) :
    (call name spelling result callee arguments observed).Yields t [.call] := by
  refine .start (fun o hn => .select fun i _ hk ht => ?_) t
  have hi : i.isCall = true := by
    unfold Instruction.isCall
    split
    · rfl
    · next hne => simp_all
  refine .read (Reads.nextOf i) fun next => ?_
  refine .learn Learns.get fun s => .learn (Learns.lift _) fun m => ?_
  refine .read (Reads.value? result) fun result => ?_
  refine .read (Reads.value? callee) fun callee => ?_
  refine .read (Reads.values arguments) fun arguments => ?_
  refine .learn (Learns.forValue? Learns.defineUnseen result) fun received => ?_
  refine .learn (Learns.forValue? Learns.useUnseen callee) fun callee => ?_
  refine .learn (Learns.useAll arguments observed) fun arguments => ?_
  refine .learn (Learns.lift _) fun term => .lift fun predicate hp => ?_
  exact .call hn ht hi (isCall_of_call hp)

/-- The result of an inlined method goes to the term that receives it. -/
theorem Contributes.answer (hn : o.pending = none) (hi : i.isCall = false)
    (hp : p.isCall = false) :
    Contributes o
      (do
        addClause (.state i p)
        modify fun t => { t with trace := t.trace ++ [i] })
      [.passage, .effect] := fun t h => by
  subst h
  refine .of_contribution (c := .effect i p hi hp) rfl (by simp) ?_ fun _ => ?_
  · exact contributed_of_none hn hn rfl (List.append_nil _).symm rfl rfl rfl rfl
  · exact not_fails_of_ok rfl

theorem ret_yields (name : String) (result : Option String) (observed : Observed) (t : Tracer) :
    (ret name result observed).Yields t [.passage, .effect] := by
  refine .start (fun o hn => .selectOther rfl fun i _ hi ht => ?_) t
  refine .read (Reads.value? result) fun result => ?_
  refine .learn (Learns.forValue? Learns.termOf result) fun returned => ?_
  -- From here on the frame that returns is gone, so the outline is another one.
  intro t h
  subst h
  refine .bind (Learned.refl _).contributed fun s u hu => ?_
  cases hu
  cases hf : t.frames with
  | nil => exact .of_nothing (Learned.refl _).contributed
  | cons f callers =>
    refine .bind (contributed_frames t t.callTrace callers) fun _ u hu => ?_
    cases hu
    dsimp only
    split
    · refine Contributes.learn (o := outline { t with frames := callers })
        (Learns.noteOrigin _ _ _) (fun _ => ?_) _ rfl
      exact .learn (Learns.noteConcrete _ _) fun _ => .answer hn hi rfl
    · refine .of_contribution (c := .passage i hi) rfl List.mem_cons_self ?_ fun _ => ?_
      · exact contributed_of_none hn hn (List.append_nil _).symm (List.append_nil _).symm rfl rfl
          rfl rfl
      · exact not_fails_of_ok rfl

/-- Entering a method that does not answer a pending call contributes nothing. -/
theorem enter_yields {spelling : MethodSpelling} (args : List Observed)
    (h : t.accepts spelling = false) : (enter spelling args).Yields t [] := by
  refine .bind (Learned.refl _).contributed fun s u hu => ?_
  cases hu
  refine .bind (Learns.lift _ t).contributed fun m u hu => ?_
  obtain ⟨hm, rfl⟩ := lift_ok hu
  cases hc : u.pending with
  | some call =>
    have hd : u.dispatch u.program.hierarchy m call.method = false := by
      simpa [accepts, hc, hm] using h
    dsimp only
    rw [if_neg (by simp [hd])]
    refine .bind (contributed_frames u u.callTrace _) fun _ w hw => ?_
    exact .of_nothing (contributed_flush w)
  | none =>
    refine .bind (contributed_frames u u.callTrace _) fun _ w hw => ?_
    refine .bind (Learned.refl _).contributed fun counts w' hw' => ?_
    split
    · exact .of_nothing (Learns.defineAll _ _ _).contributed
    · exact .of_nothing (Learned.refl _).contributed

/-- Entering a method that answers a pending call takes the call back and binds the parameters of
the method to the terms of the call. -/
theorem enter_of_accepts {spelling : MethodSpelling} (args : List Observed)
    (h : t.accepts spelling = true) :
    ∃ call m, t.pending = some call ∧ enter spelling args t =
      .ok () { t with
        frames := { Frame.enter m call.receiver with values := inlined m call } :: t.frames
        pending := none
        callTrace := t.callTrace.tail } := by
  unfold accepts at h
  split at h
  · next call m hc hm =>
    refine ⟨call, m, hc, ?_⟩
    unfold enter
    rw [get_bind, lift_bind_of_ok hm]
    simp only [hc, h, if_true]
    rfl
  · cases h

end Action

/-- Every event that is handled yields one of its contributions, unless it is the entry of a method
that answers a pending call. -/
theorem handle_yields (t : Tracer) (ha : t.aborted = false) :
    (e : Event) → t.answers e = false → (handle e).Yields t e.forms
  | .methodEnter spelling _ args, h => by
    refine Action.enter_yields args ?_
    simpa [answers, ha] using h
  | .arrayLoad .., _ => Action.arrayLoad_yields _ _ _ t
  | .arrayStore .., _ => Action.arrayStore_yields _ _ _ _ t
  | .binary .., _ => Action.binary_yields _ _ _ t
  | .branch .., _ => Action.branch_yields _ _ t
  | .call .., _ => Action.call_yields _ _ _ _ _ _ t
  | .cast .., _ => Action.cast_yields _ _ t
  | .caught .., _ => Action.caught_yields _ t
  | .compare .., _ => Action.compare_yields _ _ _ t
  | .enterMonitor .., _ => Action.enterMonitor_yields _ _ t
  | .exitMonitor .., _ => Action.exitMonitor_yields _ _ t
  | .fieldLoad .., _ => Action.fieldLoad_yields _ _ _ _ t
  | .fieldStore .., _ => Action.fieldStore_yields _ _ _ _ _ t
  | .instanceOf .., _ => Action.instanceOf_yields _ _ t
  | .invokeDynamic .., _ => Action.invokeDynamic_yields _ _ _ t
  | .jump .., _ => Action.jump_yields _ t
  | .newArray .., _ => Action.newArray_yields _ _ _ t
  | .new .., _ => Action.newObject_yields _ t
  | .phi .., _ => Action.phi_yields _ t
  | .ret .., _ => Action.ret_yields _ _ _ t
  | .switch .., _ => Action.switch_yields _ _ t
  | .tableSwitch .., _ => Action.tableSwitch_yields _ _ t
  | .throwing .., _ => Action.throwing_yields _ _ t
  | .unary .., _ => Action.unary_yields _ _ t
  | .guardNull .., _ => Action.guardNull_yields _ _ t
  | .guardType .., _ => Action.guardType_yields _ _ t
  | .guardExpectedType .., _ => Action.guardExpectedType_yields _ _ _ t
  | .guardIndex .., _ => Action.guardIndex_yields _ _ _ t
  | .guardLength .., _ => Action.guardLength_yields _ _ t

end Concolic.Tracer
