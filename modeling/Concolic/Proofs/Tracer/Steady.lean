import Concolic.Proofs.Tracer.Parallel

/-!
# Every event is handled steadily

The action of each instruction looks up names, uses terms, makes a term that may not be possible,
and then does something that cannot fail except by breaking an invariant. So it is steady.

* `Firm.useAll`, `Firm.caughtTerm`, ...: terms that are sure to be found.
* `Steady.remembering_seen`, `Steady.remembering_unseen`: guards are the reason why steady actions
  need not be parallel. One that cannot be stated of a term fails the first time, and it is skipped
  from then on. But then it is not seen in either case.
-/

namespace Concolic.Tracer

variable {t u : Tracer} {p : Program}

namespace Action

variable {α β : Type}

/-! ## Terms that are sure to be found -/

namespace Firm

theorem frame : Firm p Action.frame := fun {t u e} _ h => by
  cases hframes : t.frames with
  | nil =>
    rw [frame_nil hframes] at h
    cases h
    rfl
  | cons f fs =>
    rw [frame_run hframes] at h
    cases h

theorem pure (a : α) : Firm p (Pure.pure a : Action α) := fun _ h => nomatch h

theorem modify (g : Tracer → Tracer) : Firm p (modify g : Action PUnit) := fun _ h => nomatch h

theorem bindFresh (v : Value) : Firm p (Action.bindFresh v) := fun {t u e} _ h => by
  cases hframes : t.frames with
  | nil =>
    rw [bindFresh_nil v hframes] at h
    cases h
    rfl
  | cons f fs =>
    rw [bindFresh_run v hframes] at h
    cases h

theorem termOf (v : Value) : Firm p (Action.termOf v) := by
  refine bind frame Reads.frame.learns fun f => ?_
  split
  · exact pure _
  · exact bindFresh v

/-- Taking terms and recording them only learns, and fails only by breaking an invariant. -/
theorem recording : Recording fun {α} (act : Action α) => Firm p act ∧ act.Learns where
  pure a := ⟨pure a, Learns.pure a⟩
  bind hx hf := ⟨bind hx.1 hx.2 fun a => (hf a).1, Learns.bind hx.2 fun a => (hf a).2⟩
  bindFresh v := ⟨bindFresh v, Learns.bindFresh v⟩
  termOf v := ⟨termOf v, Learns.termOf v⟩
  noteHere x v := ⟨bind frame Reads.frame.learns fun _ => modify _, Learns.noteHere x v⟩
  noteConcrete x o := ⟨modify _, Learns.noteConcrete x o⟩

theorem note (x : Term) (s : Sighting) : Firm p (Action.note x s) := (recording.note x s).1

theorem useAll (vs : List Value) (os : List Observed) : Firm p (Action.useAll vs os) :=
  (recording.useAll vs os).1

theorem caughtTerm (v : Value) : Firm p (Action.caughtTerm v) := fun {t u e} ht h => by
  rw [Action.caughtTerm, get_bind] at h
  cases hthrown : t.thrown with
  | none =>
    rw [hthrown] at h
    exact bindFresh v ht h
  | some x =>
    rw [hthrown] at h
    refine bind (p := p) (x := Action.assign v x) (k := fun _ => Pure.pure x) ?_ (Learns.assign v x)
      (fun _ => pure x) (t := { t with thrown := none }) ht h
    exact modifyFrame _

end Firm

/-! ## Memory and operators -/

theorem arrayLoad_steady (hp : p.Sound) (result array index : Operand) :
    ∃ act, arrayLoad result array index = start result.name act ∧ act.Steady p := by
  refine ⟨_, rfl, .select hp fun i _ hi => .andThen (.resultOf i) fun r => ?_⟩
  refine .andThen (.resolve array) fun a => .andThen (.resolve index) fun k => ?_
  refine .andThen (.define _) fun x => .andThen (.use a) fun a => .andThen (.use k) fun k => ?_
  exact .andThen (.lift _) fun ref => .andThen (.lift _) fun loaded => .emit hi _

theorem arrayStore_steady (hp : p.Sound) (name : String) (array index stored : Operand) :
    ∃ act, arrayStore name array index stored = start name act ∧ act.Steady p := by
  refine ⟨_, rfl, .select hp fun i _ hi => .andThen (.resolve array) fun a => ?_⟩
  refine .andThen (.resolve index) fun k => .andThen (.resolve stored) fun s => ?_
  refine .andThen (.use a) fun a => .andThen (.use k) fun k => .andThen (.use s) fun s => ?_
  exact .andThen (.lift _) fun ref => .andThen (.lift _) fun q => .emit hi q

theorem fieldLoad_steady (hp : p.Sound) (result : Operand) (spelling : FieldSpelling)
    (owner : Option String) (o : Observed) :
    ∃ act, fieldLoad result spelling owner o = start result.name act ∧ act.Steady p := by
  refine ⟨_, rfl, .select hp fun i _ hi => .andThen (.resultOf i) fun r => ?_⟩
  refine .get (fun h => by rw [h.program]) fun t => .andThen (.lift _) fun field => ?_
  refine .andThen (.value? owner) fun v => .andThen (.define _) fun x => ?_
  refine .andThen (.ownerOf field o v) fun owner => ?_
  exact .andThen (.lift _) fun ref => .andThen (.lift _) fun loaded => .emit hi _

theorem fieldStore_steady (hp : p.Sound) (name : String) (spelling : FieldSpelling)
    (stored : Operand) (owner : Option String) (o : Observed) :
    ∃ act, fieldStore name spelling stored owner o = start name act ∧ act.Steady p := by
  refine ⟨_, rfl, .select hp fun i _ hi => .get (fun h => by rw [h.program]) fun t => ?_⟩
  refine .andThen (.lift _) fun field => .andThen (.resolve stored) fun s => ?_
  refine .andThen (.value? owner) fun v => .andThen (.use s) fun s => ?_
  refine .andThen (.ownerOf field o v) fun owner => ?_
  exact .andThen (.lift _) fun ref => .andThen (.lift _) fun q => .emit hi q

theorem binary_steady (hp : p.Sound) (result left right : Operand) :
    ∃ act, binary result left right = start result.name act ∧ act.Steady p := by
  refine ⟨_, rfl, .select hp fun i op hi => .andThen (.resultOf i) fun r => ?_⟩
  refine .andThen (.resolve left) fun l => .andThen (.resolve right) fun s => ?_
  refine .andThen (.define _) fun x => .andThen (.use l) fun l => .andThen (.use s) fun s => ?_
  exact .get (fun h => by rw [h.program]) fun t => .andThen (.lift _) fun y => .emit hi _

theorem unary_steady (hp : p.Sound) (result operand : Operand) :
    ∃ act, unary result operand = start result.name act ∧ act.Steady p := by
  refine ⟨_, rfl, .select hp fun i op hi => .andThen (.resultOf i) fun r => ?_⟩
  refine .andThen (.resolve operand) fun s => .andThen (.define _) fun x => ?_
  exact .andThen (.use s) fun s => .andThen (.lift _) fun y => .emit hi _

theorem compare_steady (hp : p.Sound) (result : String) (left right : Operand) :
    ∃ act, compare result left right = start result act ∧ act.Steady p := by
  refine ⟨_, rfl, .select hp fun i op hi => .andThen (.resultOf i) fun r => ?_⟩
  refine .andThen (.resolve left) fun l => .andThen (.resolve right) fun s => ?_
  have hrest (x : Term) : Steady p (do
      let left ← use l
      let right ← use s
      emit i (i.effect.equality x (← Term.compare op left right))) :=
    .andThen (.use l) fun l => .andThen (.use s) fun s => .andThen (.lift _) fun y => .emit hi _
  split
  · exact .andThen (.define _) hrest
  · exact .andThen (.defineUnseen r) hrest

theorem cast_steady (hp : p.Sound) (result operand : Operand) :
    ∃ act, cast result operand = start result.name act ∧ act.Steady p := by
  refine ⟨_, rfl, .select hp fun i _ hi => .andThen (.resultOf i) fun r => ?_⟩
  refine .andThen (.resolve operand) fun s => .andThen (.define _) fun x => ?_
  exact .andThen (.use s) fun s => .andThen (.lift _) fun y => .emit hi _

theorem instanceOf_steady (hp : p.Sound) (result operand : Operand) :
    ∃ act, instanceOf result operand = start result.name act ∧ act.Steady p := by
  refine ⟨_, rfl, .select hp fun i ty hi => .andThen (.resultOf i) fun r => ?_⟩
  refine .andThen (.resolve operand) fun s => .andThen (.define _) fun x => ?_
  exact .andThen (.use s) fun s => .andThen (.lift _) fun y => .emit hi _

theorem invokeDynamic_steady (hp : p.Sound) (result : Operand) (operands : List String)
    (observed : List Observed) :
    ∃ act, invokeDynamic result operands observed = start result.name act ∧ act.Steady p := by
  refine ⟨_, rfl, .select hp fun i base hi => .andThen (.resultOf i) fun r => ?_⟩
  refine .andThen (.values operands) fun vs => .andThen (.define _) fun x => ?_
  refine .andThen (.forM (fun s => .bind (.use _) fun _ => .pure _) _) fun _ => ?_
  split
  · exact .of_plain (.pure _)
  · exact .andThen (.lift _) fun y => .emit hi _

/-! ## Allocations -/

theorem Parallel.allocated (x : Term) (ty : Ty) : (Action.allocated x ty).Parallel := by
  have hview (t : Tracer) := (view_typed { t with nullChecked := x :: t.nullChecked } x ty).trans
    (by rw [view_nonNull t x])
  exact .modify fun {t u} h => h.of_view (fun w => { w with
    nonNull := fun y => (y.ty.isPointer && y == x) || w.nonNull y
    typed := fun y => if y.ty.isPointer && x == y then some ty else w.typed y }) (hview t) (hview u)
    h.concrete h.origins

/-- The term is known not to be null and to be of a type, and from then on nothing fails. -/
theorem Steady.allocated {x : Term} {ty : Ty} {act : Action β} (hact : act.Parallel)
    (hfirm : Firm p act) : (do Action.allocated x ty; act : Action β).Steady p :=
  .of_firm (.bind (.allocated x ty) fun _ => hact)
    (Firm.bind (Firm.modify _) (Learns.allocated x ty) fun _ => hfirm)

theorem newArray_steady (hp : p.Sound) (result : Operand) (dimensions : List String)
    (observed : List Observed) :
    ∃ act, newArray result dimensions observed = start result.name act ∧ act.Steady p := by
  refine ⟨_, rfl, .select hp fun i _ hi => .andThen (.resultOf i) fun r => ?_⟩
  refine .andThen (.values dimensions) fun vs => .andThen (.define _) fun x => .allocated ?_ ?_
  · exact .bind (Plain.useAll vs observed).parallel fun xs => .emit i _
  · exact Firm.bind (Firm.useAll vs observed) (Learns.useAll vs observed) fun xs => Firm.emit hi _

theorem newObject_steady (hp : p.Sound) (result : String) :
    ∃ act, newObject result = start result act ∧ act.Steady p := by
  refine ⟨_, rfl, .select hp fun i _ hi => .andThen (.resultOf i) fun r => ?_⟩
  exact .andThen (.defineUnseen r) fun x => .allocated (.emit i _) (Firm.emit hi _)

/-! ## Control flow and monitors -/

theorem branch_steady (hp : p.Sound) (name condition : String) :
    ∃ act, branch name condition = start name act ∧ act.Steady p := by
  refine ⟨_, rfl, .select hp fun i _ hi => .andThen (.value condition) fun v => ?_⟩
  refine .andThen (.termOf v) fun x => .get (fun h => by rw [h.concrete]) fun t => ?_
  split
  · exact .decide hi _
  · exact .of_plain (.throw _)

theorem jump_steady (hp : p.Sound) (name : String) :
    ∃ act, jump name = start name act ∧ act.Steady p := by
  refine ⟨_, rfl, .select hp fun i _ hi => .of_firm ?_ ?_⟩
  · exact .bind (.leaveBlock i) fun _ => .trace i
  · exact Firm.leaveBlock (Firm.trace hi)

theorem switch_steady (hp : p.Sound) (name : String) (key : Operand) :
    ∃ act, switch name key = start name act ∧ act.Steady p := by
  refine ⟨_, rfl, .select hp fun i keys hi => .andThen (.resolve key) fun s => ?_⟩
  exact .andThen (.use s) fun x => .andThen (.lift _) fun n => .decide hi _

theorem tableSwitch_steady (hp : p.Sound) (name : String) (key : Operand) :
    ∃ act, tableSwitch name key = start name act ∧ act.Steady p := by
  refine ⟨_, rfl, .select hp fun i _ hi => .andThen (.resolve key) fun s => ?_⟩
  exact .andThen (.use s) fun x => .andThen (.lift _) fun n => .decide hi _

theorem phi_steady (hp : p.Sound) (result : Operand) :
    ∃ act, phi result = start result.name act ∧ act.Steady p := by
  refine ⟨_, rfl, .select hp fun i incoming hi => .frame (fun {f g} hview => ?_) fun f => ?_⟩
  · rw [show g.previousBlock = f.previousBlock from congrArg Frame.View.previousBlock hview]
  · dsimp only
    split
    · exact .of_plain (.throw _)
    · refine .andThen (.resultOf i) fun r => .andThen (.define _) fun x => ?_
      exact .andThen (.useUnseen _) fun y => .emit hi _

theorem throwing_steady (hp : p.Sound) (name : String) (exception : Operand) :
    ∃ act, throwing name exception = start name act ∧ act.Steady p := by
  refine ⟨_, rfl, .select hp fun i _ hi => .andThen (.resolve exception) fun s => ?_⟩
  refine .andThen (.use s) fun x => .of_firm (.bind (.modify fun h => ?_) fun _ => .emit i _) ?_
  · exact h.of_view (fun w => { w with thrown := some x }) rfl rfl h.concrete h.origins
  · exact fun {t _ _} ht h => Firm.emit hi _ (t := { t with thrown := some x }) ht h

theorem enterMonitor_steady (hp : p.Sound) (name : String) (operand : Operand) :
    ∃ act, enterMonitor name operand = start name act ∧ act.Steady p := by
  refine ⟨_, rfl, .select hp fun i _ hi => .andThen (.resolve operand) fun s => ?_⟩
  exact .andThen (.use s) fun x => .emit hi _

theorem exitMonitor_steady (hp : p.Sound) (name : String) (operand : Operand) :
    ∃ act, exitMonitor name operand = start name act ∧ act.Steady p := by
  refine ⟨_, rfl, .select hp fun i _ hi => .andThen (.resolve operand) fun s => ?_⟩
  exact .andThen (.use s) fun x => .emit hi _

/-! ## Calls and returns -/

theorem call_steady (hp : p.Sound) (name : String) (spelling : MethodSpelling)
    (result callee : Option String) (arguments : List String) (observed : List Observed) :
    ∃ act, call name spelling result callee arguments observed = start name act ∧
      act.Steady p := by
  refine ⟨_, rfl, .select hp fun i _ hi => .andThen (.nextOf i) fun next => ?_⟩
  refine .get (fun h => by rw [h.program]) fun t => .andThen (.lift _) fun m => ?_
  refine .andThen (.value? result) fun r => .andThen (.value? callee) fun c => ?_
  refine .andThen (.values arguments) fun vs => ?_
  refine .andThen (.forValue? Plain.defineUnseen r) fun received => ?_
  refine .andThen (.forValue? Plain.useUnseen c) fun owner => ?_
  refine .andThen (.useAll vs observed) fun xs => .andThen (.lift _) fun x => ?_
  refine .andThen (.lift _) fun q => .of_firm (.bind (.modify fun h => ?_) fun _ => .trace i) ?_
  · exact h.of_view (fun w => { w with callTrace := _ :: w.callTrace, pending := some _ }) rfl rfl
      h.concrete h.origins
  · exact fun {t _ _} ht h => Firm.trace hi
      (t := { t with callTrace := _ :: t.callTrace, pending := some _ }) ht h

/-- The frame that is left is seen to be the same one, and so are those below it. -/
theorem ret_steady (hp : p.Sound) (name : String) (result : Option String) (o : Observed) :
    ∃ act, ret name result o = start name act ∧ act.Steady p := by
  refine ⟨_, rfl, .select hp fun i _ hi => .andThen (.value? result) fun r => ?_⟩
  refine .andThen (.forValue? Plain.termOf r) fun returned => .of_firm (fun t u h => ?_) ?_
  · rw [get_bind, get_bind]
    cases hframes : t.frames with
    | nil =>
      rw [h.frames_nil hframes]
      exact .error _ h
    | cons f fs =>
      obtain ⟨g, gs, hu, hview, hrest⟩ := h.frames_cons hframes
      have hmethod : g.method = f.method := congrArg Frame.View.method hview
      have hreceiver : g.receiver = f.receiver := congrArg Frame.View.receiver hview
      have hcaller : gs.head?.map Frame.method = fs.head?.map Frame.method := by
        have hhead := congrArg List.head? hrest
        rw [List.head?_map, List.head?_map] at hhead
        have := congrArg (Option.map Frame.View.method) hhead
        rwa [Option.map_map, Option.map_map] at this
      rw [hu]
      dsimp only
      rw [modify_bind, modify_bind, hmethod, hreceiver, hcaller]
      have hleft : ({ t with frames := fs } : Tracer).Alike { u with frames := gs } := by
        refine h.of_view (fun w => { w with frames := fs.map Frame.view }) rfl ?_ h.concrete
          h.origins
        rw [← hrest]
        rfl
      have htrace : (modify fun t => { t with trace := t.trace ++ [i] } : Action PUnit).Parallel :=
        .modify fun h => h.of_view (fun w => { w with trace := w.trace ++ [i] }) rfl rfl h.concrete
          h.origins
      refine (show Parallel _ from ?_) hleft
      split
      · refine .bind (Plain.noteOrigin _ _ _).parallel fun _ => ?_
        exact .bind (Plain.noteConcrete _ _).parallel fun _ => .bind (.addClause _) fun _ => htrace
      · exact htrace
  · intro t u e ht h
    rw [get_bind] at h
    cases hframes : t.frames with
    | nil =>
      rw [hframes] at h
      cases h
      rfl
    | cons f fs =>
      rw [hframes] at h
      dsimp only at h
      split at h
      · cases h
      · cases h

/-! ## Exceptions -/

theorem Parallel.caughtTerm (v : Value) : (Action.caughtTerm v).Parallel := by
  refine .get (fun h => by rw [h.thrown]) fun t => ?_
  split
  · next x _ =>
    refine .bind (.modify fun h => ?_) fun _ => .bind ?_ fun _ => .pure x
    · exact h.of_view (fun w => { w with thrown := none }) rfl rfl h.concrete h.origins
    · exact .modifyFrame (g := (·.bound v x)) fun f => Frame.view_insert f v x
  · exact .bindFresh v

theorem caught_steady (hp : p.Sound) {exception : Operand} {thrown : Ty}
    (h : exception.observed.type? = some thrown) :
    ∃ act : Action Unit, caught exception = (do flush; unwind thrown; if ← isCollecting then act) ∧
      act.Steady p := by
  -- The action is read off the definition, so the equation comes first.
  refine ⟨?act, ?eq, ?steady⟩
  case eq =>
    unfold caught
    rw [h]
  case steady =>
    refine .select hp fun i _ hi => .andThen (.resultOf i) fun r => .of_firm ?_ ?_
    · exact .bind (.caughtTerm r) fun x => .bind (Plain.note x _).parallel fun _ => .emit i _
    · exact Firm.bind (Firm.caughtTerm r) (Learns.caughtTerm r) fun x =>
        Firm.bind (Firm.note x _) (Learns.note x _) fun _ => Firm.emit hi _

/-! ## Guards -/

/-- Unless the memory has it already, something is remembered, and then the action goes on. -/
def remembering (known : Tracer → Bool) (remember : Tracer → Tracer) (act : Tracer → Action Unit) :
    Action Unit := do
  let t ← get
  if known t then pure ()
  else
    modify remember
    act t

namespace Steady

variable {known : Tracer → Bool} {remember : Tracer → Tracer} {act : Tracer → Action Unit}

/-- A guard that can be stated: the memory shows whether it has been. -/
theorem remembering_seen (hknown : ∀ {t u : Tracer}, t.Alike u → known u = known t)
    (hremember : ∀ {t u : Tracer}, t.Alike u → (remember t).Alike (remember u))
    (hact : ∀ {t u : Tracer}, t.Alike u → act u = act t) (hparallel : ∀ t, (act t).Parallel)
    (hruns : ∀ t w, ¬ (act t).Fails w) : (remembering known remember act).Steady p := by
  refine .get (fun h => by rw [hknown h, hact h]) fun t => ?_
  split
  · exact .of_plain (.pure _)
  · refine .of_firm (.bind (.modify hremember) fun _ => hparallel t) fun {w u e} _ h => ?_
    exact absurd ⟨e, u, h⟩ (hruns t (remember w))

/-- A guard that cannot be stated: it fails, or it is taken for stated, and whether it is remembered
does not show. -/
theorem remembering_unseen (hremember : ∀ t : Tracer, t.Alike (remember t))
    (hact : ∀ t w : Tracer, ∃ cause, cause.isFatal = false ∧ act t w = .error cause w) :
    (remembering known remember act).Steady p := by
  have hends (t : Tracer) : t.Alike ((remembering known remember act).after t) ∧
      (remembering known remember act).fatal? t = none := by
    cases hknown : known t with
    | true =>
      have hr : remembering known remember act t = .ok () t := by
        rw [remembering, get_bind, hknown]
        rfl
      refine ⟨?_, by unfold fatal?; rw [hr]⟩
      rw [after_of_ok hr]
      exact .refl t
    | false =>
      obtain ⟨cause, hcause, herror⟩ := hact t (remember t)
      have hr : remembering known remember act t = .error cause (remember t) := by
        rw [remembering, get_bind, hknown]
        exact herror
      rw [after_of_error hr, fatal?_of_error hr, hcause]
      exact ⟨hremember t, rfl⟩
  refine ⟨⟨fun {t u} _ h => ?_, fun {t u} _ h => ?_⟩, fun {t u e} _ h _ => ?_⟩
  · exact (hends t).1.symm.trans (h.trans (hends u).1)
  · rw [(hends t).2, (hends u).2]
  · rw [← after_of_error h]
    exact (hends t).1.rest

end Steady

theorem Parallel.addDecision (check : Check) (i : Instruction) (q : Predicate) :
    (Action.addDecision check i q).Parallel := .bind (.addPath _) fun _ => .addClause _

theorem Parallel.guarded (check : Check) (i : Instruction) (name : String) (definition : Term)
    (observed : Bool) : (Action.guarded check i name definition observed).Parallel :=
  .bind (.addClause _) fun _ => .addDecision check i _

theorem not_fails_guarded (check : Check) (i : Instruction) (name : String) (definition : Term)
    (observed : Bool) (t : Tracer) : ¬ (guarded check i name definition observed).Fails t :=
  not_fails_of_ok
    (Contributes.guarded_run { check, instruction := i, name, definition, observed } t)

/-- What goes on with a term that can be made. -/
theorem not_fails_lift {r : Result α} {a : α} {k : α → Action β} (hr : r = .ok a)
    (hk : ¬ (k a).Fails t) : ¬ ((liftM r : Action α) >>= k).Fails t := by
  unfold Fails
  rw [lift_bind_of_ok hr]
  exact hk

theorem lift_bind_of_error {r : Result α} {cause : Error} (hr : r = .error cause)
    (k : α → Action β) (t : Tracer) : ((liftM r : Action α) >>= k) t = .error cause t := by
  rw [hr]
  rfl

private theorem compare_null (x : Term) :
    if x.ty.isPointer then ∃ y, Term.compare .eq x Term.null = .ok y
    else ∃ cause, cause.isFatal = false ∧ Term.compare .eq x Term.null = .error cause := by
  have hnull : Term.null.ty.isPointer = true ∧ Term.null.ty.isPrimitive = false := ⟨rfl, rfl⟩
  unfold Term.compare
  simp only [hnull, Bool.and_false, Bool.and_true, Bool.not_false, Bool.true_and]
  cases x.ty.isPointer with
  | true => exact ⟨_, rfl⟩
  | false => exact ⟨_, rfl, rfl⟩

theorem compare_number (op : CompareOp) (x : Term) {y : Term} (hy : y.ty = .int) :
    if x.ty.isPrimitive then ∃ z, Term.compare op x y = .ok z
    else ∃ cause, cause.isFatal = false ∧ Term.compare op x y = .error cause := by
  have hint : Ty.int.isPointer = false ∧ Ty.int.isPrimitive = true := ⟨rfl, rfl⟩
  unfold Term.compare
  simp only [hy, hint, Bool.and_false, Bool.and_true, Bool.not_false, Bool.false_and]
  cases x.ty.isPrimitive with
  | true => exact ⟨_, rfl⟩
  | false => exact ⟨_, rfl, rfl⟩

theorem guardNull_steady (name : String) (checked : Operand) :
    ∃ act, guardNull name checked = start name act ∧ act.Steady p := by
  refine ⟨_, rfl, .andThen (.anyInstruction name) fun i => ?_⟩
  refine .andThen (.value checked.name) fun v => .andThen (.termOf v) fun x => ?_
  have hview (t : Tracer) := view_nonNull t x
  have hdefinition := compare_null x
  cases hpointer : x.ty.isPointer with
  | true =>
    rw [if_pos hpointer] at hdefinition
    obtain ⟨y, hy⟩ := hdefinition
    refine .remembering_seen (fun {t u} h => ?_) (fun h => ?_) (fun _ => rfl)
      (fun _ => .bind (.lift _) fun _ => .guarded _ _ _ _ _)
      fun _ w => not_fails_lift hy (not_fails_guarded _ _ _ _ _ w)
    · have hnonNull : u.view.nonNull x = t.view.nonNull x := by rw [h.view]
      simp only [view, hpointer, Bool.true_and] at hnonNull
      rw [hnonNull]
    · exact h.of_view (fun w => { w with
        nonNull := fun y => (y.ty.isPointer && y == x) || w.nonNull y }) (hview _) (hview _)
        h.concrete h.origins
  | false =>
    rw [if_neg (by rw [hpointer]; exact Bool.false_ne_true)] at hdefinition
    obtain ⟨cause, hcause, herror⟩ := hdefinition
    refine .remembering_unseen (fun t => ⟨?_, rfl, rfl⟩) fun _ w =>
      ⟨cause, hcause, lift_bind_of_error herror _ w⟩
    simp only [hview, and_beq_eq_false (q := Ty.isPointer) hpointer, Bool.false_or]

theorem guardInstance_steady (check : Check) (i : Instruction) (x : Term) (ty : Ty)
    {fits : Tracer → Bool} (hfits : ∀ {t u : Tracer}, t.Alike u → fits u = fits t) :
    (do
      let t ← get
      if isTyped t x ty then pure () else guardInstance check i x ty (fits t)).Steady p := by
  have hview (t : Tracer) := view_typed t x ty
  cases hpointer : x.ty.isPointer with
  | true =>
    have hok : ∃ y, Term.instanceOf x ty = .ok y := by
      simp [Term.instanceOf, Term.expectPointer, Term.expect, hpointer, bind, Except.bind]
    obtain ⟨y, hy⟩ := hok
    refine .remembering_seen (fun {t u} h => ?_) (fun h => ?_) (fun h => by rw [hfits h])
      (fun _ => .bind (.lift _) fun _ => .addDecision _ _ _)
      fun _ w => not_fails_lift hy (not_fails_of_ok rfl)
    · have htyped : u.view.typed x = t.view.typed x := by rw [h.view]
      simp only [view, hpointer, if_true] at htyped
      simp only [isTyped, htyped, h.program]
    · exact h.of_view (fun w => { w with
        typed := fun y => if y.ty.isPointer && x == y then some ty else w.typed y }) (hview _)
        (hview _) h.concrete h.origins
  | false =>
    have herror : ∃ cause, cause.isFatal = false ∧ Term.instanceOf x ty = .error cause := by
      simp [Term.instanceOf, Term.expectPointer, Term.expect, hpointer, bind, Except.bind,
        typeFault, Error.isFatal]
    obtain ⟨cause, hcause, herror⟩ := herror
    refine .remembering_unseen (fun t => ⟨?_, rfl, rfl⟩) fun _ w =>
      ⟨cause, hcause, lift_bind_of_error herror _ w⟩
    have hother (y : Term) : (y.ty.isPointer && x == y) = false := by
      rw [BEq.comm]
      exact and_beq_eq_false (q := Ty.isPointer) hpointer y
    simp only [hview, hother, Bool.false_eq_true, if_false]

theorem guardType_steady (name : String) (checked : Operand) :
    ∃ act, guardType name checked = start name act ∧ act.Steady p := by
  refine ⟨_, rfl, ?_⟩
  split
  · exact .of_plain (.pure _)
  · refine .andThen (.anyInstruction name) fun i => .andThen (.value checked.name) fun v => ?_
    exact .andThen (.termOf v) fun x => guardInstance_steady _ i x _ fun _ => rfl

theorem guardExpectedType_steady (name : String) (checked : Operand) {ty : String} {expected : Ty}
    (hty : Ty.parse ty = .ok expected) :
    ∃ act, guardExpectedType name checked ty = start name act ∧ act.Steady p := by
  refine ⟨_, by unfold guardExpectedType; rw [hty]; rfl, ?_⟩
  refine .andThen (.anyInstruction name) fun i => .andThen (.value checked.name) fun v => ?_
  split
  · exact .of_plain (.pure _)
  · exact .andThen (.termOf v) fun x => guardInstance_steady _ i x _ fun h => by rw [h.program]

theorem guardIndex_steady (name : String) (array index : Operand) :
    ∃ act, guardIndex name array index = start name act ∧ act.Steady p := by
  refine ⟨_, rfl, ?_⟩
  split
  · exact .of_plain (.pure _)
  · refine .andThen (.anyInstruction name) fun i => .andThen (.value array.name) fun v => ?_
    refine .andThen (.value index.name) fun w => .andThen (.termOf v) fun a => ?_
    refine .andThen (.termOf w) fun k => ?_
    split
    · exact .of_plain (.pure _)
    · have hview (t : Tracer) := view_indexed t a k
      have hcompare (l : Term) (hl : l.ty = .int) := compare_number .lt k hl
      -- The guard can be stated if there is an array and a number.
      cases helement : a.ty.element? with
      | none =>
        have herror : Term.arrayLength a = .error (.typeFault (.lengthOfNonArray a.name a.ty)) := by
          rw [Term.arrayLength, helement]
          rfl
        refine .remembering_unseen (fun t => ⟨?_, rfl, rfl⟩) fun _ w =>
          ⟨_, rfl, lift_bind_of_error herror _ w⟩
        have hother (b l : Term) :
            (b.ty.element?.isSome && l.ty.isPrimitive && (b == a && l == k)) = false := by
          have hba := and_beq_eq_false (x := a) (q := fun ty => ty.element?.isSome)
            (by rw [helement]; rfl) b
          grind
        simp only [hview, hother, Bool.false_or]
      | some element =>
        have hlength : Term.arrayLength a = .ok ⟨.arrayLength, .int, [a]⟩ := by
          rw [Term.arrayLength, helement]
        have hdefinition := hcompare ⟨.arrayLength, .int, [a]⟩ rfl
        cases hnumber : k.ty.isPrimitive with
        | true =>
          rw [if_pos hnumber] at hdefinition
          obtain ⟨y, hy⟩ := hdefinition
          refine .remembering_seen (fun {t u} h => ?_) (fun h => ?_) (fun _ => rfl)
            (fun _ => .bind (.lift _) fun _ => .bind (.lift _) fun _ => .guarded _ _ _ _ _)
            fun _ w => not_fails_lift hlength (not_fails_lift hy (not_fails_guarded _ _ _ _ _ w))
          · have hindexed : u.view.indexed a k = t.view.indexed a k := by rw [h.view]
            simp only [view, helement, hnumber, Option.isSome_some, Bool.true_and] at hindexed
            exact hindexed
          · exact h.of_view (fun w => { w with
              indexed := fun b l =>
                (b.ty.element?.isSome && l.ty.isPrimitive && (b == a && l == k)) || w.indexed b l })
              (hview _) (hview _) h.concrete h.origins
        | false =>
          rw [if_neg (by rw [hnumber]; exact Bool.false_ne_true)] at hdefinition
          obtain ⟨cause, hcause, herror⟩ := hdefinition
          refine .remembering_unseen (fun t => ⟨?_, rfl, rfl⟩) fun _ w =>
            ⟨cause, hcause, (lift_bind_of_ok hlength _ w).trans (lift_bind_of_error herror _ w)⟩
          have hother (b l : Term) :
              (b.ty.element?.isSome && l.ty.isPrimitive && (b == a && l == k)) = false := by
            have hlk := and_beq_eq_false (q := Ty.isPrimitive) hnumber l
            grind
          simp only [hview, hother, Bool.false_or]

theorem guardLength_steady (name : String) (length : Operand) :
    ∃ act, guardLength name length = start name act ∧ act.Steady p := by
  refine ⟨_, rfl, .andThen (.anyInstruction name) fun i => ?_⟩
  refine .andThen (.value length.name) fun v => ?_
  split
  · exact .of_plain (.pure _)
  · refine .andThen (.termOf v) fun x => ?_
    have hview (t : Tracer) := view_sized t x
    have hdefinition := compare_number .ge x (show (Term.int 0).ty = .int from rfl)
    cases length.observed.int? with
    | none =>
      simp only [ite_self]
      exact .get (fun _ => rfl) fun _ => .of_plain (.pure _)
    | some n =>
      cases hnumber : x.ty.isPrimitive with
      | true =>
        rw [if_pos hnumber] at hdefinition
        obtain ⟨y, hy⟩ := hdefinition
        refine .remembering_seen (fun {t u} h => ?_) (fun h => ?_) (fun {t u} h => ?_) (fun _ => ?_)
          fun t w => ?_
        · have hsized : u.view.sized x = t.view.sized x := by rw [h.view]
          simp only [view, hnumber, Bool.true_and] at hsized
          exact hsized
        · exact h.of_view (fun w => { w with
            sized := fun y => (y.ty.isPrimitive && y == x) || w.sized y }) (hview _) (hview _)
            h.concrete h.origins
        · rw [show u.config = t.config from congrArg (fun s => s.2.2) h.setup]
        · exact .bind (.lift _) fun _ => .bind (.guarded _ _ _ _ _) fun _ =>
            .bind (.lift _) fun _ => .guarded _ _ _ _ _
        · obtain ⟨z, hz⟩ : ∃ z, Term.compare .lt x (Term.int t.config.maxArrayLength) = .ok z :=
            compare_int_ok hy
          refine not_fails_lift hy ?_
          rw [fails_bind_of_ok (Contributes.guarded_run ⟨_, _, _, _, _⟩ w)]
          exact not_fails_lift hz (not_fails_guarded _ _ _ _ _ _)
      | false =>
        rw [if_neg (by rw [hnumber]; exact Bool.false_ne_true)] at hdefinition
        obtain ⟨cause, hcause, herror⟩ := hdefinition
        refine .remembering_unseen (fun t => ⟨?_, rfl, rfl⟩) fun _ w =>
          ⟨cause, hcause, lift_bind_of_error herror _ w⟩
        simp only [hview, and_beq_eq_false (q := Ty.isPrimitive) hnumber, Bool.false_or]

end Action

end Concolic.Tracer
