import Concolic.Proofs.Table
import Concolic.Tracer.Guard
import Concolic.Tracer.Step

/-!
# Actions that only learn

Most actions look something up, bind a value to a term, or record what was observed of a term. They
leave the clauses, the path, the trace, the calls and the stack of frames alone; of the active frame
they change the bindings. This file says so once, for actions that succeed and for actions that
fail.

* `Action.after act t`: the tracer after the action, however it ended. `Action.Fails act t`: it
  failed.
* `Action.Sequential P`: the property `P` of actions holds of results and is kept by sequencing. It
  is if it relates the tracer after the action to the one before (`Sequential.of_relation`).
  `Action.Recording P`: it also holds of the small actions that take and record terms of values, and
  so of those that are made of them.
* `Tracer.outline t`: the tracer without what it knows of values.
* `Tracer.Learned t t'`: `t'` has the outline of `t`, and every recorded concrete value and origin
  of `t` is still recorded in `t'`.
* `Action.Learns act`: the action takes every tracer to one that learned from it. It is sequential
  and recording, and there is one lemma for each action that learns.
-/

namespace Concolic

/-- A frame without the bindings of its values. -/
def Frame.unbound (f : Frame) : Frame := { f with values := ∅ }

namespace Tracer

/-- The tracer without what it knows of values: bindings of the active frame, names, observed
values, origins, what was checked of terms, and the exception on its way. -/
def outline (t : Tracer) : Tracer :=
  { t with
    concrete := ∅
    origins := ∅
    nullChecked := []
    typeChecked := ∅
    indexChecked := []
    lengthChecked := []
    frames := t.frames.modifyHead Frame.unbound
    names := ∅
    thrown := none }

/-- The tracer `t'` is `t` with more knowledge of values. -/
structure Learned (t t' : Tracer) : Prop where
  outline : t'.outline = t.outline
  concrete : t.concrete.Within t'.concrete
  origins : t.origins.Within t'.origins

theorem Learned.refl (t : Tracer) : t.Learned t := ⟨rfl, .refl _, .refl _⟩

theorem Learned.trans {t u w : Tracer} (h : t.Learned u) (h' : u.Learned w) : t.Learned w :=
  ⟨h'.outline.trans h.outline, h.concrete.trans h'.concrete, h.origins.trans h'.origins⟩

section Outline

variable {t t' : Tracer}

theorem Learned.program (h : t.Learned t') : t'.program = t.program := by
  have := congrArg Tracer.program h.outline; exact this

theorem Learned.clauses (h : t.Learned t') : t'.clauses = t.clauses := by
  have := congrArg Tracer.clauses h.outline; exact this

theorem Learned.path (h : t.Learned t') : t'.path = t.path := by
  have := congrArg Tracer.path h.outline; exact this

theorem Learned.trace (h : t.Learned t') : t'.trace = t.trace := by
  have := congrArg Tracer.trace h.outline; exact this

theorem Learned.pending (h : t.Learned t') : t'.pending = t.pending := by
  have := congrArg Tracer.pending h.outline; exact this

end Outline

namespace Action

variable {α β : Type}

/-! ## Runs of actions -/

/-- The tracer after an action, whether it succeeded or failed. -/
def after (act : Action α) (t : Tracer) : Tracer :=
  match act t with
  | .ok _ t' | .error _ t' => t'

/-- The action fails on the tracer. -/
def Fails (act : Action α) (t : Tracer) : Prop := ∃ e t', act t = .error e t'

theorem bind_apply (x : Action α) (f : α → Action β) (t : Tracer) :
    (x >>= f) t = match x t with
      | .ok a t' => f a t'
      | .error e t' => .error e t' := by
  show EStateM.bind x f t = _
  unfold EStateM.bind
  cases x t <;> rfl

theorem after_of_ok {act : Action α} {t t' : Tracer} {a : α} (h : act t = .ok a t') :
    act.after t = t' := by
  unfold after; rw [h]

theorem after_of_error {act : Action α} {t t' : Tracer} {e : Error} (h : act t = .error e t') :
    act.after t = t' := by
  unfold after; rw [h]

theorem after_bind_of_ok {x : Action α} {f : α → Action β} {t t' : Tracer} {a : α}
    (h : x t = .ok a t') : (x >>= f).after t = (f a).after t' := by
  unfold after; rw [bind_apply, h]

theorem after_bind_of_error {x : Action α} {f : α → Action β} {t t' : Tracer} {e : Error}
    (h : x t = .error e t') : (x >>= f).after t = t' := by
  unfold after; rw [bind_apply, h]

theorem fails_bind_of_ok {x : Action α} {f : α → Action β} {t t' : Tracer} {a : α}
    (h : x t = .ok a t') : (x >>= f).Fails t ↔ (f a).Fails t' := by
  unfold Fails; rw [bind_apply, h]

theorem get_bind (f : Tracer → Action β) (t : Tracer) :
    ((get : Action Tracer) >>= f) t = f t t := rfl

theorem modify_bind (g : Tracer → Tracer) (f : PUnit → Action β) (t : Tracer) :
    ((modify g : Action PUnit) >>= f) t = f ⟨⟩ (g t) := rfl

theorem lift_bind_of_ok {r : Result α} {a : α} (h : r = .ok a) (f : α → Action β) (t : Tracer) :
    ((liftM r : Action α) >>= f) t = f a t := by
  rw [h]; rfl

theorem bind_ok {x : Action α} {f : α → Action β} {t u : Tracer} {b : β}
    (h : (x >>= f) t = .ok b u) : ∃ a s, x t = .ok a s ∧ f a s = .ok b u := by
  rw [bind_apply] at h
  cases hx : x t with
  | ok a s => rw [hx] at h; exact ⟨a, s, rfl, h⟩
  | error e s => rw [hx] at h; cases h

theorem lift_ok {r : Result α} {t u : Tracer} {a : α} (h : (liftM r : Action α) t = .ok a u) :
    r = .ok a ∧ u = t := by
  cases r with
  | ok b => cases h; exact ⟨rfl, rfl⟩
  | error e => cases h

theorem not_fails_of_ok {act : Action α} {t t' : Tracer} {a : α} (h : act t = .ok a t') :
    ¬ act.Fails t := by
  rintro ⟨e, t'', h'⟩
  rw [h] at h'
  cases h'

theorem frame_ok {t u : Tracer} {f : Frame} (h : frame t = .ok f u) :
    u = t ∧ ∃ fs, t.frames = f :: fs := by
  obtain ⟨a, s, hget, h₁⟩ := bind_ok h
  cases hget
  cases hf : t.frames with
  | nil => rw [hf] at h₁; cases h₁
  | cons g fs => rw [hf] at h₁; cases h₁; exact ⟨rfl, fs, rfl⟩

theorem body_ok {t u : Tracer} {b : Body} (h : body t = .ok b u) :
    u = t ∧ ∃ f fs, t.frames = f :: fs ∧ t.program.body f.method = .ok b := by
  obtain ⟨f, s, hframe, h₁⟩ := bind_ok h
  obtain ⟨rfl, fs, hfs⟩ := frame_ok hframe
  obtain ⟨a, s', hget, h₂⟩ := bind_ok h₁
  cases hget
  obtain ⟨hb, rfl⟩ := lift_ok h₂
  exact ⟨rfl, f, fs, hfs, hb⟩

/-- An instruction that is looked up is one of the body of the active method. -/
theorem anyInstruction_ok {name : String} {t u : Tracer} {i : Instruction}
    (h : anyInstruction name t = .ok i u) :
    u = t ∧ ∃ f fs b, t.frames = f :: fs ∧ t.program.body f.method = .ok b ∧
      b.instruction name = .ok i := by
  obtain ⟨b, s, hbody, h₁⟩ := bind_ok h
  obtain ⟨rfl, f, fs, hfs, hb⟩ := body_ok hbody
  obtain ⟨hi, rfl⟩ := lift_ok h₁
  exact ⟨rfl, f, fs, b, hfs, hb, hi⟩

/-- Selecting looks up an instruction and checks its kind. -/
theorem select_ok {name expected : String} {accept : InstKind → Option α} {t u : Tracer}
    {i : Instruction} {a : α} (h : select name expected accept t = .ok (i, a) u) :
    u = t ∧ anyInstruction name t = .ok i t ∧ accept i.kind = some a := by
  obtain ⟨b, s, hbody, h₁⟩ := bind_ok h
  obtain ⟨j, s', hi, h₂⟩ := bind_ok h₁
  obtain ⟨rfl, -⟩ := body_ok hbody
  obtain ⟨hj, rfl⟩ := lift_ok hi
  have hany : anyInstruction name s' = .ok j s' := by
    unfold anyInstruction
    rw [bind_apply, hbody]
    exact hi
  cases ha : accept j.kind with
  | none => rw [ha] at h₂; cases h₂
  | some a' => rw [ha] at h₂; cases h₂; exact ⟨rfl, hany, ha⟩

theorem modifyFrame_nil (change : Frame → Frame) {t : Tracer} (h : t.frames = []) :
    modifyFrame change t = .error (.broken .noFrame) t := by
  rw [modifyFrame, get_bind, h]
  rfl

theorem modifyFrame_cons (change : Frame → Frame) {t : Tracer} {f : Frame} {fs : List Frame}
    (h : t.frames = f :: fs) :
    modifyFrame change t = .ok () { t with frames := change f :: fs } := by
  rw [modifyFrame, get_bind, h]
  rfl

/-! ## Properties that sequencing keeps -/

/-- Results have the property, and so do sequences of actions that have it. -/
structure Sequential (P : {α : Type} → Action α → Prop) : Prop where
  pure {α : Type} (a : α) : P (Pure.pure a : Action α)
  bind {α β : Type} {x : Action α} {f : α → Action β} (hx : P x) (hf : ∀ a, P (f a)) : P (x >>= f)

/-- Actions with the property take and record the terms of values. -/
structure Recording (P : {α : Type} → Action α → Prop) : Prop extends Sequential P where
  bindFresh (v : Value) : P (Action.bindFresh v)
  termOf (v : Value) : P (Action.termOf v)
  noteHere (term : Term) (v : Value) : P (Action.noteHere term v)
  noteConcrete (term : Term) (o : Observed) : P (Action.noteConcrete term o)

section Closure

variable {P : {α : Type} → Action α → Prop}

/-- A property that relates the tracer after the action to the one before. -/
theorem Sequential.of_relation {R : Tracer → Tracer → Prop} (hrefl : ∀ t, R t t)
    (htrans : ∀ {t u w}, R t u → R u w → R t w) :
    Sequential fun {α} (act : Action α) => ∀ t, R t (act.after t) where
  pure _ t := hrefl t
  bind {_ _ x _} hx hf t := by
    have hfirst := hx t
    cases h : x t with
    | ok a u =>
      rw [after_of_ok h] at hfirst
      rw [after_bind_of_ok h]
      exact htrans hfirst (hf a u)
    | error e u =>
      rw [after_bind_of_error h, ← after_of_error h]
      exact hfirst

namespace Sequential

variable (h : Sequential P)

include h

theorem mapM {f : α → Action β} (hf : ∀ a, P (f a)) (as : List α) : P (as.mapM f) := by
  induction as with
  | nil => exact h.pure []
  | cons a as ih =>
    rw [List.mapM_cons]
    exact h.bind (hf a) fun b => h.bind ih fun bs => h.pure (b :: bs)

theorem forM {f : α → Action PUnit} (hf : ∀ a, P (f a)) (as : List α) : P (as.forM f) := by
  induction as with
  | nil => exact h.pure PUnit.unit
  | cons a as ih => exact h.bind (hf a) fun _ => ih

theorem forValue? {act : Value → Action Term} (hact : ∀ v, P (act v)) (v : Option Value) :
    P (Action.forValue? act v) := by
  cases v with
  | some v => exact h.bind (hact v) fun _ => h.pure _
  | none => exact h.pure none

end Sequential

namespace Recording

variable (h : Recording P)

include h

theorem note (term : Term) (s : Sighting) : P (Action.note term s) :=
  h.bind (h.noteHere term s.value) fun _ => h.noteConcrete term s.observed

theorem define (s : Sighting) : P (Action.define s) :=
  h.bind (h.bindFresh s.value) fun term => h.bind (h.note term s) fun _ => h.pure term

theorem defineUnseen (v : Value) : P (Action.defineUnseen v) :=
  h.bind (h.bindFresh v) fun term => h.bind (h.noteHere term v) fun _ => h.pure term

theorem use (s : Sighting) : P (Action.use s) :=
  h.bind (h.termOf s.value) fun term => h.bind (h.note term s) fun _ => h.pure term

theorem useUnseen (v : Value) : P (Action.useUnseen v) :=
  h.bind (h.termOf v) fun term => h.bind (h.noteHere term v) fun _ => h.pure term

theorem useAll (vs : List Value) (os : List Observed) : P (Action.useAll vs os) := by
  induction vs generalizing os with
  | nil => exact h.pure []
  | cons v vs ih =>
    cases os with
    | nil => exact h.bind (h.termOf v) fun x => h.bind (ih []) fun xs => h.pure (x :: xs)
    | cons o os => exact h.bind (h.use ⟨v, o⟩) fun x => h.bind (ih os) fun xs => h.pure (x :: xs)

theorem defineAll (vs : List Value) (os : List Observed) : P (Action.defineAll vs os) := by
  induction vs generalizing os with
  | nil => exact h.pure ()
  | cons v vs ih =>
    cases os with
    | nil => exact h.pure ()
    | cons o os => exact h.bind (h.define ⟨v, o⟩) fun _ => ih os

theorem ownerOf (field : FieldRef) (o : Observed) (v : Option Value) :
    P (Action.ownerOf field o v) := by
  cases v with
  | some v => exact h.use ⟨v, o⟩
  | none => exact h.pure _

end Recording

end Closure

/-! ## Learning -/

/-- Whatever becomes of the action, the tracer only learns. -/
def Learns (act : Action α) : Prop := ∀ t : Tracer, t.Learned (act.after t)

/-- An action that changes nothing. -/
def Reads (act : Action α) : Prop := ∀ t : Tracer, act.after t = t

namespace Reads

theorem learns {act : Action α} (h : act.Reads) : act.Learns := fun t => by
  rw [h t]; exact .refl t

theorem pure (a : α) : (Pure.pure a : Action α).Reads := fun _ => rfl

theorem throw (e : Error) : (MonadExcept.throw e : Action α).Reads := fun _ => rfl

theorem get : (MonadState.get : Action Tracer).Reads := fun _ => rfl

theorem lift (r : Result α) : (liftM r : Action α).Reads := fun t => by
  cases r <;> rfl

theorem sequential : Sequential Reads := .of_relation (R := fun t u => u = t) (fun _ => rfl)
  fun h h' => h'.trans h

theorem bind {x : Action α} {f : α → Action β} (hx : x.Reads) (hf : ∀ a, (f a).Reads) :
    (x >>= f).Reads := sequential.bind hx hf

theorem frame : Action.frame.Reads := by
  refine bind get fun t => ?_
  split
  · exact pure _
  · exact throw _

theorem body : Action.body.Reads := bind frame fun _ => bind get fun _ => lift _

theorem value (name : String) : (Action.value name).Reads := bind body fun _ => lift _

theorem values (names : List String) : (Action.values names).Reads := sequential.mapM value names

theorem value? : (name : Option String) → (Action.value? name).Reads
  | some name => bind (value name) fun _ => pure _
  | none => pure none

theorem resolve (o : Operand) : (Action.resolve o).Reads := bind (value o.name) fun _ => pure _

theorem anyInstruction (name : String) : (Action.anyInstruction name).Reads :=
  bind body fun _ => lift _

theorem resultOf (i : Instruction) : (Action.resultOf i).Reads := by
  unfold Action.resultOf
  split
  · exact pure _
  · exact throw _

theorem select (name expected : String) (accept : InstKind → Option α) :
    (Action.select name expected accept).Reads := by
  refine bind body fun b => bind (lift _) fun i => ?_
  split
  · exact pure _
  · exact throw _

theorem nextOf (i : Instruction) : (Action.nextOf i).Reads := by
  refine bind get fun t => bind (lift _) fun b => ?_
  split
  · exact pure _
  · exact throw _

end Reads

namespace Learns

theorem pure (a : α) : (Pure.pure a : Action α).Learns := (Reads.pure a).learns

theorem throw (e : Error) : (MonadExcept.throw e : Action α).Learns := (Reads.throw e).learns

theorem get : (MonadState.get : Action Tracer).Learns := Reads.get.learns

theorem lift (r : Result α) : (liftM r : Action α).Learns := (Reads.lift r).learns

theorem sequential : Sequential Learns := .of_relation (R := Learned) .refl .trans

theorem bind {x : Action α} {f : α → Action β} (hx : x.Learns) (hf : ∀ a, (f a).Learns) :
    (x >>= f).Learns := sequential.bind hx hf

theorem modify {g : Tracer → Tracer} (hg : ∀ t : Tracer, t.Learned (g t)) :
    (modify g : Action PUnit).Learns := hg

theorem modifyFrame {change : Frame → Frame} (h : ∀ f, (change f).unbound = f.unbound) :
    (Action.modifyFrame change).Learns := fun t => by
  cases hf : t.frames with
  | nil => rw [after_of_error (modifyFrame_nil change hf)]; exact .refl t
  | cons f fs =>
    rw [after_of_ok (modifyFrame_cons change hf)]
    refine ⟨?_, .refl _, .refl _⟩
    unfold outline
    simp only [hf, List.modifyHead_cons, h f]

/-! ### Terms of values -/

theorem freshName (name : String) : (Action.freshName name).Learns :=
  bind get fun _ => bind (modify fun _ => ⟨rfl, .refl _, .refl _⟩) fun _ => pure _

theorem freshTerm (v : Value) : (Action.freshTerm v).Learns := by
  cases v with
  | receiver ty => exact pure _
  | argument index ty => exact pure _
  | constant c => exact pure _
  | result name ty => exact bind (freshName name) fun _ => pure _

theorem assign (v : Value) (term : Term) : (Action.assign v term).Learns :=
  modifyFrame fun _ => rfl

theorem bindFresh (v : Value) : (Action.bindFresh v).Learns :=
  bind (freshTerm v) fun term => bind (assign v term) fun _ => pure _

theorem termOf (v : Value) : (Action.termOf v).Learns := by
  refine bind Reads.frame.learns fun f => ?_
  split
  · exact pure _
  · exact bindFresh v

/-! ### Records of terms -/

theorem noteOrigin (term : Term) (m : Method) (v : Value) : (Action.noteOrigin term m v).Learns :=
  modify fun _ => ⟨rfl, .refl _, Table.within_insertNew _ _ _⟩

theorem noteConcrete (term : Term) (o : Observed) : (Action.noteConcrete term o).Learns :=
  modify fun _ => ⟨rfl, Table.within_insertNew _ _ _, .refl _⟩

theorem noteHere (term : Term) (v : Value) : (Action.noteHere term v).Learns :=
  bind Reads.frame.learns fun _ => noteOrigin _ _ _

theorem recording : Recording Learns where
  toSequential := sequential
  bindFresh := bindFresh
  termOf := termOf
  noteHere := noteHere
  noteConcrete := noteConcrete

theorem note (term : Term) (s : Sighting) : (Action.note term s).Learns := recording.note term s

theorem define (s : Sighting) : (Action.define s).Learns := recording.define s

theorem defineUnseen (v : Value) : (Action.defineUnseen v).Learns := recording.defineUnseen v

theorem use (s : Sighting) : (Action.use s).Learns := recording.use s

theorem useUnseen (v : Value) : (Action.useUnseen v).Learns := recording.useUnseen v

theorem useAll (vs : List Value) (os : List Observed) : (Action.useAll vs os).Learns :=
  recording.useAll vs os

theorem defineAll (vs : List Value) (os : List Observed) : (Action.defineAll vs os).Learns :=
  recording.defineAll vs os

theorem forM {f : α → Action PUnit} (hf : ∀ a, (f a).Learns) (as : List α) :
    (as.forM f).Learns := sequential.forM hf as

theorem forValue? {act : Value → Action Term} (h : ∀ v, (act v).Learns) (v : Option Value) :
    (Action.forValue? act v).Learns := sequential.forValue? h v

theorem ownerOf (field : FieldRef) (o : Observed) (v : Option Value) :
    (Action.ownerOf field o v).Learns := recording.ownerOf field o v

theorem allocated (term : Term) (ty : Ty) : (Action.allocated term ty).Learns :=
  modify fun _ => ⟨rfl, .refl _, .refl _⟩

theorem caughtTerm (v : Value) : (Action.caughtTerm v).Learns := by
  refine bind get fun t => ?_
  split
  · refine bind (modify fun _ => ⟨rfl, .refl _, .refl _⟩) fun _ => ?_
    exact bind (assign v _) fun _ => pure _
  · exact bindFresh v

end Learns

end Action

end Tracer

end Concolic
