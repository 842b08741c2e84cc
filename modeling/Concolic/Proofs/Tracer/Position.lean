import Concolic.Proofs.Naming
import Concolic.Proofs.Tracer.Output

/-!
# The position of an execution

How an event is taken depends on a small part of a tracer: the methods that are executed, the calls
to come back to and the pending call. This file says which actions leave that part alone.

* `Tracer.position t`: that part of a tracer.
* `Action.Stays act`: the position is the same after the action, however it ended. Actions that
  learn stay, and so do those that add clauses.
* `Action.Leads o act Q`: from the position `o` the action succeeds with a position in `Q`, or fails
  there or with a position in `Q`.
* `Event.Effect e act`: what the action of an event does to the position. A call is made
  (`call_effect`) and a return leaves the innermost method (`ret_effect`); the actions of all other
  instructions stay.
-/

namespace Concolic

/-! ## Events -/

namespace Event

/-- The name of the instruction that the event reports or guards. -/
def subject? : Event → Option String
  | .methodEnter .. => none
  | .arrayLoad result .. | .binary result .. | .cast result .. | .fieldLoad result ..
  | .instanceOf result .. | .invokeDynamic result .. | .newArray result .. | .phi result
  | .unary result .. => some result.name
  | .caught exception => some exception.name
  | .arrayStore name .. | .branch name .. | .call name .. | .compare name .. | .enterMonitor name ..
  | .exitMonitor name .. | .fieldStore name .. | .jump name | .new name | .ret name ..
  | .switch name .. | .tableSwitch name .. | .throwing name .. | .guardNull name ..
  | .guardType name .. | .guardExpectedType name .. | .guardIndex name ..
  | .guardLength name .. => some name

/-- The event reports a return. -/
def isRet : Event → Bool
  | .ret .. => true
  | _ => false

/-- The event reports a caught exception. -/
def isCaught : Event → Bool
  | .caught .. => true
  | _ => false

/-- The types that are read before anything else are types. -/
def isReadable : Event → Bool
  | .guardExpectedType _ _ ty => (Ty.parse ty).isOk
  | _ => true

end Event

/-! ## Positions -/

structure Position where
  program : Program
  /-- The methods that are executed, the innermost first. -/
  stack : List Method
  callTrace : List CallSite
  pending : Option PendingCall

namespace Tracer

variable {t t' u : Tracer}

/-- The methods of the frames, the innermost first. -/
def stack (t : Tracer) : List Method := t.frames.map Frame.method

def position (t : Tracer) : Position where
  program := t.program
  stack := t.stack
  callTrace := t.callTrace
  pending := t.pending

theorem instruction?_eq (t : Tracer) (name : String) :
    t.instruction? name = t.program.named? t.stack name := by
  unfold instruction? Program.named? stack
  cases t.frames <;> rfl

theorem position_outline (t : Tracer) : t.outline.position = t.position := by
  have hstack : (t.frames.modifyHead Frame.unbound).map Frame.method =
      t.frames.map Frame.method := by
    cases t.frames <;> rfl
  unfold position stack outline
  rw [hstack]

theorem Learned.position (h : t.Learned t') : t'.position = t.position := by
  rw [← position_outline t', h.outline, position_outline]

/-- The tracer after its pending call has become a clause. -/
def flushed (t : Tracer) : Tracer :=
  { t with clauses := t.clauses ++ t.pendingClauses, pending := none }

theorem flushed_of_none (h : t.pending = none) : t.flushed = t := by
  unfold flushed pendingClauses
  rw [h, List.append_nil, ← h]

theorem flushed_flushed (t : Tracer) : t.flushed.flushed = t.flushed := flushed_of_none rfl

namespace Action

variable {α β : Type}

/-! ## Actions that stay -/

/-- Whatever becomes of the action, the position is the same. -/
def Stays (act : Action α) : Prop := ∀ t : Tracer, (act.after t).position = t.position

theorem Learns.stays {act : Action α} (h : act.Learns) : act.Stays := fun t => (h t).position

theorem Reads.stays {act : Action α} (h : act.Reads) : act.Stays := h.learns.stays

namespace Stays

theorem throw (e : Error) : (MonadExcept.throw e : Action α).Stays := (Reads.throw e).stays

theorem bind {x : Action α} {f : α → Action β} (hx : x.Stays) (hf : ∀ a, (f a).Stays) :
    (x >>= f).Stays :=
  (Sequential.of_relation (R := fun t u => u.position = t.position) (fun _ => rfl)
    fun h h' => h'.trans h).bind hx hf

theorem read {x : Action α} {f : α → Action β} (hx : x.Reads) (hf : ∀ a, (f a).Stays) :
    (x >>= f).Stays := hx.stays.bind hf

theorem learn {x : Action α} {f : α → Action β} (hx : x.Learns) (hf : ∀ a, (f a).Stays) :
    (x >>= f).Stays := hx.stays.bind hf

theorem lift {r : Result α} {f : α → Action β} (hf : ∀ a, (f a).Stays) :
    (liftM r >>= f).Stays := (Learns.lift r).stays.bind hf

theorem modify {g : Tracer → Tracer} (hg : ∀ t : Tracer, (g t).position = t.position) :
    (modify g : Action PUnit).Stays := hg

theorem modifyFrame {change : Frame → Frame} (h : ∀ f, (change f).method = f.method) :
    (Action.modifyFrame change).Stays := by
  intro t
  cases hf : t.frames with
  | nil => rw [after_of_error (modifyFrame_nil change hf)]
  | cons f fs =>
    rw [after_of_ok (modifyFrame_cons change hf)]
    simp only [position, stack, hf, List.map_cons, h f]

theorem select {accept : InstKind → Option β} {name expected : String}
    {f : Instruction × β → Action α} (hf : ∀ i a, (f (i, a)).Stays) :
    (Action.select name expected accept >>= f).Stays :=
  read (Reads.select name expected accept) fun (i, a) => hf i a

theorem refreshHandlers (i : Instruction) : (Action.refreshHandlers i).Stays := by
  refine read Reads.get fun t => lift fun b => ?_
  split
  · exact throw _
  · exact modifyFrame fun _ => rfl

theorem trace (i : Instruction) : (Action.trace i).Stays :=
  bind (modify fun _ => rfl) fun _ => refreshHandlers i

theorem addClause (c : Clause) : (Action.addClause c).Stays := modify fun _ => rfl

theorem emit (i : Instruction) (p : Predicate) : (Action.emit i p).Stays :=
  bind (addClause _) fun _ => trace i

end Stays

/-! ## Actions that lead to another position -/

/-- From the position `o` the action succeeds with a position in `Q`. If it fails, the position is
in `Q` or still the same. -/
def Leads (o : Position) (act : Action α) (Q : Position → Prop) : Prop :=
  ∀ t : Tracer, t.position = o → match act t with
    | .ok _ t' => Q t'.position
    | .error _ t' => t'.position = o ∨ Q t'.position

namespace Leads

variable {o : Position} {Q : Position → Prop}

theorem of_ok {act : Action α} (h : act.Leads o Q) {a : α} (ho : t.position = o)
    (ht : act t = .ok a t') : Q t'.position := by
  have := h t ho
  rwa [ht] at this

theorem after {act : Action α} (h : act.Leads o Q) (ho : t.position = o) :
    (act.after t).position = o ∨ Q (act.after t).position := by
  have := h t ho
  unfold Action.after
  cases hr : act t with
  | ok a u => rw [hr] at this; exact .inr this
  | error e u => rw [hr] at this; exact this

theorem throw (e : Error) : (MonadExcept.throw e : Action α).Leads o Q := fun _ ho => .inl ho

/-- What comes first stays, so what follows decides. -/
theorem bind {x : Action α} {f : α → Action β} (hx : x.Stays)
    (hf : ∀ a t u, t.position = o → x t = .ok a u → (f a).Leads o Q) : (x >>= f).Leads o Q := by
  intro t ho
  have hpos := hx t
  rw [bind_apply]
  cases h : x t with
  | ok a u =>
    rw [after_of_ok h, ho] at hpos
    exact hf a t u ho h u hpos
  | error e u =>
    rw [after_of_error h, ho] at hpos
    exact .inl hpos

theorem step {x : Action α} {f : α → Action β} (hx : x.Stays) (hf : ∀ a, (f a).Leads o Q) :
    (x >>= f).Leads o Q :=
  bind hx fun a _ _ _ _ => hf a

/-- The position changes once, and what follows stays there. -/
theorem change {g : Tracer → Tracer} {rest : Action β}
    (hg : ∀ t : Tracer, t.position = o → Q (g t).position) (hrest : rest.Stays) :
    (do modify g; rest : Action β).Leads o Q := by
  intro t ho
  have hpos := hrest (g t)
  have hq := hg t ho
  rw [modify_bind]
  cases h : rest (g t) with
  | ok a u =>
    rw [after_of_ok h] at hpos
    show Q u.position
    rwa [hpos]
  | error e u =>
    rw [after_of_error h] at hpos
    show u.position = o ∨ Q u.position
    rw [hpos]
    exact .inr hq

end Leads

end Action

end Tracer

/-! ## Calls and returns -/

namespace Position

/-- A call is made: an instruction of the innermost method is pending and comes first among the
calls to come back to. -/
def Called (name : String) (o q : Position) : Prop :=
  ∃ call next, o.program.named? o.stack name = some call.instruction ∧
    call.instruction.isCall = true ∧ o.program.next? call.instruction = some next ∧
    q = { o with callTrace := ⟨call.instruction, next⟩ :: o.callTrace, pending := some call }

/-- The innermost method returned. -/
def Returned (o q : Position) : Prop := ∃ m ms, o.stack = m :: ms ∧ q = { o with stack := ms }

end Position

/-- What the action of an event does to the position once the event counts. -/
def Event.Effect (e : Event) (act : Tracer.Action Unit) : Prop :=
  match e with
  | .call name .. => ∀ o, act.Leads o (o.Called name)
  | .ret .. => ∀ o, act.Leads o o.Returned
  | _ => act.Stays

namespace Tracer

namespace Action

variable {i : Instruction}

private theorem nextOf_ok {t u : Tracer} {next : Instruction} (h : nextOf i t = .ok next u) :
    t.program.next? i = some next := by
  obtain ⟨_, _, hget, h₁⟩ := bind_ok h
  cases hget
  obtain ⟨b, s, hlift, h₂⟩ := bind_ok h₁
  obtain ⟨hb, rfl⟩ := lift_ok hlift
  refine Option.bind_eq_some_iff.mpr ⟨b, by rw [hb]; rfl, ?_⟩
  cases hn : b.next? i with
  | none => rw [hn] at h₂; cases h₂
  | some j => rw [hn] at h₂; cases h₂; rfl

/-- An instruction that is selected is what the name means. -/
theorem named?_of_select {α : Type} {name expected : String} {accept : InstKind → Option α}
    {t u : Tracer} {a : α} (h : select name expected accept t = .ok (i, a) u) :
    t.program.named? t.stack name = some i ∧ accept i.kind = some a := by
  obtain ⟨-, hany, ha⟩ := select_ok h
  obtain ⟨-, f, fs, b, hf, hb, hi⟩ := anyInstruction_ok hany
  refine ⟨?_, ha⟩
  rw [stack, hf, List.map_cons, Program.named?_cons hb]
  exact Body.instruction_eq_ok hi

/-- Putting down a call makes it. -/
private theorem called_position {o : Position} {u : Tracer} {name : String} {call : PendingCall}
    {next : Instruction} (hnamed : o.program.named? o.stack name = some call.instruction)
    (hcall : call.instruction.isCall = true)
    (hnext : o.program.next? call.instruction = some next) (hu : u.position = o) :
    o.Called name ({ u with
      callTrace := ⟨call.instruction, next⟩ :: u.callTrace
      pending := some call } : Tracer).position :=
  ⟨call, next, hnamed, hcall, hnext, by rw [← hu]; rfl⟩

theorem call_effect (name : String) (spelling : MethodSpelling) (result callee : Option String)
    (arguments : List String) (observed : List Observed) :
    ∃ act, call name spelling result callee arguments observed = start name act ∧
      ∀ o : Position, act.Leads o (o.Called name) := by
  refine ⟨_, rfl, fun o => ?_⟩
  refine .bind (Reads.select _ _ _).stays fun (i, _) t _ ht hi => ?_
  obtain ⟨hnamed, haccept⟩ := named?_of_select hi
  have hcall : i.isCall = true := by
    unfold Instruction.isCall
    split
    · rfl
    · next hne => simp_all
  refine .bind (Reads.nextOf i).stays fun next s _ hs hn => ?_
  have hnext := nextOf_ok hn
  refine .step Reads.get.stays fun _ => .step (Reads.lift _).stays fun m => ?_
  refine .step (Reads.value? result).stays fun result => ?_
  refine .step (Reads.value? callee).stays fun callee => ?_
  refine .step (Reads.values arguments).stays fun arguments => ?_
  refine .step (Learns.forValue? Learns.defineUnseen result).stays fun received => ?_
  refine .step (Learns.forValue? Learns.useUnseen callee).stays fun callee => ?_
  refine .step (Learns.useAll arguments observed).stays fun arguments => ?_
  refine .step (Reads.lift _).stays fun term => .step (Reads.lift _).stays fun predicate => ?_
  refine .change (fun u hu => called_position ?_ hcall ?_ hu) (.trace i)
  · rw [← ht]
    exact hnamed
  · rw [← hs]
    exact hnext

theorem ret_effect (name : String) (result : Option String) (observed : Observed) :
    ∃ act, ret name result observed = start name act ∧
      ∀ o : Position, act.Leads o o.Returned := by
  refine ⟨_, rfl, fun o => ?_⟩
  refine .step (Reads.select _ _ _).stays fun (i, _) => ?_
  refine .step (Reads.value? result).stays fun result => ?_
  refine .step (Learns.forValue? Learns.termOf result).stays fun returned => ?_
  refine .bind Reads.get.stays fun s t _ ht hget => ?_
  cases hget
  dsimp only
  split
  · exact .throw _
  · next f callers hf =>
    refine .change (fun u hu => ?_) ?_
    · refine ⟨f.method, callers.map Frame.method, ?_, ?_⟩
      · rw [← ht]
        simp only [position, stack, hf, List.map_cons]
      · rw [← hu]
        rfl
    · split
      · refine .learn (Learns.noteOrigin _ _ _) fun _ => ?_
        refine .learn (Learns.noteConcrete _ _) fun _ => ?_
        exact .bind (.addClause _) fun _ => .modify fun _ => rfl
      · exact .modify fun _ => rfl

end Action

end Tracer

end Concolic
