import Concolic.Proofs.Tracer.Follow

/-!
# How the handling of an instruction ends

An event that counts is handled in two parts. It first looks things up and binds and records values,
and this is where it can fail. The last thing it does is one of a few actions, after which nothing
more is looked up. What an event does to the trace, to the handlers of a frame and to the types that
were checked is decided by its ending alone.

* `Action.Looks act`: the action learns, and remembers no check of a type.
* `Ending`: the last actions. Those `aside` leave the frames, the trace and the checked types alone.
* `Action.EndsIn o name kinds act`: on every tracer of the outline `o` the action fails while it
  looks, or it looks and then ends in one of the given ways for the instruction of the name. The
  rules for it (`EndsIn.look`, `EndsIn.select`, ...) follow the steps of the actions.
* `handle_endsIn`: the event of an instruction, other than a return, ends in one of `Event.endings`.
* `Tracer.Turned t e u`: what an event leaves, of whatever kind it is (`handle_turned`).
-/

namespace Concolic

namespace Tracer

variable {t u w : Tracer}

/-- The tracer `u` is `t` with more knowledge of values, and with the same checks of types. -/
structure Looked (t u : Tracer) : Prop extends Learned t u where
  typed : u.typeChecked = t.typeChecked

theorem Looked.refl (t : Tracer) : t.Looked t := ⟨.refl t, rfl⟩

theorem Looked.trans (h : t.Looked u) (h' : u.Looked w) : t.Looked w :=
  ⟨h.toLearned.trans h'.toLearned, h'.typed.trans h.typed⟩

/-- The frames, the trace and the checked types of `u` are those of `t`. -/
structure Spared (t u : Tracer) : Prop where
  frames : u.frames = t.frames
  trace : u.trace = t.trace
  typed : u.typeChecked = t.typeChecked

theorem Spared.refl (t : Tracer) : t.Spared t := ⟨rfl, rfl, rfl⟩

theorem Spared.trans (h : t.Spared u) (h' : u.Spared w) : t.Spared w :=
  ⟨h'.frames.trans h.frames, h'.trace.trans h.trace, h'.typed.trans h.typed⟩

namespace Action

variable {α β : Type}

/-! ## Looking -/

/-- Whatever becomes of the action, the tracer only learned and checked no type. -/
def Looks (act : Action α) : Prop := ∀ t : Tracer, t.Looked (act.after t)

namespace Looks

theorem of_reads {act : Action α} (h : act.Reads) : act.Looks := fun t => by
  rw [h t]
  exact .refl t

theorem pure (a : α) : (Pure.pure a : Action α).Looks := of_reads (.pure a)

theorem sequential : Sequential Looks := .of_relation (R := Looked) .refl .trans

theorem bind {x : Action α} {f : α → Action β} (hx : x.Looks) (hf : ∀ a, (f a).Looks) :
    (x >>= f).Looks := sequential.bind hx hf

theorem modify {g : Tracer → Tracer} (hg : ∀ t : Tracer, t.Learned (g t))
    (ht : ∀ t : Tracer, (g t).typeChecked = t.typeChecked) :
    (modify g : Action PUnit).Looks := fun t => ⟨hg t, ht t⟩

theorem assign (v : Value) (x : Term) : (Action.assign v x).Looks := fun t => by
  refine ⟨Learns.assign v x t, ?_⟩
  unfold Action.assign
  cases hf : t.frames with
  | nil => rw [after_of_error (modifyFrame_nil _ hf)]
  | cons f fs => rw [after_of_ok (modifyFrame_cons _ hf)]

theorem bindFresh (v : Value) : (Action.bindFresh v).Looks := by
  refine bind ?_ fun x => bind (assign v x) fun _ => pure x
  cases v with
  | receiver ty => exact pure _
  | argument index ty => exact pure _
  | constant c => exact pure _
  | result name ty =>
    refine bind (bind (of_reads .get) fun s => ?_) fun _ => pure _
    exact bind (modify (fun _ => ⟨rfl, .refl _, .refl _⟩) fun _ => rfl) fun _ => pure _

theorem termOf (v : Value) : (Action.termOf v).Looks := by
  refine bind (of_reads .frame) fun f => ?_
  split
  · exact pure _
  · exact bindFresh v

theorem noteOrigin (x : Term) (m : Method) (v : Value) : (Action.noteOrigin x m v).Looks :=
  fun t => ⟨Learns.noteOrigin x m v t, rfl⟩

theorem noteConcrete (x : Term) (o : Observed) : (Action.noteConcrete x o).Looks :=
  fun t => ⟨Learns.noteConcrete x o t, rfl⟩

theorem noteHere (x : Term) (v : Value) : (Action.noteHere x v).Looks :=
  bind (of_reads .frame) fun _ => noteOrigin _ _ _

theorem recording : Recording Looks where
  toSequential := sequential
  bindFresh := bindFresh
  termOf := termOf
  noteHere := noteHere
  noteConcrete := noteConcrete

theorem note (x : Term) (s : Sighting) : (Action.note x s).Looks := recording.note x s

theorem define (s : Sighting) : (Action.define s).Looks := recording.define s

theorem defineUnseen (v : Value) : (Action.defineUnseen v).Looks := recording.defineUnseen v

theorem use (s : Sighting) : (Action.use s).Looks := recording.use s

theorem useUnseen (v : Value) : (Action.useUnseen v).Looks := recording.useUnseen v

theorem useAll (vs : List Value) (os : List Observed) : (Action.useAll vs os).Looks :=
  recording.useAll vs os

theorem defineAll (vs : List Value) (os : List Observed) : (Action.defineAll vs os).Looks :=
  recording.defineAll vs os

theorem forM {f : α → Action PUnit} (hf : ∀ a, (f a).Looks) (as : List α) :
    (as.forM f).Looks := sequential.forM hf as

theorem forValue? {act : Value → Action Term} (h : ∀ v, (act v).Looks) (v : Option Value) :
    (Action.forValue? act v).Looks := sequential.forValue? h v

theorem ownerOf (field : FieldRef) (o : Observed) (v : Option Value) :
    (Action.ownerOf field o v).Looks := recording.ownerOf field o v

theorem caughtTerm (v : Value) : (Action.caughtTerm v).Looks := by
  refine bind (of_reads .get) fun t => ?_
  split
  · refine bind (modify (fun _ => ⟨rfl, .refl _, .refl _⟩) fun _ => rfl) fun _ => ?_
    exact bind (assign v _) fun _ => pure _
  · exact bindFresh v

end Looks

/-! ## Endings -/

/-- Whatever becomes of the action, frames, trace and checked types are the same. -/
def Spares (act : Action α) : Prop := ∀ t : Tracer, t.Spared (act.after t)

namespace Spares

theorem of_reads {act : Action α} (h : act.Reads) : act.Spares := fun t => by
  rw [h t]
  exact .refl t

theorem modify {g : Tracer → Tracer} (hg : ∀ t : Tracer, t.Spared (g t)) :
    (modify g : Action PUnit).Spares := hg

theorem bind {x : Action α} {f : α → Action β} (hx : x.Spares) (hf : ∀ a, (f a).Spares) :
    (x >>= f).Spares := (Sequential.of_relation (R := Spared) .refl .trans).bind hx hf

theorem guarded (check : Check) (i : Instruction) (name : String) (definition : Term)
    (observed : Bool) : (Action.guarded check i name definition observed).Spares :=
  fun _ => ⟨rfl, rfl, rfl⟩

end Spares

end Action

/-- The last thing that the handling of an instruction does. -/
inductive Ending where
  /-- Something that leaves frames, trace and checked types alone: guards, or nothing at all. -/
  | aside (act : Action Unit) (h : act.Spares)
  /-- A check of the type of a term. -/
  | check (reason : Check) (i : Instruction) (x : Term) (ty : Ty) (observed : Bool)
  | effect (i : Instruction) (p : Predicate)
  /-- An effect that makes an object, with the values that it is made of. -/
  | allocation (x : Term) (ty : Ty) (vs : List Value) (os : List Observed) (i : Instruction)
      (p : List Term → Predicate)
  | decision (i : Instruction) (p : Predicate)
  | passage (i : Instruction)
  | call (call : PendingCall) (next : Instruction)

namespace Ending

inductive Kind where
  | aside
  | check
  | effect
  | allocation
  | decision
  | passage
  | call
deriving DecidableEq

def kind : Ending → Kind
  | aside .. => .aside
  | check .. => .check
  | effect .. => .effect
  | allocation .. => .allocation
  | decision .. => .decision
  | passage .. => .passage
  | call .. => .call

/-- The instruction that is traced. -/
def instruction? : Ending → Option Instruction
  | aside .. | check .. => none
  | effect i _ | allocation _ _ _ _ i _ | decision i _ | passage i => some i
  | call c _ => some c.instruction

def act : Ending → Action Unit
  | aside act _ => act
  | check reason i x ty observed => Action.guardInstance reason i x ty observed
  | effect i p => Action.emit i p
  | allocation x ty vs os i p => do
    Action.allocated x ty
    Action.emit i (p (← Action.useAll vs os))
  | decision i p => Action.decide i p
  | passage i => do
    Action.leaveBlock i
    Action.trace i
  | call c next => do
    modify fun t => { t with
      callTrace := ⟨c.instruction, next⟩ :: t.callTrace, pending := some c }
    Action.trace c.instruction

/-- The ending is of one of the kinds and traces at most the instruction of the name. -/
structure Fits (ending : Ending) (o : Tracer) (name : String) (kinds : List Kind) : Prop where
  kind : ending.kind ∈ kinds
  instruction : ∀ i, ending.instruction? = some i → o.instruction? name = some i

/-- An ending that traces nothing fits by its kind. -/
theorem Fits.of_none {ending : Ending} {o : Tracer} {name : String} {kinds : List Kind}
    (hkind : ending.kind ∈ kinds) (h : ending.instruction? = none) :
    ending.Fits o name kinds := by
  refine ⟨hkind, fun i hi => ?_⟩
  rw [h] at hi
  cases hi

end Ending

end Tracer

/-- The ways in which the handling of an event ends, other than those of an entered method and of a
return. -/
def Event.endings : Event → List Tracer.Ending.Kind
  | .methodEnter .. | .ret .. => []
  | .guardNull .. | .guardIndex .. | .guardLength .. => [.aside]
  | .guardType .. | .guardExpectedType .. => [.aside, .check]
  | .branch .. | .switch .. | .tableSwitch .. => [.decision]
  | .jump .. => [.passage]
  | .call .. => [.call]
  | .newArray .. | .new .. => [.allocation]
  | .invokeDynamic .. => [.aside, .effect]
  | .arrayLoad .. | .arrayStore .. | .binary .. | .cast .. | .caught .. | .compare ..
  | .enterMonitor .. | .exitMonitor .. | .fieldLoad .. | .fieldStore .. | .instanceOf ..
  | .phi .. | .throwing .. | .unary .. => [.effect]

namespace Tracer

namespace Action

variable {α β : Type} {o : Tracer} {name : String} {kinds : List Ending.Kind} {i : Instruction}

/-- On every tracer of the outline `o` the action fails while it looks, or it looks and then ends in
one of the ways, for the instruction of the name. -/
def EndsIn (o : Tracer) (name : String) (kinds : List Ending.Kind) (act : Action Unit) : Prop :=
  ∀ t : Tracer, t.outline = o →
    (∃ cause u, t.Looked u ∧ act t = .error cause u) ∨
      ∃ (u : Tracer) (ending : Ending), t.Looked u ∧ ending.Fits o name kinds ∧
        act t = ending.act u

namespace EndsIn

theorem look {x : Action α} {f : α → Action Unit} (hx : x.Looks)
    (hf : ∀ a, EndsIn o name kinds (f a)) : EndsIn o name kinds (x >>= f) := by
  intro t ht
  have hlooked := hx t
  rw [bind_apply]
  cases h : x t with
  | error e u =>
    rw [after_of_error h] at hlooked
    exact .inl ⟨e, u, hlooked, rfl⟩
  | ok a u =>
    rw [after_of_ok h] at hlooked
    rcases hf a u (hlooked.outline.trans ht) with
      ⟨cause, w, hw, hact⟩ | ⟨w, ending, hw, hfits, hact⟩
    · exact .inl ⟨cause, w, hlooked.trans hw, hact⟩
    · exact .inr ⟨w, ending, hlooked.trans hw, hfits, hact⟩

theorem read {x : Action α} {f : α → Action Unit} (hx : x.Reads)
    (hf : ∀ a, EndsIn o name kinds (f a)) : EndsIn o name kinds (x >>= f) := look (.of_reads hx) hf

theorem lift {r : Result α} {f : α → Action Unit} (hf : ∀ a, EndsIn o name kinds (f a)) :
    EndsIn o name kinds (liftM r >>= f) := read (.lift r) hf

theorem select {expected : String} {accept : InstKind → Option α}
    {f : Instruction × α → Action Unit}
    (hf : ∀ i a, o.instruction? name = some i → EndsIn o name kinds (f (i, a))) :
    EndsIn o name kinds (Action.select name expected accept >>= f) := by
  intro t ht
  rw [bind_apply]
  cases h : Action.select name expected accept t with
  | error e u =>
    have hlooked := Looks.of_reads (Reads.select name expected accept) t
    rw [after_of_error h] at hlooked
    exact .inl ⟨e, u, hlooked, rfl⟩
  | ok found u =>
    obtain ⟨i, a⟩ := found
    obtain ⟨rfl, -⟩ := select_ok h
    refine hf i a ?_ u ht
    have hstack : u.outline.stack = u.stack := congrArg Position.stack (position_outline u)
    rw [← ht, instruction?_eq, hstack]
    exact (named?_of_select h).1

theorem fail (cause : Error) : EndsIn o name kinds (throw cause) :=
  fun t _ => .inl ⟨cause, t, .refl t, rfl⟩

/-- What remains is the ending. -/
theorem done {act : Action Unit} (ending : Ending) (hfits : ending.Fits o name kinds)
    (hact : ∀ t, act t = ending.act t) : EndsIn o name kinds act :=
  fun t _ => .inr ⟨t, ending, .refl t, hfits, hact t⟩

theorem aside {act : Action Unit} (hact : act.Spares) (hkind : .aside ∈ kinds) :
    EndsIn o name kinds act := done (.aside act hact) (.of_none hkind rfl) fun _ => rfl

theorem nothing (hkind : .aside ∈ kinds) : EndsIn o name kinds (pure ()) :=
  aside (.of_reads (.pure ())) hkind

theorem emit {p : Predicate} (hi : o.instruction? name = some i) (hkind : .effect ∈ kinds) :
    EndsIn o name kinds (Action.emit i p) :=
  done (.effect i p) ⟨hkind, fun _ h => h ▸ hi⟩ fun _ => rfl

theorem decide {p : Predicate} (hi : o.instruction? name = some i) :
    EndsIn o name [.decision] (Action.decide i p) :=
  done (.decision i p) ⟨List.mem_cons_self, fun _ h => h ▸ hi⟩ fun _ => rfl

theorem check {reason : Check} {x : Term} {ty : Ty} {observed : Bool} :
    EndsIn o name [.aside, .check] (guardInstance reason i x ty observed) :=
  done (.check reason i x ty observed) (.of_none (List.mem_cons_of_mem _ List.mem_cons_self) rfl)
    fun _ => rfl

end EndsIn

/-! ## The handlers -/

theorem arrayLoad_endsIn (result array index : Operand) :
    ∃ act, arrayLoad result array index = start result.name act ∧
      ∀ o, EndsIn o result.name [.effect] act := by
  refine ⟨_, rfl, fun o => .select fun i _ hi => .read (Reads.resultOf i) fun r => ?_⟩
  refine .read (Reads.resolve array) fun array => .read (Reads.resolve index) fun index => ?_
  refine .look (Looks.define _) fun x => .look (Looks.use array) fun array => ?_
  refine .look (Looks.use index) fun index => .lift fun _ => .lift fun _ => ?_
  exact .emit hi List.mem_cons_self

theorem arrayStore_endsIn (name : String) (array index stored : Operand) :
    ∃ act, arrayStore name array index stored = start name act ∧
      ∀ o, EndsIn o name [.effect] act := by
  refine ⟨_, rfl, fun o => .select fun i _ hi => .read (Reads.resolve array) fun array => ?_⟩
  refine .read (Reads.resolve index) fun index => .read (Reads.resolve stored) fun stored => ?_
  refine .look (Looks.use array) fun array => .look (Looks.use index) fun index => ?_
  refine .look (Looks.use stored) fun stored => .lift fun _ => .lift fun _ => ?_
  exact .emit hi List.mem_cons_self

theorem fieldLoad_endsIn (result : Operand) (spelling : FieldSpelling) (owner : Option String)
    (observed : Observed) :
    ∃ act, fieldLoad result spelling owner observed = start result.name act ∧
      ∀ o, EndsIn o result.name [.effect] act := by
  refine ⟨_, rfl, fun o => .select fun i _ hi => .read (Reads.resultOf i) fun r => ?_⟩
  refine .read Reads.get fun _ => .lift fun field => .read (Reads.value? owner) fun owner => ?_
  refine .look (Looks.define _) fun x => .look (Looks.ownerOf field observed owner) fun owner => ?_
  exact .lift fun _ => .lift fun _ => .emit hi List.mem_cons_self

theorem fieldStore_endsIn (name : String) (spelling : FieldSpelling) (stored : Operand)
    (owner : Option String) (observed : Observed) :
    ∃ act, fieldStore name spelling stored owner observed = start name act ∧
      ∀ o, EndsIn o name [.effect] act := by
  refine ⟨_, rfl, fun o => .select fun i _ hi => .read Reads.get fun _ => .lift fun field => ?_⟩
  refine .read (Reads.resolve stored) fun stored => .read (Reads.value? owner) fun owner => ?_
  refine .look (Looks.use stored) fun stored => ?_
  refine .look (Looks.ownerOf field observed owner) fun owner => ?_
  exact .lift fun _ => .lift fun _ => .emit hi List.mem_cons_self

theorem newArray_endsIn (result : Operand) (dimensions : List String) (observed : List Observed) :
    ∃ act, newArray result dimensions observed = start result.name act ∧
      ∀ o, EndsIn o result.name [.allocation] act := by
  refine ⟨_, rfl, fun o => .select fun i _ hi => .read (Reads.resultOf i) fun r => ?_⟩
  refine .read (Reads.values dimensions) fun dimensions => .look (Looks.define _) fun x => ?_
  refine .done (.allocation x r.ty dimensions observed i fun xs => i.effect.newArray x xs)
    ⟨List.mem_cons_self, fun _ h => h ▸ hi⟩ fun _ => rfl

/-- An object is made of no values. -/
theorem newObject_endsIn (result : String) :
    ∃ act, newObject result = start result act ∧ ∀ o, EndsIn o result [.allocation] act := by
  refine ⟨_, rfl, fun o => .select fun i _ hi => .read (Reads.resultOf i) fun r => ?_⟩
  refine .look (Looks.defineUnseen r) fun x => ?_
  exact .done (.allocation x r.ty [] [] i fun _ => i.effect.newObject x)
    ⟨List.mem_cons_self, fun _ h => h ▸ hi⟩ fun _ => rfl

theorem binary_endsIn (result left right : Operand) :
    ∃ act, binary result left right = start result.name act ∧
      ∀ o, EndsIn o result.name [.effect] act := by
  refine ⟨_, rfl, fun o => .select fun i op hi => .read (Reads.resultOf i) fun r => ?_⟩
  refine .read (Reads.resolve left) fun left => .read (Reads.resolve right) fun right => ?_
  refine .look (Looks.define _) fun x => .look (Looks.use left) fun left => ?_
  refine .look (Looks.use right) fun right => .read Reads.get fun _ => .lift fun _ => ?_
  exact .emit hi List.mem_cons_self

theorem unary_endsIn (result operand : Operand) :
    ∃ act, unary result operand = start result.name act ∧
      ∀ o, EndsIn o result.name [.effect] act := by
  refine ⟨_, rfl, fun o => .select fun i op hi => .read (Reads.resultOf i) fun r => ?_⟩
  refine .read (Reads.resolve operand) fun operand => .look (Looks.define _) fun x => ?_
  exact .look (Looks.use operand) fun _ => .lift fun _ => .emit hi List.mem_cons_self

theorem compare_endsIn (result : String) (left right : Operand) :
    ∃ act, compare result left right = start result act ∧ ∀ o, EndsIn o result [.effect] act := by
  refine ⟨_, rfl, fun o => .select fun i op hi => .read (Reads.resultOf i) fun r => ?_⟩
  refine .read (Reads.resolve left) fun left => .read (Reads.resolve right) fun right => ?_
  have hrest (x : Term) : EndsIn o result [.effect] (do
      let left ← use left
      let right ← use right
      emit i (i.effect.equality x (← Term.compare op left right))) :=
    .look (Looks.use left) fun _ => .look (Looks.use right) fun _ => .lift fun _ =>
      .emit hi List.mem_cons_self
  cases Observed.compare op left.observed right.observed with
  | ok outcome => exact .look (Looks.define _) hrest
  | error e => exact .look (Looks.defineUnseen r) hrest

theorem cast_endsIn (result operand : Operand) :
    ∃ act, cast result operand = start result.name act ∧
      ∀ o, EndsIn o result.name [.effect] act := by
  refine ⟨_, rfl, fun o => .select fun i _ hi => .read (Reads.resultOf i) fun r => ?_⟩
  refine .read (Reads.resolve operand) fun operand => .look (Looks.define _) fun x => ?_
  exact .look (Looks.use operand) fun _ => .lift fun _ => .emit hi List.mem_cons_self

theorem instanceOf_endsIn (result operand : Operand) :
    ∃ act, instanceOf result operand = start result.name act ∧
      ∀ o, EndsIn o result.name [.effect] act := by
  refine ⟨_, rfl, fun o => .select fun i checked hi => .read (Reads.resultOf i) fun r => ?_⟩
  refine .read (Reads.resolve operand) fun operand => .look (Looks.define _) fun x => ?_
  exact .look (Looks.use operand) fun _ => .lift fun _ => .emit hi List.mem_cons_self

theorem invokeDynamic_endsIn (result : Operand) (operands : List String)
    (observed : List Observed) :
    ∃ act, invokeDynamic result operands observed = start result.name act ∧
      ∀ o, EndsIn o result.name [.aside, .effect] act := by
  refine ⟨_, rfl, fun o => .select fun i base hi => .read (Reads.resultOf i) fun r => ?_⟩
  refine .read (Reads.values operands) fun operands => .look (Looks.define _) fun x => ?_
  refine .look (Looks.forM (fun _ => .bind (Looks.use _) fun _ => Looks.pure _) _) fun _ => ?_
  split
  · exact .nothing List.mem_cons_self
  · exact .lift fun _ => .emit hi (List.mem_cons_of_mem _ List.mem_cons_self)

theorem branch_endsIn (name condition : String) :
    ∃ act, branch name condition = start name act ∧ ∀ o, EndsIn o name [.decision] act := by
  refine ⟨_, rfl, fun o => .select fun i _ hi => .read (Reads.value condition) fun v => ?_⟩
  refine .look (Looks.termOf v) fun x => .read Reads.get fun s => ?_
  split
  · exact .decide hi
  · exact .fail _

theorem jump_endsIn (name : String) :
    ∃ act, jump name = start name act ∧ ∀ o, EndsIn o name [.passage] act := by
  refine ⟨_, rfl, fun o => .select fun i _ hi => ?_⟩
  exact .done (.passage i) ⟨List.mem_cons_self, fun _ h => h ▸ hi⟩ fun _ => rfl

theorem switch_endsIn (name : String) (key : Operand) :
    ∃ act, switch name key = start name act ∧ ∀ o, EndsIn o name [.decision] act := by
  refine ⟨_, rfl, fun o => .select fun i keys hi => .read (Reads.resolve key) fun key => ?_⟩
  exact .look (Looks.use key) fun x => .lift fun n => .decide hi

theorem tableSwitch_endsIn (name : String) (key : Operand) :
    ∃ act, tableSwitch name key = start name act ∧ ∀ o, EndsIn o name [.decision] act := by
  refine ⟨_, rfl, fun o => .select fun i _ hi => .read (Reads.resolve key) fun key => ?_⟩
  exact .look (Looks.use key) fun x => .lift fun n => .decide hi

theorem phi_endsIn (result : Operand) :
    ∃ act, phi result = start result.name act ∧ ∀ o, EndsIn o result.name [.effect] act := by
  refine ⟨_, rfl, fun o => .select fun i incoming hi => .read Reads.frame fun f => ?_⟩
  dsimp only
  split
  · exact .fail _
  · refine .read (Reads.resultOf i) fun r => .look (Looks.define _) fun x => ?_
    exact .look (Looks.useUnseen _) fun source => .emit hi List.mem_cons_self

/-- The exception that is on its way is knowledge of a value. -/
theorem throwing_endsIn (name : String) (exception : Operand) :
    ∃ act, throwing name exception = start name act ∧ ∀ o, EndsIn o name [.effect] act := by
  refine ⟨_, rfl, fun o => .select fun i _ hi => .read (Reads.resolve exception) fun thrown => ?_⟩
  refine .look (Looks.use thrown) fun x => ?_
  refine .look (Looks.modify (fun _ => ⟨rfl, .refl _, .refl _⟩) fun _ => rfl) fun _ => ?_
  exact .emit hi List.mem_cons_self

theorem enterMonitor_endsIn (name : String) (operand : Operand) :
    ∃ act, enterMonitor name operand = start name act ∧ ∀ o, EndsIn o name [.effect] act := by
  refine ⟨_, rfl, fun o => .select fun i _ hi => .read (Reads.resolve operand) fun operand => ?_⟩
  exact .look (Looks.use operand) fun x => .emit hi List.mem_cons_self

theorem exitMonitor_endsIn (name : String) (operand : Operand) :
    ∃ act, exitMonitor name operand = start name act ∧ ∀ o, EndsIn o name [.effect] act := by
  refine ⟨_, rfl, fun o => .select fun i _ hi => .read (Reads.resolve operand) fun operand => ?_⟩
  exact .look (Looks.use operand) fun x => .emit hi List.mem_cons_self

theorem call_endsIn (name : String) (spelling : MethodSpelling) (result callee : Option String)
    (arguments : List String) (observed : List Observed) :
    ∃ act, call name spelling result callee arguments observed = start name act ∧
      ∀ o, EndsIn o name [.call] act := by
  refine ⟨_, rfl, fun o => .select fun i _ hi => .read (Reads.nextOf i) fun next => ?_⟩
  refine .read Reads.get fun _ => .lift fun m => .read (Reads.value? result) fun result => ?_
  refine .read (Reads.value? callee) fun callee => .read (Reads.values arguments) fun args => ?_
  refine .look (Looks.forValue? Looks.defineUnseen result) fun received => ?_
  refine .look (Looks.forValue? Looks.useUnseen callee) fun callee => ?_
  refine .look (Looks.useAll args observed) fun xs => .lift fun term => .lift fun q => ?_
  exact .done (.call ⟨i, m, result.bind fun v => received.map (v, ·), callee, xs, q⟩ next)
    ⟨List.mem_cons_self, fun _ h => h ▸ hi⟩ fun _ => rfl

/-! ### Guards -/

theorem guardNull_endsIn (name : String) (checked : Operand) :
    ∃ act, guardNull name checked = start name act ∧ ∀ o, EndsIn o name [.aside] act := by
  refine ⟨_, rfl, fun o => .read (Reads.anyInstruction name) fun i => ?_⟩
  refine .read (Reads.value checked.name) fun v => .look (Looks.termOf v) fun x => ?_
  refine .aside (.bind (.of_reads Reads.get) fun s => ?_) List.mem_cons_self
  split
  · exact .of_reads (.pure ())
  · refine .bind (.modify fun _ => ⟨rfl, rfl, rfl⟩) fun _ => ?_
    exact .bind (.of_reads (.lift _)) fun _ => .guarded _ _ _ _ _

theorem guardType_endsIn (name : String) (checked : Operand) :
    ∃ act, guardType name checked = start name act ∧ ∀ o, EndsIn o name [.aside, .check] act := by
  refine ⟨_, rfl, fun o => ?_⟩
  split
  · exact .nothing List.mem_cons_self
  · refine .read (Reads.anyInstruction name) fun i => .read (Reads.value checked.name) fun v => ?_
    refine .look (Looks.termOf v) fun x => .read Reads.get fun s => ?_
    split
    · exact .nothing List.mem_cons_self
    · exact .check

theorem guardExpectedType_endsIn (name : String) (checked : Operand) {ty : String} {expected : Ty}
    (h : Ty.parse ty = .ok expected) :
    ∃ act, guardExpectedType name checked ty = start name act ∧
      ∀ o, EndsIn o name [.aside, .check] act := by
  refine ⟨_, funext fun t => lift_bind_of_ok h _ t, fun o => ?_⟩
  refine .read (Reads.anyInstruction name) fun i => .read (Reads.value checked.name) fun v => ?_
  split
  · exact .nothing List.mem_cons_self
  · refine .look (Looks.termOf v) fun x => .read Reads.get fun s => ?_
    dsimp only
    split
    · exact .nothing List.mem_cons_self
    · exact .check

theorem guardIndex_endsIn (name : String) (array index : Operand) :
    ∃ act, guardIndex name array index = start name act ∧ ∀ o, EndsIn o name [.aside] act := by
  refine ⟨_, rfl, fun o => ?_⟩
  split
  · exact .nothing List.mem_cons_self
  · refine .read (Reads.anyInstruction name) fun i => .read (Reads.value array.name) fun a => ?_
    refine .read (Reads.value index.name) fun k => ?_
    refine .look (Looks.termOf a) fun a => .look (Looks.termOf k) fun k => ?_
    refine .aside ?_ List.mem_cons_self
    split
    · exact .of_reads (.pure ())
    · refine .bind (.of_reads Reads.get) fun s => ?_
      dsimp only
      split
      · exact .of_reads (.pure ())
      · refine .bind (.modify fun _ => ⟨rfl, rfl, rfl⟩) fun _ => ?_
        refine .bind (.of_reads (.lift _)) fun _ => .bind (.of_reads (.lift _)) fun _ => ?_
        exact .guarded _ _ _ _ _

theorem guardLength_endsIn (name : String) (length : Operand) :
    ∃ act, guardLength name length = start name act ∧ ∀ o, EndsIn o name [.aside] act := by
  refine ⟨_, rfl, fun o => .read (Reads.anyInstruction name) fun i => ?_⟩
  refine .read (Reads.value length.name) fun v => ?_
  split
  · exact .nothing List.mem_cons_self
  · refine .look (Looks.termOf v) fun x => .aside ?_ List.mem_cons_self
    refine .bind (.of_reads Reads.get) fun s => ?_
    dsimp only
    split
    · exact .of_reads (.pure ())
    · split
      · exact .of_reads (.pure ())
      · refine .bind (.modify fun _ => ⟨rfl, rfl, rfl⟩) fun _ => ?_
        refine .bind (.of_reads (.lift _)) fun _ => .bind (.guarded _ _ _ _ _) fun _ => ?_
        exact .bind (.of_reads (.lift _)) fun _ => .guarded _ _ _ _ _

/-- A caught exception that counts ends like any other instruction. -/
theorem caught_endsIn {exception : Operand} {type : Ty}
    (h : exception.observed.type? = some type) :
    ∃ act : Action Unit, (∀ o, EndsIn o exception.name [.effect] act) ∧
      caught exception = (do flush; unwind type; if ← isCollecting then act) := by
  refine ⟨?act, ?ends, ?eq⟩
  case eq =>
    unfold caught
    rw [h]
  case ends =>
    refine fun o => .select fun i _ hi => .read (Reads.resultOf i) fun r => ?_
    refine .look (Looks.caughtTerm r) fun x => .look (Looks.note x _) fun _ => ?_
    exact .emit hi List.mem_cons_self

end Action

/-- The event of an instruction other than a return is handled by `start`, with an action that ends
in one of the ways of the event. -/
theorem handle_endsIn {e : Event} {name : String} (hname : e.subject? = some name)
    (hcaught : e.isCaught = false) (hread : e.isReadable = true) (hret : e.isRet = false) :
    ∃ act, handle e = Action.start name act ∧ ∀ o, Action.EndsIn o name e.endings act := by
  cases e with
  | methodEnter => cases hname
  | caught => cases hcaught
  | ret => cases hret
  | guardExpectedType name checked ty =>
    cases hname
    cases hty : Ty.parse ty with
    | ok expected => exact Action.guardExpectedType_endsIn name checked hty
    | error e => simp [Event.isReadable, hty, Except.isOk, Except.toBool] at hread
  | arrayLoad => cases hname; exact Action.arrayLoad_endsIn _ _ _
  | arrayStore => cases hname; exact Action.arrayStore_endsIn _ _ _ _
  | binary => cases hname; exact Action.binary_endsIn _ _ _
  | branch => cases hname; exact Action.branch_endsIn _ _
  | call => cases hname; exact Action.call_endsIn _ _ _ _ _ _
  | cast => cases hname; exact Action.cast_endsIn _ _
  | compare => cases hname; exact Action.compare_endsIn _ _ _
  | enterMonitor => cases hname; exact Action.enterMonitor_endsIn _ _
  | exitMonitor => cases hname; exact Action.exitMonitor_endsIn _ _
  | fieldLoad => cases hname; exact Action.fieldLoad_endsIn _ _ _ _
  | fieldStore => cases hname; exact Action.fieldStore_endsIn _ _ _ _ _
  | instanceOf => cases hname; exact Action.instanceOf_endsIn _ _
  | invokeDynamic => cases hname; exact Action.invokeDynamic_endsIn _ _ _
  | jump => cases hname; exact Action.jump_endsIn _
  | newArray => cases hname; exact Action.newArray_endsIn _ _ _
  | new => cases hname; exact Action.newObject_endsIn _
  | phi => cases hname; exact Action.phi_endsIn _
  | switch => cases hname; exact Action.switch_endsIn _ _
  | tableSwitch => cases hname; exact Action.tableSwitch_endsIn _ _
  | throwing => cases hname; exact Action.throwing_endsIn _ _
  | unary => cases hname; exact Action.unary_endsIn _ _
  | guardNull => cases hname; exact Action.guardNull_endsIn _ _
  | guardType => cases hname; exact Action.guardType_endsIn _ _
  | guardIndex => cases hname; exact Action.guardIndex_endsIn _ _ _
  | guardLength => cases hname; exact Action.guardLength_endsIn _ _

/-! ## Events -/

variable {t u w : Tracer}

/-- The frames without the bindings of their values, the innermost first. -/
def settings (t : Tracer) : List Frame := t.frames.map Frame.unbound

theorem Learned.settings (h : t.Learned u) : u.settings = t.settings := by
  have hframes : u.frames.modifyHead Frame.unbound = t.frames.modifyHead Frame.unbound :=
    congrArg Tracer.frames h.outline
  have hmap (fs : List Frame) : (fs.modifyHead Frame.unbound).map Frame.unbound =
      fs.map Frame.unbound := by
    cases fs <;> rfl
  unfold Tracer.settings
  rw [← hmap u.frames, hframes, hmap]

/-- Frames may have been removed, and the trace and the checked types are the same. -/
structure Kept (t u : Tracer) : Prop where
  settings : u.settings <:+ t.settings
  trace : u.trace = t.trace
  typed : u.typeChecked = t.typeChecked
  program : u.program = t.program

theorem Kept.refl (t : Tracer) : t.Kept t := ⟨List.suffix_refl _, rfl, rfl, rfl⟩

theorem Kept.flushed (h : t.Kept u) : t.Kept u.flushed := ⟨h.settings, h.trace, h.typed, h.program⟩

theorem Kept.looked (h : t.Kept u) (h' : u.Looked w) : t.Kept w :=
  ⟨h'.settings ▸ h.settings, h'.trace.trans h.trace, h'.typed.trans h.typed,
    h'.program.trans h.program⟩

theorem Followed.kept {name : String} (h : t.Followed name u) : t.Kept u := by
  cases h with
  | left hcalls hname hcall hnext hret hframes =>
    refine ⟨?_, rfl, rfl, rfl⟩
    unfold Tracer.settings
    rw [hframes]
    exact List.suffix_cons _ _
  | idle | unknown | within => exact .refl _
  | again | back => exact ⟨List.suffix_refl _, rfl, rfl, rfl⟩

theorem unwound_settings (t : Tracer) (thrown : Ty) (fs : List Frame) (calls : List CallSite) :
    (Action.unwound t thrown fs calls).1.map Frame.unbound <:+ fs.map Frame.unbound := by
  induction fs generalizing calls with
  | nil => exact List.suffix_refl _
  | cons f fs ih =>
    unfold Action.unwound
    dsimp only
    split
    · exact List.suffix_refl _
    · exact (ih _).trans (List.suffix_cons _ _)

theorem kept_unwoundBy (t : Tracer) (thrown : Ty) : t.Kept (t.unwoundBy thrown) :=
  ⟨unwound_settings _ _ _ _, rfl, rfl, rfl⟩

/-- What is left of a tracer by the handling of an event. A method is `entered`, with nothing noted
in its frame; a method has `returned`; the event has `stopped` after some looking; or it `ended`. -/
inductive Turned (t : Tracer) (e : Event) : Tracer → Prop
  | entered {f : Frame} {u : Tracer} (hframes : u.settings = f.unbound :: t.settings)
      (hcatches : f.catches = ∅) (htrace : u.trace = t.trace)
      (htyped : u.typeChecked = t.typeChecked) (hblock : f.previousBlock = 0) : Turned t e u
  | returned {u : Tracer} (hret : e.isRet = true) (hframes : u.settings <:+ t.settings)
      (htyped : u.typeChecked = t.typeChecked) : Turned t e u
  | stopped {u : Tracer} (hkept : t.Kept u) : Turned t e u
  | ended {name : String} {ending : Ending} {w : Tracer} (hret : e.isRet = false)
      (hkept : t.Kept w) (hfits : ending.Fits w name e.endings) :
      Turned t e (ending.act.after w)

namespace Action

variable {name : String} {e : Event}

theorem enter_turned (spelling : MethodSpelling) (receiver : Option Observed)
    (args : List Observed) (t : Tracer) :
    t.Turned (.methodEnter spelling receiver args) ((enter spelling args).after t) := by
  cases hm : t.program.method spelling.owner spelling.name spelling.args spelling.ret with
  | error cause =>
    rw [after_of_error (enter_error hm)]
    exact .stopped (.refl t)
  | ok m =>
    unfold enter after
    rw [get_bind, lift_bind_of_ok hm]
    cases hc : t.pending with
    | some call =>
      by_cases hd : t.dispatch t.program.hierarchy m call.method = true
      · simp only [if_pos hd]
        exact .entered (f := Frame.enter m call.receiver) rfl rfl rfl rfl rfl
      · simp only [if_neg hd]
        exact .entered (f := Frame.enter m none) rfl rfl rfl rfl rfl
    | none =>
      let u : Tracer := { t with frames := Frame.enter m none :: t.frames }
      have hlooked : u.Looked ((if t.callTrace.isEmpty then defineAll m.parameters.2 args
          else pure () : Action Unit).after u) := by
        split
        · exact Looks.defineAll _ _ u
        · exact .refl u
      exact .entered (f := Frame.enter m none) hlooked.settings rfl hlooked.trace hlooked.typed rfl

/-- The action looks, and then it may remove the active frame. -/
def Pops (act : Action Unit) : Prop :=
  ∀ t : Tracer, (act.after t).settings <:+ t.settings ∧ (act.after t).typeChecked = t.typeChecked

namespace Pops

theorem look {α : Type} {x : Action α} {f : α → Action Unit} (hx : x.Looks)
    (hf : ∀ a, (f a).Pops) : (x >>= f).Pops := by
  intro t
  have hlooked := hx t
  cases h : x t with
  | ok a u =>
    rw [after_of_ok h] at hlooked
    rw [after_bind_of_ok h, ← hlooked.settings, ← hlooked.typed]
    exact hf a u
  | error e u =>
    rw [after_of_error h] at hlooked
    rw [after_bind_of_error h, hlooked.settings]
    exact ⟨List.suffix_refl _, hlooked.typed⟩

end Pops

theorem ret_pops (name : String) (result : Option String) (observed : Observed) :
    ∃ act, ret name result observed = start name act ∧ act.Pops := by
  refine ⟨_, rfl, .look (.of_reads (Reads.select _ _ _)) fun found => ?_⟩
  refine .look (.of_reads (Reads.value? result)) fun result => ?_
  refine .look (Looks.forValue? Looks.termOf result) fun returned t => ?_
  unfold after
  dsimp only
  rw [get_bind]
  cases hf : t.frames with
  | nil => exact ⟨List.suffix_refl _, rfl⟩
  | cons f callers =>
    have hsuffix : callers.map Frame.unbound <:+ t.settings := by
      unfold settings
      rw [hf]
      exact List.suffix_cons _ _
    dsimp only
    rw [modify_bind]
    cases returned with
    | none => exact ⟨hsuffix, rfl⟩
    | some x =>
      cases f.receiver with
      | none => exact ⟨hsuffix, rfl⟩
      | some received => exact ⟨hsuffix, rfl⟩

/-- The ending fits the tracer at which it begins. -/
theorem EndsIn.fits {act : Action Unit} {kinds : List Ending.Kind}
    (h : ∀ o, EndsIn o name kinds act) (u : Tracer) :
    (∃ cause w, u.Looked w ∧ act u = .error cause w) ∨
      ∃ (w : Tracer) (ending : Ending), u.Looked w ∧ ending.Fits w name kinds ∧
        act u = ending.act w := by
  rcases h u.outline u rfl with hfail | ⟨w, ending, hw, hfits, hact⟩
  · exact .inl hfail
  · have hstack : u.outline.stack = w.stack := by
      have h₁ := congrArg Position.stack (position_outline u)
      have h₂ := congrArg Position.stack hw.position
      exact h₁.trans h₂.symm
    refine .inr ⟨w, ending, hw, ⟨hfits.kind, fun i hi => ?_⟩, hact⟩
    have hnamed := hfits.instruction i hi
    rw [instruction?_eq, hstack] at hnamed
    rw [instruction?_eq, hw.program]
    exact hnamed

theorem EndsIn.turned {act : Action Unit} (h : ∀ o, EndsIn o name e.endings act)
    (hret : e.isRet = false) (hkept : t.Kept u) : t.Turned e (act.after u) := by
  rcases EndsIn.fits h u with ⟨cause, w, hw, hact⟩ | ⟨w, ending, hw, hfits, hact⟩
  · rw [after_of_error hact]
    exact .stopped (hkept.looked hw)
  · have hafter : act.after u = ending.act.after w := by
      unfold after
      rw [hact]
    rw [hafter]
    exact .ended hret (hkept.looked hw) hfits

theorem caught_turned (exception : Operand) (t : Tracer) :
    t.Turned (.caught exception) ((caught exception).after t) := by
  cases htype : exception.observed.type? with
  | none =>
    rw [after_of_error (caught_of_none htype t)]
    exact .stopped (Kept.refl t).flushed
  | some type =>
    obtain ⟨act, hact, hcaught⟩ := caught_endsIn htype
    have happly := caught_apply hcaught t
    have hkept := kept_unwoundBy t type
    split at happly
    · rw [after_of_error happly]
      exact .stopped hkept
    · split at happly
      · have hafter : (caught exception).after t = act.after (t.unwoundBy type) := by
          unfold after
          rw [happly]
        rw [hafter]
        exact EndsIn.turned (e := .caught exception) hact rfl hkept
      · rw [after_of_ok happly]
        exact .stopped hkept

end Action

theorem handle_turned (e : Event) (t : Tracer) : t.Turned e ((handle e).after t) := by
  rcases event_cases e with
    ⟨spelling, receiver, args, rfl⟩ | ⟨exception, rfl⟩ | ⟨name, hname, hcaught⟩
  · exact Action.enter_turned spelling receiver args t
  · exact Action.caught_turned exception t
  · cases hread : e.isReadable with
    | false =>
      obtain ⟨cause, hfail⟩ := handle_unreadable hread t
      rw [Action.after_of_error hfail]
      exact .stopped (.refl t)
    | true =>
      have hstart (act : Action Unit)
          (hact : ∀ u, t.Kept u → t.Turned e (act.after u)) :
          t.Turned e ((Action.start name act).after t) := by
        rcases Action.start_cases name act t with ⟨cause, hfail⟩ | ⟨u, hu, ⟨-, hs⟩ | ⟨-, hs⟩⟩
        · rw [Action.after_of_error hfail]
          exact .stopped (.refl t)
        · rw [Action.after_of_ok hs]
          exact .stopped hu.kept.flushed
        · have hafter : (Action.start name act).after t = act.after u.flushed := by
            unfold Action.after
            rw [hs]
          rw [hafter]
          exact hact u.flushed hu.kept.flushed
      cases hret : e.isRet with
      | false =>
        obtain ⟨act, hhandle, hends⟩ := handle_endsIn hname hcaught hread hret
        rw [hhandle]
        exact hstart act fun u hu => Action.EndsIn.turned hends hret hu
      | true =>
        cases e with
        | ret name' result observed =>
          cases hname
          obtain ⟨act, hhandle, hpops⟩ := Action.ret_pops name result observed
          show t.Turned _ ((Action.ret name result observed).after t)
          rw [hhandle]
          refine hstart act fun u hu => .returned rfl ((hpops u).1.trans hu.settings) ?_
          exact (hpops u).2.trans hu.typed
        | _ => cases hret

end Tracer

end Concolic
