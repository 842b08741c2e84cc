import Concolic.Proofs.Tracer.Change

/-!
# What each instruction does

For every kind of event, how the handling of an event that counts is made of small changes.

* `Event.Opened e t w`: the first thing that the event does. If its instruction has a result, the
  result is defined (`Event.outcome?` is what is known of it); a caught exception is bound.
* `Event.Does e act`: the action opens with that and goes on with changes. There is one lemma for
  each event that neither calls nor returns (`handle_does`).
* `handle_eq_start`: the event of an instruction is handled by `start` with an action of its own,
  and this action does to the position what `Event.Effect` says.
* `call_cases`: a call that is made names its method, its arguments, its callee and what receives
  its result by terms of the caller (`Tracer.Made`).
* `ret_cases`: a return removes the active frame, and what receives the result equals it
  (`Tracer.returned`).
-/

namespace Concolic

/-! ## Results -/

namespace Event

/-- The event reports a call. -/
def isCall : Event → Bool
  | .call .. => true
  | _ => false

/-- The event reports an instruction that has a result and is not a call. -/
def defines : Event → Bool
  | .arrayLoad .. | .binary .. | .cast .. | .compare .. | .fieldLoad .. | .instanceOf ..
  | .invokeDynamic .. | .newArray .. | .new .. | .phi .. | .unary .. => true
  | _ => false

/-- What is known of the result of the instruction: the reported value, or how the operands
compare. -/
def outcome? (e : Event) (i : Instruction) : Option Observed :=
  match e with
  | .arrayLoad result .. | .binary result .. | .cast result .. | .fieldLoad result ..
  | .instanceOf result .. | .invokeDynamic result .. | .newArray result .. | .phi result
  | .unary result .. => some result.observed
  | .compare _ left right =>
    match i.kind with
    | .compare op => (Observed.compare op left.observed right.observed).toOption
    | _ => none
  | _ => none

end Event

namespace Tracer

variable {t u w : Tracer} {name : String}

/-- The value of a name in the active method. -/
def value? (t : Tracer) (name : String) : Option Value := do
  let f ← t.frames.head?
  let b ← (t.program.body f.method).toOption
  (b.value name).toOption

/-- In the active method the name stands for a value that is bound to the term. -/
def Means (t : Tracer) (name : String) (x : Term) : Prop :=
  ∃ v, t.value? name = some v ∧ t.Binds v x

/-- The tracer after the exception was bound to the value: to the term that was thrown, if any. -/
def catching (t : Tracer) (f : Frame) (fs : List Frame) (v : Value) (o : Observed) : Tracer :=
  match t.thrown with
  | some x =>
    { t with thrown := none, frames := { f with values := f.values.insert v x } :: fs }.noted
      f.method v x (some o)
  | none => t.defining f fs v (some o)

end Tracer

/-- The tracer `w` is `t` after the first thing that the event does. -/
inductive Event.Opened (t : Tracer) : Event → Tracer → Prop
  | same {e : Event} (hdefines : e.defines = false) (hcaught : e.isCaught = false) : Opened t e t
  | defined {e : Event} {name : String} {i : Instruction} {v : Value} {f : Frame} {fs : List Frame}
      (hdefines : e.defines = true) (hname : e.subject? = some name)
      (hi : t.instruction? name = some i) (hv : i.result = some v) (hframes : t.frames = f :: fs) :
      Opened t e (t.defining f fs v (e.outcome? i))
  | caught {exception : Operand} {i : Instruction} {v : Value} {f : Frame} {fs : List Frame}
      (hi : t.instruction? exception.name = some i) (hv : i.result = some v)
      (hframes : t.frames = f :: fs) :
      Opened t (.caught exception) (t.catching f fs v exception.observed)

/-- The action opens as the event does and goes on with changes. -/
def Event.Does (e : Event) (act : Tracer.Action Unit) : Prop :=
  ∀ t : Tracer, act.Begins (Event.Opened t e) t fun _ _ => True

namespace Tracer

variable {t u w : Tracer} {name : String}

private theorem catching_position {f : Frame} {fs : List Frame} (v : Value) (o : Observed)
    (h : t.frames = f :: fs) : (t.catching f fs v o).position = t.position := by
  unfold catching
  split
  · simp only [position, stack, noted, h, List.map_cons]
  · exact Action.defining_position v _ h

/-- The first thing that an event does leaves the position alone. -/
theorem opened_position {e : Event} (h : Event.Opened t e w) : w.position = t.position := by
  cases h with
  | same => rfl
  | defined _ _ _ _ hframes => exact Action.defining_position _ _ hframes
  | caught _ _ hframes => exact catching_position _ _ hframes

/-- The program still contains an instruction after what an event does first. -/
theorem opened_contains {e : Event} {i : Instruction} (h : Event.Opened t e w)
    (hi : t.program.Contains i) : w.program.Contains i := by
  rw [show w.program = t.program from congrArg Position.program (opened_position h)]
  exact hi

namespace Action

variable {α β : Type} {i : Instruction}

/-- The active method is the one of a frame. -/
theorem frames_of_instruction? (h : t.instruction? name = some i) :
    ∃ f fs, t.frames = f :: fs := by
  unfold instruction? at h
  cases hframes : t.frames with
  | nil => rw [hframes] at h; cases h
  | cons f fs => exact ⟨f, fs, rfl⟩

theorem value_ok {v : Value} (h : value name t = .ok v u) : t.value? name = some v := by
  obtain ⟨b, s, hbody, h₁⟩ := bind_ok h
  obtain ⟨rfl, f, fs, hframes, hb⟩ := body_ok hbody
  obtain ⟨hv, -⟩ := lift_ok h₁
  unfold Tracer.value?
  rw [hframes]
  show ((s.program.body f.method).toOption.bind fun b => (b.value name).toOption) = some v
  rw [hb]
  show (b.value name).toOption = some v
  rw [hv]
  rfl

theorem value?_ok {name : Option String} {v : Option Value} (h : value? name t = .ok v u) :
    Option.Rel (fun n v => t.value? n = some v) name v := by
  cases name with
  | none => cases h; exact .none
  | some n =>
    obtain ⟨v', s, hv, h₁⟩ := bind_ok h
    cases h₁
    exact .some (value_ok hv)

private theorem values_ok {names : List String} {vs : List Value} (h : values names t = .ok vs u) :
    List.Forall₂ (fun n v => t.value? n = some v) names vs := by
  induction names generalizing vs u with
  | nil => cases h; exact .nil
  | cons n names ih =>
    rw [values, List.mapM_cons] at h
    obtain ⟨v, s, hv, h₁⟩ := bind_ok h
    obtain ⟨vs', s', hvs, h₂⟩ := bind_ok h₁
    cases h₂
    obtain rfl := (Reads.value n).ok hv
    exact .cons (value_ok hv) (ih hvs)

private theorem resolve_ok {o : Operand} {s : Sighting} (h : resolve o t = .ok s u) :
    s.observed = o.observed := by
  obtain ⟨v, t', -, h₁⟩ := bind_ok h
  cases h₁
  rfl

theorem resultOf_ok {v : Value} (h : resultOf i t = .ok v u) : i.result = some v := by
  unfold resultOf at h
  cases hv : i.result with
  | none => rw [hv] at h; cases h
  | some r => rw [hv] at h; cases h; rfl

namespace Begins

variable {O : Tracer → Prop} {R : α → Tracer → Prop}

theorem select {accept : InstKind → Option β} {expected : String} {k : Instruction × β → Action α}
    (hk : ∀ i a, t.instruction? name = some i → accept i.kind = some a →
      (k (i, a)).Begins O t R) :
    (Action.select name expected accept >>= k).Begins O t R :=
  read (Reads.select name expected accept) fun (i, a) h =>
    hk i a (instruction?_of_select h).1 (instruction?_of_select h).2

/-- What an event does first, after which the program still contains its instruction. -/
theorem andThen {e : Event} {x : Action β} {k : β → Action α} {Q : β → Tracer → Prop}
    (hx : x.Begins (Event.Opened t e) t Q) (hi : t.instruction? name = some i)
    (hk : ∀ a u, u.Ready i [] → Q a u → (k a).Ensures u R) :
    (x >>= k).Begins (Event.Opened t e) t R := by
  refine hx.bind fun a u ⟨w, hw, hu⟩ ha => hk a u (.start ?_) ha
  exact hu.contains (opened_contains hw (contains_of_instruction? hi))

theorem resultOf {k : Value → Action α} (hk : ∀ v, i.result = some v → (k v).Begins O t R) :
    (Action.resultOf i >>= k).Begins O t R :=
  read (Reads.resultOf i) fun v h => hk v (resultOf_ok h)

end Begins

end Action

/-- Defining the result of the instruction opens the event. -/
theorem opened_define {e : Event} {i : Instruction} {v : Value} {seen : Option Observed}
    (hdefines : e.defines = true) (hname : e.subject? = some name)
    (hi : t.instruction? name = some i) (hv : i.result = some v) (hseen : e.outcome? i = seen)
    (f : Frame) (fs : List Frame) (hframes : t.frames = f :: fs) :
    Event.Opened t e (t.defining f fs v seen) := by
  rw [← hseen]
  exact .defined hdefines hname hi hv hframes

/-- An event without a result only makes changes. -/
theorem does_of_changes {e : Event} {act : Action Unit} (hdefines : e.defines = false)
    (hcaught : e.isCaught = false) (h : ∀ t : Tracer, act.Changes t) : e.Does act :=
  fun t => .of_ensures (h t) (.same hdefines hcaught)

namespace Action

/-! ## Memory -/

theorem arrayLoad_does (result array index : Operand) :
    ∃ act, arrayLoad result array index = start result.name act ∧
      (Event.arrayLoad result array index).Does act := by
  refine ⟨_, rfl, fun t => .select fun i _ hi _ => .resultOf fun r hr => ?_⟩
  refine .read (Reads.resolve array) fun array _ => .read (Reads.resolve index) fun index _ => ?_
  refine (Begins.define (opened_define rfl rfl hi hr rfl)).andThen hi fun term _ hi hterm => ?_
  refine (Ensures.use array).andThen (hi.bound hterm) fun array _ hi harray => ?_
  refine (Ensures.use index).andThen (hi.bound harray) fun index _ hi hindex => ?_
  refine .lift fun element helement => .lift fun loaded hloaded => ?_
  have hready := (hi.bound hindex).composite (.arrayIndex helement) (by simp)
  exact .emit (hready.composite (Term.composes_of_load hloaded) (by simp)) (by simp)

theorem arrayStore_does (name : String) (array index stored : Operand) :
    ∃ act, arrayStore name array index stored = start name act ∧
      (Event.arrayStore name array index stored).Does act := by
  refine ⟨_, rfl, does_of_changes rfl rfl fun t => .select fun i _ hi => ?_⟩
  refine .read (Reads.resolve array) fun array _ => .read (Reads.resolve index) fun index _ => ?_
  refine .read (Reads.resolve stored) fun stored _ => ?_
  refine (Ensures.use array).andThen hi fun array _ hi harray => ?_
  refine (Ensures.use index).andThen (hi.bound harray) fun index _ hi hindex => ?_
  refine (Ensures.use stored).andThen (hi.bound hindex) fun stored _ hi hstored => ?_
  refine .lift fun element helement => .lift fun p hp => ?_
  have hready := (hi.bound hstored).composite (.arrayIndex helement) (by simp)
  exact .emit hready (by simp [Predicate.Context.operands_of_store hp])

theorem fieldLoad_does (result : Operand) (spelling : FieldSpelling) (owner : Option String)
    (observed : Observed) :
    ∃ act, fieldLoad result spelling owner observed = start result.name act ∧
      (Event.fieldLoad result spelling owner observed).Does act := by
  refine ⟨_, rfl, fun t => .select fun i _ hi _ => .resultOf fun r hr => ?_⟩
  refine .read Reads.get fun _ _ => .lift fun field _ => ?_
  refine .read (Reads.value? owner) fun owner _ => ?_
  refine (Begins.define (opened_define rfl rfl hi hr rfl)).andThen hi fun term _ hi hterm => ?_
  refine (Ensures.ownerOf field observed owner).andThen (hi.bound hterm) fun owner _ hi howner => ?_
  refine .lift fun reference hreference => .lift fun loaded hloaded => ?_
  have hready := (hi.add howner).composite (.field hreference) (by simp)
  exact .emit (hready.composite (.fieldLoad hloaded) (by simp)) (by simp)

theorem fieldStore_does (name : String) (spelling : FieldSpelling) (stored : Operand)
    (owner : Option String) (observed : Observed) :
    ∃ act, fieldStore name spelling stored owner observed = start name act ∧
      (Event.fieldStore name spelling stored owner observed).Does act := by
  refine ⟨_, rfl, does_of_changes rfl rfl fun t => .select fun i _ hi => ?_⟩
  refine .get <| .lift fun field _ => .read (Reads.resolve stored) fun stored _ => ?_
  refine .read (Reads.value? owner) fun owner _ => ?_
  refine (Ensures.use stored).andThen hi fun stored _ hi hstored => ?_
  refine (Ensures.ownerOf field observed owner).andThen (hi.bound hstored)
    fun owner _ hi howner => ?_
  refine .lift fun reference hreference => .lift fun p hp => ?_
  have hready := (hi.add howner).composite (.field hreference) (by simp)
  exact .emit hready (by simp [Predicate.Context.operands_of_store hp])

theorem newArray_does (result : Operand) (dimensions : List String) (observed : List Observed) :
    ∃ act, newArray result dimensions observed = start result.name act ∧
      (Event.newArray result dimensions observed).Does act := by
  refine ⟨_, rfl, fun t => .select fun i _ hi _ => .resultOf fun r hr => ?_⟩
  refine .read (Reads.values dimensions) fun dimensions _ => ?_
  refine (Begins.define (opened_define rfl rfl hi hr rfl)).andThen hi fun term _ hi hterm => ?_
  refine (Ensures.allocated r.ty hterm).andThen (hi.bound hterm) fun _ _ hi _ => ?_
  refine (Ensures.useAll dimensions observed).andThen hi fun dimensions _ hi hdimensions => ?_
  exact .emit (hi.boundAll hdimensions) (by simp)

theorem newObject_does (result : String) :
    ∃ act, newObject result = start result act ∧ (Event.new result).Does act := by
  refine ⟨_, rfl, fun t => .select fun i _ hi _ => .resultOf fun r hr => ?_⟩
  refine (Begins.defineUnseen (opened_define rfl rfl hi hr rfl)).andThen hi
    fun term _ hi hterm => ?_
  exact (Ensures.allocated r.ty hterm).andThen (hi.bound hterm) fun _ _ hi _ =>
    .emit hi (by simp)

/-! ## Operators -/

theorem binary_does (result left right : Operand) :
    ∃ act, binary result left right = start result.name act ∧
      (Event.binary result left right).Does act := by
  refine ⟨_, rfl, fun t => .select fun i op hi _ => .resultOf fun r hr => ?_⟩
  refine .read (Reads.resolve left) fun left _ => .read (Reads.resolve right) fun right _ => ?_
  refine (Begins.define (opened_define rfl rfl hi hr rfl)).andThen hi fun term _ hi hterm => ?_
  refine (Ensures.use left).andThen (hi.bound hterm) fun left _ hi hleft => ?_
  refine (Ensures.use right).andThen (hi.bound hleft) fun right _ hi hright => ?_
  refine .get <| .lift fun outcome houtcome => ?_
  have hready := (hi.bound hright).composite (Term.composes_of_binary houtcome) (by simp)
  exact .emit hready (by simp)

theorem unary_does (result operand : Operand) :
    ∃ act, unary result operand = start result.name act ∧
      (Event.unary result operand).Does act := by
  refine ⟨_, rfl, fun t => .select fun i op hi _ => .resultOf fun r hr => ?_⟩
  refine .read (Reads.resolve operand) fun operand _ => ?_
  refine (Begins.define (opened_define rfl rfl hi hr rfl)).andThen hi fun term _ hi hterm => ?_
  refine (Ensures.use operand).andThen (hi.bound hterm) fun operand _ hi hoperand => ?_
  refine .lift fun outcome houtcome => ?_
  have hready := (hi.bound hoperand).composite (Term.composes_of_unary houtcome) (by simp)
  exact .emit hready (by simp)

/-- Only an instruction that compares is selected. -/
private theorem kind_of_compare {kind : InstKind} {op : CompareOp}
    (h : (match kind with | .compare op => some op | _ => none) = some op) :
    kind = .compare op := by
  split at h
  · cases h; rfl
  · cases h

theorem compare_does (result : String) (left right : Operand) :
    ∃ act, compare result left right = start result act ∧
      (Event.compare result left right).Does act := by
  refine ⟨_, rfl, fun t => .select fun i op hi hop => .resultOf fun r hr => ?_⟩
  refine .read (Reads.resolve left) fun l hl => .read (Reads.resolve right) fun r' hr' => ?_
  have hrest (term : Term) (u : Tracer) (left right : Sighting) (hi : u.Ready i [term]) : (do
      let left ← Action.use left
      let right ← Action.use right
      emit i (i.effect.equality term (← Term.compare op left right)) : Action Unit).Changes u := by
    refine (Ensures.use left).andThen hi fun left _ hi hleft => ?_
    refine (Ensures.use right).andThen (hi.bound hleft) fun right _ hi hright => ?_
    refine .lift fun outcome houtcome => ?_
    have hready := (hi.bound hright).composite (.compare houtcome) (by simp)
    exact .emit hready (by simp)
  have hseen : (Event.compare result left right).outcome? i =
      (Observed.compare op left.observed right.observed).toOption := by
    show (match i.kind with
      | .compare op => (Observed.compare op left.observed right.observed).toOption
      | _ => none) = _
    rw [kind_of_compare hop]
  rw [← resolve_ok hl, ← resolve_ok hr'] at hseen
  cases hcompare : Observed.compare op l.observed r'.observed with
  | ok outcome =>
    rw [hcompare] at hseen
    exact (Begins.define (opened_define rfl rfl hi hr hseen)).andThen hi
      fun term u hi hterm => hrest term u _ _ (hi.bound hterm)
  | error e =>
    rw [hcompare] at hseen
    exact (Begins.defineUnseen (opened_define rfl rfl hi hr hseen)).andThen hi
      fun term u hi hterm => hrest term u _ _ (hi.bound hterm)

theorem cast_does (result operand : Operand) :
    ∃ act, cast result operand = start result.name act ∧ (Event.cast result operand).Does act := by
  refine ⟨_, rfl, fun t => .select fun i _ hi _ => .resultOf fun r hr => ?_⟩
  refine .read (Reads.resolve operand) fun operand _ => ?_
  refine (Begins.define (opened_define rfl rfl hi hr rfl)).andThen hi fun term _ hi hterm => ?_
  refine (Ensures.use operand).andThen (hi.bound hterm) fun operand _ hi hoperand => ?_
  refine .lift fun outcome houtcome => ?_
  have hready := (hi.bound hoperand).composite (.cast houtcome) (by simp)
  exact .emit hready (by simp)

theorem instanceOf_does (result operand : Operand) :
    ∃ act, instanceOf result operand = start result.name act ∧
      (Event.instanceOf result operand).Does act := by
  refine ⟨_, rfl, fun t => .select fun i checked hi _ => .resultOf fun r hr => ?_⟩
  refine .read (Reads.resolve operand) fun operand _ => ?_
  refine (Begins.define (opened_define rfl rfl hi hr rfl)).andThen hi fun term _ hi hterm => ?_
  refine (Ensures.use operand).andThen (hi.bound hterm) fun operand _ hi hoperand => ?_
  refine .lift fun outcome houtcome => ?_
  have hready := (hi.bound hoperand).composite (.instanceOf houtcome) (by simp)
  exact .emit hready (by simp)

/-- Only an instruction that makes a lambda is selected. -/
theorem kind_of_invokeDynamic {kind : InstKind} {base : LambdaBase}
    (h : (match kind with | .invokeDynamic base => some base | _ => none) = some base) :
    kind = .invokeDynamic base := by
  split at h
  · cases h; rfl
  · cases h

theorem invokeDynamic_does (result : Operand) (operands : List String)
    (observed : List Observed) :
    ∃ act, invokeDynamic result operands observed = start result.name act ∧
      (Event.invokeDynamic result operands observed).Does act := by
  refine ⟨_, rfl, fun t => .select fun i base hi hbase => .resultOf fun r hr => ?_⟩
  refine .read (Reads.values operands) fun operands _ => ?_
  refine (Begins.define (opened_define rfl rfl hi hr rfl)).andThen hi fun term _ hi hterm => ?_
  refine (Ensures.forM (fun _ _ => (Ensures.use _).bind fun _ _ _ _ => .pure trivial) _).andThen
    (hi.bound hterm) fun _ _ hi _ => ?_
  split
  · exact .pure trivial
  · next body hbody =>
    refine .lift fun lambda hlambda => ?_
    have hkind := kind_of_invokeDynamic hbase
    exact .emit (hi.add (.lambda hi.contains hkind hbody hlambda)) (by simp)

/-! ## Control flow -/

theorem branch_does (name condition : String) :
    ∃ act, branch name condition = start name act ∧ (Event.branch name condition).Does act := by
  refine ⟨_, rfl, does_of_changes rfl rfl fun t => .select fun i _ hi => ?_⟩
  refine .read (Reads.value condition) fun condition _ => ?_
  refine (Ensures.termOf condition).andThen hi fun term u hi hterm => .get ?_
  split
  · next taken htaken =>
    have hready := (hi.bound hterm).add (.constant (.bool taken))
    refine .decide hready (by simp [Term.bool]) fun x b hx => ?_
    cases hx
    exact Description.eq_bool_of_bind htaken
  · exact .throw _

theorem jump_does (name : String) :
    ∃ act, jump name = start name act ∧ (Event.jump name).Does act :=
  ⟨_, rfl, does_of_changes rfl rfl fun _ => .select fun i _ _ =>
    (Ensures.leaveBlock i).bind fun _ _ _ _ => .trace i⟩

theorem switch_does (name : String) (key : Operand) :
    ∃ act, switch name key = start name act ∧ (Event.switch name key).Does act := by
  refine ⟨_, rfl, does_of_changes rfl rfl fun t => .select fun i keys hi => ?_⟩
  refine .read (Reads.resolve key) fun key _ => ?_
  refine (Ensures.use key).andThen hi fun term _ hi hterm => .lift fun n _ => ?_
  have hready := (hi.bound hterm).add (.constant (.int n))
  -- The key is a number, so no truth value is decided.
  split
  · exact .decide hready (by simp [Term.int]) nofun
  · have hkeys : keys.map Term.int = (keys.map Constant.int).map Term.constant := by
      rw [List.map_map]
      rfl
    exact .decide (hready.constants (keys.map .int)) (by simp [hkeys]) nofun

theorem tableSwitch_does (name : String) (key : Operand) :
    ∃ act, tableSwitch name key = start name act ∧ (Event.tableSwitch name key).Does act := by
  refine ⟨_, rfl, does_of_changes rfl rfl fun t => .select fun i _ hi => ?_⟩
  refine .read (Reads.resolve key) fun key _ => ?_
  refine (Ensures.use key).andThen hi fun term _ hi hterm => .lift fun n _ => ?_
  have hready := (hi.bound hterm).add (.constant (.int n))
  exact .decide hready (by simp [Term.int]) nofun

theorem phi_does (result : Operand) :
    ∃ act, phi result = start result.name act ∧ (Event.phi result).Does act := by
  refine ⟨_, rfl, fun t => .select fun i incoming hi _ => .read Reads.frame fun f _ => ?_⟩
  dsimp only
  split
  · exact .throw _
  · refine .resultOf fun r hr => ?_
    refine (Begins.define (opened_define rfl rfl hi hr rfl)).andThen hi fun term _ hi hterm => ?_
    exact (Ensures.useUnseen _).andThen (hi.bound hterm) fun source _ hi hsource =>
      .emit (hi.bound hsource) (by simp)

/-! ## Exceptions and monitors -/

theorem throwing_does (name : String) (exception : Operand) :
    ∃ act, throwing name exception = start name act ∧ (Event.throwing name exception).Does act := by
  refine ⟨_, rfl, does_of_changes rfl rfl fun t => .select fun i _ hi => ?_⟩
  refine .read (Reads.resolve exception) fun exception _ => ?_
  refine (Ensures.use exception).andThen hi fun term _ hi hterm => ?_
  have hthrown : Change _ _ := .thrown hterm
  exact .change hthrown (.emit ((hi.bound hterm).changed (.single hthrown)) (by simp))

theorem enterMonitor_does (name : String) (operand : Operand) :
    ∃ act, enterMonitor name operand = start name act ∧
      (Event.enterMonitor name operand).Does act := by
  refine ⟨_, rfl, does_of_changes rfl rfl fun t => .select fun i _ hi => ?_⟩
  refine .read (Reads.resolve operand) fun operand _ => ?_
  exact (Ensures.use operand).andThen hi fun term _ hi hterm =>
    .emit (hi.bound hterm) (by simp)

theorem exitMonitor_does (name : String) (operand : Operand) :
    ∃ act, exitMonitor name operand = start name act ∧
      (Event.exitMonitor name operand).Does act := by
  refine ⟨_, rfl, does_of_changes rfl rfl fun t => .select fun i _ hi => ?_⟩
  refine .read (Reads.resolve operand) fun operand _ => ?_
  exact (Ensures.use operand).andThen hi fun term _ hi hterm =>
    .emit (hi.bound hterm) (by simp)

/-- An exception that is caught is bound to its value, and recorded. -/
theorem caughtTerm_run {f : Frame} {fs : List Frame} (v : Value) (o : Observed)
    (k : Term → Action α) (h : t.frames = f :: fs) :
    (do let x ← caughtTerm v; note x ⟨v, o⟩; k x : Action α) t =
      k (t.thrown.getD (t.fresh v)) (t.catching f fs v o) := by
  rw [bind_apply, caughtTerm, get_bind]
  unfold catching
  cases hthrown : t.thrown with
  | none =>
    dsimp only
    rw [bindFresh_run v h]
    dsimp only
    rw [bind_apply, note_run _ ⟨v, o⟩ (binding_frames t f fs v)]
    rfl
  | some x =>
    dsimp only
    let s : Tracer := { t with thrown := none }
    let u : Tracer := { s with frames := { f with values := f.values.insert v x } :: fs }
    have hs : s.frames = f :: fs := h
    have hu : u.frames = { f with values := f.values.insert v x } :: fs := rfl
    rw [modify_bind, bind_apply, assign, modifyFrame_cons _ hs]
    show (note x ⟨v, o⟩ >>= fun _ => k x) u = _
    rw [bind_apply, note_run _ ⟨v, o⟩ hu]
    rfl

theorem catching_binds (t : Tracer) (f : Frame) (fs : List Frame) (v : Value) (o : Observed) :
    (t.catching f fs v o).Binds v (t.thrown.getD (t.fresh v)) := by
  unfold catching
  cases t.thrown with
  | none => exact defining_binds t f fs v (some o)
  | some x => exact ⟨_, _, rfl, Table.get?_insert_self _ _ _⟩

/-- A caught exception unwinds the frames. If it counts then, it is bound first. -/
theorem caught_does {exception : Operand} {type : Ty} (h : exception.observed.type? = some type) :
    ∃ act : Action Unit, (Event.caught exception).Does act ∧
      caught exception = (do flush; unwind type; if ← isCollecting then act) := by
  -- The action is read off the definition, so the equation comes first.
  refine ⟨?act, ?does, ?eq⟩
  case eq =>
    unfold caught
    rw [h]
  case does =>
    refine fun t => .select fun i _ hi _ => .resultOf fun r hr => ?_
    obtain ⟨f, fs, hframes⟩ := frames_of_instruction? hi
    have hopened : Event.Opened t (.caught exception) _ := .caught hi hr hframes
    exact .of_run (caughtTerm_run r exception.observed _ hframes) hopened
      (.emit (.bound (.start (opened_contains hopened (contains_of_instruction? hi)))
        (catching_binds t f fs r exception.observed)) (by simp))

/-! ## Guards -/

theorem guardNull_does (name : String) (checked : Operand) :
    ∃ act, guardNull name checked = start name act ∧ (Event.guardNull name checked).Does act := by
  refine ⟨_, rfl, does_of_changes rfl rfl fun t => .anyInstruction fun i hi => ?_⟩
  refine .read (Reads.value checked.name) fun v _ => ?_
  refine (Ensures.termOf v).andThen hi fun term _ hi hterm => .get ?_
  split
  · exact .pure trivial
  · have hmemo : Change _ _ := .nonNull hterm
    refine .change hmemo (.lift fun definition hdefinition => ?_)
    have hready := (hi.bound hterm).add (.constant .null)
    have hready := hready.composite (.compare hdefinition) (by simp [Term.null])
    exact .guarded _ _ (hready.changed (.single hmemo)) (by simp) (by decide)

theorem guardType_does (name : String) (checked : Operand) :
    ∃ act, guardType name checked = start name act ∧ (Event.guardType name checked).Does act := by
  refine ⟨_, rfl, does_of_changes rfl rfl fun t => ?_⟩
  split
  · exact .pure trivial
  · refine .anyInstruction fun i hi => ?_
    refine .read (Reads.value checked.name) fun v _ => ?_
    refine (Ensures.termOf v).andThen hi fun term _ hi hterm => .get ?_
    split
    · exact .pure trivial
    · exact .guardInstance _ _ hi (by decide) hterm

theorem guardExpectedType_does (name : String) (checked : Operand) {ty : String} {expected : Ty}
    (h : Ty.parse ty = .ok expected) :
    ∃ act, guardExpectedType name checked ty = start name act ∧
      (Event.guardExpectedType name checked ty).Does act := by
  refine ⟨_, funext fun t => lift_bind_of_ok h _ t, does_of_changes rfl rfl fun t => ?_⟩
  refine .anyInstruction fun i hi => ?_
  refine .read (Reads.value checked.name) fun v _ => ?_
  dsimp only
  split
  · exact .pure trivial
  · refine (Ensures.termOf v).andThen hi fun term _ hi hterm => .get ?_
    split
    · exact .pure trivial
    · exact .guardInstance _ _ hi (by decide) hterm

theorem guardIndex_does (name : String) (array index : Operand) :
    ∃ act, guardIndex name array index = start name act ∧
      (Event.guardIndex name array index).Does act := by
  refine ⟨_, rfl, does_of_changes rfl rfl fun t => ?_⟩
  split
  · exact .pure trivial
  · refine .anyInstruction fun i hi => ?_
    refine .read (Reads.value array.name) fun a _ => .read (Reads.value index.name) fun k _ => ?_
    refine (Ensures.termOf a).andThen hi fun x _ hi hx => ?_
    refine (Ensures.termOf k).bind fun y _ hu hy => ?_
    have hi := (hi.bound hx).changed hu
    split
    · exact .pure trivial
    · refine .get ?_
      dsimp only
      split
      · exact .pure trivial
      · have hmemo : Change _ _ := .indexed (hu.binds hx) hy
        refine .change hmemo (.lift fun size hsize => .lift fun definition hdefinition => ?_)
        have hready := (hi.bound hy).composite (.arrayLength hsize) (by simp)
        have hready := hready.composite (.compare hdefinition) (by simp)
        exact .guarded _ _ (hready.changed (.single hmemo)) (by simp) (by decide)

theorem guardLength_does (name : String) (length : Operand) :
    ∃ act, guardLength name length = start name act ∧
      (Event.guardLength name length).Does act := by
  refine ⟨_, rfl, does_of_changes rfl rfl fun t => .anyInstruction fun i hi => ?_⟩
  refine .read (Reads.value length.name) fun v _ => ?_
  dsimp only
  split
  · exact .pure trivial
  · refine (Ensures.termOf v).andThen hi fun term _ hi hterm => .get ?_
    split
    · exact .pure trivial
    · split
      · exact .pure trivial
      · have hmemo : Change _ _ := .sized hterm
        have hbounds : Check.bounds ≠ .condition := by decide
        refine .change hmemo (.lift fun lower hlower => ?_)
        have hready := ((hi.bound hterm).add (.constant (.int 0))).composite (.compare hlower)
          (by simp [Term.int])
        have hready := hready.changed (.single hmemo)
        refine .andThen (.guarded _ _ hready (by simp) hbounds) hready fun _ _ hi _ => ?_
        refine .lift fun upper hupper => ?_
        have hready := (hi.add (Expresses.constant _)).composite (.compare hupper)
          (List.cons_subset.mpr ⟨by simp, List.cons_subset.mpr ⟨List.mem_cons_self, by simp⟩⟩)
        exact .guarded _ _ hready (by simp) hbounds

end Action

/-- An event of an instruction that neither calls nor returns opens and goes on with changes. -/
theorem handle_does {e : Event} (hname : e.subject? = some name) (hcaught : e.isCaught = false)
    (hcall : e.isCall = false) (hret : e.isRet = false) (hread : e.isReadable = true) :
    ∃ act, handle e = Action.start name act ∧ e.Does act := by
  cases e with
  | methodEnter => cases hname
  | caught => cases hcaught
  | call => cases hcall
  | ret => cases hret
  | guardExpectedType name checked ty =>
    cases hname
    cases hty : Ty.parse ty with
    | ok expected => exact Action.guardExpectedType_does name checked hty
    | error e => simp [Event.isReadable, hty, Except.isOk, Except.toBool] at hread
  | arrayLoad => cases hname; exact Action.arrayLoad_does _ _ _
  | arrayStore => cases hname; exact Action.arrayStore_does _ _ _ _
  | binary => cases hname; exact Action.binary_does _ _ _
  | branch => cases hname; exact Action.branch_does _ _
  | cast => cases hname; exact Action.cast_does _ _
  | compare => cases hname; exact Action.compare_does _ _ _
  | enterMonitor => cases hname; exact Action.enterMonitor_does _ _
  | exitMonitor => cases hname; exact Action.exitMonitor_does _ _
  | fieldLoad => cases hname; exact Action.fieldLoad_does _ _ _ _
  | fieldStore => cases hname; exact Action.fieldStore_does _ _ _ _ _
  | instanceOf => cases hname; exact Action.instanceOf_does _ _
  | invokeDynamic => cases hname; exact Action.invokeDynamic_does _ _ _
  | jump => cases hname; exact Action.jump_does _
  | newArray => cases hname; exact Action.newArray_does _ _ _
  | new => cases hname; exact Action.newObject_does _
  | phi => cases hname; exact Action.phi_does _
  | switch => cases hname; exact Action.switch_does _ _
  | tableSwitch => cases hname; exact Action.tableSwitch_does _ _
  | throwing => cases hname; exact Action.throwing_does _ _
  | unary => cases hname; exact Action.unary_does _ _
  | guardNull => cases hname; exact Action.guardNull_does _ _
  | guardType => cases hname; exact Action.guardType_does _ _
  | guardIndex => cases hname; exact Action.guardIndex_does _ _ _
  | guardLength => cases hname; exact Action.guardLength_does _ _

/-- What opens and goes on with changes leaves the position alone. -/
theorem stays_of_does {e : Event} {act : Action Unit} (h : e.Does act) : act.Stays := fun t => by
  have hbegins := h t
  unfold Action.Begins at hbegins
  cases hr : act t with
  | ok a u =>
    rw [hr] at hbegins
    obtain ⟨⟨w, hw, hu⟩, -⟩ := hbegins
    rw [Action.after_of_ok hr, hu.position, opened_position hw]
  | error cause u =>
    rw [hr] at hbegins
    obtain ⟨w, rfl | hw, hu⟩ := hbegins
    · rw [Action.after_of_error hr, hu.position]
    · rw [Action.after_of_error hr, hu.position, opened_position hw]

/-- The event of an instruction is handled by `start`, with an action of its effect. -/
theorem handle_eq_start {e : Event} (hname : e.subject? = some name) (hcaught : e.isCaught = false)
    (hread : e.isReadable = true) :
    ∃ act, handle e = Action.start name act ∧ e.Effect act := by
  cases e with
  | call => cases hname; exact Action.call_effect _ _ _ _ _ _
  | ret => cases hname; exact Action.ret_effect _ _ _
  | _ =>
    obtain ⟨act, hstart, hdoes⟩ := handle_does hname hcaught rfl rfl hread
    exact ⟨act, hstart, stays_of_does hdoes⟩

/-! ## Calls -/

/-- The call of a method is what the event of an instruction says: the names of the event stand for
the terms of the call in the active frame, and there is one argument for each parameter. -/
structure Made (t : Tracer) (name : String) (spelling : MethodSpelling)
    (result callee : Option String) (arguments : List String) (call : PendingCall) : Prop where
  instruction : t.instruction? name = some call.instruction
  method : t.program.method spelling.owner spelling.name spelling.args spelling.ret =
    .ok call.method
  receiver : Option.Rel (fun n (r : Value × Term) => t.value? n = some r.1 ∧ t.Binds r.1 r.2)
    result call.receiver
  callee : Option.Rel t.Means callee call.callee
  arguments : List.Forall₂ t.Means arguments call.arguments
  arity : call.arguments.length = call.method.signature.args.length

/-- The tracer `w` is `t`, or `t` after the result of a call was bound. -/
def Receiving (t w : Tracer) : Prop :=
  w = t ∨ ∃ v f fs, t.frames = f :: fs ∧ w = t.defining f fs v none

/-- The tracer after a call was put down. -/
def calling (t : Tracer) (call : PendingCall) (next : Instruction) : Tracer :=
  { t with callTrace := ⟨call.instruction, next⟩ :: t.callTrace, pending := some call }

private theorem value?_eq (t : Tracer) (name : String) :
    t.value? name = (do
      let m ← t.position.stack.head?
      let b ← (t.position.program.body m).toOption
      (b.value name).toOption) := by
  unfold value? position stack
  cases t.frames <;> rfl

/-- What names stand for depends on the position only. -/
theorem value?_of_position (h : u.position = t.position) (name : String) :
    u.value? name = t.value? name := by
  rw [value?_eq, value?_eq, h]

theorem instruction?_of_position (h : u.position = t.position) (name : String) :
    u.instruction? name = t.instruction? name := by
  rw [instruction?_eq, instruction?_eq]
  exact congrArg (fun o : Position => o.program.named? o.stack name) h

theorem Receiving.position (h : t.Receiving w) : w.position = t.position := by
  rcases h with rfl | ⟨v, f, fs, hframes, rfl⟩
  · rfl
  · exact Action.defining_position v none hframes

namespace Action

/-- The part of a call before it is put down. -/
def preparing (name : String) (spelling : MethodSpelling) (result callee : Option String)
    (arguments : List String) (observed : List Observed) :
    Action (PendingCall × Instruction) := do
  let (i, _) ← select name "call" fun | .call => some () | _ => none
  let next ← nextOf i
  let m ← (← get).program.method spelling.owner spelling.name spelling.args spelling.ret
  let result ← value? result
  let callee ← value? callee
  let arguments ← values arguments
  let received ← forValue? defineUnseen result
  let callee ← forValue? useUnseen callee
  let arguments ← useAll arguments observed
  let term ← Term.call (callee.getD (Term.staticRef m.owner)) m arguments
  let predicate ← i.effect.call received term
  pure ({ instruction := i, method := m, receiver := result.bind fun v => received.map (v, ·)
          callee, arguments, predicate }, next)

theorem call_eq (name : String) (spelling : MethodSpelling) (result callee : Option String)
    (arguments : List String) (observed : List Observed) :
    call name spelling result callee arguments observed = start name (do
      let (c, next) ← preparing name spelling result callee arguments observed
      modify fun t => t.calling c next
      trace c.instruction) := by
  unfold call preparing
  simp only [bind_assoc, pure_bind]
  rfl

private theorem arity_of_call {owner x : Term} {m : Method} {xs : List Term}
    (h : Term.call owner m xs = .ok x) : xs.length = m.signature.args.length := by
  unfold Term.call at h
  cases hp : Term.expectPointer "Call owner" owner with
  | error e => rw [hp] at h; cases h
  | ok _ =>
    rw [hp] at h
    by_cases hlength : xs.length = m.signature.args.length
    · exact hlength
    · simp [hlength, bind, Except.bind, typeFault] at h

/-- Names that stand for values stand for the terms of the values. -/
private theorem means_all (hposition : u.position = t.position) {names : List String}
    {vs : List Value} {xs : List Term}
    (hvs : List.Forall₂ (fun n v => t.value? n = some v) names vs)
    (hxs : List.Forall₂ u.Binds vs xs) : List.Forall₂ u.Means names xs := by
  induction hvs generalizing xs with
  | nil => cases hxs; exact .nil
  | cons hv _ ih =>
    cases hxs with
    | cons hx hrest => exact .cons ⟨_, (value?_of_position hposition _).trans hv, hx⟩ (ih hrest)

/-- A call is about terms of the caller. -/
theorem call_expressed {m : Method} {received callee : Option Term} {args : List Term}
    {term : Term} {p : Predicate} {c : Predicate.Context} {r v : Option Value} {vs : List Value}
    (hterm : Term.call (callee.getD (Term.staticRef m.owner)) m args = .ok term)
    (hp : c.call received term = .ok p) (hreceived : Option.Rel t.Binds r received)
    (hcallee : Option.Rel t.Binds v callee) (hargs : List.Forall₂ t.Binds vs args) :
    ∀ x ∈ p.operands, t.Expresses x := by
  have howner : t.Expresses (callee.getD (Term.staticRef m.owner)) := by
    cases hcallee with
    | some h => exact .bound h
    | none => exact .staticRef _
  have harguments (x : Term) (hx : x ∈ args) : t.Expresses x := by
    obtain ⟨w, -, hw⟩ := Term.exists_of_forall₂_right hargs hx
    exact .bound hw
  rw [Predicate.Context.operands_of_call hp]
  intro x hx
  rcases List.mem_append.mp hx with hx | hx
  · cases hreceived with
    | some h =>
      obtain rfl := List.mem_singleton.mp hx
      exact .bound h
    | none => cases hx
  · obtain rfl := List.mem_singleton.mp hx
    exact .composite (List.forall_mem_cons.mpr ⟨howner, harguments⟩) (.call hterm)

theorem preparing_begins (name : String) (spelling : MethodSpelling)
    (result callee : Option String) (arguments : List String) (observed : List Observed)
    (t : Tracer) :
    (preparing name spelling result callee arguments observed).Begins t.Receiving t
      fun c u => u.Made name spelling result callee arguments c.1 ∧
        ∀ x ∈ c.1.predicate.operands, u.Expresses x := by
  refine .select fun i _ hi _ => .read (Reads.nextOf i) fun next _ => ?_
  refine .read Reads.get fun _ hget => .lift fun m hm => ?_
  cases hget
  refine .read (Reads.value? result) fun r hr => .read (Reads.value? callee) fun c hc => ?_
  refine .read (Reads.values arguments) fun vs hvs => ?_
  have hreceive : (forValue? defineUnseen r).Begins t.Receiving t
      fun x u => Option.Rel u.Binds r x := by
    cases r with
    | none => exact .of_ensures (.pure .none) (.inl rfl)
    | some v =>
      refine (Begins.defineUnseen fun f fs hf => ?_).bind fun x u _ hx => .pure (.some hx)
      exact .inr ⟨v, f, fs, hf, rfl⟩
  refine hreceive.bind fun received u₁ ⟨w, hw, h₁⟩ hreceived => ?_
  refine (Ensures.forValue? Ensures.useUnseen c).bind fun callee u₂ h₂ hcallee => ?_
  refine (Ensures.useAll vs observed).bind fun args u₃ h₃ hargs => ?_
  refine .lift fun term hterm => .lift fun predicate hpredicate => .pure ⟨?_, ?_⟩
  case refine_2 =>
    exact call_expressed hterm hpredicate ((h₂.trans h₃).relBinds hreceived) (h₃.relBinds hcallee)
      hargs
  have hposition : u₃.position = t.position :=
    ((h₁.trans h₂).trans h₃).position.trans hw.position
  have hvalue (n : String) : u₃.value? n = t.value? n := value?_of_position hposition n
  refine ⟨?_, ?_, ?_, ?_, means_all hposition (values_ok hvs) hargs, arity_of_call hterm⟩
  · exact (instruction?_of_position hposition name).trans hi
  · rw [← hm]
    exact congrArg (fun o : Position => o.program.method _ _ _ _) hposition
  · cases value?_ok hr with
    | none => exact .none
    | some hv =>
      cases hreceived with
      | some hx => exact .some ⟨(hvalue _).trans hv, (h₂.trans h₃).binds hx⟩
  · cases value?_ok hc with
    | none => cases hcallee; exact .none
    | some hv =>
      cases hcallee with
      | some hx => exact .some ⟨_, (hvalue _).trans hv, h₃.binds hx⟩

/-- The event of a call makes changes, or it makes the call and goes on with changes. -/
theorem call_cases (name : String) (spelling : MethodSpelling) (result callee : Option String)
    (arguments : List String) (observed : List Observed) :
    ∃ act, call name spelling result callee arguments observed = start name act ∧
      ∀ t : Tracer, ∃ w, t.Receiving w ∧
        ((w.Changed (act.after t) ∧ act.Fails t) ∨
          ∃ u c next, w.Changed u ∧ u.Made name spelling result callee arguments c ∧
            (u.calling c next).Changed (act.after t) ∧
            ∀ x ∈ c.predicate.operands, u.Expresses x) := by
  refine ⟨_, call_eq name spelling result callee arguments observed, fun t => ?_⟩
  have hprepare := preparing_begins name spelling result callee arguments observed t
  unfold Begins at hprepare
  cases h : preparing name spelling result callee arguments observed t with
  | error cause u =>
    rw [h] at hprepare
    obtain ⟨w, hw, hu⟩ := hprepare
    refine ⟨w, hw.elim .inl id, .inl ⟨?_, cause, u, ?_⟩⟩
    · rw [after_bind_of_error h]
      exact hu
    · rw [bind_apply, h]
  | ok c u =>
    rw [h] at hprepare
    obtain ⟨⟨w, hw, hu⟩, hmade, hx⟩ := hprepare
    refine ⟨w, hw, .inr ⟨u, c.1, c.2, hu, hmade, ?_, hx⟩⟩
    rw [after_bind_of_ok h]
    exact (Ensures.trace c.1.instruction).after

end Action

/-! ## Returns -/

/-- The tracer after the active frame `f` returned a value, if any. What receives it is recorded as
a value of the caller. -/
def returned (t : Tracer) (i : Instruction) (f : Frame) (callers : List Frame) (v : Option Value)
    (o : Observed) : Tracer :=
  let u : Tracer :=
    { v.elim t (t.reading f callers) with frames := callers, trace := t.trace ++ [i] }
  match v, f.receiver with
  | some v, some (received, y) =>
    { u.noted ((callers.head?.map Frame.method).getD f.method) received y (some o) with
      clauses := t.clauses ++ [.state i (i.effect.equality y (t.term f v))] }
  | _, _ => u

namespace Action

theorem reading_eq (t : Tracer) (f : Frame) (fs : List Frame) (v : Value) :
    ∃ names frames, t.reading f fs v = { t with names, frames } := by
  unfold reading
  split
  · exact ⟨t.names, t.frames, rfl⟩
  · cases v <;> exact ⟨_, _, rfl⟩

theorem reading_frames {f : Frame} {fs : List Frame} (v : Value) (h : t.frames = f :: fs) :
    ∃ f', (t.reading f fs v).frames = f' :: fs ∧ f'.method = f.method ∧
      f'.receiver = f.receiver := by
  unfold reading
  split
  · exact ⟨f, h, rfl, rfl⟩
  · exact ⟨_, rfl, rfl, rfl⟩

/-- The event of a return fails with changes, or it removes the active frame. -/
theorem ret_cases (name : String) (result : Option String) (o : Observed) :
    ∃ act, ret name result o = start name act ∧ ∀ t : Tracer,
      (∃ cause u, act t = .error cause u ∧ t.Changed u) ∨
        ∃ i f callers v, t.instruction? name = some i ∧ t.frames = f :: callers ∧
          Option.Rel (fun n v => t.value? n = some v) result v ∧
          act t = .ok () (t.returned i f callers v o) := by
  refine ⟨_, rfl, fun t => ?_⟩
  rw [bind_apply]
  cases hselect : select name "return" _ t with
  | error cause u =>
    obtain rfl := (Reads.select _ _ _).error hselect
    exact .inl ⟨cause, u, rfl, .refl⟩
  | ok p u =>
    obtain rfl := (Reads.select _ _ _).ok hselect
    obtain ⟨hi, -⟩ := instruction?_of_select hselect
    obtain ⟨f, callers, hframes⟩ := frames_of_instruction? hi
    dsimp only
    rw [bind_apply]
    cases hvalue : value? result u with
    | error cause u' =>
      obtain rfl := (Reads.value? result).error hvalue
      exact .inl ⟨cause, u', rfl, .refl⟩
    | ok v u' =>
      obtain rfl := (Reads.value? result).ok hvalue
      refine .inr ⟨p.1, f, callers, v, hi, hframes, value?_ok hvalue, ?_⟩
      cases v with
      | none =>
        have hread : forValue? termOf none u' = .ok none u' := rfl
        dsimp only
        rw [bind_apply, hread]
        dsimp only
        rw [get_bind, hframes]
        rfl
      | some v =>
        have hread : forValue? termOf (some v) u' =
            .ok (some (u'.term f v)) (u'.reading f callers v) := by
          rw [forValue?, bind_apply, termOf_run v hframes]
          rfl
        obtain ⟨f', hf', hmethod, hreceiver⟩ := reading_frames v hframes
        obtain ⟨names, frames, heq⟩ := reading_eq u' f callers v
        dsimp only
        rw [bind_apply, hread]
        dsimp only
        rw [get_bind, hf']
        dsimp only
        rw [modify_bind, hmethod, hreceiver]
        unfold returned
        cases f.receiver with
        | none =>
          dsimp only [Option.elim]
          rw [heq]
          rfl
        | some r =>
          dsimp only [Option.elim]
          rw [heq]
          rfl

end Action

end Tracer

end Concolic
