import Concolic.Proofs.Predicate
import Concolic.Proofs.Term.Built
import Concolic.Proofs.Tracer.Position
import Mathlib.Data.List.Forall2
import Mathlib.Logic.Relation

/-!
# What an instruction adds

The handling of an instruction is made of small changes: a value gets a term, a term is recorded, a
check is remembered, a clause is added. This file lists them once, so that a law of all instructions
is a law of each small change.

* `Tracer.fresh t v`: the term that a value gets if it has none. `Tracer.defining t f fs v seen` is
  the tracer after the value got it and it was recorded (`define_run`, `defineUnseen_run`).
* `Tracer.Supports t c`: the clause is about an instruction of the program, and if it is a branch,
  it was decided as the recorded value of its condition says.
* `Tracer.Expresses t x`: the constructors make the term of terms of the active frame, constants and
  bodies of lambdas.
* `Tracer.Change t u`: the tracer `u` is `t` with one small addition. A change leaves the position
  alone (`Change.position`), keeps every term of the active frame bound (`Change.binds`) and every
  recorded value (`Change.concrete`), and adds no clause without support. A clause is about terms
  that are expressed.
* `Tracer.Changed t u`: `u` is `t` after finitely many changes.
* `Action.Ensures act t Q`: from `t` the action only makes changes, and ends in `Q` if it succeeds.
* `Action.Begins O act t Q`: the action first takes the tracer into `O` and goes on with changes.
-/

namespace Concolic

/-- What a tracer calls the term number `n` that it makes for a name. -/
def numbered (name : String) (n : Nat) : String := name ++ "_" ++ toString n

/-- The term that the predicate equates with a truth value, and the truth value. -/
def Predicate.decided? (p : Predicate) : Option (Term × Bool) :=
  match p.kind, p.operands with
  | .equality, [x, y] => y.bool?.map (x, ·)
  | _, _ => none

/-- The condition of a branch, and the truth value that it was decided by. -/
def PathClause.branch? (c : PathClause) : Option (Term × Bool) :=
  if c.check = .condition then c.predicate.decided? else none

theorem Description.eq_bool_of_bind {d : Option Description} {b : Bool}
    (h : d.bind Description.bool? = some b) : d = some (.bool b) := by
  obtain ⟨d, rfl, hb⟩ := Option.bind_eq_some_iff.mp h
  cases d with
  | bool b' => cases hb; rfl
  | _ => cases hb

/-- What a frame notes anew: the handlers, each with the bindings of the frame. -/
theorem Frame.catches_refreshed (f : Frame) (handlers : List Ty) :
    (f.refreshed handlers).catches = .ofList (handlers.map (·, f.values)) := by
  unfold refreshed Table.ofList
  rw [List.foldl_map]
  rfl

namespace Tracer

variable {t u w : Tracer}

/-- What a tracer is made with. -/
def setup (t : Tracer) : Program × Dispatch × Config := (t.program, t.dispatch, t.config)

/-- What no handling of an event changes. -/
def fixed (t : Tracer) : (Program × Dispatch × Config) × Bool := (t.setup, t.aborted)

/-- How many terms were made for a name. -/
def count (t : Tracer) (name : String) : Nat := (t.names.get? name).getD 0

/-- The term that a value gets if it has none. -/
def fresh (t : Tracer) : Value → Term
  | .receiver ty => Term.receiver ty
  | .argument index ty => Term.argument ty index
  | .constant c => Term.constant c
  | .result name ty => Term.value ty (numbered name (t.count name))

/-- The tracer after it has made the term of a value. -/
def issued (t : Tracer) : Value → Tracer
  | .result name _ => { t with names := t.names.insert name (t.count name + 1) }
  | _ => t

/-- The tracer after a value of the active frame `f` was bound to its fresh term. -/
def binding (t : Tracer) (f : Frame) (fs : List Frame) (v : Value) : Tracer :=
  { t.issued v with frames := { f with values := f.values.insert v (t.fresh v) } :: fs }

/-- The tracer after a term was recorded as a value of a method, with what was seen of it. -/
def noted (t : Tracer) (m : Method) (v : Value) (x : Term) (seen : Option Observed) : Tracer :=
  { t with
    origins := t.origins.insertNew x ⟨m, v⟩
    concrete := match seen with
      | some o => t.concrete.insertNew x (o.describeAs t.config.limits x.ty)
      | none => t.concrete }

/-- The tracer after a value of the active frame `f` was bound to its fresh term and recorded. -/
def defining (t : Tracer) (f : Frame) (fs : List Frame) (v : Value) (seen : Option Observed) :
    Tracer :=
  (t.binding f fs v).noted f.method v (t.fresh v) seen

/-- The term of a value of the active frame `f`. -/
def term (t : Tracer) (f : Frame) (v : Value) : Term := (f.values.get? v).getD (t.fresh v)

/-- The tracer after it was asked for the term of a value of the active frame `f`. -/
def reading (t : Tracer) (f : Frame) (fs : List Frame) (v : Value) : Tracer :=
  if (f.values.get? v).isSome then t else t.binding f fs v

/-- In the active frame the value is bound to the term. -/
def Binds (t : Tracer) (v : Value) (x : Term) : Prop :=
  ∃ f fs, t.frames = f :: fs ∧ f.values.get? v = some x

/-! ## Changes -/

/-- The tracer supports the clause: the program contains its instruction, and a branch was decided
by the truth value that is recorded for its condition. -/
structure Supports (t : Tracer) (c : Clause) : Prop where
  contains : t.program.Contains c.instruction
  decided : ∀ d x b, c = .path d → d.branch? = some (x, b) → t.concrete.get? x = some (.bool b)

/-- The constructors make the term of terms of the active frame, of constants, truth values and
static parts of classes, and of the bodies of lambdas in the program. -/
inductive Expresses (t : Tracer) : Term → Prop
  | bound {v : Value} {x : Term} (h : t.Binds v x) : Expresses t x
  | constant (c : Constant) : Expresses t (Term.constant c)
  | truth (name : String) : Expresses t (Term.value .bool name)
  | staticRef (className : String) : Expresses t (Term.staticRef className)
  | composite {subs : List Term} {x : Term} (hsubs : ∀ s ∈ subs, Expresses t s)
      (h : Term.Composes subs x) : Expresses t x
  | lambda {i : Instruction} {base : LambdaBase} {body x : Term} {ty : Ty}
      (hi : t.program.Contains i) (hkind : i.kind = .invokeDynamic base)
      (hbody : base.body = some body) (h : Action.lambdaOf ty base.method body = .ok x) :
      Expresses t x

/-- One small addition to what a tracer knows. Checks are remembered of terms that are bound. -/
inductive Change (t : Tracer) : Tracer → Prop
  | issue (v : Value) : Change t (t.issued v)
  | bind {f : Frame} {fs : List Frame} {v : Value} (hframes : t.frames = f :: fs)
      (hnone : f.values.get? v = none) : Change t (t.binding f fs v)
  | note {f : Frame} {fs : List Frame} {v : Value} {x : Term} (seen : Option Observed)
      (hframes : t.frames = f :: fs) (hx : f.values.get? v = some x) :
      Change t (t.noted f.method v x seen)
  | nonNull {v : Value} {x : Term} (hx : t.Binds v x) :
      Change t { t with nullChecked := x :: t.nullChecked }
  | typed {v : Value} {x : Term} (ty : Ty) (hx : t.Binds v x) :
      Change t { t with typeChecked := t.typeChecked.insert x ty }
  | indexed {v w : Value} {a k : Term} (ha : t.Binds v a) (hk : t.Binds w k) :
      Change t { t with indexChecked := (a, k) :: t.indexChecked }
  | sized {v : Value} {x : Term} (hx : t.Binds v x) :
      Change t { t with lengthChecked := x :: t.lengthChecked }
  | thrown {v : Value} {x : Term} (hx : t.Binds v x) : Change t { t with thrown := some x }
  | clause {c : Clause} (hc : t.Supports c) (hx : ∀ x ∈ c.predicate.operands, t.Expresses x) :
      Change t { t with clauses := t.clauses ++ [c] }
  | path (c : PathClause) : Change t { t with path := t.path ++ [c] }
  | trace (i : Instruction) : Change t { t with trace := t.trace ++ [i] }
  | handlers {f : Frame} {fs : List Frame} (handlers : List Ty) (hframes : t.frames = f :: fs) :
      Change t { t with frames := f.refreshed handlers :: fs }
  | leave {f : Frame} {fs : List Frame} (block : Nat) (hframes : t.frames = f :: fs) :
      Change t { t with frames := { f with previousBlock := block } :: fs }

/-- The tracer `u` is `t` after finitely many changes. -/
abbrev Changed : Tracer → Tracer → Prop := Relation.ReflTransGen Change

theorem Changed.trans (h : t.Changed u) (h' : u.Changed w) : t.Changed w :=
  Relation.ReflTransGen.trans h h'

/-- What every change keeps is kept by all changes together. -/
theorem Changed.keep {P : Tracer → Prop} (h : t.Changed u)
    (hstep : ∀ {t u : Tracer}, t.Change u → P t → P u) (ht : P t) : P u := by
  induction h with
  | refl => exact ht
  | tail _ hlast ih => exact hstep hlast ih

theorem issued_frames (t : Tracer) (v : Value) : (t.issued v).frames = t.frames := by
  cases v <;> rfl

theorem issued_position (t : Tracer) (v : Value) : (t.issued v).position = t.position := by
  cases v <;> rfl

theorem issued_concrete (t : Tracer) (v : Value) : (t.issued v).concrete = t.concrete := by
  cases v <;> rfl

theorem issued_fixed (t : Tracer) (v : Value) : (t.issued v).fixed = t.fixed := by
  cases v <;> rfl

theorem issued_setup (t : Tracer) (v : Value) : (t.issued v).setup = t.setup :=
  congrArg Prod.fst (issued_fixed t v)

theorem position_of_frames {fs : List Frame} (hframes : fs.map Frame.method = t.stack) :
    ({ t with frames := fs } : Tracer).position = t.position := by
  unfold position
  rw [← hframes]
  rfl

theorem binding_frames (t : Tracer) (f : Frame) (fs : List Frame) (v : Value) :
    (t.binding f fs v).frames = { f with values := f.values.insert v (t.fresh v) } :: fs := rfl

theorem binding_position {f : Frame} {fs : List Frame} (v : Value) (h : t.frames = f :: fs) :
    (t.binding f fs v).position = t.position := by
  rw [← issued_position t v]
  refine position_of_frames ?_
  rw [stack, issued_frames, h]
  rfl

theorem Change.position (h : t.Change u) : u.position = t.position := by
  cases h with
  | issue v => exact issued_position t v
  | bind hframes _ => exact binding_position _ hframes
  | handlers _ hframes | leave _ hframes =>
    refine position_of_frames ?_
    rw [stack, hframes]
    rfl
  | _ => rfl

theorem Changed.position (h : t.Changed u) : u.position = t.position :=
  h.keep (P := fun w => w.position = t.position) (fun hc hp => hc.position.trans hp) rfl

theorem Changed.pending (h : t.Changed u) : u.pending = t.pending :=
  congrArg Position.pending h.position

theorem Changed.program (h : t.Changed u) : u.program = t.program :=
  congrArg Position.program h.position

theorem Changed.instruction? (h : t.Changed u) (name : String) :
    u.instruction? name = t.instruction? name := by
  rw [instruction?_eq, instruction?_eq]
  exact congrArg (fun o : Position => o.program.named? o.stack name) h.position

theorem Change.fixed (h : t.Change u) : u.fixed = t.fixed := by
  cases h with
  | issue v | bind => exact issued_fixed t _
  | _ => rfl

theorem Changed.fixed (h : t.Changed u) : u.fixed = t.fixed :=
  h.keep (P := fun w => w.fixed = t.fixed) (fun hc hp => hc.fixed.trans hp) rfl

/-- The active frame may change, apart from its method and what receives its result. -/
theorem Change.frames (h : t.Change u) :
    u.frames = t.frames ∨ ∃ f f' fs, t.frames = f :: fs ∧ u.frames = f' :: fs ∧
      f'.method = f.method ∧ f'.receiver = f.receiver := by
  cases h with
  | issue v => exact .inl (issued_frames t v)
  | bind hframes | handlers _ hframes | leave _ hframes =>
    exact .inr ⟨_, _, _, hframes, rfl, rfl, rfl⟩
  | _ => exact .inl rfl

/-- A term stays bound: only values without a term get one. -/
theorem Change.binds (h : t.Change u) {v : Value} {x : Term} (hx : t.Binds v x) : u.Binds v x := by
  obtain ⟨f, fs, hframes, hv⟩ := hx
  cases h with
  | issue v' => exact ⟨f, fs, (issued_frames t v').trans hframes, hv⟩
  | @bind f' fs' v' hframes' hnone =>
    rw [hframes] at hframes'
    cases hframes'
    have hne : v ≠ v' := fun heq => by
      rw [heq, hnone] at hv
      cases hv
    exact ⟨_, _, rfl, (Table.get?_insert_of_ne _ _ hne).trans hv⟩
  | handlers _ hframes' | leave _ hframes' =>
    rw [hframes] at hframes'
    cases hframes'
    exact ⟨_, _, rfl, hv⟩
  | _ => exact ⟨f, fs, hframes, hv⟩

theorem Changed.binds (h : t.Changed u) {v : Value} {x : Term} (hx : t.Binds v x) : u.Binds v x :=
  h.keep (P := fun w => w.Binds v x) (fun hc => hc.binds) hx

theorem Changed.relBinds (h : t.Changed u) {v : Option Value} {x : Option Term}
    (hx : Option.Rel t.Binds v x) : Option.Rel u.Binds v x := by
  cases hx with
  | some hx => exact .some (h.binds hx)
  | none => exact .none

theorem noted_concrete (t : Tracer) (m : Method) (v : Value) (x : Term) (seen : Option Observed) :
    t.concrete.Within (t.noted m v x seen).concrete := by
  cases seen with
  | none => exact .refl _
  | some o => exact Table.within_insertNew _ _ _

/-- Recorded values stay recorded. -/
theorem Change.concrete (h : t.Change u) : t.concrete.Within u.concrete := by
  cases h with
  | @issue v | @bind _ _ v =>
    show t.concrete.Within (t.issued v).concrete
    rw [issued_concrete]
    exact .refl _
  | note seen => exact noted_concrete t _ _ _ seen
  | _ => exact .refl _

theorem Changed.concrete (h : t.Changed u) : t.concrete.Within u.concrete :=
  h.keep (P := fun w => t.concrete.Within w.concrete) (fun hc hp => hp.trans hc.concrete) (.refl _)

theorem Changed.contains {i : Instruction} (h : t.Changed u) (hi : t.program.Contains i) :
    u.program.Contains i := by
  rw [h.program]
  exact hi

/-! ## Terms that are expressed -/

/-- What was expressed stays expressed as long as terms stay bound and the program is the same. -/
theorem Expresses.mono {x : Term} (h : t.Expresses x) (hprogram : u.program = t.program)
    (hbinds : ∀ v y, t.Binds v y → u.Binds v y) : u.Expresses x := by
  induction h with
  | bound h => exact .bound (hbinds _ _ h)
  | constant c => exact .constant c
  | truth name => exact .truth name
  | staticRef className => exact .staticRef className
  | composite _ h ih => exact .composite ih h
  | lambda hi hkind hbody h => exact .lambda (hprogram ▸ hi) hkind hbody h

theorem Changed.expresses {x : Term} (h : t.Changed u) (hx : t.Expresses x) : u.Expresses x :=
  hx.mono h.program fun _ _ => h.binds

/-- The program contains the instruction, and the terms are expressed. -/
structure Ready (t : Tracer) (i : Instruction) (xs : List Term) : Prop where
  contains : t.program.Contains i
  expresses : ∀ x ∈ xs, t.Expresses x

namespace Ready

variable {i : Instruction} {xs : List Term} {x : Term}

theorem start (hi : t.program.Contains i) : t.Ready i [] := ⟨hi, nofun⟩

theorem changed (h : t.Ready i xs) (hu : t.Changed u) : u.Ready i xs :=
  ⟨hu.contains h.contains, fun x hx => hu.expresses (h.expresses x hx)⟩

theorem add (h : t.Ready i xs) (hx : t.Expresses x) : t.Ready i (x :: xs) :=
  ⟨h.contains, List.forall_mem_cons.mpr ⟨hx, h.expresses⟩⟩

theorem bound {v : Value} (h : t.Ready i xs) (hx : t.Binds v x) : t.Ready i (x :: xs) :=
  h.add (.bound hx)

theorem boundAll {vs : List Value} {ys : List Term} (h : t.Ready i xs)
    (hys : List.Forall₂ t.Binds vs ys) : t.Ready i (ys ++ xs) := by
  refine ⟨h.contains, fun y hy => ?_⟩
  rcases List.mem_append.mp hy with hy | hy
  · obtain ⟨v, -, hv⟩ := Term.exists_of_forall₂_right hys hy
    exact .bound hv
  · exact h.expresses y hy

theorem constants (h : t.Ready i xs) (cs : List Constant) :
    t.Ready i (cs.map Term.constant ++ xs) := by
  refine ⟨h.contains, fun y hy => ?_⟩
  rcases List.mem_append.mp hy with hy | hy
  · obtain ⟨c, -, rfl⟩ := List.mem_map.mp hy
    exact .constant c
  · exact h.expresses y hy

/-- A constructor makes a term of terms that are expressed. -/
theorem composite {subs : List Term} (h : t.Ready i xs) (hx : Term.Composes subs x)
    (hsubs : subs ⊆ xs) : t.Ready i (x :: xs) :=
  h.add (.composite (fun s hs => h.expresses s (hsubs hs)) hx)

/-- The operands of a predicate are expressed. -/
theorem operands {p : Predicate} (h : t.Ready i xs) (hp : p.operands ⊆ xs) :
    ∀ x ∈ p.operands, t.Expresses x := fun x hx => h.expresses x (hp hx)

end Ready

namespace Supports

variable {c : Clause} {i : Instruction}

/-- Support lasts as long as the program does and no recorded value is lost. -/
theorem mono (h : t.Supports c) (hprogram : u.program = t.program)
    (hconcrete : t.concrete.Within u.concrete) : u.Supports c := by
  refine ⟨?_, fun d x b hd hx => hconcrete.value x _ (h.decided d x b hd hx)⟩
  rw [hprogram]
  exact h.contains

theorem changed (h : t.Supports c) (hu : t.Changed u) : u.Supports c :=
  h.mono hu.program hu.concrete

/-- An effect decides nothing. -/
theorem state (hi : t.program.Contains i) (p : Predicate) : t.Supports (.state i p) := by
  refine ⟨hi, fun d x b hd => ?_⟩
  cases hd

/-- A guard decides no condition. -/
theorem guard {check : Check} (hi : t.program.Contains i) (hcheck : check ≠ .condition)
    (p : Predicate) : t.Supports (.path { check, instruction := i, predicate := p }) := by
  refine ⟨hi, fun d x b hd hx => ?_⟩
  cases hd
  rw [PathClause.branch?, if_neg hcheck] at hx
  cases hx

theorem condition {p : Predicate} (hi : t.program.Contains i)
    (hp : ∀ x b, p.decided? = some (x, b) → t.concrete.get? x = some (.bool b)) :
    t.Supports (.path { check := .condition, instruction := i, predicate := p }) := by
  refine ⟨hi, fun d x b hd => ?_⟩
  cases hd
  exact hp x b

end Supports

namespace Action

variable {α β : Type} {v : Value} {x : Term} {f : Frame} {fs : List Frame} {i : Instruction}
  {name : String}

/-- An instruction that is selected is the one of the name. -/
theorem instruction?_of_select {expected : String} {accept : InstKind → Option α} {a : α}
    (h : select name expected accept t = .ok (i, a) u) :
    t.instruction? name = some i ∧ accept i.kind = some a := by
  rw [instruction?_eq]
  exact named?_of_select h

theorem contains_of_instruction? (h : t.instruction? name = some i) : t.program.Contains i := by
  rw [instruction?_eq] at h
  exact Program.contains_of_named? h

/-! ## Runs of the actions that bind values -/

theorem freshTerm_run (v : Value) (t : Tracer) : freshTerm v t = .ok (t.fresh v) (t.issued v) := by
  cases v <;> rfl

theorem bindFresh_run (v : Value) (h : t.frames = f :: fs) :
    bindFresh v t = .ok (t.fresh v) (t.binding f fs v) := by
  have hframes : (t.issued v).frames = f :: fs := (issued_frames t v).trans h
  rw [bindFresh, bind_apply, freshTerm_run]
  dsimp only
  rw [bind_apply, assign, modifyFrame_cons _ hframes]
  rfl

theorem bindFresh_nil (v : Value) (h : t.frames = []) :
    bindFresh v t = .error (.broken .noFrame) (t.issued v) := by
  have hframes : (t.issued v).frames = [] := (issued_frames t v).trans h
  rw [bindFresh, bind_apply, freshTerm_run]
  dsimp only
  rw [bind_apply, assign, modifyFrame_nil _ hframes]

theorem frame_run (h : t.frames = f :: fs) : frame t = .ok f t := by
  rw [frame, get_bind, h]
  rfl

theorem frame_nil (h : t.frames = []) : frame t = .error (.broken .noFrame) t := by
  rw [frame, get_bind, h]
  rfl

theorem noteHere_run (x : Term) (v : Value) (h : t.frames = f :: fs) :
    noteHere x v t = .ok () (t.noted f.method v x none) := by
  rw [noteHere, bind_apply, frame_run h]
  rfl

theorem note_run (x : Term) (s : Sighting) (h : t.frames = f :: fs) :
    note x s t = .ok () (t.noted f.method s.value x (some s.observed)) := by
  rw [note, bind_apply, noteHere_run x s.value h]
  rfl

theorem define_run (s : Sighting) (h : t.frames = f :: fs) :
    define s t = .ok (t.fresh s.value) (t.defining f fs s.value (some s.observed)) := by
  rw [define, bind_apply, bindFresh_run s.value h]
  dsimp only
  rw [bind_apply, note_run _ s (binding_frames t f fs s.value)]
  rfl

theorem defineUnseen_run (v : Value) (h : t.frames = f :: fs) :
    defineUnseen v t = .ok (t.fresh v) (t.defining f fs v none) := by
  rw [defineUnseen, bind_apply, bindFresh_run v h]
  dsimp only
  rw [bind_apply, noteHere_run _ v (binding_frames t f fs v)]
  rfl

theorem defining_position (v : Value) (seen : Option Observed) (h : t.frames = f :: fs) :
    (t.defining f fs v seen).position = t.position := binding_position v h

theorem defining_binds (t : Tracer) (f : Frame) (fs : List Frame) (v : Value)
    (seen : Option Observed) : (t.defining f fs v seen).Binds v (t.fresh v) :=
  ⟨_, _, rfl, Table.get?_insert_self _ _ _⟩

/-- A value that is bound keeps its term, any other gets its fresh one. -/
theorem termOf_run (v : Value) (h : t.frames = f :: fs) :
    termOf v t = .ok (t.term f v) (t.reading f fs v) := by
  rw [termOf, bind_apply, frame_run h]
  unfold term reading
  dsimp only
  cases f.values.get? v with
  | some x => rfl
  | none => exact bindFresh_run v h

/-! ## Actions that make changes -/

/-- From the tracer on, the action only makes changes, and if it succeeds it ends in `Q`. -/
def Ensures (act : Action α) (t : Tracer) (Q : α → Tracer → Prop) : Prop :=
  match act t with
  | .ok a u => t.Changed u ∧ Q a u
  | .error _ u => t.Changed u

/-- From the tracer on, the action only makes changes. -/
abbrev Changes (act : Action α) (t : Tracer) : Prop := act.Ensures t fun _ _ => True

/-- From the tracer on, the action first comes into `O`, then only makes changes, and if it succeeds
it ends in `Q`. If it fails, it may not have come into `O`. -/
def Begins (O : Tracer → Prop) (act : Action α) (t : Tracer) (Q : α → Tracer → Prop) : Prop :=
  match act t with
  | .ok a u => (∃ w, O w ∧ w.Changed u) ∧ Q a u
  | .error _ u => ∃ w, (w = t ∨ O w) ∧ w.Changed u

theorem Reads.ok {x : Action α} (hx : x.Reads) {a : α} (h : x t = .ok a u) : u = t := by
  rw [← after_of_ok h]
  exact hx t

theorem Reads.error {x : Action α} (hx : x.Reads) {e : Error} (h : x t = .error e u) : u = t := by
  rw [← after_of_error h]
  exact hx t

namespace Ensures

variable {act : Action α} {Q : α → Tracer → Prop} {R : β → Tracer → Prop}

theorem after (h : act.Ensures t Q) : t.Changed (act.after t) := by
  unfold Ensures at h
  unfold Action.after
  cases hr : act t with
  | ok a u => rw [hr] at h; exact h.1
  | error e u => rw [hr] at h; exact h

theorem bind {x : Action α} {k : α → Action β} (hx : x.Ensures t Q)
    (hk : ∀ a u, t.Changed u → Q a u → (k a).Ensures u R) : (x >>= k).Ensures t R := by
  unfold Ensures at hx ⊢
  rw [bind_apply]
  cases h : x t with
  | error e u => rw [h] at hx; exact hx
  | ok a u =>
    rw [h] at hx
    have hrest := hk a u hx.1 hx.2
    unfold Ensures at hrest
    dsimp only
    cases hu : k a u with
    | ok b w => rw [hu] at hrest; exact ⟨hx.1.trans hrest.1, hrest.2⟩
    | error e w => rw [hu] at hrest; exact hx.1.trans hrest

theorem mono {Q' : α → Tracer → Prop} (h : act.Ensures t Q) (hQ : ∀ a u, Q a u → Q' a u) :
    act.Ensures t Q' := by
  unfold Ensures at h ⊢
  cases hr : act t with
  | ok a u => rw [hr] at h; exact ⟨h.1, hQ a u h.2⟩
  | error e u => rw [hr] at h; exact h

theorem of_ok {a : α} (h : act.Ensures t Q) (hr : act t = .ok a u) : t.Changed u ∧ Q a u := by
  unfold Ensures at h
  rw [hr] at h
  exact h

theorem pure {a : α} (h : Q a t) : (Pure.pure a : Action α).Ensures t Q := ⟨.refl, h⟩

theorem throw (e : Error) : (MonadExcept.throw e : Action α).Ensures t Q := .refl

theorem read {x : Action α} {k : α → Action β} (hx : x.Reads)
    (hk : ∀ a, x t = .ok a t → (k a).Ensures t R) : (x >>= k).Ensures t R := by
  have hensures : x.Ensures t fun a u => u = t ∧ x t = .ok a t := by
    unfold Ensures
    cases h : x t with
    | ok a u => rw [hx.ok h]; exact ⟨.refl, rfl, rfl⟩
    | error e u => rw [hx.error h]
  refine hensures.bind fun a u _ ⟨heq, h⟩ => ?_
  rw [heq]
  exact hk a h

theorem get {k : Tracer → Action β} (hk : (k t).Ensures t R) :
    ((MonadState.get : Action Tracer) >>= k).Ensures t R := hk

theorem lift {r : Result α} {k : α → Action β} (hk : ∀ a, r = .ok a → (k a).Ensures t R) :
    (liftM r >>= k).Ensures t R :=
  read (Reads.lift r) fun a h => hk a (lift_ok h).1

/-- A step after which the program still contains an instruction and terms are still expressed. -/
theorem andThen {x : Action α} {k : α → Action β} {xs : List Term} (hx : x.Ensures t Q)
    (hi : t.Ready i xs) (hk : ∀ a u, u.Ready i xs → Q a u → (k a).Ensures u R) :
    (x >>= k).Ensures t R :=
  hx.bind fun a u hu ha => hk a u (hi.changed hu) ha

theorem select {accept : InstKind → Option β} {expected : String} {k : Instruction × β → Action α}
    (hk : ∀ i a, t.Ready i [] → (k (i, a)).Ensures t Q) :
    (Action.select name expected accept >>= k).Ensures t Q :=
  read (Reads.select name expected accept) fun (i, a) h =>
    hk i a (.start (contains_of_instruction? (instruction?_of_select h).1))

theorem anyInstruction {k : Instruction → Action α}
    (hk : ∀ i, t.Ready i [] → (k i).Ensures t Q) :
    (Action.anyInstruction name >>= k).Ensures t Q := by
  refine read (Reads.anyInstruction name) fun i h => hk i (.start ?_)
  obtain ⟨-, f, fs, b, -, hb, hi⟩ := anyInstruction_ok h
  exact ⟨f.method, b, hb, Body.mem_of_instruction? (Body.instruction_eq_ok hi)⟩

theorem change {g : Tracer → Tracer} {k : PUnit → Action β} (hg : t.Change (g t))
    (hk : (k ⟨⟩).Ensures (g t) R) : ((modify g : Action PUnit) >>= k).Ensures t R := by
  have hensures : (modify g : Action PUnit).Ensures t fun _ u => u = g t := ⟨.single hg, rfl⟩
  refine hensures.bind fun _ u _ hu => ?_
  rw [hu]
  exact hk

theorem modify {g : Tracer → Tracer} (hg : t.Change (g t)) :
    (modify g : Action PUnit).Changes t := ⟨.single hg, trivial⟩

/-! ### Terms of values -/

theorem termOf (v : Value) : (Action.termOf v).Ensures t fun x u => u.Binds v x := by
  unfold Ensures
  cases hframes : t.frames with
  | nil =>
    rw [Action.termOf, bind_apply, frame_nil hframes]
  | cons f fs =>
    rw [termOf_run v hframes]
    unfold term reading
    cases hv : f.values.get? v with
    | some x => exact ⟨.refl, f, fs, hframes, hv⟩
    | none => exact ⟨.single (.bind hframes hv), _, _, rfl, Table.get?_insert_self _ _ _⟩

theorem noteHere (h : t.Binds v x) : (Action.noteHere x v).Changes t := by
  obtain ⟨f, fs, hframes, hx⟩ := h
  unfold Changes Ensures
  rw [noteHere_run x v hframes]
  exact ⟨.single (.note none hframes hx), trivial⟩

theorem note {s : Sighting} (h : t.Binds s.value x) : (Action.note x s).Changes t := by
  obtain ⟨f, fs, hframes, hx⟩ := h
  unfold Changes Ensures
  rw [note_run x s hframes]
  exact ⟨.single (.note _ hframes hx), trivial⟩

theorem use (s : Sighting) : (Action.use s).Ensures t fun x u => u.Binds s.value x :=
  (termOf s.value).bind fun _ _ _ hx => (note hx).bind fun _ _ hu _ => pure (hu.binds hx)

theorem useUnseen (v : Value) : (Action.useUnseen v).Ensures t fun x u => u.Binds v x :=
  (termOf v).bind fun _ _ _ hx => (noteHere hx).bind fun _ _ hu _ => pure (hu.binds hx)

theorem forValue? {act : Value → Action Term}
    (h : ∀ v, (act v).Ensures t fun x u => u.Binds v x) :
    (v : Option Value) → (Action.forValue? act v).Ensures t fun x u => Option.Rel u.Binds v x
  | some v => (h v).bind fun _ _ _ hx => pure (.some hx)
  | none => pure .none

theorem useAll (vs : List Value) (os : List Observed) :
    (Action.useAll vs os).Ensures t fun xs u => List.Forall₂ u.Binds vs xs := by
  induction vs generalizing os t with
  | nil => exact pure .nil
  | cons v vs ih =>
    cases os with
    | nil =>
      exact (termOf v).bind fun x u _ hx =>
        (ih []).bind fun xs w hw hxs => pure (.cons (hw.binds hx) hxs)
    | cons o os =>
      exact (use ⟨v, o⟩).bind fun x u _ hx =>
        (ih os).bind fun xs w hw hxs => pure (.cons (hw.binds hx) hxs)

theorem ownerOf (field : FieldRef) (o : Observed) : (v : Option Value) →
    (Action.ownerOf field o v).Ensures t fun x u => u.Expresses x
  | some v => (use ⟨v, o⟩).mono fun _ _ hx => .bound hx
  | none => pure (.staticRef _)

theorem forM {k : α → Action PUnit} (hk : ∀ a (t : Tracer), (k a).Changes t) (as : List α) :
    (as.forM k).Changes t := by
  induction as generalizing t with
  | nil => exact pure trivial
  | cons a as ih => exact (hk a t).bind fun _ _ _ _ => ih

/-! ### Clauses -/

theorem refreshHandlers (i : Instruction) : (Action.refreshHandlers i).Changes t := by
  refine get (lift fun b _ => ?_)
  cases b.block? i.block with
  | none => exact throw _
  | some block =>
    dsimp only
    unfold Ensures
    cases hframes : t.frames with
    | nil => rw [modifyFrame_nil _ hframes]
    | cons f fs =>
      rw [modifyFrame_cons _ hframes]
      exact ⟨.single (.handlers _ hframes), trivial⟩

theorem trace (i : Instruction) : (Action.trace i).Changes t :=
  change (.trace i) (refreshHandlers i)

theorem emit {p : Predicate} {xs : List Term} (hi : t.Ready i xs) (hp : p.operands ⊆ xs) :
    (Action.emit i p).Changes t :=
  change (.clause (.state hi.contains p) (hi.operands hp)) (trace i)

theorem leaveBlock (i : Instruction) : (Action.leaveBlock i).Changes t := by
  unfold Changes Ensures Action.leaveBlock
  cases hframes : t.frames with
  | nil => rw [modifyFrame_nil _ hframes]
  | cons f fs =>
    rw [modifyFrame_cons _ hframes]
    exact ⟨.single (.leave _ hframes), trivial⟩

theorem addDecision {check : Check} {p : Predicate} {xs : List Term} (hi : t.Ready i xs)
    (hp : p.operands ⊆ xs) (hcheck : check ≠ .condition) :
    (Action.addDecision check i p).Changes t := by
  have hchange := Change.path (t := t) { check, instruction := i, predicate := p }
  have hready := hi.changed (.single hchange)
  exact change hchange (modify (.clause (.guard hready.contains hcheck p) (hready.operands hp)))

theorem decide {p : Predicate} {xs : List Term} (hi : t.Ready i xs) (hp : p.operands ⊆ xs)
    (hdecided : ∀ x b, p.decided? = some (x, b) → t.concrete.get? x = some (.bool b)) :
    (Action.decide i p).Changes t := by
  refine (leaveBlock i).bind fun _ u hu _ => ?_
  have hchange := Change.path (t := u) { check := .condition, instruction := i, predicate := p }
  have hchanged := hu.tail hchange
  have hsupports := (Supports.condition hi.contains hdecided).changed hchanged
  have hready := hi.changed hchanged
  exact change hchange (change (.clause hsupports (hready.operands hp)) (trace i))

theorem guarded {check : Check} {definition : Term} {xs : List Term} (name : String)
    (observed : Bool) (hi : t.Ready i xs) (hdefinition : definition ∈ xs)
    (hcheck : check ≠ .condition) :
    (Action.guarded check i name definition observed).Changes t := by
  have hready := (hi.add (.truth name)).add (.constant (.bool observed))
  have hclause (p : Predicate) (hp : p.operands = [Term.value .bool name, definition]) :
      t.Change { t with clauses := t.clauses ++ [.state i p] } :=
    .clause (.state hi.contains p) (hready.operands (p := p) (by simp [hp, hdefinition]))
  have hclause := hclause (i.effect.equality _ _) rfl
  exact change hclause (addDecision (hready.changed (.single hclause)) (by simp [Term.bool]) hcheck)

theorem guardInstance {check : Check} {term : Term} (ty : Ty) (observed : Bool)
    (hi : t.Ready i []) (hcheck : check ≠ .condition) (h : t.Binds v term) :
    (Action.guardInstance check i term ty observed).Changes t := by
  have htyped : t.Change { t with typeChecked := t.typeChecked.insert term ty } := .typed ty h
  refine change htyped (lift fun tested htested => ?_)
  have hready := (hi.bound h).composite (.instanceOf htested) (by simp)
  have hready := (hready.add (.constant (.bool observed))).changed (.single htyped)
  exact addDecision hready (by simp [Term.bool]) hcheck

/-- A term of the active frame is not null and has a type. -/
theorem allocated (ty : Ty) (h : t.Binds v x) : (Action.allocated x ty).Changes t := by
  have hx : ({ t with nullChecked := x :: t.nullChecked } : Tracer).Binds v x :=
    (Change.nonNull h).binds h
  exact ⟨(Relation.ReflTransGen.single (.nonNull h)).tail (.typed ty hx), trivial⟩

end Ensures

/-! ### Definitions -/

namespace Begins

variable {O : Tracer → Prop} {act : Action α} {Q : α → Tracer → Prop} {R : β → Tracer → Prop}

theorem of_ensures (h : act.Ensures t Q) (ht : O t) : act.Begins O t Q := by
  unfold Ensures at h
  unfold Begins
  cases hr : act t with
  | ok a u => rw [hr] at h; exact ⟨⟨t, ht, h.1⟩, h.2⟩
  | error e u => rw [hr] at h; exact ⟨t, .inl rfl, h⟩

theorem bind {x : Action α} {k : α → Action β} (hx : x.Begins O t Q)
    (hk : ∀ a u, (∃ w, O w ∧ w.Changed u) → Q a u → (k a).Ensures u R) :
    (x >>= k).Begins O t R := by
  unfold Begins at hx ⊢
  rw [bind_apply]
  cases h : x t with
  | error e u => rw [h] at hx; exact hx
  | ok a u =>
    rw [h] at hx
    obtain ⟨⟨w, hw, hu⟩, hq⟩ := hx
    have hrest := hk a u ⟨w, hw, hu⟩ hq
    unfold Ensures at hrest
    dsimp only
    cases hr : k a u with
    | ok b u' => rw [hr] at hrest; exact ⟨⟨w, hw, hu.trans hrest.1⟩, hrest.2⟩
    | error e u' => rw [hr] at hrest; exact ⟨w, .inr hw, hu.trans hrest⟩

/-- The first steps lead into `O`, and the rest makes changes. -/
theorem of_run {rest : Action α} (hrun : act t = rest w) (hw : O w) (h : rest.Ensures w Q) :
    act.Begins O t Q := by
  unfold Ensures at h
  unfold Begins
  rw [hrun]
  cases hr : rest w with
  | ok a u => rw [hr] at h; exact ⟨⟨w, hw, h.1⟩, h.2⟩
  | error e u => rw [hr] at h; exact ⟨w, .inr hw, h⟩

theorem throw (e : Error) : (MonadExcept.throw e : Action α).Begins O t Q :=
  ⟨t, .inl rfl, .refl⟩

theorem read {x : Action α} {k : α → Action β} (hx : x.Reads)
    (hk : ∀ a, x t = .ok a t → (k a).Begins O t R) : (x >>= k).Begins O t R := by
  unfold Begins
  rw [bind_apply]
  cases h : x t with
  | ok a u =>
    obtain rfl := hx.ok h
    exact hk a h
  | error e u =>
    obtain rfl := hx.error h
    exact ⟨u, .inl rfl, .refl⟩

theorem lift {r : Result α} {k : α → Action β} (hk : ∀ a, r = .ok a → (k a).Begins O t R) :
    (liftM r >>= k).Begins O t R :=
  read (Reads.lift r) fun a h => hk a (lift_ok h).1

theorem define {s : Sighting}
    (hO : ∀ f fs, t.frames = f :: fs → O (t.defining f fs s.value (some s.observed))) :
    (Action.define s).Begins O t fun x u => u.Binds s.value x := by
  unfold Begins
  cases hframes : t.frames with
  | nil =>
    rw [Action.define, bind_apply, bindFresh_nil _ hframes]
    exact ⟨t, .inl rfl, .single (.issue _)⟩
  | cons f fs =>
    rw [define_run s hframes]
    exact ⟨⟨_, hO f fs hframes, .refl⟩, defining_binds _ _ _ _ _⟩

theorem defineUnseen {v : Value}
    (hO : ∀ f fs, t.frames = f :: fs → O (t.defining f fs v none)) :
    (Action.defineUnseen v).Begins O t fun x u => u.Binds v x := by
  unfold Begins
  cases hframes : t.frames with
  | nil =>
    rw [Action.defineUnseen, bind_apply, bindFresh_nil _ hframes]
    exact ⟨t, .inl rfl, .single (.issue _)⟩
  | cons f fs =>
    rw [defineUnseen_run v hframes]
    exact ⟨⟨_, hO f fs hframes, .refl⟩, defining_binds _ _ _ _ _⟩

end Begins

end Action

end Tracer

end Concolic
