import Concolic.Proofs.Tracer.Entry
import Concolic.Proofs.Tracer.Kept

/-!
# What is recorded of terms

Under a term a tracer records where it comes from and, if it was observed, a concrete value. Values
reach these records from parameters, operands, results and exceptions, by events that succeed and by
events that fail midway.

* `Description.Fits d ty`: a description that stands for a value of a primitive type is of this type
  or is not of a primitive at all. What is described for a primitive type fits it
  (`Observed.describeAs_fits`).
* `Tracer.Log t u`: one step of the records: a term is recorded for a method that is executed, or
  nothing is, and a method that is executed now was executed before or looked up. Every event is
  made of such steps (`handled_logged`, `deliver_logged`).
* `Tracer.Recorded t`: what every step of the records keeps, and so every run (`recorded_run`).
* `records_well_formed`: whatever has a concrete value has an origin, and the value fits its type.
-/

namespace Concolic

/-! ## Descriptions -/

namespace Description

/-- The description is one of a primitive value. -/
def isPrimitive : Description → Bool
  | .bool _ | .byte _ | .char _ | .short _ | .int _ | .long _ | .float _ | .double _ => true
  | _ => false

/-- The description has the type or is not one of a primitive value. -/
def Fits (d : Description) (ty : Ty) : Prop := d.ty = ty ∨ d.isPrimitive = false

theorem isPrimitive_of_double? {d : Description} (h : d.double? = none) :
    d.isPrimitive = false := by
  cases d with
  | bool | byte | char | short | int | long | float | double => cases h
  | _ => rfl

/-- A conversion to a primitive type gives a value of the type, or leaves alone what is no
primitive. -/
theorem coerce_fits (d : Description) {ty : Ty} (hty : ty.isPrimitive = true) :
    (d.coerce ty).Fits ty := by
  unfold coerce
  split
  · next heq => exact .inl heq
  · split
    · next hnone => exact .inr (isPrimitive_of_double? hnone)
    · cases ty with
      | bool | byte | char | short | int | long | float | double => exact .inl rfl
      | _ => cases hty

end Description

/-- What is described where a primitive is expected fits: boxes are opened and primitives
converted. -/
theorem Observed.describeAs_fits (limits : Limits) (o : Observed) {ty : Ty}
    (hty : ty.isPrimitive = true) : (o.describeAs limits ty).Fits ty := by
  unfold describeAs
  simp only [hty, Bool.not_true, Bool.false_eq_true, if_false]
  split
  · next hobject =>
    split
    · exact Description.coerce_fits _ hty
    · rw [hobject]
      exact .inr rfl
  · exact Description.coerce_fits _ hty

namespace Tracer

variable {t u w : Tracer} {e : Event}

/-! ## Steps of the records -/

/-- One step of the records: a term is recorded as a value of a method that is executed, or nothing
is recorded, and methods are left or looked up and entered. -/
inductive Log (t : Tracer) : Tracer → Prop
  | note {m : Method} (hm : m ∈ t.stack) (v : Value) (x : Term) (seen : Option Observed) :
      Log t (t.noted m v x seen)
  | quiet {u : Tracer} (hsetup : u.setup = t.setup) (hconcrete : u.concrete = t.concrete)
      (horigins : u.origins = t.origins) (hstack : ∀ m ∈ u.stack, m ∈ t.stack ∨ t.program.Finds m) :
      Log t u

/-- The tracer `u` is `t` after finitely many steps of the records. -/
abbrev Logged : Tracer → Tracer → Prop := Relation.ReflTransGen Log

theorem Logged.trans (h : t.Logged u) (h' : u.Logged w) : t.Logged w :=
  Relation.ReflTransGen.trans h h'

/-- Nothing is recorded, and no method is entered. -/
theorem Logged.of_stack (hsetup : u.setup = t.setup) (hconcrete : u.concrete = t.concrete)
    (horigins : u.origins = t.origins) (hstack : u.stack ⊆ t.stack) : t.Logged u :=
  .single (.quiet hsetup hconcrete horigins fun _ hm => .inl (hstack hm))

/-- Nothing is recorded, and the frames are the same. -/
theorem Logged.same (hsetup : u.setup = t.setup) (hconcrete : u.concrete = t.concrete)
    (horigins : u.origins = t.origins) (hstack : u.stack = t.stack) : t.Logged u :=
  .of_stack hsetup hconcrete horigins (hstack ▸ List.Subset.refl _)

private theorem mem_stack {f : Frame} {fs : List Frame} (hframes : t.frames = f :: fs) :
    f.method ∈ t.stack := by
  unfold stack
  rw [hframes]
  exact List.mem_cons_self

/-! ### Changes -/

theorem issued_origins (t : Tracer) (v : Value) : (t.issued v).origins = t.origins := by
  cases v <;> rfl

theorem binding_logged {f : Frame} {fs : List Frame} (v : Value) (hframes : t.frames = f :: fs) :
    t.Logged (t.binding f fs v) :=
  .same (issued_setup t v) (issued_concrete t v) (issued_origins t v)
    (congrArg Position.stack (binding_position v hframes))

theorem reading_logged {f : Frame} {fs : List Frame} (v : Value) (hframes : t.frames = f :: fs) :
    t.Logged (t.reading f fs v) := by
  unfold reading
  split
  · exact .refl
  · exact binding_logged v hframes

theorem defining_logged {f : Frame} {fs : List Frame} (v : Value) (seen : Option Observed)
    (hframes : t.frames = f :: fs) : t.Logged (t.defining f fs v seen) :=
  (binding_logged v hframes).tail (.note List.mem_cons_self v _ seen)

theorem Change.logged (h : t.Change u) : t.Logged u := by
  have hstack : u.stack = t.stack := congrArg Position.stack h.position
  cases h with
  | issue v => exact .same (issued_setup t v) (issued_concrete t v) (issued_origins t v) hstack
  | bind hframes => exact binding_logged _ hframes
  | note seen hframes => exact .single (.note (mem_stack hframes) _ _ seen)
  | _ => exact .same rfl rfl rfl hstack

theorem Changed.logged (h : t.Changed u) : t.Logged u :=
  h.keep (P := t.Logged) (fun hc hu => hu.trans hc.logged) .refl

/-! ### Events -/

theorem opened_logged (h : Event.Opened t e w) : t.Logged w := by
  cases h with
  | same => exact .refl
  | defined _ _ _ _ hframes => exact defining_logged _ _ hframes
  | @caught _ _ v f fs _ _ hframes =>
    unfold catching
    split
    · next x hthrown =>
      let s : Tracer :=
        { t with thrown := none, frames := { f with values := f.values.insert v x } :: fs }
      have hs : t.Logged s := .same rfl rfl rfl (by simp only [s, stack, hframes, List.map_cons])
      exact hs.tail (.note List.mem_cons_self v x _)
    · exact defining_logged v _ hframes

theorem Receiving.logged (h : t.Receiving w) : t.Logged w := by
  rcases h with rfl | ⟨v, f, fs, hframes, rfl⟩
  · exact .refl
  · exact defining_logged v none hframes

theorem calling_logged (t : Tracer) (call : PendingCall) (next : Instruction) :
    t.Logged (t.calling call next) := .same rfl rfl rfl rfl

/-- Frames that are left were there, the first one perhaps with the bindings of a handler. -/
private theorem stack_unwoundBy (t : Tracer) (thrown : Ty) :
    (t.unwoundBy thrown).stack ⊆ t.stack := by
  show (Action.unwound t.flushed thrown t.frames t.callTrace).1.map Frame.method ⊆
    t.frames.map Frame.method
  rcases unwound_eq t.flushed thrown t.frames t.callTrace with hnil | ⟨g, gs, _, hsuffix, heq⟩
  · rw [hnil]
    exact List.nil_subset _
  · rw [heq]
    show (g :: gs).map Frame.method ⊆ _
    exact List.map_subset Frame.method hsuffix.subset

theorem unwoundBy_logged (t : Tracer) (thrown : Ty) : t.Logged (t.unwoundBy thrown) :=
  .of_stack rfl rfl rfl (stack_unwoundBy t thrown)

theorem Followed.flushed_logged {name : String} (h : t.Followed name u) : t.Logged u.flushed := by
  cases h with
  | left _ _ _ _ _ hframes =>
    refine .of_stack rfl rfl rfl ?_
    unfold stack
    rw [hframes]
    exact List.subset_cons_self _ _
  | _ => exact .same rfl rfl rfl rfl

theorem pushing_logged {m : Method} (hm : t.program.Finds m) : t.Logged (t.pushing m) := by
  refine .single (.quiet rfl rfl rfl fun m' hm' => ?_)
  rcases List.mem_cons.mp hm' with rfl | hm'
  · exact .inr hm
  · exact .inl hm'

theorem answering_logged {m : Method} (call : PendingCall) (hm : t.program.Finds m) :
    t.Logged (t.answering m call) := by
  refine .single (.quiet rfl rfl rfl fun m' hm' => ?_)
  rcases List.mem_cons.mp hm' with rfl | hm'
  · exact .inr hm
  · exact .inl hm'

/-- What receives the result is recorded for the caller, or for the method itself if there is no
caller. -/
theorem returned_logged {f : Frame} {callers : List Frame} (i : Instruction) (v : Option Value)
    (o : Observed) (hframes : t.frames = f :: callers) :
    t.Logged (t.returned i f callers v o) := by
  let s : Tracer := v.elim t (t.reading f callers)
  have hs : t.Logged s ∧ s.stack = f.method :: callers.map Frame.method := by
    cases v with
    | none =>
      refine ⟨.refl, ?_⟩
      show t.stack = _
      rw [stack, hframes, List.map_cons]
    | some v =>
      obtain ⟨f', hf', hmethod, -⟩ := Action.reading_frames v hframes
      refine ⟨reading_logged v hframes, ?_⟩
      show (t.reading f callers v).stack = _
      rw [stack, hf', List.map_cons, hmethod]
  obtain ⟨hlogged, hstack⟩ := hs
  have hcallers : callers.map Frame.method ⊆ s.stack := hstack ▸ List.subset_cons_self _ _
  refine hlogged.trans ?_
  unfold returned
  split
  · next v' received y _ =>
    have hm : (callers.head?.map Frame.method).getD f.method ∈ s.stack := by
      rw [hstack]
      cases callers with
      | nil => exact List.mem_cons_self
      | cons g gs => exact List.mem_cons_of_mem _ List.mem_cons_self
    have hnoted : s.Logged (s.noted _ received y (some o)) := .single (.note hm _ _ _)
    exact hnoted.trans (.of_stack rfl rfl rfl hcallers)
  · exact .of_stack rfl rfl rfl hcallers

theorem Counts.logged {s : Tracer} (h : t.Counts e s) : t.Logged s := by
  cases h with
  | instruction => exact .same rfl rfl rfl rfl
  | caught => exact unwoundBy_logged t _

/-- Whatever an event does, it is made of steps of the records. -/
theorem handled_logged {ok : Bool} (h : t.Handled e ok u) : t.Logged u := by
  cases h with
  | refused => exact .refl
  | answered _ hm => exact answering_logged _ ⟨_, _, _, _, hm⟩
  | pushed hm => exact pushing_logged ⟨_, _, _, _, hm⟩
  | entered _ _ hm hu =>
    exact Action.entered_keep (P := t.Logged) hu
      (fun v o hframes h => h.trans (defining_logged v (some o) hframes))
      (pushing_logged ⟨_, _, _, _, hm⟩)
  | nullException => exact .same rfl rfl rfl rfl
  | uncaught | unwound => exact unwoundBy_logged t _
  | skipped _ _ hu => exact hu.flushed_logged
  | acted hs hw hu => exact (hs.logged.trans (opened_logged hw)).trans hu.logged
  | failed hs hw hu =>
    rcases hw with rfl | hw
    · exact hs.logged.trans hu.logged
    · exact (hs.logged.trans (opened_logged hw)).trans hu.logged
  | notCalled hs hw hu => exact (hs.logged.trans hw.logged).trans hu.logged
  | called hs hw hu _ hv =>
    have hmaking := (hs.logged.trans hw.logged).trans hu.logged
    exact (hmaking.trans (calling_logged _ _ _)).trans hv.logged
  | returned hs _ hframes => exact hs.logged.trans (returned_logged _ _ _ hframes)

theorem deliver_logged (t : Tracer) (e : Event) : t.Logged (t.deliver e).2 :=
  deliver_keep e .refl (fun _ _ h => handled_logged h) fun _ _ h =>
    h.trans (.same rfl rfl rfl rfl)

theorem run_logged (t : Tracer) (es : List Event) : t.Logged (t.run es) := by
  induction es generalizing t with
  | nil => exact .refl
  | cons e es ih => exact (deliver_logged t e).trans (ih (t.deliver e).2)

/-! ## What every step keeps -/

/-- The records are in order: every method in them is one that the program finds, no term is
recorded twice, and a term with a concrete value has an origin and a value that fits its type. -/
structure Recorded (t : Tracer) : Prop where
  executed : ∀ m ∈ t.stack, t.program.Finds m
  origin : ∀ e ∈ t.origins.entries, t.program.Finds e.2.method
  known : ∀ e ∈ t.concrete.entries, t.origins.contains e.1 = true
  fits : ∀ e ∈ t.concrete.entries, e.1.ty.isPrimitive = true → e.2.Fits e.1.ty
  concrete : t.concrete.Distinct
  origins : t.origins.Distinct

theorem Recorded.noted (h : t.Recorded) {m : Method} (hm : m ∈ t.stack) (v : Value) (x : Term)
    (seen : Option Observed) : (t.noted m v x seen).Recorded := by
  have hknown (y : Term) (hy : t.origins.contains y = true) :
      (t.noted m v x seen).origins.contains y = true := by
    rw [Table.contains_eq_isSome_get?, Option.isSome_iff_exists] at hy ⊢
    obtain ⟨o, ho⟩ := hy
    exact ⟨o, (Table.within_insertNew _ _ _).value y o ho⟩
  have hself : (t.noted m v x seen).origins.contains x = true := by
    rw [Table.contains_eq_isSome_get?]
    show ((t.origins.insertNew x ⟨m, v⟩).get? x).isSome = true
    rw [Table.get?_insertNew_self]
    rfl
  refine ⟨h.executed, fun e he => ?_, fun e he => ?_, fun e he => ?_, ?_, h.origins.insertNew _ _⟩
  · rcases Table.mem_insertNew he with rfl | he
    · exact h.executed m hm
    · exact h.origin e he
  · cases seen with
    | none => exact hknown _ (h.known e he)
    | some o =>
      rcases Table.mem_insertNew he with rfl | he
      · exact hself
      · exact hknown _ (h.known e he)
  · cases seen with
    | none => exact h.fits e he
    | some o =>
      rcases Table.mem_insertNew he with rfl | he
      · exact fun hty => o.describeAs_fits _ hty
      · exact h.fits e he
  · cases seen with
    | none => exact h.concrete
    | some o => exact h.concrete.insertNew _ _

theorem Log.recorded (h : t.Log u) (ht : t.Recorded) : u.Recorded := by
  cases h with
  | note hm v x seen => exact ht.noted hm v x seen
  | quiet hsetup hconcrete horigins hstack =>
    have hprogram : u.program = t.program := congrArg Prod.fst hsetup
    refine ⟨fun m hm => ?_, ?_, ?_, ?_, ?_, ?_⟩
    · rw [hprogram]
      exact (hstack m hm).elim (ht.executed m) id
    · rw [horigins, hprogram]
      exact ht.origin
    · rw [hconcrete, horigins]
      exact ht.known
    · rw [hconcrete]
      exact ht.fits
    · rw [hconcrete]
      exact ht.concrete
    · rw [horigins]
      exact ht.origins

theorem Logged.recorded (h : t.Logged u) (ht : t.Recorded) : u.Recorded := by
  induction h with
  | refl => exact ht
  | tail _ hlast ih => exact hlast.recorded ih

/-- The records of every run are in order. -/
theorem recorded_run (p : Program) (config : Config) (dispatch : Dispatch) (es : List Event) :
    ((new p config dispatch).run es).Recorded := by
  refine (run_logged _ es).recorded ⟨?_, ?_, ?_, ?_, Table.distinct_empty, Table.distinct_empty⟩
  · exact nofun
  · exact nofun
  · exact nofun
  · exact nofun

/-- Whatever happened, a term with a concrete value has an origin, and if its type is primitive, the
value is of this type or no primitive at all. -/
theorem records_well_formed (p : Program) (config : Config) (dispatch : Dispatch)
    (es : List Event) :
    let s := ((new p config dispatch).run es).summary
    ∀ x d, (x, d) ∈ s.concrete.entries →
      (∃ o, s.origins.get? x = some o) ∧
        (x.ty.isPrimitive = true → d.ty = x.ty ∨ d.isPrimitive = false) := by
  intro s x d hd
  have hrecorded := recorded_run p config dispatch es
  refine ⟨?_, hrecorded.fits (x, d) hd⟩
  have hknown := hrecorded.known (x, d) hd
  rw [Table.contains_eq_isSome_get?] at hknown
  exact Option.isSome_iff_exists.mp hknown

open Sample in
/-- A flag is reported in a box, and then an event fails. What is recorded is the truth value in the
box. -/
theorem records_well_formed_flag :
    let t := new (Program.ofBodies [flag]) .standard .virtual
    let box : Observed := .object 1 "java/lang/Boolean" [("value", .bool true)]
    let es : List Event :=
      [.methodEnter ⟨"app/Main", "flag", ["Z"], "V"⟩ none [box], .branch "br" "arg$7"]
    let s := (t.run es).summary
    t.succeeds es = false ∧ ∃ x d, (x, d) ∈ s.concrete.entries ∧ x.ty.isPrimitive = true ∧
      d.bool? = some true ∧ (∃ o, s.origins.get? x = some o) ∧
        (d.ty = x.ty ∨ d.isPrimitive = false) := by
  intro t box es s
  have hrun : t.succeeds es = false ∧ (s.concrete.entries.any fun e =>
      e.1.ty.isPrimitive && e.2.bool? == some true) = true := by decide +kernel
  obtain ⟨hfails, hentry⟩ := hrun
  obtain ⟨⟨x, d⟩, hmem, hentry⟩ := List.any_eq_true.mp hentry
  obtain ⟨hty, hd⟩ := Bool.and_eq_true_iff.mp hentry
  obtain ⟨horigin, hfits⟩ := records_well_formed _ _ _ _ x d hmem
  exact ⟨hfails, x, d, hmem, hty, eq_of_beq hd, horigin, hfits hty⟩

end Tracer

end Concolic
