import Concolic.Proofs.Tracer.Snapshot
import Concolic.Proofs.Tracer.Transition

/-!
# What actions evaluate to

The actions that events are made of, run on a tracer of which enough is known: the instruction and
the values are there, and the active frame is `f`. From these equations follows what an event adds,
and that it succeeds.

* `select_run`, `resolve_run`: the names of an event are looked up.
* `use_run`, `useUnseen_run`: an operand is read, which leaves `Tracer.used t f fs v seen`. Nothing
  but names, records and the active frame may differ from before (`used_eq`, `termOf_ok`).
* `emit_run`, `decide_run`: an instruction is traced with its clause.
* `start_of_collecting`: while there is no call to come back to, an event is acted on at once.
-/

namespace Concolic.Tracer

variable {t : Tracer} {f : Frame} {fs : List Frame} {i : Instruction} {v : Value} {name : String}

/-- The tracer after it was asked for the term of a value of the active frame `f`, and the term was
recorded with what was seen of it. -/
def used (t : Tracer) (f : Frame) (fs : List Frame) (v : Value) (seen : Option Observed) : Tracer :=
  (t.reading f fs v).noted f.method v (t.term f v) seen

theorem fresh_flushed (t : Tracer) (v : Value) : t.flushed.fresh v = t.fresh v := by
  cases v <;> rfl

theorem issued_eq (t : Tracer) (v : Value) : ∃ names, t.issued v = { t with names } := by
  cases v <;> exact ⟨_, rfl⟩

theorem defining_eq (t : Tracer) (f : Frame) (fs : List Frame) (v : Value)
    (seen : Option Observed) :
    ∃ names origins concrete, t.defining f fs v seen = { t with
      names, origins, concrete
      frames := { f with values := f.values.insert v (t.fresh v) } :: fs } := by
  obtain ⟨names, hnames⟩ := issued_eq t v
  unfold defining binding
  rw [hnames]
  exact ⟨names, _, _, rfl⟩

/-- The active frame after the term of a value was asked for: it is the frame `f`, and if the value
had no term it has one now. -/
theorem reading_binds (v : Value) (h : t.frames = f :: fs) :
    ∃ names g, t.reading f fs v = { t with names, frames := g :: fs } ∧
      g.values.get? v = some (t.term f v) ∧ g.method = f.method ∧
      ∀ w x, f.values.get? w = some x → g.values.get? w = some x := by
  unfold reading term
  cases hv : f.values.get? v with
  | some x => exact ⟨t.names, f, by rw [← h]; rfl, hv, rfl, fun _ _ hw => hw⟩
  | none =>
    obtain ⟨names, hnames⟩ := issued_eq t v
    refine ⟨names, { f with values := f.values.insert v (t.fresh v) }, ?_, ?_, rfl, ?_⟩
    · show t.binding f fs v = _
      unfold binding
      rw [hnames]
    · exact Table.get?_insert_self _ _ _
    · intro w x hw
      have hne : w ≠ v := by
        rintro rfl
        rw [hv] at hw
        cases hw
      exact (Table.get?_insert_of_ne _ _ hne).trans hw

theorem used_eq (v : Value) (seen : Option Observed) (h : t.frames = f :: fs) :
    ∃ names origins concrete g,
      t.used f fs v seen = { t with names, origins, concrete, frames := g :: fs } ∧
      g.values.get? v = some (t.term f v) ∧
      ∀ w x, f.values.get? w = some x → g.values.get? w = some x := by
  obtain ⟨names, g, heq, hv, -, hkeep⟩ := reading_binds v h
  unfold used
  rw [heq]
  exact ⟨names, _, _, g, rfl, hv, hkeep⟩

namespace Action

/-! ## Names -/

theorem body_run {b : Body} (hf : t.frames.head? = some f)
    (hb : (t.program.body f.method).toOption = some b) : body t = .ok b t := by
  obtain ⟨fs, hframes⟩ := List.head?_eq_some_iff.mp hf
  rw [body, bind_apply, frame_run hframes]
  dsimp only
  rw [get_bind, Program.toOption_eq_some hb]
  rfl

theorem select_run {α : Type} {expected : String} {accept : InstKind → Option α} {a : α}
    (hi : t.instruction? name = some i) (ha : accept i.kind = some a) :
    select name expected accept t = .ok (i, a) t := by
  obtain ⟨f, hf, h₁⟩ := Option.bind_eq_some_iff.mp hi
  obtain ⟨b, hb, hname⟩ := Option.bind_eq_some_iff.mp h₁
  have hfound : b.instruction name = .ok i := by
    unfold Body.instruction Body.orUnknown
    rw [hname]
  rw [select, bind_apply, body_run hf hb]
  dsimp only
  rw [lift_bind_of_ok hfound]
  simp only [ha]
  rfl

theorem value_run (h : t.value? name = some v) : value name t = .ok v t := by
  obtain ⟨f, hf, h₁⟩ := Option.bind_eq_some_iff.mp h
  obtain ⟨b, hb, hv⟩ := Option.bind_eq_some_iff.mp h₁
  rw [value, bind_apply, body_run hf hb]
  dsimp only
  rw [Program.toOption_eq_some hv]
  rfl

theorem resolve_run {o : Operand} (h : t.value? o.name = some v) :
    resolve o t = .ok ⟨v, o.observed⟩ t := by
  rw [resolve, bind_apply, value_run h]
  rfl

/-! ## Operands -/

/-- What is left after the term of a value was asked for. -/
theorem termOf_ok {u : Tracer} {x : Term} (h : termOf v t = .ok x u) :
    ∃ names frames, u = { t with names, frames } ∧ u.Binds v x ∧
      ∀ w y, t.Binds w y → u.Binds w y := by
  obtain ⟨f, s, hframe, -⟩ := bind_ok h
  obtain ⟨-, fs, hf⟩ := frame_ok hframe
  rw [termOf_run v hf] at h
  cases h
  obtain ⟨names, g, heq, hv, -, hkeep⟩ := reading_binds v hf
  rw [heq]
  refine ⟨names, g :: fs, rfl, ⟨g, fs, rfl, hv⟩, ?_⟩
  rintro w y ⟨f', fs', hf', hw⟩
  rw [hf] at hf'
  cases hf'
  exact ⟨g, fs, rfl, hkeep w y hw⟩

theorem use_run (s : Sighting) (h : t.frames = f :: fs) :
    use s t = .ok (t.term f s.value) (t.used f fs s.value (some s.observed)) := by
  obtain ⟨names, g, heq, -, hmethod, -⟩ := reading_binds s.value h
  have hframes : (t.reading f fs s.value).frames = g :: fs := by rw [heq]
  rw [use, bind_apply, termOf_run s.value h]
  dsimp only
  rw [bind_apply, note_run _ s hframes, hmethod]
  rfl

theorem useUnseen_run (v : Value) (h : t.frames = f :: fs) :
    useUnseen v t = .ok (t.term f v) (t.used f fs v none) := by
  obtain ⟨names, g, heq, -, hmethod, -⟩ := reading_binds v h
  have hframes : (t.reading f fs v).frames = g :: fs := by rw [heq]
  rw [useUnseen, bind_apply, termOf_run v h]
  dsimp only
  rw [bind_apply, noteHere_run _ v hframes, hmethod]
  rfl

/-! ## Clauses -/

theorem emit_run {handlers : List Ty} (p : Predicate) (hf : t.frames = f :: fs)
    (hh : t.program.handlers? i = some handlers) :
    emit i p t = .ok () { t with
      clauses := t.clauses ++ [.state i p]
      trace := t.trace ++ [i]
      frames := f.refreshed handlers :: fs } :=
  trace_run (t := { t with clauses := t.clauses ++ [.state i p] }) hf hh

theorem decide_run {handlers : List Ty} (p : Predicate) (hf : t.frames = f :: fs)
    (hh : t.program.handlers? i = some handlers) :
    Action.decide i p t = .ok () { t.deciding f fs i p with
      trace := t.trace ++ [i]
      frames := Frame.refreshed { f with previousBlock := i.block } handlers :: fs } :=
  (decide_eq_trace hf p).trans (trace_run (t := t.deciding f fs i p) rfl hh)

/-! ## Events -/

theorem start_of_collecting (act : Action Unit) (h : t.callTrace = []) :
    start name act t = act t.flushed := by
  rw [start_of_followed act (.idle h), h]
  rfl

end Action

end Concolic.Tracer
