import Concolic.Proofs.Term
import Concolic.Proofs.Tracer.Entry

/-!
# Clauses and recorded values

A clause is added when the tracer has reason to, and the reason lasts: the program stays the same,
and no recorded value is ever replaced.

* `Tracer.Grows t u`: every clause of `u` is one of `t` or is supported by `u`. Every event only
  grows a tracer (`handled_grows`, `deliver_grows`), so a whole run supports all its clauses
  (`supports_run`).
* `branches_agree`: every branch of the path was decided by the value that is recorded for its
  condition, hence no two branches of a path decide one condition differently.
-/

namespace Concolic.Tracer

variable {t u w : Tracer} {e : Event}

/-- The tracer `u` has the program of `t` and all its recorded values, and supports every clause
that `t` does not have. -/
structure Grows (t u : Tracer) : Prop where
  program : u.program = t.program
  concrete : t.concrete.Within u.concrete
  clauses : ∀ c ∈ u.summary.clauses, c ∈ t.summary.clauses ∨ u.Supports c

namespace Grows

/-- No clause is new. -/
theorem of_subset (hprogram : u.program = t.program) (hconcrete : t.concrete.Within u.concrete)
    (hclauses : u.summary.clauses ⊆ t.summary.clauses) : t.Grows u :=
  ⟨hprogram, hconcrete, fun _ hc => .inl (hclauses hc)⟩

/-- No clause and no recorded value is new. -/
theorem same (hprogram : u.program = t.program) (hconcrete : u.concrete = t.concrete)
    (hclauses : u.summary.clauses = t.summary.clauses) : t.Grows u :=
  .of_subset hprogram (hconcrete ▸ .refl _) (hclauses ▸ List.Subset.refl _)

theorem refl (t : Tracer) : t.Grows t := .same rfl rfl rfl

theorem trans (h : t.Grows u) (h' : u.Grows w) : t.Grows w := by
  refine ⟨h'.program.trans h.program, h.concrete.trans h'.concrete, fun c hc => ?_⟩
  rcases h'.clauses c hc with hc | hc
  · rcases h.clauses c hc with hc | hc
    · exact .inl hc
    · exact .inr (hc.mono h'.program h'.concrete)
  · exact .inr hc

/-- A clause that is supported was added, in front of the pending call. -/
theorem of_clause {c : Clause} (hprogram : u.program = t.program)
    (hconcrete : t.concrete.Within u.concrete) (hclauses : u.clauses = t.clauses ++ [c])
    (hpending : u.pending = t.pending) (hc : u.Supports c) : t.Grows u := by
  refine ⟨hprogram, hconcrete, fun c' hc' => ?_⟩
  simp only [summary, pendingClauses, hclauses, hpending, List.mem_append,
    List.mem_singleton] at hc' ⊢
  rcases hc' with (hc' | rfl) | hc'
  · exact .inl (.inl hc')
  · exact .inr hc
  · exact .inl (.inr hc')

end Grows

/-! ## Changes -/

theorem noted_grows (t : Tracer) (m : Method) (v : Value) (x : Term) (seen : Option Observed) :
    t.Grows (t.noted m v x seen) :=
  .of_subset rfl (noted_concrete t m v x seen) (List.Subset.refl _)

theorem issued_grows (t : Tracer) (v : Value) : t.Grows (t.issued v) := by
  cases v <;> exact .same rfl rfl rfl

/-- Frames state nothing. -/
theorem Grows.frames (h : t.Grows u) (fs : List Frame) : t.Grows { u with frames := fs } :=
  h.trans (.same rfl rfl rfl)

theorem defining_grows (t : Tracer) (f : Frame) (fs : List Frame) (v : Value)
    (seen : Option Observed) : t.Grows (t.defining f fs v seen) :=
  ((issued_grows t v).frames _).trans (noted_grows _ _ _ _ _)

theorem Change.grows (h : t.Change u) : t.Grows u := by
  cases h with
  | issue v => exact issued_grows t v
  | bind => exact (issued_grows t _).frames _
  | note seen => exact noted_grows t _ _ _ seen
  | clause hc => exact .of_clause rfl (.refl _) rfl rfl (hc.mono rfl (.refl _))
  | _ => exact .same rfl rfl rfl

theorem Changed.grows (h : t.Changed u) : t.Grows u :=
  h.keep (P := t.Grows) (fun hc hu => hu.trans hc.grows) (.refl t)

/-! ## Events -/

theorem opened_grows (h : Event.Opened t e w) : t.Grows w := by
  cases h with
  | same => exact .refl t
  | defined => exact defining_grows t _ _ _ _
  | caught =>
    unfold catching
    split
    · refine .trans ?_ (noted_grows _ _ _ _ _)
      exact .same rfl rfl rfl
    · exact defining_grows t _ _ _ _

theorem Receiving.grows (h : t.Receiving w) : t.Grows w := by
  rcases h with rfl | ⟨v, f, fs, -, rfl⟩
  · exact .refl w
  · exact defining_grows t f fs v none

/-- A pending call becomes a clause that the summary has already. -/
theorem flushed_grows (t : Tracer) : t.Grows t.flushed := by
  refine .of_subset rfl (.refl _) ?_
  rw [summary_clauses_of_none (t := t.flushed) rfl]
  exact List.Subset.refl _

/-- Frames and calls to come back to state nothing. -/
theorem flushed_grows_of_eq {frames : List Frame} {callTrace : List CallSite}
    (hu : u = { t.flushed with frames, callTrace }) : t.Grows u := by
  rw [hu]
  exact (flushed_grows t).trans (.same rfl rfl rfl)

theorem Counts.grows {s : Tracer} (h : t.Counts e s) : t.Grows s := by
  cases h with
  | instruction | caught => exact flushed_grows_of_eq rfl

/-- A call that is made is supported by its instruction. -/
theorem Made.grows {name : String} {spelling : MethodSpelling} {result callee : Option String}
    {arguments : List String} {call : PendingCall} (next : Instruction)
    (h : t.Made name spelling result callee arguments call) : t.Grows (t.calling call next) := by
  refine ⟨rfl, .refl _, fun c hc => ?_⟩
  rcases List.mem_append.mp hc with hc | hc
  · exact .inl (List.mem_append_left _ hc)
  · rw [List.mem_singleton.mp hc]
    have hi := Action.contains_of_instruction? h.instruction
    exact .inr ((Supports.state hi _).mono rfl (.refl _))

/-- What is stated of the result of an inlined method is an effect of its return. -/
theorem returned_grows {i : Instruction} (f : Frame) (callers : List Frame) (v : Option Value)
    (o : Observed) (hi : t.program.Contains i) : t.Grows (t.returned i f callers v o) := by
  unfold returned
  cases v with
  | none => exact .same rfl rfl rfl
  | some v =>
    obtain ⟨names, frames, heq⟩ := Action.reading_eq t f callers v
    dsimp only [Option.elim]
    rw [heq]
    cases f.receiver with
    | none => exact .same rfl rfl rfl
    | some r =>
      have hconcrete := noted_concrete t f.method r.1 r.2 (some o)
      exact .of_clause rfl hconcrete rfl rfl ((Supports.state hi _).mono rfl hconcrete)

theorem handled_grows {ok : Bool} (h : t.Handled e ok u) : t.Grows u := by
  cases h with
  | refused => exact .refl t
  | answered =>
    refine .of_subset rfl (.refl _) ?_
    rw [summary_clauses_of_none (t := t.answering _ _) rfl]
    exact List.subset_append_left _ _
  | pushed => exact flushed_grows_of_eq rfl
  | entered _ _ _ hu =>
    exact Action.entered_keep (P := t.Grows) hu
      (fun v o _ h => h.trans (defining_grows _ _ _ v (some o))) (flushed_grows_of_eq rfl)
  | nullException => exact flushed_grows t
  | uncaught | unwound => exact flushed_grows_of_eq rfl
  | skipped _ _ hu => cases hu <;> exact flushed_grows_of_eq rfl
  | acted hs hw hu => exact (hs.grows.trans (opened_grows hw)).trans hu.grows
  | failed hs hw hu =>
    rcases hw with rfl | hw
    · exact hs.grows.trans hu.grows
    · exact (hs.grows.trans (opened_grows hw)).trans hu.grows
  | notCalled hs hw hu => exact (hs.grows.trans hw.grows).trans hu.grows
  | called hs hw hu hmade hv =>
    have hmaking := (hs.grows.trans hw.grows).trans hu.grows
    exact (hmaking.trans (hmade.grows _)).trans hv.grows
  | returned hs hi =>
    have hcontains := Action.contains_of_instruction? hi
    exact hs.grows.trans (returned_grows _ _ _ _ hcontains)

theorem deliver_grows (t : Tracer) (e : Event) : t.Grows (t.deliver e).2 :=
  deliver_keep (P := t.Grows) e (.refl t) (fun _ _ h => handled_grows h) fun _ _ h =>
    h.trans (.same rfl rfl rfl)

theorem run_grows (t : Tracer) (es : List Event) : t.Grows (t.run es) := by
  induction es generalizing t with
  | nil => exact .refl t
  | cons e es ih => exact (deliver_grows t e).trans (ih (t.deliver e).2)

/-- A run supports all its clauses. -/
theorem supports_run (p : Program) (config : Config) (dispatch : Dispatch) (es : List Event) :
    let t := (new p config dispatch).run es
    ∀ c ∈ t.summary.clauses, t.Supports c := by
  intro t c hc
  exact ((run_grows (new p config dispatch) es).clauses c hc).resolve_left List.not_mem_nil

/-! ## Branches -/

/-- The decisions of the path are among the clauses. -/
theorem PathAgrees.mem_clauses (h : t.PathAgrees) {c : PathClause} (hc : c ∈ t.path) :
    .path c ∈ t.summary.clauses := by
  rw [h] at hc
  obtain ⟨c', hc', hpath⟩ := List.mem_filterMap.mp hc
  cases c' with
  | state => cases hpath
  | path => cases hpath; exact hc'

/-- Every branch of a path was decided by the value that is recorded for its condition. So no two
branches of a path decide one condition differently. -/
theorem branches_agree (p : Program) (config : Config) (dispatch : Dispatch) (es : List Event) :
    let s := ((new p config dispatch).run es).summary
    (∀ c ∈ s.path, ∀ x b, c.branch? = some (x, b) → s.concrete.get? x = some (.bool b)) ∧
      ∀ c ∈ s.path, ∀ d ∈ s.path, ∀ x y b b', c.branch? = some (x, b) → d.branch? = some (y, b') →
        (x == y) = true → b = b' := by
  intro s
  have hagrees := PathAgrees.run (t := new p config dispatch) rfl es
  have hdecided : ∀ c ∈ s.path, ∀ x b, c.branch? = some (x, b) →
      s.concrete.get? x = some (.bool b) := fun c hc x b hx =>
    (supports_run p config dispatch es _ (hagrees.mem_clauses hc)).decided c x b rfl hx
  refine ⟨hdecided, fun c hc d hd x y b b' hx hy hxy => ?_⟩
  have hb := hdecided c hc x b hx
  rw [s.concrete.get?_congr hxy, hdecided d hd y b' hy] at hb
  cases hb
  rfl

open Sample in
/-- A method branches on its parameter and is entered twice, with true and with false. Both branches
are about one term, and both are recorded as taken by the first value. -/
theorem branches_agree_flag :
    let s := ((new (Program.ofBodies [flag]) .standard .virtual).run
      [enterFlag true, branch, leave, enterFlag false, branch]).summary
    ∃ c d x y b b', s.path = [c, d] ∧ c.branch? = some (x, b) ∧ d.branch? = some (y, b') ∧
      (x == y) = true ∧ s.concrete.get? x = some (.bool b) ∧ b = b' := by
  intro s
  have hrun : s.path.length = 2 ∧
      (s.path.all fun c => c.branch?.any fun d => d.1 == .argument .bool 0) = true := by
    decide +kernel
  obtain ⟨hlength, hall⟩ := hrun
  obtain ⟨c, d, hpath⟩ := List.length_eq_two.mp hlength
  obtain ⟨hdecided, hsame⟩ := branches_agree (Program.ofBodies [flag]) .standard .virtual
    [enterFlag true, branch, leave, enterFlag false, branch]
  have hbranch : ∀ c ∈ s.path, ∃ x b, c.branch? = some (x, b) ∧ (x == .argument .bool 0) = true :=
    fun c hc => by
      obtain ⟨⟨x, b⟩, hx, harg⟩ := (Option.any_eq_true _ _).mp (List.all_eq_true.mp hall c hc)
      exact ⟨x, b, hx, harg⟩
  have hc : c ∈ s.path := by rw [hpath]; exact List.mem_cons_self
  have hd : d ∈ s.path := by rw [hpath]; exact List.mem_cons_of_mem c List.mem_cons_self
  obtain ⟨x, b, hx, hxarg⟩ := hbranch c hc
  obtain ⟨y, b', hy, hyarg⟩ := hbranch d hd
  have hxy : (x == y) = true := BEq.trans hxarg (BEq.symm hyarg)
  exact ⟨c, d, x, y, b, b', hpath, hx, hy, hxy, hdecided c hc x b hx,
    hsame c hc d hd x y b b' hx hy hxy⟩

end Concolic.Tracer
