import Concolic.Proofs.Tracer.Evaluation
import Concolic.Proofs.Tracer.Once

/-!
# Guards of indices

The guard of an index is a truth value, defined as the index being below the length of the array and
fixed to what was observed. The observed index may be negative, and then it is below every length.
So the guard says that an access is within bounds also where it is out of bounds at the lower end.

* `Tracer.BoundsGuard`: what the guard of an index adds.
* `guardIndex_run`: an index guard that succeeds adds its guard or no decision.
* `index_guard_inBounds_iff`: the guard says that the access is within bounds exactly if the index
  is below the length, which is right exactly if the index is not negative.
-/

namespace Concolic

namespace Sample

def three : Observed := .array 1 .int [.int 4, .int 5, .int 6]

/-- An array of three numbers and an index are passed. -/
def enterIndexing (k : Int32) : Event :=
  .methodEnter ⟨"app/Main", "making", ["[I", "I"], "I"⟩ none [three, .int k]

def indexing (k : Int32) : Event := .guardIndex "ret" ⟨"arg$0", three⟩ ⟨"arg$1", .int k⟩

end Sample

namespace Tracer

variable {t u : Tracer} {name : String} {array index : Operand}

/-- The tracer `u` has one more guard than `t`: that the value named by the index is below the
length of the value named by the array, and whether this holds. -/
inductive BoundsGuard (t : Tracer) (name : String) (array index : Operand) (holds : Bool)
    (u : Tracer) : Prop
  | intro {i : Instruction} {v w : Value} {a k definition : Term} {g : Guard}
      (hi : t.instruction? name = some i) (hv : t.value? array.name = some v)
      (hw : t.value? index.name = some w) (ha : u.Binds v a) (hk : u.Binds w k)
      (hdefinition : (Condition.inBounds a k).definition = .ok definition)
      (hg : g = ⟨.bounds, i, (Condition.inBounds a k).name, definition, holds⟩)
      (hpath : u.path = t.path ++ [g.fixed])
      (hclauses : u.summary.clauses = t.summary.clauses ++ g.clauses)

theorem instruction?_of_anyInstruction {i : Instruction}
    (h : Action.anyInstruction name t = .ok i u) :
    t.instruction? name = some i := by
  obtain ⟨-, f, fs, b, hf, hb, hi⟩ := Action.anyInstruction_ok h
  rw [instruction?_eq, stack, hf, List.map_cons, Program.named?_cons hb]
  exact Body.instruction_eq_ok hi

/-- The guard of an index that is not guarded yet. -/
theorem guardBounds_ok {s : Tracer} {i : Instruction} {a k : Term} {holds : Bool}
    (h : (do
        modify fun t => { t with indexChecked := (a, k) :: t.indexChecked }
        let definition ← Term.compare .lt k (← Term.arrayLength a)
        Action.guarded .bounds i (a.name ++ "IndexCheck" ++ k.name) definition holds :
          Action Unit) s = .ok () u) :
    ∃ definition, (Condition.inBounds a k).definition = .ok definition ∧
      let g : Guard := ⟨.bounds, i, (Condition.inBounds a k).name, definition, holds⟩
      u = { s with
        indexChecked := (a, k) :: s.indexChecked
        clauses := s.clauses ++ g.clauses
        path := s.path ++ [g.fixed] } := by
  rw [Action.modify_bind] at h
  obtain ⟨length, s₁, hlift, h₁⟩ := Action.bind_ok h
  obtain ⟨hlength, rfl⟩ := Action.lift_ok hlift
  obtain ⟨definition, s₂, hlift', h₂⟩ := Action.bind_ok h₁
  obtain ⟨hcompare, rfl⟩ := Action.lift_ok hlift'
  have hdefinition : (Condition.inBounds a k).definition = .ok definition := by
    rw [Condition.definition, hlength]
    exact hcompare
  have hrun := Action.Contributes.guarded_run
    ⟨.bounds, i, (Condition.inBounds a k).name, definition, holds⟩
    { s with indexChecked := (a, k) :: s.indexChecked }
  cases hrun.symm.trans h₂
  exact ⟨definition, hdefinition, rfl⟩

theorem guardIndex_run {n : Int64} (hcalls : t.callTrace = [])
    (hindex : index.observed.int? = some n)
    (h : Action.guardIndex name array index t = .ok () u) :
    u.path = t.path ∨ t.BoundsGuard name array index
      (n.toInt < (array.observed.length?.getD 0 : Nat)) u := by
  unfold Action.guardIndex at h
  rw [Action.start_of_collecting _ hcalls] at h
  cases hnull : array.observed.isNull with
  | true =>
    rw [hnull, if_pos rfl] at h
    cases h
    exact .inl rfl
  | false =>
    rw [hnull, if_neg Bool.false_ne_true] at h
    obtain ⟨i, s₁, hany, h₁⟩ := Action.bind_ok h
    have hi := instruction?_of_anyInstruction hany
    obtain rfl := (Action.Reads.anyInstruction name).ok hany
    obtain ⟨v, s₂, hvalue, h₂⟩ := Action.bind_ok h₁
    have hv := Action.value_ok hvalue
    obtain rfl := (Action.Reads.value array.name).ok hvalue
    obtain ⟨w, s₃, hvalue', h₃⟩ := Action.bind_ok h₂
    have hw := Action.value_ok hvalue'
    obtain rfl := (Action.Reads.value index.name).ok hvalue'
    obtain ⟨a, s₄, hterm, h₄⟩ := Action.bind_ok h₃
    obtain ⟨names, frames, hs₄, ha, -⟩ := Action.termOf_ok hterm
    obtain ⟨k, s₅, hterm', h₅⟩ := Action.bind_ok h₄
    obtain ⟨names', frames', hs₅, hk, hkeep⟩ := Action.termOf_ok hterm'
    have hpath : s₅.path = t.path := by rw [hs₅, hs₄]; rfl
    have hclauses : s₅.summary.clauses = t.summary.clauses := by
      rw [← summary_flushed t, hs₅, hs₄]
      rfl
    simp only [hindex] at h₅
    rw [Action.get_bind] at h₅
    split at h₅
    · cases h₅
      exact .inl hpath
    · obtain ⟨definition, hdefinition, hu⟩ := guardBounds_ok h₅
      refine .inr (.intro hi hv hw ?_ ?_ hdefinition rfl ?_ ?_)
      · rw [hu]
        exact hkeep v a ha
      · rw [hu]
        exact hk
      · rw [hu, ← hpath]
      · have hpending : s₅.pending = none := by rw [hs₅, hs₄]; rfl
        have hpending' : u.pending = none := by rw [hu]; exact hpending
        rw [summary_clauses_of_none hpending', ← hclauses, summary_clauses_of_none hpending, hu]

/-- The guard of an index. In every run, if an event adds the guard of an index while events count,
for an array of known length and an index that is a number, then the guard is defined as the index
being below the length of the array, and it is fixed to true exactly if the observed index is below
the observed length. For an index that is not negative this says whether the access is within
bounds, and for a negative one it says the opposite. -/
theorem index_guard_inBounds_iff {p : Program} (hp : p.Built) (config : Config)
    (dispatch : Dispatch) (es : List Event) {name : String} {array index : Operand} {length : Nat}
    {n : Int64} (hlength : array.observed.length? = some length)
    (hindex : index.observed.int? = some n) :
    let t := (new p config dispatch).run es
    let u := (t.deliver (.guardIndex name array index)).2
    t.callTrace = [] → u.path ≠ t.path →
    ∃ holds, t.BoundsGuard name array index holds u ∧
      (holds = true ↔ n.toInt < length) ∧
      ((holds = true ↔ 0 ≤ n.toInt ∧ n.toInt < length) ↔ 0 ≤ n.toInt) := by
  intro t u hcalls hpath
  have hs : t.program.Sound := run_program (new p config dispatch) es ▸ hp.sound
  have hok : (t.deliver (.guardIndex name array index)).1 = .ok () := by
    cases hr : (t.deliver (.guardIndex name array index)).1 with
    | ok => rfl
    | error failure =>
      have hnothing := (deliver_error hs hr).path
      exact absurd (hnothing.trans (List.append_nil _)) hpath
  obtain ⟨-, hhandle⟩ := handle_of_deliver_ok hok
  rcases guardIndex_run hcalls hindex hhandle with hsame | hguard
  · exact absurd hsame hpath
  · rw [hlength] at hguard
    refine ⟨_, hguard, ?_, ?_⟩
    · simp
    · simp only [Option.getD_some, decide_eq_true_eq]
      omega

open Sample in
/-- The greatest index of an array is within bounds. -/
theorem index_guard_inBounds_iff_last :
    let start := new (Program.ofBodies [making]) .standard .virtual
    let t := start.run [enterIndexing 2]
    let u := (t.deliver (indexing 2)).2
    three.length? = some 3 ∧ (Observed.int 2).int? = some 2 ∧ t.callTrace = [] ∧
      u.path ≠ t.path ∧
      u.path.map PathClause.text = ["@P arg$0IndexCheckarg$1 = true [BOUNDS_CHECK]"] ∧
      t.BoundsGuard "ret" ⟨"arg$0", three⟩ ⟨"arg$1", .int 2⟩ true u := by
  intro start t u
  have hp : (Program.ofBodies [making]).Built := by
    refine Program.built_ofBodies fun b hb => ?_
    obtain rfl := List.mem_singleton.mp hb
    exact .addAll (.addBlock _ (.new _ _)) _
  have hrun : t.callTrace = [] ∧ t.path.length = 0 ∧
      u.path.map PathClause.text = ["@P arg$0IndexCheckarg$1 = true [BOUNDS_CHECK]"] := by
    decide +kernel
  obtain ⟨hcalls, hlength, htext⟩ := hrun
  have hpath : u.path ≠ t.path := by
    intro heq
    have hone := congrArg List.length htext
    rw [heq, List.length_map, hlength] at hone
    cases hone
  have hthree : (⟨"arg$0", three⟩ : Operand).observed.length? = some 3 := rfl
  have htwo : (⟨"arg$1", .int 2⟩ : Operand).observed.int? = some 2 := rfl
  obtain ⟨holds, hguard, hiff, -⟩ := index_guard_inBounds_iff hp .standard .virtual
    [enterIndexing 2] hthree htwo hcalls hpath
  obtain rfl : holds = true := hiff.mpr (by decide)
  exact ⟨hthree, htwo, hcalls, hpath, htext, hguard⟩

open Sample in
/-- The index -1 is out of bounds, and its guard is fixed to be true. -/
theorem index_guard_negative :
    let start := new (Program.ofBodies [making]) .standard .virtual
    let u := start.run [enterIndexing (-1), indexing (-1)]
    start.succeeds [enterIndexing (-1), indexing (-1)] = true ∧ three.length? = some 3 ∧
      u.summary.clauses.map Clause.text =
        ["@S arg$0IndexCheckarg$1 = (arg$1 < arg$0.length)",
          "@P arg$0IndexCheckarg$1 = true [BOUNDS_CHECK]"] := by
  decide +kernel

end Tracer

end Concolic
