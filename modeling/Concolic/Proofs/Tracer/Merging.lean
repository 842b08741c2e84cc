import Concolic.Proofs.Tracer.Departure
import Concolic.Proofs.Tracer.Evaluation
import Concolic.Proofs.Tracer.Fresh

/-!
# Where control merges

A phi gives its result the value that comes in from the block that control came from. Its result is
bound before the incoming value is read, in the same frame. So what is read is what was bound before
the phi, unless the incoming value is the result itself: then the phi reads its own new term.

* `Tracer.incomingTerm t f r v`: the term that the phi with the result `r` reads for the value `v`.
* `phi_run`: what a phi that succeeds adds.
* `phi_reads_bound_iff`: the phi reads what was bound exactly if it does not read its own result.
-/

namespace Concolic

/-- The values of a phi, each with the block that it comes in from. -/
def InstKind.sources? : InstKind → Option (List (Nat × Value))
  | .phi incoming => some incoming
  | _ => none

theorem InstKind.eq_phi {kind : InstKind} {incoming : List (Nat × Value)}
    (h : kind.sources? = some incoming) : kind = .phi incoming := by
  cases kind <;> cases h
  rfl

namespace Sample

/-- A loop with two variables: `%i` goes on with `%n`, and `%r` stays as it is. -/
def loop : Body.Builder :=
  let method := Method.new "app/Main" "loop" ⟨[.int], .void⟩ Method.staticFlag
  let arg : Value := .argument 0 .int
  ((Body.Builder.new method none).addBlocks ["entry", "body"]).addAll
    [(0, "j", .jump, none),
      (1, "%i", .phi [(0, arg), (1, .result "%n" .int)], some .int),
      (1, "%r", .phi [(0, arg), (1, .result "%r" .int)], some .int),
      (1, "%n", .binary .add, some .int), (1, "k", .jump, none)]

theorem built_loop : loop.Built := .addAll (.addBlocks (.new _ _) _) _

def enterLoop : Event := .methodEnter ⟨"app/Main", "loop", ["I"], "V"⟩ none [.int 7]

end Sample

namespace Tracer

variable {t u : Tracer} {f : Frame} {fs : List Frame} {r v : Value}

/-- The term that a phi with the result `r` reads for the value `v` in the frame `f`. -/
def incomingTerm (t : Tracer) (f : Frame) (r v : Value) : Term :=
  if v = r then t.fresh r else (f.values.get? v).getD ((t.issued r).fresh v)

private theorem term_defining (t : Tracer) (f : Frame) (fs : List Frame) (r v : Value)
    (seen : Option Observed) :
    (t.defining f fs r seen).term { f with values := f.values.insert r (t.fresh r) } v =
      t.incomingTerm f r v := by
  unfold term incomingTerm
  by_cases hv : v = r
  · subst hv
    rw [if_pos rfl, Table.get?_insert_self, Option.getD_some]
  · have hfresh : (t.defining f fs r seen).fresh v = (t.issued r).fresh v := by cases v <;> rfl
    rw [if_neg hv, Table.get?_insert_of_ne _ _ hv, hfresh]

private theorem incomingTerm_flushed (t : Tracer) (f : Frame) (r v : Value) :
    t.flushed.incomingTerm f r v = t.incomingTerm f r v := by
  have hissued : (t.flushed.issued r).fresh v = (t.issued r).fresh v := by
    cases r <;> cases v <;> rfl
  unfold incomingTerm
  rw [fresh_flushed, hissued]

/-- The phi reads the term that was bound, if there was one, unless the incoming value is the result
and had a term already. -/
theorem incomingTerm_eq_bound_iff (hnew : ∀ z, f.values.get? r = some z → z ≠ t.fresh r) :
    (∀ z, f.values.get? v = some z → t.incomingTerm f r v = z) ↔
      (v = r → f.values.get? r = none) := by
  unfold incomingTerm
  by_cases hv : v = r
  · subst hv
    rw [if_pos rfl]
    refine ⟨fun h _ => ?_, fun h z hz => ?_⟩
    · cases hget : f.values.get? v with
      | none => rfl
      | some z => exact absurd (h z hget).symm (hnew z hget)
    · rw [h rfl] at hz
      cases hz
  · rw [if_neg hv]
    refine iff_of_true (fun z hz => ?_) fun heq => absurd heq hv
    rw [hz, Option.getD_some]

/-- The result is bound, the incoming value is read, and an equality of their terms is added. -/
theorem merge_run {i : Instruction} {name : String} (hs : t.program.Sound)
    (hi : t.instruction? name = some i) (hf : t.frames = f :: fs) (r v : Value) (o : Observed) :
    ∃ u, (do
        let term ← Action.define ⟨r, o⟩
        let source ← Action.useUnseen v
        Action.emit i (i.effect.equality term source) : Action Unit) t = .ok () u ∧
      u.pending = t.pending ∧
      u.clauses = t.clauses ++
        [.state i (i.effect.equality (t.fresh r) (t.incomingTerm f r v))] ∧
      u.Binds r (t.fresh r) ∧ u.Binds v (t.incomingTerm f r v) := by
  obtain ⟨handlers, hh⟩ := hs.exists_handlers (Action.contains_of_instruction? hi)
  let g : Frame := { f with values := f.values.insert r (t.fresh r) }
  have hg : (t.defining f fs r (some o)).frames = g :: fs := rfl
  have hr : g.values.get? r = some (t.fresh r) := Table.get?_insert_self _ _ _
  have hterm : (t.defining f fs r (some o)).term g v = t.incomingTerm f r v :=
    term_defining t f fs r v (some o)
  rw [Action.bind_apply, Action.define_run ⟨r, o⟩ hf]
  dsimp only
  rw [Action.bind_apply, Action.useUnseen_run v hg, hterm]
  dsimp only
  obtain ⟨names, origins, concrete, hdefining⟩ := defining_eq t f fs r (some o)
  obtain ⟨names', origins', concrete', g', hused, hv, hkeep⟩ := used_eq v none hg
  rw [hterm] at hv
  rw [hused, hdefining]
  refine ⟨_, Action.emit_run _ rfl hh, rfl, rfl, ?_, ?_⟩
  · exact ⟨_, fs, rfl, hkeep r _ hr⟩
  · exact ⟨_, fs, rfl, hv⟩

/-- What a phi adds while events count. -/
theorem phi_run {result : Operand} (hs : t.program.Sound) (hcalls : t.callTrace = [])
    (h : Action.phi result t = .ok () u) :
    ∃ i incoming f fs r v, t.instruction? result.name = some i ∧ i.kind = .phi incoming ∧
      i.result = some r ∧ t.frames = f :: fs ∧
      incoming.find? (·.1 == f.previousBlock) = some (f.previousBlock, v) ∧
      u.summary.clauses = t.summary.clauses ++
        [.state i (i.effect.equality (t.fresh r) (t.incomingTerm f r v))] ∧
      u.Binds r (t.fresh r) ∧ u.Binds v (t.incomingTerm f r v) := by
  unfold Action.phi at h
  rw [Action.start_of_collecting _ hcalls] at h
  obtain ⟨⟨i, incoming⟩, s₁, hselect, h₁⟩ := Action.bind_ok h
  obtain ⟨rfl, -⟩ := Action.select_ok hselect
  obtain ⟨hi, hkind⟩ := Action.instruction?_of_select hselect
  obtain ⟨f, s₂, hframe, h₂⟩ := Action.bind_ok h₁
  obtain ⟨rfl, fs, hf⟩ := Action.frame_ok hframe
  dsimp only at h₂
  cases hfind : incoming.find? (·.1 == f.previousBlock) with
  | none => rw [hfind] at h₂; cases h₂
  | some found =>
    obtain ⟨b, v⟩ := found
    obtain rfl : b = f.previousBlock := by simpa using List.find?_some hfind
    rw [hfind] at h₂
    obtain ⟨r, s₃, hresult, h₃⟩ := Action.bind_ok h₂
    have hv := Action.resultOf_ok hresult
    obtain rfl := (Action.Reads.resultOf i).ok hresult
    obtain ⟨w, hw, hpending, hclauses, hbound, hread⟩ :=
      merge_run (t := t.flushed) hs hi hf r v result.observed
    obtain rfl : w = u := by
      cases hw.symm.trans h₃
      rfl
    rw [incomingTerm_flushed, fresh_flushed] at hclauses
    rw [fresh_flushed] at hbound
    rw [incomingTerm_flushed] at hread
    refine ⟨i, incoming, f, fs, r, v, hi, InstKind.eq_phi hkind, hv, hf, hfind, ?_, hbound, hread⟩
    rw [summary_clauses_of_none hpending, hclauses, ← summary_flushed t,
      summary_clauses_of_none rfl]

/-- What a phi reads. In every run, a phi that succeeds while events count states that the new term
of its result equals a term of the value that comes in from the previous block. If that value is
another one than the result, the term is the one that it was bound to before, and a new one only if
it was not bound. But the result of the phi is read after it was bound: if it comes in itself, as
along the back edge of a loop, the phi states that its new term equals itself. So what was bound
before is read exactly if the incoming value is not the result, or if the result was not bound. -/
theorem phi_reads_bound_iff {p : Program} (hp : p.Built) (config : Config) (dispatch : Dispatch)
    (es : List Event) (result : Operand) :
    let t := (new p config dispatch).run es
    let u := (t.deliver (.phi result)).2
    t.callTrace = [] → (t.deliver (.phi result)).1 = .ok () →
    ∃ (i : Instruction) (incoming : List (Nat × Value)) (f : Frame) (fs : List Frame)
      (r v : Value) (x y : Term),
      t.instruction? result.name = some i ∧ i.kind = .phi incoming ∧ i.result = some r ∧
      t.frames = f :: fs ∧
      incoming.find? (·.1 == f.previousBlock) = some (f.previousBlock, v) ∧
      u.summary.clauses = t.summary.clauses ++ [.state i (i.effect.equality x y)] ∧
      (u.Binds r x ∧ ∀ z, t.Keeps z → (z == x) = false) ∧
      (u.Binds v y ∧ (v = r → y = x) ∧ (v ≠ r → ∀ z, f.values.get? v = some z → y = z)) ∧
      ((∀ z, f.values.get? v = some z → y = z) ↔ (v = r → f.values.get? r = none)) := by
  intro t u hcalls hok
  have hprogram : t.program = p := run_program _ es
  have hunused : t.Unused := ((numbered_new p config dispatch).run es).unused
  obtain ⟨-, hhandle⟩ := handle_of_deliver_ok hok
  obtain ⟨i, incoming, f, fs, r, v, hi, hkind, hr, hf, hfind, hclauses, hbound, hread⟩ :=
    phi_run (hprogram ▸ hp.sound) hcalls hhandle
  have hnew (z : Term) (hz : t.Keeps z) : (z == t.fresh r) = false := by
    obtain ⟨ty, rfl⟩ := result_of_instruction? (hprogram ▸ hp) hi hr
    exact hunused i.name ty z hz
  have hold (z : Term) (hz : f.values.get? r = some z) : z ≠ t.fresh r := by
    rintro rfl
    have hsame := hnew _ (.of_binds ⟨f, fs, hf, hz⟩)
    rw [BEq.rfl] at hsame
    cases hsame
  refine ⟨i, incoming, f, fs, r, v, t.fresh r, t.incomingTerm f r v, hi, hkind, hr, hf, hfind,
    hclauses, ⟨hbound, hnew⟩, ⟨hread, fun heq => if_pos heq, fun hne => ?_⟩,
    incomingTerm_eq_bound_iff hold⟩
  exact (incomingTerm_eq_bound_iff hold).mpr fun heq => absurd heq hne

open Sample in
/-- In the second round of the loop, the first variable goes on with what was added. -/
theorem phi_reads_bound_iff_loop :
    let start := new (Program.ofBodies [loop]) .standard .virtual
    let es := [enterLoop, .jump "j", .phi ⟨"%i", .int 7⟩, .binary ⟨"%n", .int 8⟩ ⟨"%i", .int 7⟩
      ⟨"1", .int 1⟩, .jump "k"]
    let t := start.run es
    let u := (t.deliver (.phi ⟨"%i", .int 8⟩)).2
    t.callTrace = [] ∧ (t.deliver (.phi ⟨"%i", .int 8⟩)).1 = .ok () ∧
      u.summary.clauses.map Clause.text =
        ["@S %i_0 = arg$0", "@S %n_0 = (%i_0 + 1)", "@S %i_1 = %n_0"] ∧
      ∃ i x y, t.Binds (.result "%n" .int) y ∧ u.Binds (.result "%i" .int) x ∧
        u.summary.clauses = t.summary.clauses ++ [.state i (i.effect.equality x y)] := by
  intro start es t u
  have hp : (Program.ofBodies [loop]).Built :=
    Program.built_ofBodies fun b hb => List.mem_singleton.mp hb ▸ built_loop
  let n : Value := .result "%n" .int
  have hrun : t.callTrace = [] ∧ t.succeeds [.phi ⟨"%i", .int 8⟩] = true ∧
      u.summary.clauses.map Clause.text =
        ["@S %i_0 = arg$0", "@S %n_0 = (%i_0 + 1)", "@S %i_1 = %n_0"] ∧
      t.previousBlocks = [1] ∧
      (t.instruction? "%i").bind (·.kind.sources?) = some [(0, .argument 0 .int), (1, n)] ∧
      (t.instruction? "%i").bind Instruction.result = some (.result "%i" .int) ∧
      (t.frames.head?.bind fun f => f.values.get? n).isSome = true := by decide +kernel
  obtain ⟨hcalls, hok, htext, hblocks, hkind, hresult, hbound⟩ := hrun
  obtain ⟨i, incoming, f, fs, r, v, x, y, hi, hphi, hr, hf, hfind, hclauses, hx, hy, -⟩ :=
    phi_reads_bound_iff hp .standard .virtual es ⟨"%i", .int 8⟩ hcalls (succeeds_cons hok).1
  rw [hi, Option.bind_some, hphi] at hkind
  cases hkind
  rw [hi, Option.bind_some, hr] at hresult
  cases hresult
  have hprevious : f.previousBlock = 1 := by
    rw [previousBlocks, hf] at hblocks
    exact (List.cons.inj hblocks).1
  rw [hprevious] at hfind
  cases hfind
  obtain ⟨z, hz⟩ := Option.isSome_iff_exists.mp hbound
  rw [hf] at hz
  obtain rfl : y = z := hy.2.2 (by decide) z hz
  exact ⟨hcalls, (succeeds_cons hok).1, htext, i, x, y, ⟨f, fs, hf, hz⟩, hx.1, hclauses⟩

open Sample in
/-- In the second round of the loop, the variable that stays as it is was bound before to the term
`%r_0`, and the phi states that its new term equals itself. -/
theorem phi_reads_itself :
    let start := new (Program.ofBodies [loop]) .standard .virtual
    let es := [enterLoop, .jump "j", .phi ⟨"%r", .int 7⟩, .jump "k"]
    let t := start.run es
    let u := (t.deliver (.phi ⟨"%r", .int 7⟩)).2
    start.succeeds (es ++ [.phi ⟨"%r", .int 7⟩]) = true ∧ t.callTrace = [] ∧
      (t.frames.head?.bind fun f => f.values.get? (.result "%r" .int)).map Term.debug =
        some "%r_0: int" ∧
      u.summary.clauses.map Clause.text = ["@S %r_0 = arg$0", "@S %r_1 = %r_1"] := by
  decide +kernel

end Tracer

end Concolic
