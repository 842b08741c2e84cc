import Concolic.Proofs.Tracer.Allocation

/-!
# No guard twice

What is guarded once is not guarded again, and an object that is made in the run needs no null guard
at all. This holds however the guards come about, through inlined calls and exceptions and around
events that fail, since no condition is forgotten and no object gets a term that was used before.

* `Tracer.Ledger t bs xs`: the batches of guards and the objects of a run, with what is kept of them
  in the tracer. `Ledger.deliver` is about one event, `Ledger.run` about a run.
* `guards_once`: the guards of a run are for pairwise different conditions, none of them that a new
  object is null, and each batch stands in the clauses in one piece.
-/

namespace Concolic

namespace Sample

/-- Makes an object, and is given an array and an index. -/
def making : Body.Builder :=
  let method := Method.new "app/Main" "making" ⟨[.array .int, .int], .int⟩ Method.staticFlag
  ((Body.Builder.new method none).addBlock "entry").addAll
    [(0, "%o", .new, some (.object "app/Main")), (0, "ret", .ret, none)]

def ints : Observed := .array 1 .int []

def enterMaking : Event := .methodEnter ⟨"app/Main", "making", ["[I", "I"], "I"⟩ none [ints, .int 2]

end Sample

namespace Tracer

variable {t u : Tracer} {e : Event} {bs : List (List (Guard × Condition))} {xs : List Term}

/-! ## Clauses in one piece -/

/-- What ends with a decision stays in one piece: only the clause of a call is ever taken back, and
only from the end. -/
theorem infix_deliver {cs : List Clause} {c : PathClause}
    (h : cs ++ [.path c] <:+: t.summary.clauses) (e : Event) :
    cs ++ [.path c] <:+: (t.deliver e).2.summary.clauses := by
  obtain ⟨-, -, -, hclauses⟩ := deliver_appends t e
  split at hclauses
  · obtain ⟨call, -, heq⟩ := hclauses
    rw [heq, List.infix_concat_iff] at h
    rcases h with hsuffix | hinfix
    · obtain ⟨before, hbefore⟩ := hsuffix
      rw [← List.append_assoc] at hbefore
      cases (List.append_inj' hbefore rfl).2
    · exact hinfix
  · exact h.trans hclauses.isInfix

/-- The clauses of guards, one guard after the other. -/
def batchClauses (b : List (Guard × Condition)) : List Clause := b.flatMap fun g => g.1.clauses

theorem batchClauses_deliver {b : List (Guard × Condition)}
    (h : batchClauses b <:+: t.summary.clauses) (e : Event) :
    batchClauses b <:+: (t.deliver e).2.summary.clauses := by
  rcases List.eq_nil_or_concat b with rfl | ⟨gs, g, rfl⟩
  · exact List.nil_infix
  · -- the last clause of the last guard is a decision
    have hlast : batchClauses (gs ++ [g]) =
        (batchClauses gs ++ g.1.clauses.dropLast) ++ [.path g.1.fixed] := by
      simp [batchClauses, Guard.clauses]
    rw [List.concat_eq_append, hlast] at h ⊢
    exact infix_deliver h e

/-! ## Histories of guards and allocations -/

/-- The batches of guards and the objects of a run up to now. -/
structure Ledger (t : Tracer) (bs : List (List (Guard × Condition))) (xs : List Term) : Prop where
  guards : t.Guards bs.flatten
  whole : ∀ b ∈ bs, batchClauses b <:+: t.summary.clauses
  made : ∀ x ∈ xs, t.Checks (.null x)
  apart : ∀ g ∈ bs.flatten, ∀ x ∈ xs, (Condition.null x).same g.2 = false

namespace Ledger

/-- Whatever the event, what was stated stays in one piece and what was remembered is. -/
theorem keep (h : t.Ledger bs xs) (e : Event) : (t.deliver e).2.Ledger bs xs :=
  ⟨h.guards.deliver e, fun b hb => batchClauses_deliver (h.whole b hb) e,
    fun x hx => deliver_checks e (h.made x hx), h.apart⟩

/-- A batch of new guards is for nothing that is remembered. -/
theorem add {b : List (Guard × Condition)} (h : t.Ledger bs xs) (hu : u.Ledger bs xs)
    (hadds : t.Adds u b) : u.Ledger (bs ++ [b]) xs := by
  have hflatten : (bs ++ [b]).flatten = bs.flatten ++ b := by simp
  refine ⟨hflatten ▸ h.guards.append hadds hu.guards, fun c hc => ?_, hu.made, fun g hg x hx => ?_⟩
  · rcases List.mem_append.mp hc with hc | hc
    · exact hu.whole c hc
    · obtain rfl := List.mem_singleton.mp hc
      rw [hadds.clauses]
      exact (List.suffix_append _ _).isInfix
  · rw [hflatten] at hg
    rcases List.mem_append.mp hg with hg | hg
    · exact h.apart g hg x hx
    · exact (h.made x hx).not_same (hadds.states g hg).2.1

/-- A new object has a term of its own, so nothing was guarded that is about it. -/
theorem make (h : t.Ledger bs xs) (hu : u.Ledger bs xs) (ht : t.Unused) {x : Term} {name : String}
    {ty : Ty} (hx : x = t.fresh (.result name ty)) (hchecks : u.Checks (.null x)) :
    u.Ledger bs (xs ++ [x]) := by
  refine ⟨hu.guards, hu.whole, fun y hy => ?_, fun g hg y hy => ?_⟩
  · rcases List.mem_append.mp hy with hy | hy
    · exact hu.made y hy
    · obtain rfl := List.mem_singleton.mp hy
      exact hchecks
  · rcases List.mem_append.mp hy with hy | hy
    · exact hu.apart g hg y hy
    · obtain rfl := List.mem_singleton.mp hy
      have hkeeps := (h.guards.states g hg).2.keeps
      cases hc : g.2 with
      | null z =>
        rw [hc] at hkeeps
        have hne := ht name ty z (hkeeps z List.mem_cons_self)
        rw [← hx] at hne
        exact BEq.comm.trans hne
      | _ => rfl

/-- One event adds at most one batch, which it asks for, or makes at most one object. -/
theorem deliver (h : t.Ledger bs xs) (hp : t.program.Built) (ht : t.Unused) (e : Event) :
    ∃ new : List (List (Guard × Condition)),
      t.guardClauses [e] = batchClauses new.flatten ∧
      (∀ b ∈ new, e.Asks t.config.maxArrayLength (b.map Prod.snd)) ∧
      (t.deliver e).2.Ledger (bs ++ new) (xs ++ t.allocations [e]) := by
  have hkeep := h.keep e
  by_cases hcount : e.guardCount = 0
  · refine ⟨[], by simp [guardClauses, hcount, batchClauses], by simp, ?_⟩
    rw [List.append_nil]
    cases hallocation : e.isAllocation with
    | false => simpa [allocations, hallocation] using hkeep
    | true =>
      cases deliver_allocated t hallocation with
      | nothing hclauses => simpa [allocations, hallocation, hclauses] using hkeep
      | made hi hv hclauses hq hnull =>
        obtain ⟨ty, rfl⟩ := result_of_instruction? hp hi hv
        simpa [allocations, hallocation, hclauses, hq, Clause.predicate] using
          h.make hkeep ht rfl hnull
  · have hallocation : e.isAllocation = false := by
      cases e <;> first | rfl | exact absurd rfl hcount
    obtain ⟨b, hadds, hasks⟩ := deliver_adds t hcount
    have hmade : t.allocations [e] = [] := by simp [allocations, hallocation]
    have hclauses : t.guardClauses [e] = batchClauses b := by
      simp [guardClauses, hcount, hadds.clauses, batchClauses]
    rw [hmade, List.append_nil, hclauses]
    rcases hasks with rfl | hasks
    · exact ⟨[], rfl, by simp, (List.append_nil bs).symm ▸ hkeep⟩
    · exact ⟨[b], by simp, by simpa using hasks, h.add hkeep hadds⟩

theorem run (h : t.Ledger bs xs) (hp : t.program.Built) (ht : t.Numbered) (es : List Event) :
    ∃ new : List (List (Guard × Condition)),
      t.guardClauses es = batchClauses new.flatten ∧
      (∀ b ∈ new, ∃ e ∈ es, e.Asks t.config.maxArrayLength (b.map Prod.snd)) ∧
      (t.run es).Ledger (bs ++ new) (xs ++ t.allocations es) := by
  induction es generalizing t bs xs with
  | nil => exact ⟨[], rfl, by simp, by simpa [allocations, Tracer.run] using h⟩
  | cons e es ih =>
    obtain ⟨first, hfirst, hasks, hledger⟩ := h.deliver hp ht.unused e
    have hsetup : (t.deliver e).2.setup = t.setup := run_setup t [e]
    have hconfig : (t.deliver e).2.config = t.config := congrArg (fun s => s.2.2) hsetup
    have hprogram : (t.deliver e).2.program = t.program := congrArg Prod.fst hsetup
    obtain ⟨later, hlater, hasks', hrun⟩ := ih hledger (hprogram ▸ hp) (ht.run [e])
    have hclauses : t.guardClauses (e :: es) =
        t.guardClauses [e] ++ (t.deliver e).2.guardClauses es := by simp [guardClauses]
    have hmade : t.allocations (e :: es) =
        t.allocations [e] ++ (t.deliver e).2.allocations es := by simp [allocations]
    refine ⟨first ++ later, ?_, fun b hb => ?_, ?_⟩
    · rw [hclauses, hfirst, hlater]
      simp [batchClauses]
    · rcases List.mem_append.mp hb with hb | hb
      · exact ⟨e, List.mem_cons_self, hasks b hb⟩
      · obtain ⟨e', he', hb⟩ := hasks' b hb
        exact ⟨e', List.mem_cons_of_mem e he', hconfig ▸ hb⟩
    · rw [hmade, ← List.append_assoc, ← List.append_assoc]
      exact hrun

end Ledger

/-- No guard is stated twice. The guards of a run come in batches, each of them asked for by an
event: a null guard, an index guard, or the two guards of a length. Each guard is defined as its
condition says, and the decision that fixes it follows its definition at once, in one piece with the
rest of its batch. All conditions are different: no term is guarded twice against null, none twice
as a length, and no array and index twice. And no null guard is for an object that was made in the
run, before the guard or after it. -/
theorem guards_once {p : Program} (hp : p.Built) (config : Config) (dispatch : Dispatch)
    (es : List Event) :
    let t := new p config dispatch
    ∃ bs : List (List (Guard × Condition)),
      t.guardClauses es = batchClauses bs.flatten ∧
      (∀ b ∈ bs, (∃ e ∈ es, e.Asks config.maxArrayLength (b.map Prod.snd)) ∧
        batchClauses b <:+: (t.run es).summary.clauses) ∧
      (∀ g ∈ bs.flatten, g.1.States g.2) ∧
      bs.flatten.Pairwise (fun g h => g.2.same h.2 = false) ∧
      ∀ g ∈ bs.flatten, ∀ x ∈ t.allocations es, (Condition.null x).same g.2 = false := by
  intro t
  have hnone : t.Ledger [] [] := by
    refine ⟨⟨?_, .nil⟩, ?_, ?_, ?_⟩ <;> simp
  obtain ⟨bs, hclauses, hasks, hrun⟩ := hnone.run hp (numbered_new p config dispatch) es
  rw [List.nil_append, List.nil_append] at hrun
  exact ⟨bs, hclauses, fun b hb => ⟨hasks b hb, hrun.whole b hb⟩,
    fun g hg => (hrun.guards.states g hg).1, hrun.guards.apart, hrun.apart⟩

open Sample in
/-- Everything is guarded twice, and so is a new object. The array is empty. -/
theorem guards_once_making :
    let t := new (Program.ofBodies [making]) .standard .virtual
    let guards := [nullGuard "ret" ints, .guardNull "ret" ⟨"%o", .null⟩,
      .guardIndex "ret" ⟨"arg$0", ints⟩ ⟨"arg$1", .int 2⟩, .guardLength "ret" ⟨"arg$1", .int 2⟩]
    let es := enterMaking :: .new "%o" :: guards ++ guards
    t.succeeds es = true ∧ (t.allocations es).map Term.debug = ["%o_0: app/Main"] ∧
      ∃ bs : List (List (Guard × Condition)),
        (batchClauses bs.flatten).map Clause.text =
          ["@S arg$0NullCheck = (arg$0 == null)", "@P arg$0NullCheck = false [NULL_CHECK]",
            "@S arg$0IndexCheckarg$1 = (arg$1 < arg$0.length)",
            "@P arg$0IndexCheckarg$1 = false [BOUNDS_CHECK]",
            "@S arg$1PositiveLengthCheck = (arg$1 >= 0)",
            "@P arg$1PositiveLengthCheck = true [BOUNDS_CHECK]",
            "@S arg$1UpperBoundLengthCheck = (arg$1 < 10000)",
            "@P arg$1UpperBoundLengthCheck = true [BOUNDS_CHECK]"] ∧
        bs.flatten.Pairwise (fun g h => g.2.same h.2 = false) ∧
        ∀ g ∈ bs.flatten, ∀ x ∈ t.allocations es, (Condition.null x).same g.2 = false := by
  intro t guards es
  have hp : (Program.ofBodies [making]).Built := by
    refine Program.built_ofBodies fun b hb => ?_
    obtain rfl := List.mem_singleton.mp hb
    exact .addAll (.addBlock _ (.new _ _)) _
  obtain ⟨bs, hclauses, -, -, hapart, hmade⟩ := guards_once hp .standard .virtual es
  refine ⟨by decide +kernel, by decide +kernel, bs, ?_, hapart, hmade⟩
  rw [← hclauses]
  decide +kernel

end Tracer

end Concolic
