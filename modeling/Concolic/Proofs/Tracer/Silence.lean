import Concolic.Proofs.Tracer.Suppression
import Concolic.Proofs.Tracer.Transition

/-!
# Suppression is silent

While a call is executed that is not inlined, events are suppressed. They tell the tracer where the
execution is and nothing else.

* `Tracer.Silent t u`: the tracers differ at most in the frames, in the calls to come back to and in
  whether they are aborted.
* `handled_silent`: an event that finds the tracer suppressed and leaves it so is silent, however it
  ends. Hence so is a whole run in which the tracer stays suppressed
  (`silent_while_suppressed`).
-/

namespace Concolic.Tracer

variable {t u w : Tracer} {e : Event} {name : String}

/-- The tracer `u` is `t` apart from the frames, the calls to come back to and whether it is
aborted. So both have the same clauses, path and trace, and know and have checked the same of every
term. -/
def Silent (t u : Tracer) : Prop :=
  ∃ frames callTrace aborted, u = { t with frames, callTrace, aborted }

namespace Silent

theorem refl (t : Tracer) : t.Silent t := ⟨t.frames, t.callTrace, t.aborted, rfl⟩

theorem trans (h : t.Silent u) (h' : u.Silent w) : t.Silent w := by
  obtain ⟨_, _, _, rfl⟩ := h
  obtain ⟨frames, callTrace, aborted, rfl⟩ := h'
  exact ⟨frames, callTrace, aborted, rfl⟩

theorem abort (h : t.Silent u) (fatal : Bool) : t.Silent { u with aborted := fatal } := by
  obtain ⟨frames, callTrace, _, rfl⟩ := h
  exact ⟨frames, callTrace, fatal, rfl⟩

theorem pending (h : t.Silent u) : u.pending = t.pending := by
  obtain ⟨_, _, _, rfl⟩ := h
  rfl

end Silent

theorem Followed.silent (h : t.Followed name u) : t.Silent u := by
  cases h with
  | idle | unknown | within => exact .refl t
  | again | back | left => exact ⟨_, _, _, rfl⟩

theorem silent_flushed (h : t.Silent u) (hpending : t.pending = none) : t.Silent u.flushed := by
  rw [flushed_of_none (h.pending.trans hpending)]
  exact h

theorem silent_unwoundBy (thrown : Ty) (hpending : t.pending = none) :
    t.Silent (t.unwoundBy thrown) := by
  unfold unwoundBy
  rw [flushed_of_none hpending]
  exact ⟨_, _, _, rfl⟩

/-- An event that finds the tracer suppressed and leaves it so is silent. -/
theorem handled_silent {ok : Bool} (h : t.Handled e ok u) (hphase : t.phase = .suppressed)
    (hafter : u.phase = .suppressed) : t.Silent u := by
  obtain ⟨hpending, hcalls⟩ := phase_eq_suppressed_iff.mp hphase
  obtain ⟨hpending', hcalls'⟩ := phase_eq_suppressed_iff.mp hafter
  cases h with
  | refused => exact .refl t
  | answered hcall =>
    rw [hpending] at hcall
    cases hcall
  | pushed =>
    unfold pushing
    rw [flushed_of_none hpending]
    exact ⟨_, _, _, rfl⟩
  | entered _ hnone => exact absurd hnone hcalls
  | nullException => exact silent_flushed (.refl t) hpending
  | uncaught | unwound => exact silent_unwoundBy _ hpending
  | skipped _ _ hu => exact silent_flushed hu.silent hpending
  -- An event that is acted on leaves no call to come back to, or a pending one.
  | acted hs hw hu =>
    have hposition := position_of_begun (.inr hw) hu
    exact absurd ((congrArg Position.callTrace hposition).trans hs.callTrace) hcalls'
  | failed hs hw hu =>
    have hposition := position_of_begun hw hu
    exact absurd ((congrArg Position.callTrace hposition).trans hs.callTrace) hcalls'
  | notCalled hs hw hu =>
    have hposition := hu.position.trans hw.position
    exact absurd ((congrArg Position.callTrace hposition).trans hs.callTrace) hcalls'
  | called _ _ _ _ hv =>
    rw [hv.pending] at hpending'
    cases hpending'
  | returned hs =>
    obtain ⟨_, _, _, _, _, heq⟩ := returned_eq t.resumed _ _ _ _ _
    rw [heq] at hcalls'
    exact absurd rfl hcalls'

theorem deliver_silent (hphase : t.phase = .suppressed)
    (hafter : (t.deliver e).2.phase = .suppressed) : t.Silent (t.deliver e).2 :=
  deliver_keep (P := fun u => u.phase = .suppressed → t.Silent u) e (fun _ => .refl t)
    (fun _ _ hu hafter => handled_silent hu hphase hafter)
    (fun _ fatal h hafter => (h hafter).abort fatal) hafter

/-- Suppression is silent: an event that finds the tracer suppressed and leaves it so changes at
most the frames, the calls to come back to and whether the tracer is aborted. The same holds of a
run of events as long as the tracer stays suppressed. -/
theorem silent_while_suppressed (hphase : t.phase = .suppressed) :
    (∀ e, (t.deliver e).2.phase = .suppressed → t.Silent (t.deliver e).2) ∧
      ∀ es, (∀ es', es' <+: es → (t.run es').phase = .suppressed) → t.Silent (t.run es) := by
  refine ⟨fun e hafter => deliver_silent hphase hafter, fun es hinside => ?_⟩
  induction es generalizing t with
  | nil => exact .refl t
  | cons e es ih =>
    rw [forall_prefix_cons] at hinside
    have hafter : (t.deliver e).2.phase = .suppressed := hinside.2 [] List.nil_prefix
    exact (deliver_silent hphase hafter).trans (ih hafter hinside.2)

open Sample in
/-- While the list is asked for its size, another method is called back and asks it too. Then an
event fails, and the method returns. -/
theorem silent_while_suppressed_tail :
    let p := Program.ofBodies [grown, tail]
    let t := (new p .standard .virtual).run [enter "grown", size, enter "tail"]
    let es := [size, .methodEnter ⟨"app/Main", "tail", ["?"], "I"⟩ none [], ret "%a" 3]
    t.phase = .suppressed ∧ t.succeeds es = false ∧ (t.run es).depth < t.depth ∧
      t.Silent (t.run es) := by
  intro p t es
  have hrun : t.phase = .suppressed ∧ t.succeeds es = false ∧ (t.run es).depth < t.depth ∧
      ((List.range 4).all fun k => (t.run (es.take k)).phase = .suppressed) = true := by
    decide +kernel
  obtain ⟨hphase, hfails, hdepth, hprefixes⟩ := hrun
  refine ⟨hphase, hfails, hdepth, (silent_while_suppressed hphase).2 es fun es' hes => ?_⟩
  have hlength : es'.length ∈ List.range 4 := List.mem_range.mpr (Nat.lt_succ_of_le hes.length_le)
  rw [List.prefix_iff_eq_take.mp hes]
  exact of_decide_eq_true (List.all_eq_true.mp hprefixes _ hlength)

end Concolic.Tracer
