import Concolic.Proofs.Tracer.Nesting
import Concolic.Proofs.Tracer.Transition

/-!
# The shape of the call trace

The calls to come back to are pushed by a call that is made and by one that is made again while it
is suppressed. They are taken off when the execution is back after a call, when a call is answered,
and when an exception unwinds the frames.

* `Body.Succeeds b i j`: in the list of instructions, `j` is the next one after `i` that belongs to
  the same block. What `Body.next?` finds in a body that was built succeeds in this sense
  (`Body.Built.succeeds_of_next?`).
* `Handled.callTrace`: an event leaves some of the calls that were there, or a single call. So all
  of them are the same call, in every run (`uniform_run`).
* `callTrace_shape`: this and `Position.Grounded` together say what the call trace looks like.
-/

namespace Concolic

/-! ## Instructions of a block -/

namespace Body

/-- The instruction `j` comes after `i` in its block: no other one of the block stands between. -/
def Succeeds (b : Body) (i j : Instruction) : Prop :=
  ∃ front between rest, b.instructions = front ++ i :: (between ++ j :: rest) ∧
    j.block = i.block ∧ ∀ k ∈ between, k.block ≠ i.block

theorem Built.succeeds_of_next? {b : Body} {i j : Instruction} (hb : b.Built)
    (hi : i ∈ b.instructions) (h : b.next? i = some j) : b.Succeeds i j := by
  obtain ⟨front, rest, hinstructions⟩ := List.append_of_mem hi
  rw [hb.tabled.next?_eq_find? hb.sound hinstructions, List.find?_eq_some_iff_append] at h
  obtain ⟨hblock, between, rest, rfl, hbetween⟩ := h
  refine ⟨front, between, rest, hinstructions, eq_of_beq hblock, fun k hk heq => ?_⟩
  have hother := hbetween k hk
  rw [heq, beq_self_eq_true] at hother
  cases hother

end Body

theorem Program.Built.succeeds_of_next? {p : Program} {i j : Instruction} (hp : p.Built)
    (hi : p.Knows i) (h : p.next? i = some j) :
    ∃ b, p.body i.method = .ok b ∧ b.Succeeds i j := by
  obtain ⟨b, hb, hnamed⟩ := hi
  obtain ⟨c, hc, hnext⟩ := next?_eq_some h
  cases hb.symm.trans hc
  have hbuilt := hp.body (body_eq_ok hb)
  exact ⟨b, hb, hbuilt.succeeds_of_next? (Body.mem_of_instruction? hnamed) hnext⟩

namespace Tracer

variable {t u : Tracer} {e : Event}

/-! ## One call to come back to -/

/-- An event leaves calls that were there, or the one call that it has made. -/
theorem Handled.callTrace {ok : Bool} (h : t.Handled e ok u) :
    u.callTrace ⊆ t.callTrace ∨ ∃ site, u.callTrace = [site] := by
  have hempty (hu : u.callTrace = []) : u.callTrace ⊆ t.callTrace := hu ▸ List.nil_subset _
  cases h with
  | refused | pushed | nullException => exact .inl (List.Subset.refl _)
  | answered => exact .inl fun _ => List.mem_of_mem_tail
  | entered _ hcalls _ hu =>
    have hstill := Action.entered_keep (P := fun w => w.callTrace = t.callTrace) hu
      (fun v o hframes h =>
        (congrArg Position.callTrace (Action.defining_position v (some o) hframes)).trans h) rfl
    exact .inl (hempty (hstill.trans hcalls))
  | uncaught | unwound =>
    exact .inl (Action.unwound_callTrace t.flushed _ t.frames t.callTrace).subset
  | skipped _ _ hu => exact .inl fun _ hsite => hu.mem_callTrace hsite
  | acted hs hw hu =>
    have hposition := position_of_begun (.inr hw) hu
    exact .inl (hempty ((congrArg Position.callTrace hposition).trans hs.callTrace))
  | failed hs hw hu =>
    have hposition := position_of_begun hw hu
    exact .inl (hempty ((congrArg Position.callTrace hposition).trans hs.callTrace))
  | notCalled _ hw hu =>
    have hposition := hu.position.trans hw.position
    exact .inl (hempty (congrArg Position.callTrace hposition))
  | @called _ _ _ _ _ _ _ w s _ call next _ hw hs _ hv =>
    have hcalls : s.callTrace = [] := congrArg Position.callTrace (hs.position.trans hw.position)
    refine .inr ⟨⟨call.instruction, next⟩, (congrArg Position.callTrace hv.position).trans ?_⟩
    exact congrArg (_ :: ·) hcalls
  | returned =>
    obtain ⟨_, _, _, _, _, hreturned⟩ := returned_eq t.resumed _ _ _ _ _
    exact .inl (hempty (congrArg Tracer.callTrace hreturned))

/-- All calls to come back to are the same. -/
def Uniform (t : Tracer) : Prop := ∀ site ∈ t.callTrace, ∀ other ∈ t.callTrace, other = site

theorem Handled.uniform {ok : Bool} (h : t.Handled e ok u) (ht : t.Uniform) : u.Uniform := by
  intro site hsite other hother
  rcases h.callTrace with hsub | ⟨made, hmade⟩
  · exact ht site (hsub hsite) other (hsub hother)
  · rw [hmade, List.mem_singleton] at hsite hother
    rw [hsite, hother]

theorem uniform_run (ht : t.Uniform) (es : List Event) : (t.run es).Uniform := by
  induction es generalizing t with
  | nil => exact ht
  | cons e es ih =>
    exact ih (deliver_keep (P := Uniform) e ht (fun _ _ h => h.uniform ht) fun _ _ h => h)

theorem uniform_new (p : Program) (config : Config) (dispatch : Dispatch) :
    (new p config dispatch).Uniform := fun _ hsite => absurd hsite List.not_mem_nil

/-- In every run the call trace is one call any number of times, with the instruction after it in
the same block of the same body. While a call is pending it is that one, once. -/
theorem callTrace_shape {p : Program} (hp : p.Built) (config : Config) (dispatch : Dispatch)
    (es : List Event) :
    let t := (new p config dispatch).run es
    (∀ site ∈ t.callTrace, t.callTrace = List.replicate t.callTrace.length site ∧
        ∃ b, p.body site.call.method = .ok b ∧ b.Succeeds site.call site.next) ∧
      ∀ call, t.pending = some call → ∃ site, t.callTrace = [site] ∧
        site.call = call.instruction := by
  intro t
  have huniform : t.Uniform := uniform_run (uniform_new p config dispatch) es
  have hgrounded : t.position.Grounded := grounded_run (grounded_new hp config dispatch) es
  have hprogram : t.program = p := run_program _ es
  refine ⟨fun site hsite => ⟨?_, ?_⟩, fun call hcall => ?_⟩
  · exact List.eq_replicate_iff.mpr ⟨rfl, huniform site hsite⟩
  · rw [← hprogram]
    exact hgrounded.built.succeeds_of_next? (hgrounded.known site hsite) (hgrounded.next site hsite)
  · obtain ⟨next, hcalls⟩ := hgrounded.pending call hcall
    exact ⟨_, hcalls, rfl⟩

open Sample in
/-- While the list is asked for its size the method is entered again and asks it again, so that the
call is to be come back to twice, each time at the addition. -/
theorem callTrace_shape_grown :
    let p := Program.ofBodies [grown]
    let t := new p .standard .exact
    let es := [enter "grown", size]
    p.Built ∧
      (∃ call site, (t.run es).pending = some call ∧ (t.run es).callTrace = [site] ∧
        site.call = call.instruction) ∧
      ∃ site b, (t.run (es ++ es)).callTrace = [site, site] ∧ site.next.name = "%b" ∧
        p.body site.call.method = .ok b ∧ b.Succeeds site.call site.next := by
  intro p t es
  have hp : p.Built := Program.built_ofBodies fun b hb => List.mem_singleton.mp hb ▸ built_grown
  have hrun : (t.run es).pending.isSome = true ∧
      (t.run (es ++ es)).callTrace.map (fun site => site.next.name) = ["%b", "%b"] := by
    decide +kernel
  obtain ⟨hpending, hnext⟩ := hrun
  obtain ⟨call, hcall⟩ := Option.isSome_iff_exists.mp hpending
  have hlength : (t.run (es ++ es)).callTrace.length = 2 := by
    rw [← List.length_map, hnext]
    rfl
  obtain ⟨site, hsite⟩ := List.exists_mem_of_length_pos (hlength ▸ Nat.zero_lt_two)
  obtain ⟨hcopies, b, hb, hsucceeds⟩ :=
    (callTrace_shape hp .standard .exact (es ++ es)).1 site hsite
  obtain ⟨top, htop, hinstruction⟩ := (callTrace_shape hp .standard .exact es).2 call hcall
  refine ⟨hp, ⟨call, top, hcall, htop, hinstruction⟩, site, b, ?_, ?_, hb, hsucceeds⟩
  · rw [hlength] at hcopies
    exact hcopies
  · have hname : site.next.name ∈ ["%b", "%b"] := hnext ▸ List.mem_map_of_mem hsite
    simpa using hname

end Tracer

end Concolic
