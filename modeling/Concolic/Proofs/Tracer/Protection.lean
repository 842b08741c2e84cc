import Concolic.Proofs.Tracer.Transition
import Concolic.Proofs.Tracer.Unwinding

/-!
# Exceptions of guarded instructions

A guard is reported in front of its instruction. If the instruction throws, it is not reported
itself, and the next event is the exception that was caught. So the handlers that the tracer knows
then are those around the instruction traced before, which may stand in another block.

* `settings_of_guard`: a guard notes no handlers.
* `unwoundBy_depth_iff`: an exception keeps all frames exactly if the active one handles it.
* `guard_caught_iff`: after a guard, an exception stays in the active frame exactly if it is handled
  around the last instruction traced there. This is a handler around the guarded instruction if both
  stand in one block. Nothing is handled as long as nothing was traced in the frame.
* `guard_caught_lost`: an exception of the first instruction of a method is lost, although the block
  of the instruction has a handler for it.
-/

namespace Concolic

/-- The exception is handled around the instruction. -/
def Program.covers (p : Program) (i : Instruction) (thrown : Ty) : Bool :=
  (p.handlers? i).any fun handlers => handlers.any (p.hierarchy.isSubtype thrown ·)

namespace Tracer

variable {t u : Tracer} {e : Event}

/-- A guard ends without an instruction that is traced. -/
theorem Ending.Fits.instruction?_of_guard {ending : Ending} {name : String}
    (h : ending.Fits t name e.endings) (hguard : e.isGuard = true) :
    ending.instruction? = none := by
  have hkind : ending.kind = .aside ∨ ending.kind = .check := by
    have hmem := h.kind
    cases e with
    | guardNull | guardIndex | guardLength => exact .inl (List.mem_singleton.mp hmem)
    | guardType | guardExpectedType => simpa [Event.endings] using hmem
    | _ => cases hguard
  cases ending with
  | aside | check => rfl
  | _ => rcases hkind with h | h <;> cases h

/-- A guard that counts and succeeds changes nothing of the frames but bindings. -/
theorem settings_of_guard (hguard : e.isGuard = true) (hcalls : t.callTrace = [])
    (hok : (t.deliver e).1 = .ok ()) : (t.deliver e).2.settings = t.settings := by
  obtain ⟨-, hhandle⟩ := handle_of_deliver_ok hok
  generalize (t.deliver e).2 = u at hhandle
  rcases event_cases e with ⟨spelling, receiver, args, rfl⟩ | ⟨exception, rfl⟩ |
    ⟨name, hname, hcaught⟩
  · cases hguard
  · cases hguard
  have hret : e.isRet = false := by
    cases e with
    | ret => cases hguard
    | _ => rfl
  cases hread : e.isReadable with
  | false =>
    obtain ⟨cause, hfail⟩ := handle_unreadable hread t
    rw [hfail] at hhandle
    cases hhandle
  | true =>
    obtain ⟨act, hstart, hends⟩ := handle_endsIn hname hcaught hread hret
    have hcollecting : t.callTrace.isEmpty = true := by simp [hcalls]
    rw [hstart, Action.start_of_followed act (.idle hcalls), if_pos hcollecting] at hhandle
    rcases hends t.flushed.outline t.flushed rfl with
      ⟨cause, w, -, hact⟩ | ⟨w, ending, hw, hfits, hact⟩
    · rw [hact] at hhandle
      cases hhandle
    · rw [hact] at hhandle
      have hframes := (ending.frames_of_none (hfits.instruction?_of_guard hguard) w).2
      rw [Action.after_of_ok hhandle] at hframes
      have hsettings : u.settings = w.settings := congrArg (List.map Frame.unbound) hframes
      exact hsettings.trans hw.settings

private theorem deliver_caught_depth {exception : Operand} {type : Ty} (ha : t.aborted = false)
    (h : exception.observed.type? = some type) :
    (t.deliver (.caught exception)).2.depth = (t.unwoundBy type).depth := by
  have hposition : (t.deliver (.caught exception)).2.position = (t.unwoundBy type).position :=
    (deliver_position ha _).trans (Action.caught_after_some exception h t)
  rw [depth_eq, depth_eq]
  exact congrArg (fun o => o.stack.length) hposition

/-- All frames are left exactly if the active one handles the exception. -/
theorem unwoundBy_depth_iff {f : Frame} {below : List Frame} (hf : t.frames = f :: below)
    (thrown : Ty) :
    (t.unwoundBy thrown).depth = t.depth ↔
      Action.handler? t.program.hierarchy f thrown ≠ none := by
  have hdepth : t.depth = below.length + 1 := by
    unfold depth
    rw [hf]
    rfl
  have hleft : (t.unwoundBy thrown).frames =
      (Action.unwound t.flushed thrown (f :: below) t.callTrace).1 := by
    rw [← hf]
    rfl
  unfold depth at hdepth ⊢
  rw [hdepth, hleft]
  cases hhandler : Action.handler? t.program.hierarchy f thrown with
  | some handler =>
    have hnone : ∀ g ∈ ([] : List Frame),
        Action.handler? t.flushed.program.hierarchy g thrown = none := by simp
    have hunwound : (Action.unwound t.flushed thrown ([] ++ f :: below) t.callTrace).1 =
        f.restored handler :: below :=
      Action.unwound_of_handles hnone hhandler t.callTrace
    rw [List.nil_append] at hunwound
    simp [hunwound]
  | none =>
    have hlength := (unwound_settings t.flushed thrown below
      (Action.callsAfter t.flushed f t.callTrace)).length_le
    simp only [List.length_map] at hlength
    rw [Action.unwound]
    have hhandler' : Action.handler? t.flushed.program.hierarchy f thrown = none := hhandler
    simp only [hhandler', ne_eq, not_true_eq_false, iff_false]
    omega

/-- The types that a snapshot notes are those handled around its instruction. -/
private theorem mem_keys_catches {p : Program} {s : Snapshot} {ty : Ty} :
    ty ∈ (p.catches (some s)).keys ↔ ty ∈ (p.handlers? s.instruction).getD [] := by
  unfold Program.catches
  constructor
  · intro hty
    obtain ⟨c, hc, rfl⟩ := List.mem_map.mp hty
    obtain ⟨ty, hhandler, rfl⟩ := List.mem_map.mp (Table.mem_ofList hc)
    exact hhandler
  · intro hty
    refine List.mem_map.mpr ⟨(ty, s.values), Table.mem_entries_of_get? ?_, rfl⟩
    refine Table.get?_ofList (List.mem_map_of_mem hty) fun values hvalues => ?_
    obtain ⟨_, _, heq⟩ := List.mem_map.mp hvalues
    exact (Prod.mk.inj heq).2.symm

/-- What the active frame catches is what its snapshot says. -/
private theorem handles_iff_of_notes {p : Program} {f : Frame} {last : Option Snapshot}
    (h : Notes p f last) (thrown : Ty) :
    f.handles p.hierarchy thrown = true ↔
      ∃ s, last = some s ∧ p.covers s.instruction thrown = true := by
  unfold Notes at h
  rw [Frame.handles, h, List.any_eq_true]
  cases last with
  | none =>
    refine iff_of_false ?_ ?_
    · rintro ⟨ty, hty, -⟩
      cases hty
    · rintro ⟨s, hs, -⟩
      cases hs
  | some s =>
    simp only [mem_keys_catches, Program.covers, Option.some.injEq, exists_eq_left',
      Option.any_eq_true]
    cases p.handlers? s.instruction with
    | none => simp
    | some handlers => simp

/-- After a guard that succeeds, an exception stays in the active frame exactly if it is handled
around the instruction that was traced last there. So a handler around the guarded instruction
counts if that instruction stands in the same block, and no handler counts as long as no instruction
of the method was traced. -/
theorem guard_caught_iff {p : Program} (hp : p.Built) (config : Config) (dispatch : Dispatch)
    (es : List Event) {e : Event} {i : Instruction} {exception : Operand} {thrown : String}
    (hguard : e.isGuard = true) (hthrown : exception.observed.type? = some (.object thrown)) :
    let start := new p config dispatch
    let t := start.run es
    let u := (t.deliver e).2
    let v := (u.deliver (.caught exception)).2
    t.callTrace = [] → e.subject?.bind t.instruction? = some i → (t.deliver e).1 = .ok () →
    (∀ f, t.frames.head? = some f → ∀ ty ∈ f.catches.keys,
      p.hierarchy.isSubtype (.object thrown) ty = true → p.hierarchy.Lineal thrown ty) →
    ∃ last, (start.snapshots [] es).head? = some last ∧
      (v.depth = t.depth ↔ ∃ s, last = some s ∧ p.covers s.instruction (.object thrown) = true) ∧
      ∀ s, last = some s → s.instruction.method = i.method → s.instruction.block = i.block →
        (v.depth = t.depth ↔ p.covers i (.object thrown) = true) := by
  intro start t u v hcalls hsubject hok hline
  have hprogram : t.program = p := run_program start es
  obtain ⟨name, -, hi⟩ := Option.bind_eq_some_iff.mp hsubject
  obtain ⟨f, below, hf⟩ := Action.frames_of_instruction? hi
  -- the snapshot of the active frame
  have hnoted : t.Noted (start.snapshots [] es) :=
    noted_run (noted_new p config dispatch) hp.sound es
  have hsettings : t.settings = f.unbound :: below.map Frame.unbound := by
    unfold settings
    rw [hf]
    rfl
  unfold Noted at hnoted
  rw [hsettings, hprogram] at hnoted
  obtain ⟨last, ss, hnotes, -, hss⟩ := List.forall₂_cons_left_iff.mp hnoted
  -- the guard leaves the handlers of the frame as they are
  have hu : u.settings = f.unbound :: below.map Frame.unbound :=
    (settings_of_guard hguard hcalls hok).trans hsettings
  obtain ⟨f', below', hf', hunbound, -⟩ := List.map_eq_cons_iff.mp hu
  have hprogram' : u.program = p := (deliver_program t e).trans hprogram
  have haborted : u.aborted = false := by
    have hfixed := congrArg Prod.snd (deliver_of_ok hok).fixed
    exact hfixed.trans (handle_of_deliver_ok hok).1
  have hdepth : u.depth = t.depth := by
    rw [← length_settings, hu, ← hsettings, length_settings]
  have hcatches : f'.unbound.catches = f.unbound.catches := congrArg Frame.catches hunbound
  have hhandles : f'.handles p.hierarchy (.object thrown) =
      f.unbound.handles p.hierarchy (.object thrown) :=
    congrArg (fun c : Table Ty Bindings => c.keys.any (p.hierarchy.isSubtype (.object thrown) ·))
      hcatches
  have hstay : v.depth = t.depth ↔ ∃ s, last = some s ∧
      p.covers s.instruction (.object thrown) = true := by
    rw [deliver_caught_depth haborted hthrown, ← hdepth, unwoundBy_depth_iff hf', hprogram',
      ne_eq, Action.handler?_eq_none_iff, Bool.not_eq_false, hhandles]
    · exact handles_iff_of_notes hnotes (.object thrown)
    · have hline' := hline f (by rw [hf]; rfl)
      change ∀ ty ∈ f.unbound.catches.keys, _ at hline'
      rw [← hcatches] at hline'
      exact hline'
  refine ⟨last, by rw [hss]; rfl, hstay, ?_⟩
  rintro s rfl hmethod hblock
  have hcovers : p.covers s.instruction (.object thrown) = p.covers i (.object thrown) := by
    unfold Program.covers Program.handlers?
    rw [hmethod, hblock]
  rw [hstay, ← hcovers]
  simp

open Sample

/-- The method has thrown in its guarded block, so the handler of the block is known when the
instruction is guarded once more. -/
theorem guard_caught_iff_guarded :
    let p := Program.ofBodies [guarded]
    let start := new p .standard .virtual
    let t := start.run [enterGuarded, throwing]
    let guard : Event := .guardNull "thr" ⟨"arg$0", runtimeException⟩
    let v := ((t.deliver guard).2.deliver (.caught ⟨"%e", runtimeException⟩)).2
    t.callTrace.isEmpty = true ∧ t.succeeds [guard] = true ∧
      ((start.snapshots [] [enterGuarded, throwing]).head?.join.any fun s =>
        p.covers s.instruction (.object "java/lang/RuntimeException")) = true ∧
      v.depth = t.depth := by
  intro p start t guard v
  have hp : p.Built := Program.built_ofBodies fun b hb => List.mem_singleton.mp hb ▸ built_guarded
  let type : Ty := .object "java/lang/RuntimeException"
  have hrun : t.callTrace.isEmpty = true ∧ t.succeeds [guard] = true ∧
      ((start.snapshots [] [enterGuarded, throwing]).head?.join.any fun s =>
        p.covers s.instruction type) = true ∧
      (Operand.mk "%e" runtimeException).observed.type? = some type ∧
      (t.frames.head?.all fun f => f.catches.keys = [.object "java/lang/Throwable"]) = true ∧
      (guard.subject?.bind t.instruction?).isSome = true := by decide +kernel
  obtain ⟨hcalls, hok, hlast, hthrown, hkeys, hi⟩ := hrun
  refine ⟨hcalls, hok, hlast, ?_⟩
  obtain ⟨i, hsubject⟩ := Option.isSome_iff_exists.mp hi
  have hline : ∀ f, t.frames.head? = some f → ∀ ty ∈ f.catches.keys,
      p.hierarchy.isSubtype type ty = true →
        p.hierarchy.Lineal "java/lang/RuntimeException" ty := by
    intro f hf ty hty _
    rw [hf] at hkeys
    have hkeys : f.catches.keys = [.object "java/lang/Throwable"] := of_decide_eq_true hkeys
    rw [hkeys, List.mem_singleton] at hty
    rw [hty]
    exact .inr (.inr ⟨"java/lang/Throwable", 2, rfl, by decide +kernel⟩)
  obtain ⟨last, hhead, hiff, -⟩ := guard_caught_iff hp .standard .virtual [enterGuarded, throwing]
    rfl hthrown (List.isEmpty_iff.mp hcalls) hsubject (succeeds_cons hok).1 hline
  rw [hhead] at hlast
  obtain ⟨s, hs, hcovers⟩ := (Option.any_eq_true _ _).mp hlast
  exact hiff.mpr ⟨s, hs, hcovers⟩

/-- A method throws its argument, which is null, in a block that handles this. The guard of the
first instruction is stated, but the tracer does not find the handler and is aborted. -/
theorem guard_caught_lost :
    let p := Program.ofBodies [guarded]
    let enterNull : Event := .methodEnter
      ⟨"app/Main", "guarded", ["Ljava/lang/RuntimeException;"], "V"⟩ none [.null]
    let t := (new p .standard .virtual).run [enterNull]
    let guard : Event := .guardNull "thr" ⟨"arg$0", .null⟩
    let caught : Event := .caught ⟨"%e", .object 1 "java/lang/NullPointerException" []⟩
    p.Built ∧
      p.hierarchy.Lineal "java/lang/NullPointerException" (.object "java/lang/Throwable") ∧
      t.callTrace.isEmpty = true ∧ t.succeeds [guard] = true ∧
      (t.instruction? "thr").any
        (p.covers · (.object "java/lang/NullPointerException")) = true ∧
      t.depth = 1 ∧ t.succeeds [guard, caught] = false ∧ (t.run [guard, caught]).depth = 0 ∧
      (t.run [guard, caught]).aborted = true := by
  intro p enterNull t guard caught
  have hp : p.Built := Program.built_ofBodies fun b hb => List.mem_singleton.mp hb ▸ built_guarded
  refine ⟨hp, ?_, by decide +kernel⟩
  exact .inr (.inr ⟨"java/lang/Throwable", 3, rfl, by decide +kernel⟩)

end Tracer

end Concolic
