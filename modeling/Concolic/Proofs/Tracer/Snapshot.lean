import Concolic.Proofs.Tracer.Ending
import Concolic.Proofs.Tracer.Handling
import Concolic.Proofs.Tracer.Output
import Mathlib.Data.List.Forall2

/-!
# Handlers noted in frames

A handler starts from bindings that were put aside. The tracer does this each time it adds an
instruction to the trace: for each exception type handled around the instruction it notes the
bindings of the active frame. A frame keeps what was noted last.

* `Snapshot`: an instruction with the bindings right after it. `Program.catches p s`: the handled
  types around its instruction, all with its bindings.
* `Settled`: an ending traces nothing and changes nothing but bindings, or it traces one
  instruction and leaves the active frame with the handlers of the instruction and its bindings
  noted (`Ending.Fits.settled`).
* `Tracer.snapshots`: for each frame of a run, the instruction that was traced last in it, with the
  bindings of the frame right after the event. It is computed from the runs of the prefixes alone:
  from their depths, their traces and the bindings of their active frames.
* `noted_run`: what the frames note are the snapshots. So in a run all handlers of one frame start
  from the same bindings (`Noted.uniform`).
-/

namespace Concolic

/-- The exception types that are handled around an instruction. -/
def Program.handlers? (p : Program) (i : Instruction) : Option (List Ty) := do
  let b ← (p.body i.method).toOption
  return (← b.block? i.block).handlers

/-- An instruction that was traced, with the bindings of its frame right after. -/
structure Tracer.Snapshot where
  instruction : Instruction
  values : Bindings

/-- The handled types around the instruction of a snapshot, with its bindings. -/
def Program.catches (p : Program) : Option Tracer.Snapshot → Table Ty Bindings
  | none => ∅
  | some s => .ofList (((p.handlers? s.instruction).getD []).map (·, s.values))

/-- In a sound program there is a block around every instruction. -/
theorem Program.Sound.exists_handlers {p : Program} (hp : p.Sound) {i : Instruction}
    (h : p.Contains i) : ∃ handlers, p.handlers? i = some handlers := by
  obtain ⟨m, b, hb, hi⟩ := h
  have hlt := (hp.body _ _ (body_eq_ok hb)).block i hi
  have hblock : b.block? i.block = some b.blocks[i.block] := List.getElem?_eq_getElem hlt
  refine ⟨b.blocks[i.block].handlers, ?_⟩
  unfold handlers?
  rw [hp.body_of_mem hb hi]
  simp [Except.toOption, hblock]

namespace Tracer

variable {t u w : Tracer} {e : Event}

/-! ## Endings -/

/-- What an ending leaves: it is `quiet`, or it has `traced` an instruction and noted its handlers
with the bindings of the active frame. -/
inductive Settled (t : Tracer) : Tracer → Prop
  | quiet {u : Tracer} (htrace : u.trace = t.trace) (hsettings : u.settings = t.settings) :
      Settled t u
  | traced {u : Tracer} {i : Instruction} {f f' : Frame} {fs : List Frame}
      (htrace : u.trace = t.trace ++ [i]) (hframes : t.frames = f :: fs)
      (hframes' : u.frames = f' :: fs)
      (hcatches : f'.catches = t.program.catches (some ⟨i, f'.values⟩)) : Settled t u

/-- The tracer at which a decision of the active frame is traced. -/
def deciding (t : Tracer) (f : Frame) (fs : List Frame) (i : Instruction) (p : Predicate) :
    Tracer :=
  let c : PathClause := { check := .condition, instruction := i, predicate := p }
  { t with
    frames := { f with previousBlock := i.block } :: fs
    path := t.path ++ [c]
    clauses := t.clauses ++ [.path c] }

namespace Action

variable {i : Instruction} {f : Frame} {fs : List Frame} {handlers : List Ty}

theorem trace_run (hframes : t.frames = f :: fs) (h : t.program.handlers? i = some handlers) :
    Action.trace i t =
      .ok () { t with trace := t.trace ++ [i]
                      frames := f.refreshed handlers :: fs } := by
  obtain ⟨b, hb, h₁⟩ := Option.bind_eq_some_iff.mp h
  obtain ⟨block, hblock, heq⟩ := Option.bind_eq_some_iff.mp h₁
  cases heq
  unfold Action.trace refreshHandlers
  rw [modify_bind, get_bind, lift_bind_of_ok (Program.toOption_eq_some hb)]
  simp only [hblock]
  exact modifyFrame_cons _ hframes

theorem decide_eq_trace (hframes : t.frames = f :: fs) (p : Predicate) :
    Action.decide i p t = Action.trace i (t.deciding f fs i p) := by
  unfold Action.decide leaveBlock
  rw [bind_apply, modifyFrame_cons _ hframes]
  rfl

theorem passage_eq_trace (hframes : t.frames = f :: fs) :
    (Ending.passage i).act t =
      Action.trace i { t with frames := { f with previousBlock := i.block } :: fs } := by
  show (leaveBlock i >>= fun _ => Action.trace i) t = _
  unfold leaveBlock
  rw [bind_apply, modifyFrame_cons _ hframes]

/-- The last action traces an instruction with the frames as they were, but for the active one. -/
theorem settled_of_trace {act : Action Unit} {s : Tracer} {g : Frame}
    (hact : act t = Action.trace i s) (hframes : t.frames = f :: fs) (hs : s.frames = g :: fs)
    (htrace : s.trace = t.trace) (hprogram : s.program = t.program)
    (h : t.program.handlers? i = some handlers) : t.Settled (act.after t) := by
  have hrun := trace_run hs (hprogram ▸ h)
  have hafter : act.after t = (Action.trace i).after s := by
    unfold after
    rw [hact]
  rw [hafter, after_of_ok hrun]
  refine .traced (congrArg (· ++ [i]) htrace) hframes rfl ?_
  rw [Frame.catches_refreshed, Program.catches, h]
  rfl

end Action

theorem Learned.frames_cons (h : t.Learned u) {f : Frame} {fs : List Frame}
    (hf : t.frames = f :: fs) : ∃ g, u.frames = g :: fs := by
  have hframes : u.frames.modifyHead Frame.unbound = t.frames.modifyHead Frame.unbound :=
    congrArg Tracer.frames h.outline
  rw [hf] at hframes
  cases hu : u.frames with
  | nil =>
    rw [hu] at hframes
    cases hframes
  | cons g gs =>
    rw [hu] at hframes
    injection hframes with _ hgs
    exact ⟨g, by rw [hgs]⟩

/-- An ending without an instruction leaves the trace and the frames alone. -/
theorem Ending.frames_of_none (ending : Ending) (h : ending.instruction? = none) (t : Tracer) :
    (ending.act.after t).trace = t.trace ∧ (ending.act.after t).frames = t.frames := by
  cases ending with
  | aside act hact => exact ⟨(hact t).trace, (hact t).frames⟩
  | check reason i x ty observed =>
    show ((Action.guardInstance reason i x ty observed).after t).trace = _ ∧
      ((Action.guardInstance reason i x ty observed).after t).frames = _
    unfold Action.guardInstance Action.after
    rw [Action.modify_bind]
    cases Term.instanceOf x ty with
    | ok y => exact ⟨rfl, rfl⟩
    | error cause => exact ⟨rfl, rfl⟩
  | _ => cases h

/-- In a sound program there is a block around the instruction that an ending traces. -/
theorem Ending.Fits.exists_handlers {ending : Ending} {name : String} {kinds : List Ending.Kind}
    (hfits : ending.Fits t name kinds) (hs : t.program.Sound) {i : Instruction}
    (hi : ending.instruction? = some i) :
    ∃ f fs handlers, t.frames = f :: fs ∧ t.program.handlers? i = some handlers := by
  have hnamed := hfits.instruction i hi
  obtain ⟨f, fs, hf⟩ := Action.frames_of_instruction? hnamed
  obtain ⟨handlers, hh⟩ := hs.exists_handlers (Action.contains_of_instruction? hnamed)
  exact ⟨f, fs, handlers, hf, hh⟩

theorem Ending.Fits.settled {ending : Ending} {name : String} {kinds : List Ending.Kind}
    (hfits : ending.Fits t name kinds) (hs : t.program.Sound) :
    t.Settled (ending.act.after t) := by
  cases ending with
  | aside act h =>
    obtain ⟨htrace, hframes⟩ := (Ending.aside act h).frames_of_none rfl t
    exact .quiet htrace (congrArg (List.map Frame.unbound) hframes)
  | check reason i x ty observed =>
    obtain ⟨htrace, hframes⟩ := (Ending.check reason i x ty observed).frames_of_none rfl t
    exact .quiet htrace (congrArg (List.map Frame.unbound) hframes)
  | effect i p =>
    obtain ⟨f, fs, handlers, hf, hh⟩ := hfits.exists_handlers hs rfl
    exact Action.settled_of_trace (s := { t with clauses := t.clauses ++ [.state i p] })
      rfl hf hf rfl rfl hh
  | allocation x ty vs os i p =>
    obtain ⟨f, fs, handlers, hf, hh⟩ := hfits.exists_handlers hs rfl
    -- the values of the object are looked up after it is known to be new
    let s : Tracer := { t with
      nullChecked := x :: t.nullChecked, typeChecked := t.typeChecked.insert x ty }
    have hlearned : s.Learned ((Action.useAll vs os).after s) := Action.Learns.useAll vs os s
    have hact : (Ending.allocation x ty vs os i p).act t =
        (Action.useAll vs os >>= fun xs => Action.emit i (p xs)) s := rfl
    have hbind := Action.bind_apply (Action.useAll vs os) (fun xs => Action.emit i (p xs)) s
    cases huse : Action.useAll vs os s with
    | error cause v =>
      rw [Action.after_of_error huse] at hlearned
      rw [huse] at hbind
      rw [Action.after_of_error (hact.trans hbind)]
      exact .quiet hlearned.trace hlearned.settings
    | ok xs v =>
      rw [Action.after_of_ok huse] at hlearned
      rw [huse] at hbind
      obtain ⟨g, hg⟩ := hlearned.frames_cons hf
      refine Action.settled_of_trace (s := { v with clauses := v.clauses ++ [.state i (p xs)] })
        (hact.trans hbind) hf hg hlearned.trace hlearned.program hh
  | decision i p =>
    obtain ⟨f, fs, handlers, hf, hh⟩ := hfits.exists_handlers hs rfl
    exact Action.settled_of_trace (Action.decide_eq_trace hf p) hf rfl rfl rfl hh
  | passage i =>
    obtain ⟨f, fs, handlers, hf, hh⟩ := hfits.exists_handlers hs rfl
    exact Action.settled_of_trace (Action.passage_eq_trace hf) hf rfl rfl rfl hh
  | call c next =>
    obtain ⟨f, fs, handlers, hf, hh⟩ := hfits.exists_handlers hs rfl
    exact Action.settled_of_trace (s := { t with
      callTrace := ⟨c.instruction, next⟩ :: t.callTrace, pending := some c }) rfl hf hf rfl rfl hh

/-! ## Snapshots -/

/-- The snapshots of the frames of `u`, which an event has made of `t`. The frame of a method that
is entered has none, those of frames that are removed go with them, and an instruction that is
traced is the last one of the active frame, unless it has left its frame by returning. -/
def snapshotsAfter (t u : Tracer) (returning : Bool) (ss : List (Option Snapshot)) :
    List (Option Snapshot) :=
  let kept := if t.depth < u.depth then none :: ss else ss.drop (t.depth - u.depth)
  match returning, (u.trace.drop t.trace.length).head?, u.frames with
  | false, some i, f :: _ => some ⟨i, f.values⟩ :: kept.tail
  | _, _, _ => kept

/-- The snapshots of the frames after a run, from those before it. -/
def snapshots : Tracer → List (Option Snapshot) → List Event → List (Option Snapshot)
  | _, ss, [] => ss
  | t, ss, e :: es =>
    let u := (t.deliver e).2
    snapshots u (snapshotsAfter t u e.isRet ss) es

/-- The frame notes the handlers of the snapshot and its bindings. -/
def Notes (p : Program) (f : Frame) (s : Option Snapshot) : Prop := f.catches = p.catches s

/-- Each frame notes its snapshot. -/
def Noted (t : Tracer) (ss : List (Option Snapshot)) : Prop :=
  List.Forall₂ (Notes t.program) t.settings ss

variable {ss : List (Option Snapshot)}

theorem length_settings (t : Tracer) : t.settings.length = t.depth := List.length_map _

/-- An event that traces nothing keeps the snapshots of the frames that are left. -/
theorem snapshotsAfter_of_quiet (htrace : u.trace = t.trace) (returning : Bool) :
    snapshotsAfter t u returning ss =
      if t.depth < u.depth then none :: ss else ss.drop (t.depth - u.depth) := by
  have hnone : (u.trace.drop t.trace.length).head? = none := by simp [htrace]
  unfold snapshotsAfter
  rw [hnone]
  cases returning <;> rfl

/-- Frames that are left when others were removed have the snapshots they had. -/
theorem Noted.drop (h : t.Noted ss) (hprogram : u.program = t.program)
    (hsuffix : u.settings <:+ t.settings) :
    ¬ t.depth < u.depth ∧ u.Noted (ss.drop (t.depth - u.depth)) := by
  have hle := hsuffix.length_le
  rw [length_settings, length_settings] at hle
  refine ⟨Nat.not_lt.mpr hle, ?_⟩
  have hdrop : t.settings.drop (t.depth - u.depth) = u.settings := by
    rw [← length_settings t, ← length_settings u]
    exact (List.suffix_iff_eq_drop.mp hsuffix).symm
  unfold Noted
  rw [hprogram, ← hdrop]
  exact List.forall₂_drop _ h

theorem Noted.settled (h : t.Noted ss) (hkept : t.Kept w) (hsettled : w.Settled u)
    (hprogram : u.program = t.program) : u.Noted (snapshotsAfter t u false ss) := by
  obtain ⟨hdepth, hdrop⟩ := h.drop hkept.program hkept.settings
  cases hsettled with
  | quiet htrace hsettings =>
    have hdepth' : u.depth = w.depth := by rw [← length_settings, hsettings, length_settings]
    rw [snapshotsAfter_of_quiet (htrace.trans hkept.trace), hdepth', if_neg hdepth]
    unfold Noted at hdrop ⊢
    rw [hprogram, hsettings, ← hkept.program]
    exact hdrop
  | @traced i f f' fs htrace hframes hframes' hcatches =>
    have hdepth' : u.depth = w.depth := by
      unfold depth
      rw [hframes, hframes']
      rfl
    have hhead : (u.trace.drop t.trace.length).head? = some i := by
      rw [htrace, hkept.trace, List.drop_left]
      rfl
    have hsettings : w.settings = f.unbound :: fs.map Frame.unbound := by
      unfold settings
      rw [hframes]
      rfl
    unfold snapshotsAfter
    simp only [hhead, hframes', hdepth', if_neg hdepth]
    unfold Noted at hdrop ⊢
    rw [hsettings] at hdrop
    obtain ⟨s, ss', hs, htail, heq⟩ := List.forall₂_cons_left_iff.mp hdrop
    rw [heq, List.tail_cons, hprogram, ← hkept.program]
    unfold settings
    rw [hframes']
    exact .cons hcatches htail

theorem Noted.turned (h : t.Noted ss) (hturned : t.Turned e u) (hs : t.program.Sound)
    (hprogram : u.program = t.program) : u.Noted (snapshotsAfter t u e.isRet ss) := by
  cases hturned with
  | @entered f _ hframes hcatches htrace =>
    have hdepth : u.depth = t.depth + 1 := by
      rw [← length_settings, hframes, List.length_cons, length_settings]
    rw [snapshotsAfter_of_quiet htrace, if_pos (by omega)]
    unfold Noted
    rw [hframes, hprogram]
    exact .cons hcatches h
  | returned hret hframes =>
    obtain ⟨hdepth, hdrop⟩ := h.drop hprogram hframes
    unfold snapshotsAfter
    simp only [hret, if_neg hdepth]
    exact hdrop
  | stopped hkept =>
    obtain ⟨hdepth, hdrop⟩ := h.drop hprogram hkept.settings
    rw [snapshotsAfter_of_quiet hkept.trace, if_neg hdepth]
    exact hdrop
  | ended hret hkept hfits =>
    rw [hret]
    have hsound := hkept.program ▸ hs
    exact h.settled hkept (hfits.settled hsound) hprogram

theorem noted_deliver (h : t.Noted ss) (hs : t.program.Sound) (e : Event) :
    (t.deliver e).2.Noted (snapshotsAfter t (t.deliver e).2 e.isRet ss) := by
  -- neither the frames nor the trace tell whether the event was fatal
  refine deliver_of_after (P := fun u => u.program = t.program →
    u.Noted (snapshotsAfter t u e.isRet ss)) e ?_ ?_ (fun _ _ hu => hu) (deliver_program t e)
  · exact fun _ => h.turned (.stopped (.refl t)) hs rfl
  · exact fun hprogram => h.turned (handle_turned e t) hs hprogram

theorem noted_new (p : Program) (config : Config) (dispatch : Dispatch) :
    (new p config dispatch).Noted [] := .nil

/-- What the frames of a run note are its snapshots. -/
theorem noted_run (h : t.Noted ss) (hs : t.program.Sound) (es : List Event) :
    (t.run es).Noted (t.snapshots ss es) := by
  induction es generalizing t ss with
  | nil => exact h
  | cons e es ih => exact ih (noted_deliver h hs e) (deliver_program t e ▸ hs)

/-- What the frames catch is what their snapshots say. -/
theorem Noted.catches (h : t.Noted ss) : t.frames.map Frame.catches = ss.map t.program.catches := by
  have hsettings : t.frames.map Frame.catches = t.settings.map Frame.catches := by
    unfold settings
    rw [List.map_map]
    rfl
  rw [hsettings]
  exact List.forall₂_eq_eq_eq ▸ List.forall₂_map_left_iff.mpr (List.forall₂_map_right_iff.mpr h)

/-- All handlers of a frame start from the same bindings. -/
theorem Noted.uniform (h : t.Noted ss) {f : Frame} (hf : f ∈ t.frames) :
    ∃ values, ∀ c ∈ f.catches.entries, c.2 = values := by
  have hmem : f.catches ∈ ss.map t.program.catches := h.catches ▸ List.mem_map_of_mem hf
  obtain ⟨s, -, hs⟩ := List.mem_map.mp hmem
  rw [← hs]
  cases s with
  | none => exact ⟨∅, fun c hc => absurd hc List.not_mem_nil⟩
  | some s =>
    refine ⟨s.values, fun c hc => ?_⟩
    obtain ⟨ty, -, rfl⟩ := List.mem_map.mp (Table.mem_ofList hc)
    rfl

end Tracer

end Concolic
