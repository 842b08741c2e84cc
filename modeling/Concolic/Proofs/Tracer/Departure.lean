import Concolic.Proofs.Tracer.Evaluation
import Concolic.Proofs.Tracer.Nesting
import Mathlib.Data.List.Induction

/-!
# The blocks that control came from

A frame knows the block that its method left last, and a phi takes its value from there. Each frame
has its own: methods that are called have their control flow in frames of their own.

* `Event.isTransfer`: the instruction of the event leaves its block.
* `Tracer.departs t e`: the block that the active frame leaves by the event, if it counts and
  succeeds.
* `Tracer.Departed t e u`: what an event does to the blocks of the frames (`deliver_departed`). A
  new frame comes from block 0, frames are removed, or the active one alone leaves a block.
* `Tracer.departures`: the blocks that a frame leaves in a run. In one step its block changes only
  with these (`Departed.blockAt`), and so the last of them is its block (`blockAt_run`).
* `previousBlock_eq_last_departure`: each frame comes from the block that it left last.
-/

namespace Concolic

/-- The event reports an instruction that leaves its block. -/
def Event.isTransfer : Event → Bool
  | .branch .. | .switch .. | .tableSwitch .. | .jump .. => true
  | _ => false

/-! ## A method with several blocks -/

namespace Body.Builder

def addBlocks (b : Builder) (names : List String) : Builder := names.foldl (·.addBlock ·) b

theorem Built.addBlocks {b : Builder} (hb : b.Built) (names : List String) :
    (b.addBlocks names).Built := by
  induction names generalizing b with
  | nil => exact hb
  | cons name names ih => exact ih (.addBlock name hb)

end Body.Builder

namespace Sample

/-- Calls itself on its way through four blocks. -/
def walk : Body.Builder :=
  ((Body.Builder.new (Method.new "app/Main" "walk" ⟨[], .int⟩ Method.staticFlag) none).addBlocks
    ["b0", "b1", "b2", "b3"]).addAll
    [(0, "j0", .jump, none), (1, "j1", .jump, none), (2, "%v", .call, some .int),
      (2, "j2", .jump, none), (3, "ret", .ret, none)]

theorem built_walk : walk.Built := .addAll (.addBlocks (.new _ _) _) _

def enterWalk : Event := .methodEnter ⟨"app/Main", "walk", [], "I"⟩ none []

def callWalk : Event := .call "%v" ⟨"app/Main", "walk", [], "I"⟩ (some "%v") none [] []

end Sample

namespace Tracer

variable {t u w : Tracer} {e : Event} {name : String}

/-- The blocks that control came from, in each frame, the innermost first. -/
def previousBlocks (t : Tracer) : List Nat := t.frames.map Frame.previousBlock

theorem previousBlocks_eq (t : Tracer) :
    t.previousBlocks = t.settings.map Frame.previousBlock := by
  unfold previousBlocks settings
  rw [List.map_map]
  rfl

theorem length_previousBlocks (t : Tracer) : t.previousBlocks.length = t.depth := List.length_map _

/-- The block that the frame on top of `below` frames came from. -/
def blockAt (t : Tracer) (below : Nat) : Option Nat := t.previousBlocks.reverse[below]?

theorem lt_depth_of_blockAt {k b : Nat} (h : t.blockAt k = some b) : k < t.depth := by
  have hlt := (List.getElem?_eq_some_iff.mp h).1
  rwa [List.length_reverse, length_previousBlocks] at hlt

section

variable {b k : Nat} {bs : List Nat} (h : t.previousBlocks = b :: bs)

include h

private theorem depth_of_cons : t.depth = bs.length + 1 := by
  rw [← length_previousBlocks, h, List.length_cons]

private theorem blockAt_of_lt (hk : k < bs.length) : t.blockAt k = bs.reverse[k]? := by
  unfold blockAt
  rw [h, List.reverse_cons]
  exact List.getElem?_append_left (by rwa [List.length_reverse])

private theorem blockAt_top : t.blockAt bs.length = some b := by
  unfold blockAt
  rw [h, List.reverse_cons, ← List.length_reverse]
  exact List.getElem?_concat_length

end

theorem Kept.previousBlocks (h : t.Kept u) : u.previousBlocks <:+ t.previousBlocks := by
  rw [previousBlocks_eq, previousBlocks_eq]
  exact h.settings.map _

theorem Learned.previousBlocks (h : t.Learned u) : u.previousBlocks = t.previousBlocks := by
  rw [previousBlocks_eq, previousBlocks_eq, h.settings]

/-- The block that the active frame leaves by the event. It must be a transfer that succeeds while
events count. -/
def departs (t : Tracer) (e : Event) : Option Nat :=
  if e.isTransfer && t.succeeds [e] && (t.deliver e).2.callTrace.isEmpty then
    (e.subject?.bind t.instruction?).map Instruction.block
  else none

/-! ## Endings -/

/-- The ending leaves the block of its instruction. -/
def Ending.Kind.leaves : Ending.Kind → Bool
  | .decision | .passage => true
  | _ => false

/-- A transfer is an event that ends by leaving a block. -/
theorem leaves_of_mem_endings {kind : Ending.Kind} (h : kind ∈ e.endings) :
    kind.leaves = e.isTransfer := by
  have hall : e.endings.all (fun k => k.leaves == e.isTransfer) = true := by cases e <;> rfl
  exact eq_of_beq (List.all_eq_true.mp hall kind h)

namespace Action

theorem previousBlocks_trace (i : Instruction) (t : Tracer) :
    ((trace i).after t).previousBlocks = t.previousBlocks := by
  unfold trace refreshHandlers after
  rw [modify_bind, get_bind]
  cases hb : t.program.body i.method with
  | error cause => rfl
  | ok b =>
    rw [lift_bind_of_ok rfl]
    cases b.block? i.block with
    | none => rfl
    | some block =>
      unfold previousBlocks
      cases hf : t.frames with
      | nil => rfl
      | cons f fs => rfl

end Action

/-- An ending that leaves no block keeps the blocks of all frames. -/
theorem Ending.previousBlocks_act (ending : Ending) (h : ending.kind.leaves = false) (t : Tracer) :
    (ending.act.after t).previousBlocks = t.previousBlocks := by
  cases ending with
  | aside act hact => exact congrArg (List.map Frame.previousBlock) (hact t).frames
  | check reason i x ty observed =>
    have hframes := ((Ending.check reason i x ty observed).frames_of_none rfl t).2
    exact congrArg (List.map Frame.previousBlock) hframes
  | effect i p =>
    exact Action.previousBlocks_trace i { t with clauses := t.clauses ++ [.state i p] }
  | allocation x ty vs os i p =>
    let s : Tracer := { t with
      nullChecked := x :: t.nullChecked, typeChecked := t.typeChecked.insert x ty }
    have hlearned : s.Learned ((Action.useAll vs os).after s) := Action.Learns.useAll vs os s
    show ((Action.useAll vs os >>= fun xs => Action.emit i (p xs)).after s).previousBlocks = _
    cases huse : Action.useAll vs os s with
    | error cause v =>
      rw [Action.after_of_error huse] at hlearned
      rw [Action.after_bind_of_error huse]
      exact hlearned.previousBlocks
    | ok xs v =>
      rw [Action.after_of_ok huse] at hlearned
      rw [Action.after_bind_of_ok huse]
      exact (Action.previousBlocks_trace i _).trans hlearned.previousBlocks
  | call c next => exact Action.previousBlocks_trace c.instruction { t with
      callTrace := ⟨c.instruction, next⟩ :: t.callTrace, pending := some c }
  | decision | passage => cases h

/-- In a sound program, an ending that leaves a block succeeds, and the active frame comes from this
block. -/
theorem Ending.Fits.leaves {ending : Ending} {kinds : List Ending.Kind}
    (hfits : ending.Fits t name kinds) (hs : t.program.Sound) (h : ending.kind.leaves = true) :
    ∃ i f fs u, t.instruction? name = some i ∧ t.frames = f :: fs ∧ ending.act t = .ok () u ∧
      u.previousBlocks = i.block :: fs.map Frame.previousBlock ∧ u.callTrace = t.callTrace := by
  cases ending with
  | decision i p =>
    obtain ⟨f, fs, handlers, hf, hh⟩ := hfits.exists_handlers hs rfl
    exact ⟨i, f, fs, _, hfits.instruction i rfl, hf, Action.decide_run p hf hh, rfl, rfl⟩
  | passage i =>
    obtain ⟨f, fs, handlers, hf, hh⟩ := hfits.exists_handlers hs rfl
    have hrun := Action.trace_run
      (t := { t with frames := { f with previousBlock := i.block } :: fs }) rfl hh
    exact ⟨i, f, fs, _, hfits.instruction i rfl, hf, (Action.passage_eq_trace hf).trans hrun, rfl,
      rfl⟩
  | _ => cases h

/-! ## Events -/

/-- What an event does to the blocks that control came from: a frame is new and comes from block 0,
frames may have been removed, or the active frame has left a block. -/
inductive Departed (t : Tracer) (e : Event) (u : Tracer) : Prop
  | entered (hnone : t.departs e = none) (hblocks : u.previousBlocks = 0 :: t.previousBlocks)
  | kept (hnone : t.departs e = none) (hblocks : u.previousBlocks <:+ t.previousBlocks)
  | left {b old : Nat} {bs : List Nat} (hb : t.departs e = some b)
      (hold : t.previousBlocks = old :: bs) (hblocks : u.previousBlocks = b :: bs)

theorem departs_of_error {failure : Failure} (h : (t.deliver e).1 = .error failure) :
    t.departs e = none := by
  simp [departs, succeeds, h, Except.isOk, Except.toBool]

private theorem departs_of_suppressed (h : (t.deliver e).2.callTrace ≠ []) :
    t.departs e = none := by
  simp [departs, h]

private theorem departs_of_ok {i : Instruction} (htransfer : e.isTransfer = true)
    (hname : e.subject? = some name) (hi : t.instruction? name = some i)
    (hok : (t.deliver e).1 = .ok ()) (hcalls : (t.deliver e).2.callTrace = []) :
    t.departs e = some i.block := by
  simp [departs, succeeds, htransfer, hname, hi, hok, hcalls, Except.isOk, Except.toBool]

/-- An event that leaves no block, of whatever kind it is. -/
theorem Turned.departed (h : t.Turned e u) (htransfer : e.isTransfer = false) :
    t.Departed e u := by
  have hnone : t.departs e = none := by simp [departs, htransfer]
  cases h with
  | @entered f _ hframes _ _ _ hblock =>
    refine .entered hnone ?_
    rw [previousBlocks_eq, hframes, previousBlocks_eq, ← hblock]
    rfl
  | returned _ hframes =>
    refine .kept hnone ?_
    rw [previousBlocks_eq, previousBlocks_eq]
    exact hframes.map _
  | stopped hkept => exact .kept hnone hkept.previousBlocks
  | @ended _ ending w _ hkept hfits =>
    refine .kept hnone ?_
    rw [ending.previousBlocks_act ((leaves_of_mem_endings hfits.kind).trans htransfer) w]
    exact hkept.previousBlocks

theorem deliver_transfer (hs : t.program.Sound) (ha : t.aborted = false)
    (htransfer : e.isTransfer = true) : t.Departed e (t.deliver e).2 := by
  obtain ⟨name, hname, hcaught, hread, hret⟩ : ∃ name, e.subject? = some name ∧
      e.isCaught = false ∧ e.isReadable = true ∧ e.isRet = false := by
    cases e <;> first | exact ⟨_, rfl, rfl, rfl, rfl⟩ | cases htransfer
  obtain ⟨act, hhandle, hends⟩ := handle_endsIn hname hcaught hread hret
  -- an event that fails leaves no block
  have hfailed {cause : Error} {u : Tracer} (hr : handle e t = .error cause u)
      (hblocks : u.previousBlocks <:+ t.previousBlocks) : t.Departed e (t.deliver e).2 := by
    have hd := deliver_of_handle_error ha hr
    refine .kept (departs_of_error (congrArg Prod.fst hd)) ?_
    rw [hd]
    exact hblocks
  rcases Action.start_cases name act t with ⟨cause, hr⟩ | ⟨u, hu, ⟨hcalls, hr⟩ | ⟨hcalls, hr⟩⟩
  · exact hfailed (hhandle ▸ hr) (List.suffix_refl _)
  · have hd := deliver_of_handle_ok ha (hhandle ▸ hr)
    refine .kept (departs_of_suppressed ?_) ?_
    · rw [hd]
      exact hcalls
    · rw [hd]
      exact hu.kept.flushed.previousBlocks
  · rw [← hhandle, hu.flushed_eq_resumed hcalls] at hr
    rcases Action.EndsIn.fits hends t.resumed with
      ⟨cause, w, hw, hact⟩ | ⟨w, ending, hw, hfits, hact⟩
    · have hblocks : w.previousBlocks = t.previousBlocks := hw.previousBlocks
      exact hfailed (hr.trans hact) (hblocks ▸ List.suffix_refl _)
    · have hsound : w.program.Sound := hw.program ▸ hs
      have hleaves := (leaves_of_mem_endings hfits.kind).trans htransfer
      obtain ⟨i, f, fs, v, hi, hf, hv, hblocks, hvcalls⟩ := hfits.leaves hsound hleaves
      have hd := deliver_of_handle_ok ha (hr.trans (hact.trans hv))
      have hold : t.previousBlocks = f.previousBlock :: fs.map Frame.previousBlock := by
        have hsame : w.previousBlocks = t.previousBlocks := hw.previousBlocks
        rw [← hsame, previousBlocks, hf]
        rfl
      refine .left (departs_of_ok htransfer hname (i := i) ?_ (congrArg Prod.fst hd) ?_) hold ?_
      · exact (instruction?_of_position hw.position name).symm.trans hi
      · rw [hd]
        exact hvcalls.trans (congrArg Position.callTrace hw.position)
      · rw [hd]
        exact hblocks

theorem deliver_departed (hs : t.program.Sound) (e : Event) : t.Departed e (t.deliver e).2 := by
  cases ha : t.aborted with
  | true =>
    have hd : t.deliver e = (.error ⟨e.task, .aborted⟩, t) := by simp [deliver, ha]
    rw [hd]
    exact .kept (departs_of_error (congrArg Prod.fst hd)) (List.suffix_refl _)
  | false =>
    cases htransfer : e.isTransfer with
    | true => exact deliver_transfer hs ha htransfer
    | false =>
      obtain ⟨fatal, hd⟩ := deliver_after ha e
      rw [hd]
      cases (handle_turned e t).departed htransfer with
      | entered hnone hblocks => exact .entered hnone hblocks
      | kept hnone hblocks => exact .kept hnone hblocks
      | left hb => simp [departs, htransfer] at hb

/-- What an event does to the block of one frame: the frame is new, or it is the active one and
leaves a block, or its block is what it was. -/
theorem Departed.blockAt {k b : Nat} (h : t.Departed e u) (hb : u.blockAt k = some b) :
    (k = t.depth ∧ u.depth = t.depth + 1 ∧ b = 0) ∨
      (t.depth = k + 1 ∧ t.departs e = some b ∧ ∃ old, t.blockAt k = some old) ∨
      (t.blockAt k = some b ∧ (t.depth = k + 1 → t.departs e = none)) := by
  have hk := lt_depth_of_blockAt hb
  cases h with
  | entered hnone hblocks =>
    have hdepth : u.depth = t.depth + 1 := by
      rw [depth_of_cons hblocks, length_previousBlocks]
    by_cases hlt : k < t.depth
    · rw [blockAt_of_lt hblocks (length_previousBlocks t ▸ hlt)] at hb
      exact .inr (.inr ⟨hb, fun _ => hnone⟩)
    · obtain rfl : k = t.depth := by omega
      rw [← length_previousBlocks, blockAt_top hblocks] at hb
      cases hb
      exact .inl ⟨rfl, hdepth, rfl⟩
  | kept hnone hblocks =>
    obtain ⟨rest, hrest⟩ := List.reverse_prefix.mpr hblocks
    refine .inr (.inr ⟨?_, fun _ => hnone⟩)
    unfold Tracer.blockAt
    rw [← hrest, List.getElem?_append_left (List.getElem?_eq_some_iff.mp hb).1]
    exact hb
  | @left _ _ bs hleaves hold hblocks =>
    have hdepth := depth_of_cons hold
    rw [depth_of_cons hblocks] at hk
    by_cases hlt : k < bs.length
    · rw [blockAt_of_lt hblocks hlt, ← blockAt_of_lt hold hlt] at hb
      exact .inr (.inr ⟨hb, fun htop => by omega⟩)
    · obtain rfl : k = bs.length := by omega
      rw [blockAt_top hblocks] at hb
      cases hb
      exact .inr (.inl ⟨hdepth, hleaves, _, blockAt_top hold⟩)

/-! ## Runs -/

/-- The blocks that the frame on top of `below` frames leaves in a run. -/
def departures (below : Nat) : Tracer → List Event → List Nat
  | _, [] => []
  | t, e :: es =>
    let later := departures below (t.deliver e).2 es
    if t.depth = below + 1 then (t.departs e).toList ++ later else later

theorem departures_append (below : Nat) (t : Tracer) (es : List Event) (e : Event) :
    t.departures below (es ++ [e]) = t.departures below es ++
      if (t.run es).depth = below + 1 then ((t.run es).departs e).toList else [] := by
  induction es generalizing t with
  | nil =>
    simp only [List.nil_append, departures, List.append_nil]
    rfl
  | cons e' es ih =>
    have hrun : t.run (e' :: es) = (t.deliver e').2.run es := rfl
    rw [List.cons_append, departures, departures, ih, hrun]
    by_cases hdepth : t.depth = below + 1
    · rw [if_pos hdepth, if_pos hdepth, List.append_assoc]
    · rw [if_neg hdepth, if_neg hdepth]

/-- In a run, after the events `before`, the event `e` has put a frame on top of `below` frames, and
the frame has been there during all events since then. -/
structure Stands (start : Tracer) (below : Nat) (es before : List Event) (e : Event)
    (since : List Event) : Prop where
  events : es = before ++ e :: since
  bottom : (start.run before).depth = below
  stays : ∀ now, now <+: since → below < (start.run (before ++ e :: now)).depth

namespace Stands

variable {start : Tracer} {below : Nat} {es before since : List Event} {entry : Event}

theorem enter (h : (start.run (es ++ [e])).depth = (start.run es).depth + 1) :
    start.Stands (start.run es).depth (es ++ [e]) es e [] := by
  refine ⟨rfl, rfl, fun now hnow => ?_⟩
  rw [List.prefix_nil.mp hnow, h]
  exact Nat.lt_succ_self _

theorem append (h : start.Stands below es before entry since)
    (hdepth : below < (start.run (es ++ [e])).depth) :
    start.Stands below (es ++ [e]) before entry (since ++ [e]) := by
  have hevents : es ++ [e] = before ++ entry :: (since ++ [e]) := by simp [h.events]
  refine ⟨hevents, h.bottom, fun now hnow => ?_⟩
  rcases List.prefix_concat_iff.mp hnow with rfl | hnow
  · exact hevents ▸ hdepth
  · exact h.stays now hnow

/-- The last event counts if the frame is the active one. -/
theorem departures_append (h : start.Stands below es before entry since) (e : Event) :
    (start.run (before ++ [entry])).departures below (since ++ [e]) =
      (start.run (before ++ [entry])).departures below since ++
        if (start.run es).depth = below + 1 then ((start.run es).departs e).toList else [] := by
  have hrun : (start.run (before ++ [entry])).run since = start.run es := by
    rw [← run_append, h.events, List.append_assoc]
    rfl
  rw [Tracer.departures_append, hrun]

end Stands

/-- The induction is on the run from its end: what the last event does to the block of a frame is a
matter of one step. -/
theorem blockAt_run {start : Tracer} (hs : start.program.Sound) (hframes : start.frames = [])
    (es : List Event) {k b : Nat} (h : (start.run es).blockAt k = some b) :
    ∃ before entry since, start.Stands k es before entry since ∧
      b = ((start.run (before ++ [entry])).departures k since).getLast?.getD 0 := by
  induction es using List.reverseRecOn generalizing b with
  | nil =>
    have hnone : (start.run []).blockAt k = none := by
      show (start.frames.map Frame.previousBlock).reverse[k]? = none
      rw [hframes]
      rfl
    rw [hnone] at h
    cases h
  | append_singleton es e ih =>
    have hsound : (start.run es).program.Sound := run_program start es ▸ hs
    have hdepth := lt_depth_of_blockAt h
    have hu : start.run (es ++ [e]) = ((start.run es).deliver e).2 := run_append start es [e]
    rcases (deliver_departed hsound e).blockAt (hu ▸ h) with
      ⟨rfl, hnew, rfl⟩ | ⟨htop, hleaves, old, hold⟩ | ⟨hold, hnone⟩
    · exact ⟨es, e, [], .enter (hu ▸ hnew), rfl⟩
    · obtain ⟨before, entry, since, hstands, -⟩ := ih hold
      refine ⟨before, entry, since ++ [e], hstands.append hdepth, ?_⟩
      rw [hstands.departures_append e, if_pos htop, hleaves]
      simp
    · obtain ⟨before, entry, since, hstands, hb⟩ := ih hold
      refine ⟨before, entry, since ++ [e], hstands.append hdepth, ?_⟩
      have hnothing : (if (start.run es).depth = k + 1 then ((start.run es).departs e).toList
          else []) = [] := by
        split
        · next htop => rw [hnone htop]; rfl
        · rfl
      rw [hstands.departures_append e, hnothing, List.append_nil]
      exact hb

/-- Where control came from, in every frame of every run. A frame was put on the stack by an event
and has been there since then; it comes from the block of the last transfer that succeeded while
events counted and the frame was active, and from block 0 if there was none. And an event that is no
such transfer changes the block of no frame, whether it succeeds or fails, counts or not: it only
removes frames, or it adds one that comes from block 0. -/
theorem previousBlock_eq_last_departure {p : Program} (hp : p.Built) (config : Config)
    (dispatch : Dispatch) (es : List Event) :
    let start := new p config dispatch
    let t := start.run es
    (∀ k f, t.frames.reverse[k]? = some f → ∃ before entry since,
      start.Stands k es before entry since ∧
        f.previousBlock = ((start.run (before ++ [entry])).departures k since).getLast?.getD 0) ∧
    ∀ e, t.departs e = none →
      (t.deliver e).2.previousBlocks <:+ t.previousBlocks ∨
        (t.deliver e).2.previousBlocks = 0 :: t.previousBlocks := by
  intro start t
  have hs : start.program.Sound := hp.sound
  refine ⟨fun k f hf => ?_, fun e he => ?_⟩
  · have hblock : t.blockAt k = some f.previousBlock := by
      unfold blockAt previousBlocks
      rw [← List.map_reverse, List.getElem?_map, hf]
      rfl
    exact blockAt_run hs rfl es hblock
  · cases deliver_departed (t := t) (run_program start es ▸ hs) e with
    | entered _ hblocks => exact .inr hblocks
    | kept _ hblocks => exact .inl hblocks
    | left hb =>
      rw [he] at hb
      cases hb

open Sample in
/-- A method calls itself from its third block. The inner one has gone further than the outer one.
Then an instruction that is no jump is reported as one, which fails, and the jump of a call that is
not instrumented does not count. -/
theorem previousBlock_eq_last_departure_walk :
    let start := new (Program.ofBodies [walk]) .standard .virtual
    let es := [enterWalk, .jump "j0", .jump "j1", callWalk, enterWalk, .jump "j0", .jump "j1",
      .jump "j2", .jump "ret", callWalk, .jump "j0"]
    let t := start.run es
    t.previousBlocks = [2, 1] ∧
      (∃ before entry since, start.Stands 0 es before entry since ∧
        ((start.run (before ++ [entry])).departures 0 since).getLast?.getD 0 = 1) ∧
      t.departs (.jump "j1") = none ∧
      ((t.deliver (.jump "j1")).2.previousBlocks <:+ [2, 1] ∨
        (t.deliver (.jump "j1")).2.previousBlocks = [0, 2, 1]) := by
  intro start es t
  have hp : (Program.ofBodies [walk]).Built :=
    Program.built_ofBodies fun b hb => List.mem_singleton.mp hb ▸ built_walk
  have hrun : t.previousBlocks = [2, 1] ∧ t.departs (.jump "j1") = none := by decide +kernel
  obtain ⟨hblocks, hnone⟩ := hrun
  obtain ⟨hframes, hkeeps⟩ := previousBlock_eq_last_departure hp .standard .virtual es
  obtain ⟨f, hf, hblock⟩ : ∃ f, t.frames.reverse[0]? = some f ∧ f.previousBlock = 1 := by
    rw [← Option.map_eq_some_iff, ← List.getElem?_map, List.map_reverse]
    exact congrArg (fun bs : List Nat => bs.reverse[0]?) hblocks
  obtain ⟨before, entry, since, hstands, hlast⟩ := hframes 0 f hf
  exact ⟨hblocks, ⟨before, entry, since, hstands, hlast.symm.trans hblock⟩, hnone,
    hblocks ▸ hkeeps _ hnone⟩

end Tracer

end Concolic
