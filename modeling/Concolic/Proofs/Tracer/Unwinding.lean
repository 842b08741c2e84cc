import Concolic.Proofs.Hierarchy
import Concolic.Proofs.Tracer.Callback
import Concolic.Proofs.Tracer.Snapshot

/-!
# Unwinding

An exception removes frames until one of them handles it. The handler that is chosen in a frame is
one that all others that match generalize, and it starts from the bindings that were put aside for
it.

* `Hierarchy.restored?`: the bindings that are found by looking through the handlers of a frame in a
  given order. If all handlers start from the same bindings, as they do in every run
  (`Noted.uniform`), the order does not matter (`restored?_eq`), and the frame goes on with these
  bindings (`Frame.restored_eq`).
* `Action.handler?_eq_none_iff`: if all handled types that match are in the line of superclasses of
  the exception, one of them is chosen, since one is below the others.
* `unwound_of_handles`, `unwound_of_none`: frames are removed up to the first that handles the
  exception, or all of them.
* `caught_restores`: the innermost frame with a matching handler goes on, with the bindings of its
  snapshot.
-/

namespace Concolic

/-- One of the handled types of the frame matches the exception. -/
def Frame.handles (f : Frame) (h : Hierarchy) (thrown : Ty) : Bool :=
  f.catches.keys.any (h.isSubtype thrown ·)

/-- The bindings that a handler of the exception starts from, with the handled types in the given
order. -/
def Hierarchy.restored? (h : Hierarchy) (thrown : Ty) (order : List (Ty × Bindings)) :
    Option Bindings :=
  let candidates := order.filter fun e => h.isSubtype thrown e.1
  (candidates.find? fun c => candidates.all fun other => h.isSubtype c.1 other.1).map Prod.snd

/-! ## Handlers of a frame -/

section Handlers

variable {h : Hierarchy} {f : Frame} {thrown : String}

/-- If all handlers of a frame start from the same bindings, so does the one that is chosen. -/
theorem Frame.restored_eq {handler : Ty} {values : Bindings} (hhandler : handler ∈ f.catches.keys)
    (hvalues : ∀ c ∈ f.catches.entries, c.2 = values) :
    f.restored handler = { f with values } := by
  have hcontains : f.catches.contains handler = true := by
    obtain ⟨c, hc, rfl⟩ := List.mem_map.mp hhandler
    exact List.any_eq_true.mpr ⟨c, hc, beq_self_eq_true c.1⟩
  rw [Table.contains_eq_isSome_get?] at hcontains
  obtain ⟨noted, hnoted⟩ := Option.isSome_iff_exists.mp hcontains
  have heq : noted = values := hvalues _ (Table.mem_entries_of_get? hnoted)
  rw [restored, hnoted, Option.getD_some, heq]

/-- Among candidates in one line, the search for one below the others finds one. -/
theorem Hierarchy.find?_least_eq_none_iff {α : Type} (key : α → Ty) {candidates : List α}
    (hline : ∀ c ∈ candidates, h.Lineal thrown (key c)) :
    (candidates.find? fun c => candidates.all fun other => h.isSubtype (key c) (key other)) = none ↔
      candidates = [] := by
  constructor
  · intro hnone
    by_contra hne
    have hkeys : ∀ ty ∈ candidates.map key, h.Lineal thrown ty := List.forall_mem_map.mpr hline
    obtain ⟨least, hleast, hbelow⟩ := exists_least (by simpa using hne) hkeys
    obtain ⟨c, hc, rfl⟩ := List.mem_map.mp hleast
    refine List.find?_eq_none.mp hnone c hc (List.all_eq_true.mpr fun other hother => ?_)
    exact hbelow _ (List.mem_map_of_mem hother)
  · rintro rfl
    rfl

theorem Tracer.Action.handler?_eq_none_iff
    (hline : ∀ ty ∈ f.catches.keys, h.isSubtype (.object thrown) ty = true → h.Lineal thrown ty) :
    handler? h f (.object thrown) = none ↔ f.handles h (.object thrown) = false := by
  have hcandidates : ∀ ty ∈ f.catches.keys.filter (h.isSubtype (.object thrown) ·),
      h.Lineal thrown ty := by
    intro ty hty
    obtain ⟨hmem, hmatch⟩ := List.mem_filter.mp hty
    exact hline ty hmem hmatch
  refine (Hierarchy.find?_least_eq_none_iff (fun ty => ty) hcandidates).trans ?_
  simp [Frame.handles]

/-- The handler that is chosen is one of the frame. -/
private theorem Tracer.Action.mem_keys_of_handler? {thrown handler : Ty}
    (hhandler : handler? h f thrown = some handler) : handler ∈ f.catches.keys :=
  (List.mem_filter.mp (List.mem_of_find?_eq_some hhandler)).1

/-- The bindings that are restored do not depend on the order in which the handlers are looked
through. -/
theorem Hierarchy.restored?_eq {order : List (Ty × Bindings)} (values : Bindings)
    (hline : ∀ e ∈ order, h.isSubtype (.object thrown) e.1 = true → h.Lineal thrown e.1)
    (hvalues : ∀ e ∈ order, e.2 = values) :
    h.restored? (.object thrown) order =
      if order.any fun e => h.isSubtype (.object thrown) e.1 then some values else none := by
  have hcandidates : ∀ e ∈ order.filter (fun e => h.isSubtype (.object thrown) e.1),
      h.Lineal thrown e.1 := by
    intro e he
    obtain ⟨hmem, hmatch⟩ := List.mem_filter.mp he
    exact hline e hmem hmatch
  have hnone := find?_least_eq_none_iff Prod.fst hcandidates
  unfold restored?
  dsimp only
  cases hfind : (order.filter fun e => h.isSubtype (.object thrown) e.1).find? _ with
  | none =>
    rw [if_neg]
    · rfl
    · simpa using hnone.mp hfind
  | some c =>
    obtain ⟨hc, hmatch⟩ := List.mem_filter.mp (List.mem_of_find?_eq_some hfind)
    rw [if_pos (List.any_eq_true.mpr ⟨c, hc, hmatch⟩), Option.map_some, hvalues c hc]

end Handlers

namespace Tracer

variable {t u w : Tracer}

/-! ## Frames that are left -/

namespace Action

/-- Frames are removed up to the first that handles the exception. -/
theorem unwound_of_handles {thrown handler : Ty} {above below : List Frame} {f : Frame}
    (habove : ∀ g ∈ above, handler? t.program.hierarchy g thrown = none)
    (hf : handler? t.program.hierarchy f thrown = some handler) (calls : List CallSite) :
    (unwound t thrown (above ++ f :: below) calls).1 = f.restored handler :: below := by
  induction above generalizing calls with
  | nil => simp [unwound, hf]
  | cons g above ih =>
    obtain ⟨hg, habove⟩ := List.forall_mem_cons.mp habove
    rw [List.cons_append, unwound]
    simp only [hg]
    exact ih habove _

/-- If no frame handles the exception, all are removed. -/
theorem unwound_of_none {thrown : Ty} {fs : List Frame}
    (hnone : ∀ g ∈ fs, handler? t.program.hierarchy g thrown = none) (calls : List CallSite) :
    (unwound t thrown fs calls).1 = [] := by
  induction fs generalizing calls with
  | nil => rfl
  | cons g fs ih =>
    obtain ⟨hg, hnone⟩ := List.forall_mem_cons.mp hnone
    rw [unwound]
    simp only [hg]
    exact ih hnone _

end Action

private theorem catching_frames (t : Tracer) (f : Frame) (fs : List Frame) (v : Value)
    (o : Observed) :
    ∃ x, (t.catching f fs v o).frames = { f with values := f.values.insert v x } :: fs := by
  unfold catching
  cases t.thrown with
  | none => exact ⟨t.fresh v, rfl⟩
  | some x => exact ⟨x, rfl⟩

private theorem catching_program (t : Tracer) (f : Frame) (fs : List Frame) (v : Value)
    (o : Observed) : (t.catching f fs v o).program = t.program := by
  unfold catching
  cases t.thrown with
  | none => cases v <;> rfl
  | some x => rfl

/-- The frames of `u` are `f` and those below it. In `f` only what the name means has got another
binding. -/
def Catches (name : String) (f : Frame) (below : List Frame) (u : Tracer) : Prop :=
  ∃ f', u.frames = f' :: below ∧ f'.method = f.method ∧
    (f'.values = f.values ∨ ∃ i v x, u.program.named? [f.method] name = some i ∧
      i.result = some v ∧ f'.values = f.values.insert v x)

theorem Catches.of_frames {name : String} {f : Frame} {below : List Frame}
    (h : u.frames = f :: below) : Catches name f below u := ⟨f, h, rfl, .inl rfl⟩

namespace Action

/-- A caught exception that counts binds its value. -/
theorem caught_catches {exception : Operand} {type : Ty}
    (h : exception.observed.type? = some type) :
    ∃ act : Action Unit, (∀ (t : Tracer) (f : Frame) (below : List Frame), t.program.Sound →
        t.frames = f :: below → Catches exception.name f below (act.after t)) ∧
      caught exception = (do flush; unwind type; if ← isCollecting then act) := by
  refine ⟨?act, ?catches, ?eq⟩
  case eq =>
    unfold caught
    rw [h]
  case catches =>
    intro t f below hs hf
    unfold after
    rw [bind_apply]
    cases hselect : select exception.name "catch" _ t with
    | error cause u =>
      obtain rfl := (Reads.select _ _ _).error hselect
      exact .of_frames hf
    | ok found u =>
      obtain rfl := (Reads.select _ _ _).ok hselect
      obtain ⟨hi, -⟩ := instruction?_of_select hselect
      dsimp only
      unfold resultOf
      cases hresult : found.1.result with
      | none => exact .of_frames hf
      | some v =>
        dsimp only
        rw [pure_bind, caughtTerm_run v exception.observed _ hf]
        have hprogram := catching_program u f below v exception.observed
        obtain ⟨x, hframes⟩ := catching_frames u f below v exception.observed
        obtain ⟨handlers, hh⟩ := hs.exists_handlers (contains_of_instruction? hi)
        rw [← hprogram] at hh
        generalize u.catching f below v exception.observed = w at hprogram hframes hh
        have hemit (p : Predicate) : emit found.1 p w = .ok () { w with
            clauses := w.clauses ++ [.state found.1 p], trace := w.trace ++ [found.1]
            frames :=
              Frame.refreshed { f with values := f.values.insert v x } handlers :: below } :=
          trace_run (t := { w with clauses := w.clauses ++ [.state found.1 p] }) hframes hh
        rw [hemit]
        refine ⟨_, rfl, rfl, .inr ⟨found.1, v, x, ?_, hresult, rfl⟩⟩
        rw [instruction?_eq, stack, hf, ← hprogram] at hi
        exact hi

end Action

/-! ## Caught exceptions -/

theorem deliver_caught_of_cons {exception : Operand} {type : Ty} {f : Frame} {below : List Frame}
    (ha : t.aborted = false) (hs : t.program.Sound) (h : exception.observed.type? = some type)
    (hf : (t.unwoundBy type).frames = f :: below) :
    Catches exception.name f below (t.deliver (.caught exception)).2 := by
  obtain ⟨act, hact, hcaught⟩ := Action.caught_catches h
  obtain ⟨fatal, hd⟩ := deliver_after ha (.caught exception)
  rw [hd]
  have happly := Action.caught_apply hcaught t
  have hafter : Catches exception.name f below ((Action.caught exception).after t) := by
    rw [hf] at happly
    simp only [List.isEmpty_cons, Bool.false_eq_true, if_false] at happly
    split at happly
    · have heq : (Action.caught exception).after t = act.after (t.unwoundBy type) := by
        unfold Action.after
        rw [happly]
      rw [heq]
      exact hact (t.unwoundBy type) f below hs hf
    · rw [Action.after_of_ok happly]
      exact .of_frames hf
  exact hafter

/-- An exception that no frame handles is fatal. -/
theorem deliver_caught_of_nil {exception : Operand} {type : Ty} (ha : t.aborted = false)
    (h : exception.observed.type? = some type) (hf : (t.unwoundBy type).frames = []) :
    t.deliver (.caught exception) =
      (.error ⟨"catch", .broken (.uncaught type)⟩, { t.unwoundBy type with aborted := true }) := by
  obtain ⟨act, -, hcaught⟩ := Action.caught_catches h
  have happly : handle (.caught exception) t =
      .error (.broken (.uncaught type)) (t.unwoundBy type) := by
    have happly := Action.caught_apply hcaught t
    rw [hf] at happly
    exact happly
  unfold deliver
  rw [ha, if_neg Bool.false_ne_true, happly]
  rfl

/-- The frames that an exception leaves: those from the first one on that handles it. -/
theorem unwoundBy_cases {thrown : String}
    (hline : ∀ f ∈ t.frames, ∀ ty ∈ f.catches.keys,
      t.program.hierarchy.isSubtype (.object thrown) ty = true →
        t.program.hierarchy.Lineal thrown ty) :
    (∃ above f below handler, t.frames = above ++ f :: below ∧
        (∀ g ∈ above, g.handles t.program.hierarchy (.object thrown) = false) ∧
        f.handles t.program.hierarchy (.object thrown) = true ∧ handler ∈ f.catches.keys ∧
        (t.unwoundBy (.object thrown)).frames = f.restored handler :: below) ∨
      (∀ f ∈ t.frames, f.handles t.program.hierarchy (.object thrown) = false) ∧
        (t.unwoundBy (.object thrown)).frames = [] := by
  have hnone (f : Frame) (hf : f ∈ t.frames) :=
    Action.handler?_eq_none_iff (h := t.program.hierarchy) (f := f) (hline f hf)
  cases hfind : t.frames.find? (·.handles t.program.hierarchy (.object thrown)) with
  | none =>
    have hall : ∀ f ∈ t.frames, f.handles t.program.hierarchy (.object thrown) = false :=
      fun f hf => Bool.eq_false_iff.mpr (List.find?_eq_none.mp hfind f hf)
    refine .inr ⟨hall, ?_⟩
    have hframes : ∀ f ∈ t.frames,
        Action.handler? t.flushed.program.hierarchy f (.object thrown) = none :=
      fun f hf => (hnone f hf).mpr (hall f hf)
    exact Action.unwound_of_none hframes t.callTrace
  | some f =>
    obtain ⟨hf, above, below, hframes, habove⟩ := List.find?_eq_some_iff_append.mp hfind
    have habove : ∀ g ∈ above, g.handles t.program.hierarchy (.object thrown) = false := by
      intro g hg
      simpa using habove g hg
    have hnone' : ∀ g ∈ above,
        Action.handler? t.flushed.program.hierarchy g (.object thrown) = none := by
      intro g hg
      exact (hnone g (by simp [hframes, hg])).mpr (habove g hg)
    obtain ⟨handler, hhandler⟩ : ∃ handler,
        Action.handler? t.flushed.program.hierarchy f (.object thrown) = some handler := by
      refine Option.ne_none_iff_exists'.mp fun heq => ?_
      have := (hnone f (by simp [hframes])).mp heq
      simp [this] at hf
    have hmem := Action.mem_keys_of_handler? hhandler
    refine .inl ⟨above, f, below, handler, hframes, habove, hf, hmem, ?_⟩
    show (Action.unwound t.flushed (.object thrown) t.frames t.callTrace).1 = _
    rw [hframes]
    exact Action.unwound_of_handles hnone' hhandler t.callTrace

/-- Unwinding finds the innermost handler. In every run, the handled types of each frame are those
around the instruction traced last in it, with the bindings that it had right after, and these are
the same for all types. If the types that match are in the line of the exception, it does not matter
in which order they are looked through. The frames above the first one that has such a type are
removed, and this one goes on with the bindings of its handlers, in which only the caught value may
be bound anew. Frames below it are as they were. Without such a frame, the exception is fatal. -/
theorem caught_restores {p : Program} (hp : p.Built) (config : Config) (dispatch : Dispatch)
    (es : List Event) {exception : Operand} {thrown : String}
    (hthrown : exception.observed.type? = some (.object thrown)) :
    let start := new p config dispatch
    let t := start.run es
    let u := (t.deliver (.caught exception)).2
    t.frames.map Frame.catches = (start.snapshots [] es).map p.catches ∧
    (∀ f ∈ t.frames, ∀ c ∈ f.catches.entries, ∀ c' ∈ f.catches.entries, c.2 = c'.2) ∧
    (t.aborted = false →
      (∀ f ∈ t.frames, ∀ ty ∈ f.catches.keys, p.hierarchy.isSubtype (.object thrown) ty = true →
        p.hierarchy.Lineal thrown ty) →
      (∀ f ∈ t.frames, ∀ order, order.Perm f.catches.entries →
        p.hierarchy.restored? (.object thrown) order =
          p.hierarchy.restored? (.object thrown) f.catches.entries) ∧
      ((∃ above f below values, t.frames = above ++ f :: below ∧
          (∀ g ∈ above, g.handles p.hierarchy (.object thrown) = false) ∧
          f.handles p.hierarchy (.object thrown) = true ∧
          p.hierarchy.restored? (.object thrown) f.catches.entries = some values ∧
          Catches exception.name { f with values } below u) ∨
        (∀ f ∈ t.frames, f.handles p.hierarchy (.object thrown) = false) ∧
          t.deliver (.caught exception) =
            (.error ⟨"catch", .broken (.uncaught (.object thrown))⟩, u) ∧
          u.frames = [] ∧ u.aborted = true)) := by
  intro start t u
  have hprogram : t.program = p := run_program start es
  have hsound : t.program.Sound := hprogram ▸ hp.sound
  have hnoted : t.Noted (start.snapshots [] es) :=
    noted_run (noted_new p config dispatch) hp.sound es
  refine ⟨hprogram ▸ hnoted.catches, fun f hf c hc c' hc' => ?_, fun ha hline => ?_⟩
  · obtain ⟨values, hvalues⟩ := hnoted.uniform hf
    rw [hvalues c hc, hvalues c' hc']
  have hrestored {f : Frame} (hf : f ∈ t.frames) {values : Bindings}
      (hvalues : ∀ c ∈ f.catches.entries, c.2 = values) {order : List (Ty × Bindings)}
      (horder : order.Perm f.catches.entries) :
      p.hierarchy.restored? (.object thrown) order =
        if f.handles p.hierarchy (.object thrown) then some values else none := by
    rw [Hierarchy.restored?_eq values, horder.any_eq]
    · unfold Frame.handles Table.keys
      rw [List.any_map]
      rfl
    · intro c hc
      exact hline f hf c.1 (List.mem_map_of_mem (horder.subset hc))
    · intro c hc
      exact hvalues c (horder.subset hc)
  refine ⟨fun f hf order horder => ?_, ?_⟩
  · obtain ⟨values, hvalues⟩ := hnoted.uniform hf
    rw [hrestored hf hvalues horder, hrestored hf hvalues (.refl _)]
  · rw [← hprogram] at hline ⊢
    rcases unwoundBy_cases hline with
      ⟨above, f, below, handler, hframes, habove, hf, hhandler, hleft⟩ | ⟨hnone, hleft⟩
    · have hmem : f ∈ t.frames := by simp [hframes]
      obtain ⟨values, hvalues⟩ := hnoted.uniform hmem
      refine .inl ⟨above, f, below, values, hframes, habove, hf, ?_, ?_⟩
      · rw [hprogram] at hf ⊢
        rw [hrestored hmem hvalues (.refl _), if_pos hf]
      · rw [Frame.restored_eq hhandler hvalues] at hleft
        exact deliver_caught_of_cons ha hsound hthrown hleft
    · have hdeliver := deliver_caught_of_nil ha hthrown hleft
      have hu : u = { t.unwoundBy (.object thrown) with aborted := true } :=
        congrArg Prod.snd hdeliver
      refine .inr ⟨hnone, ?_, ?_, ?_⟩
      · rw [hdeliver, hu]
      · rw [hu]
        exact hleft
      · rw [hu]

end Tracer

namespace Sample

/-- The guarded method with a second handler, for a more special exception. -/
def shielded : Body.Builder :=
  (guarded.addHandler 0 (.object "java/lang/RuntimeException")).toOption.getD guarded

theorem built_shielded : shielded.Built :=
  built_guarded.getD fun _ h => .addHandler built_guarded h

end Sample

namespace Tracer

open Sample

/-- The method with two handlers has thrown when another method is entered. An exception in that one
leaves it and is handled in the first method. -/
theorem caught_restores_shielded :
    let p := Program.ofBodies [tail, shielded]
    let t := (new p .standard .virtual).run [enterGuarded, throwing, enter "tail"]
    let u := (t.deliver (.caught ⟨"%e", runtimeException⟩)).2
    t.stack = [method "tail", guardedMethod] ∧ t.aborted = false ∧
      t.frames.map (fun f => f.catches.keys) =
        [[], [.object "java/lang/Throwable", .object "java/lang/RuntimeException"]] ∧
      ∃ f, u.frames = [f] ∧ f.method = guardedMethod := by
  intro p t u
  have hp : p.Built := by
    refine Program.built_ofBodies fun b hb => ?_
    rcases List.mem_cons.mp hb with rfl | hb
    · exact built_tail
    · exact List.mem_singleton.mp hb ▸ built_shielded
  let type : Ty := .object "java/lang/RuntimeException"
  have hrun : t.stack = [method "tail", guardedMethod] ∧ t.aborted = false ∧
      (Operand.mk "%e" runtimeException).observed.type? = some type ∧
      t.frames.map (fun f => f.catches.keys) = [[], [.object "java/lang/Throwable", type]] ∧
      t.frames.map (fun f => f.handles p.hierarchy type) = [false, true] := by
    decide +kernel
  obtain ⟨hstack, ha, hthrown, hkeys, hhandles⟩ := hrun
  have hline : ∀ f ∈ t.frames, ∀ ty ∈ f.catches.keys, p.hierarchy.isSubtype type ty = true →
      p.hierarchy.Lineal "java/lang/RuntimeException" ty := by
    intro f hf ty hty _
    have hmem := List.mem_map_of_mem (f := fun f : Frame => f.catches.keys) hf
    rw [hkeys] at hmem
    rcases List.mem_cons.mp hmem with heq | hmem
    · rw [heq] at hty
      cases hty
    · rw [List.mem_singleton.mp hmem] at hty
      rcases List.mem_cons.mp hty with rfl | hty
      · exact .inr (.inr ⟨"java/lang/Throwable", 2, rfl, by decide +kernel⟩)
      · exact .inl (List.mem_singleton.mp hty)
  obtain ⟨-, -, hcaught⟩ := caught_restores hp .standard .virtual _ hthrown
  obtain ⟨-, hcases⟩ := hcaught ha hline
  refine ⟨hstack, ha, hkeys, ?_⟩
  rcases hcases with ⟨above, f, below, values, hframes, -, hf, -, f', hu, hmethod, -⟩ | ⟨hnone, -⟩
  · change t.frames.map Frame.method = _ at hstack
    rw [hframes] at hstack hhandles
    cases above with
    | nil =>
      injection hhandles with hfalse
      cases hf.symm.trans hfalse
    | cons g above =>
      cases above with
      | nil =>
        injection hstack with _ hstack
        injection hstack with hguarded hbelow
        rw [List.map_eq_nil_iff.mp hbelow] at hu
        exact ⟨f', hu, hmethod.trans hguarded⟩
      | cons g' above => simpa using congrArg List.length hstack
  · have hmem : true ∈ t.frames.map (fun f => f.handles p.hierarchy type) := by simp [hhandles]
    obtain ⟨f, hf, htrue⟩ := List.mem_map.mp hmem
    rw [hnone f hf] at htrue
    cases htrue

end Tracer

end Concolic
