import Concolic.Proofs.Tracer.Nesting
import Concolic.Proofs.Tracer.Transition

/-!
# The frames of the callers

No event touches a frame below the active one.

* `Frame.anchor f`: the method of a frame and what receives its result, which never change.
* `Frame.Moved fs fs'`: what an event does to the frames. It puts one on top, or it removes some and
  then changes the first one that is left (`handled_moved`).
* `Tracer.Above callers a t`: the frames `callers` are below a frame with the anchor `a`, or some of
  them are gone. This lasts as long as the depth is not that of the callers (`above_run`).
-/

namespace Concolic

namespace Frame

/-- What never changes of a frame: its method, and what receives the result. -/
def anchor (f : Frame) : Method × Option (Value × Term) := (f.method, f.receiver)

/-- Only the first frames differ, and not in their anchor. -/
structure Same (fs fs' : List Frame) : Prop where
  tail : fs'.tail = fs.tail
  anchors : fs'.map anchor = fs.map anchor

/-- A frame is put on top, or some are removed and then the first one is changed. -/
inductive Moved (fs : List Frame) : List Frame → Prop
  | push (f : Frame) : Moved fs (f :: fs)
  | keep {gs fs' : List Frame} (hgs : gs <:+ fs) (hsame : Same gs fs') : Moved fs fs'

variable {fs fs' gs callers : List Frame} {f f' : Frame} {a : Method × Option (Value × Term)}

namespace Same

theorem refl (fs : List Frame) : Same fs fs := ⟨rfl, rfl⟩

theorem trans (h : Same fs gs) (h' : Same gs fs') : Same fs fs' :=
  ⟨h'.tail.trans h.tail, h'.anchors.trans h.anchors⟩

theorem cons {rest : List Frame} (hfs : fs = f :: rest) (hfs' : fs' = f' :: rest)
    (h : f'.anchor = f.anchor) : Same fs fs' := by
  subst hfs hfs'
  refine ⟨rfl, ?_⟩
  rw [List.map_cons, List.map_cons, h]

theorem length (h : Same fs fs') : fs'.length = fs.length := by
  have := congrArg List.length h.anchors
  simpa using this

/-- What is below the first frame stays there. -/
theorem below (h : Same fs fs') (hf : f :: callers <:+ fs) :
    ∃ f', f'.anchor = f.anchor ∧ f' :: callers <:+ fs' := by
  obtain ⟨gs, rfl⟩ := hf
  have hlength := h.length
  cases fs' with
  | nil => simp at hlength
  | cons g rest =>
    have htail : rest = (gs ++ f :: callers).tail := h.tail
    cases gs with
    | nil =>
      have hanchor : g.anchor = f.anchor := (List.cons.inj h.anchors).1
      rw [List.nil_append, List.tail_cons] at htail
      exact ⟨g, hanchor, htail ▸ List.suffix_refl _⟩
    | cons g' gs =>
      rw [List.cons_append, List.tail_cons] at htail
      refine ⟨f, rfl, g :: gs, ?_⟩
      rw [htail, List.cons_append]

end Same

/-- The callers are below a frame with the anchor, or some of them are gone. -/
def Above (callers : List Frame) (a : Method × Option (Value × Term)) (fs : List Frame) : Prop :=
  (∃ f, f.anchor = a ∧ f :: callers <:+ fs) ∨ fs.length < callers.length

namespace Moved

theorem of_same (h : Same fs fs') : Moved fs fs' := .keep (List.suffix_refl _) h

theorem refl (fs : List Frame) : Moved fs fs := of_same (.refl fs)

theorem same (h : ∃ gs, gs <:+ fs ∧ Same gs fs') {fs'' : List Frame} (h' : Same fs' fs'') :
    Moved fs fs'' := by
  obtain ⟨gs, hgs, hsame⟩ := h
  exact .keep hgs (hsame.trans h')

theorem length_le (h : Moved fs fs') : fs'.length ≤ fs.length + 1 := by
  cases h with
  | push => exact Nat.le_refl _
  | keep hgs hsame =>
    rw [hsame.length]
    exact Nat.le_succ_of_le hgs.length_le

/-- As long as the callers are not on top, they are not touched. -/
theorem above (h : Moved fs fs') (habove : Above callers a fs)
    (hlength : fs'.length ≠ callers.length) : Above callers a fs' := by
  rcases habove with ⟨f, hf, hsuffix⟩ | hbelow
  · cases h with
    | push g => exact .inl ⟨f, hf, hsuffix.trans (List.suffix_cons g fs)⟩
    | @keep gs _ hgs hsame =>
      by_cases hshort : gs.length ≤ callers.length
      · refine .inr ?_
        rw [hsame.length] at hlength ⊢
        omega
      · have hlong : (f :: callers).length ≤ gs.length := by
          rw [List.length_cons]
          omega
        have hgs' := List.suffix_of_suffix_length_le hsuffix hgs hlong
        obtain ⟨f', hf', hfs'⟩ := hsame.below hgs'
        exact .inl ⟨f', hf'.trans hf, hfs'⟩
  · have := h.length_le
    refine .inr ?_
    omega

end Moved

end Frame

namespace Tracer

open Concolic.Frame (Same Moved Above)

variable {t u w : Tracer} {e : Event}

/-! ## What an event does to the frames -/

theorem Changed.same (h : t.Changed u) : Same t.frames u.frames := by
  refine h.keep (P := fun w => Same t.frames w.frames) (fun {w v} hc hsame => ?_) (.refl _)
  rcases hc.frames with heq | ⟨f, f', fs, hw, hv, hmethod, hreceiver⟩
  · rwa [heq]
  · have hanchor : f'.anchor = f.anchor := by
      unfold Frame.anchor
      rw [hmethod, hreceiver]
    exact hsame.trans (.cons hw hv hanchor)

theorem defining_same {f : Frame} {fs : List Frame} (v : Value) (seen : Option Observed)
    (h : t.frames = f :: fs) : Same t.frames (t.defining f fs v seen).frames :=
  .cons h rfl rfl

theorem opened_same (h : Event.Opened t e w) : Same t.frames w.frames := by
  cases h with
  | same => exact .refl _
  | defined _ _ _ _ hframes => exact defining_same _ _ hframes
  | caught _ _ hframes =>
    unfold catching
    split
    · exact .cons hframes rfl rfl
    · exact defining_same _ _ hframes

theorem Receiving.same (h : t.Receiving w) : Same t.frames w.frames := by
  rcases h with rfl | ⟨v, f, fs, hframes, rfl⟩
  · exact .refl _
  · exact defining_same v none hframes

/-- An exception removes frames, and the first one that is left starts where a handler does. -/
theorem unwound_kept (t : Tracer) (thrown : Ty) (fs : List Frame) (calls : List CallSite) :
    ∃ gs, gs <:+ fs ∧ Same gs (Action.unwound t thrown fs calls).1 := by
  induction fs generalizing calls with
  | nil => exact ⟨[], List.suffix_refl _, .refl _⟩
  | cons f fs ih =>
    rw [Action.unwound]
    cases Action.handler? t.program.hierarchy f thrown with
    | some handler => exact ⟨f :: fs, List.suffix_refl _, .cons rfl rfl rfl⟩
    | none =>
      obtain ⟨gs, hgs, hsame⟩ := ih (Action.callsAfter t f calls)
      exact ⟨gs, hgs.trans (List.suffix_cons f fs), hsame⟩

theorem Counts.kept {s : Tracer} (h : t.Counts e s) :
    ∃ gs, gs <:+ t.frames ∧ Same gs s.frames := by
  cases h with
  | instruction => exact ⟨t.frames, List.suffix_refl _, .refl _⟩
  | caught => exact unwound_kept t.flushed _ t.frames t.callTrace

theorem handled_moved {ok : Bool} (h : t.Handled e ok u) : Moved t.frames u.frames := by
  cases h with
  | refused | nullException => exact .refl _
  | answered | pushed => exact .push _
  | entered _ _ _ hu =>
    have htop : ∃ f, u.frames = f :: t.frames := by
      refine Action.entered_keep (P := fun w => ∃ f, w.frames = f :: t.frames) hu
        (fun v o hframes hg => ?_) ⟨_, rfl⟩
      obtain ⟨g, hg⟩ := hg
      rw [hframes] at hg
      cases hg
      exact ⟨_, rfl⟩
    obtain ⟨f, hf⟩ := htop
    rw [hf]
    exact .push f
  | uncaught | unwound => exact .same (unwound_kept t.flushed _ t.frames t.callTrace) (.refl _)
  | skipped _ _ hu =>
    cases hu with
    | left _ _ _ _ _ hframes =>
      rw [hframes]
      exact .keep (List.suffix_cons _ _) (.refl _)
    | _ => exact .refl _
  | acted hs hw hu => exact .same hs.kept ((opened_same hw).trans hu.same)
  | failed hs hw hu =>
    rcases hw with rfl | hw
    · exact .same hs.kept hu.same
    · exact .same hs.kept ((opened_same hw).trans hu.same)
  | notCalled hs hw hu => exact .same hs.kept (hw.same.trans hu.same)
  | called hs hw hu _ hv => exact .same hs.kept ((hw.same.trans hu.same).trans hv.same)
  | returned _ _ hframes =>
    obtain ⟨_, _, _, _, _, heq⟩ := returned_eq t.resumed _ _ _ _ _
    rw [heq, hframes]
    exact .keep (List.suffix_cons _ _) (.refl _)

theorem deliver_moved (t : Tracer) (e : Event) : Moved t.frames (t.deliver e).2.frames :=
  deliver_keep (P := fun u => Moved t.frames u.frames) e (.refl _) (fun _ _ h => handled_moved h)
    fun _ _ h => h

/-- The callers are not touched as long as the depth is not theirs. -/
theorem above_run {callers : List Frame} {a : Method × Option (Value × Term)} {es : List Event}
    (h : Above callers a t.frames)
    (hdepth : ∀ es', es' <+: es → (t.run es').depth ≠ callers.length) :
    Above callers a (t.run es).frames := by
  induction es generalizing t with
  | nil => exact h
  | cons e es ih =>
    rw [forall_prefix_cons] at hdepth
    exact ih ((deliver_moved t e).above h (hdepth.2 [] List.nil_prefix)) hdepth.2

end Tracer

end Concolic
