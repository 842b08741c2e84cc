import Concolic.Proofs.Tracer.Inlining

/-!
# The terms that a tracer keeps

A tracer keeps terms in many places: under them it records values and origins, it remembers what was
checked of them, and values are bound to them. Terms move between these places, through inlined
calls, returns and exceptions. This file says where the terms come from.

* `Tracer.kept t p`: the terms in a place. `Tracer.Keeps t x`: the term is in one of them.
* `Frame.Inherits thrown fs gs`: frames come and go, and no result of an instruction is bound to
  another term, except to the exception that was thrown.
* `Tracer.Shift t u`: a value gets its fresh term, or terms only move from place to place
  (`Tracer.Retains t u`). Every event is made of such steps (`handled_shifted`, `deliver_shifted`).
* `Tracer.Reuses t u`: every named value that `u` keeps is one that `t` keeps, and the frames of `u`
  inherit from those of `t`.
* `Tracer.Supply t u`: one step in the supply of names, which gives the result of an instruction its
  next name or only reuses terms. Every shift is made of such steps (`Shift.supplied`), and so is
  every event (`deliver_supplied`).
-/

namespace Concolic

/-- The term is the value of a name. -/
def Term.IsNamed (x : Term) : Prop := ∃ n, x.kind = .value n

namespace Frame

/-- The bindings of a frame: those that hold now, and those that its handlers start from. -/
def bindings (f : Frame) : List Bindings := f.values :: f.catches.entries.map Prod.snd

/-- The terms of a frame: those that its bindings bind, and the one that receives the result. -/
def terms (f : Frame) : List Term :=
  f.bindings.flatMap (·.entries.map Prod.snd) ++ (f.receiver.map Prod.snd).toList

/-- The frame binds the value to the term, now or where one of its handlers starts. -/
def Has (f : Frame) (v : Value) (x : Term) : Prop := ∃ b ∈ f.bindings, b.get? v = some x

variable {f f' : Frame} {x y : Term}

theorem Has.of_subset (hsub : f'.bindings ⊆ f.bindings) {v : Value} (h : f'.Has v x) :
    f.Has v x := by
  obtain ⟨b, hb, hx⟩ := h
  exact ⟨b, hsub hb, hx⟩

/-- What is bound after a value was bound: the value to the term, or what was bound before. -/
theorem Has.of_insert {v v' : Value} (h : Has { f with values := f.values.insert v y } v' x) :
    v' = v ∧ x = y ∨ f.Has v' x := by
  obtain ⟨b, hb, hx⟩ := h
  rcases List.mem_cons.mp hb with rfl | hb
  · by_cases hv : v' = v
    · subst hv
      rw [Table.get?_insert_self] at hx
      exact .inl ⟨rfl, (Option.some.inj hx).symm⟩
    · rw [Table.get?_insert_of_ne _ _ hv] at hx
      exact .inr ⟨f.values, List.mem_cons_self, hx⟩
  · exact .inr ⟨b, List.mem_cons_of_mem _ hb, hx⟩

/-- The handlers that are noted start from the bindings of the frame. -/
theorem bindings_refreshed_subset (f : Frame) (handlers : List Ty) :
    (f.refreshed handlers).bindings ⊆ f.bindings := by
  intro b hb
  rcases List.mem_cons.mp hb with rfl | hb
  · exact List.mem_cons_self
  · obtain ⟨c, hc, rfl⟩ := List.mem_map.mp hb
    rw [catches_refreshed] at hc
    obtain ⟨ty, -, rfl⟩ := List.mem_map.mp (Table.mem_ofList hc)
    exact List.mem_cons_self

/-- A handler starts from bindings that the frame has. -/
theorem bindings_restored_subset (f : Frame) (handler : Ty) :
    (f.restored handler).bindings ⊆ f.bindings := by
  intro b hb
  rcases List.mem_cons.mp hb with rfl | hb
  · show (f.catches.get? handler).getD f.values ∈ f.bindings
    cases hget : f.catches.get? handler with
    | none => exact List.mem_cons_self
    | some values =>
      refine List.mem_cons_of_mem _ (List.mem_map.mpr ⟨(handler, values), ?_, rfl⟩)
      exact Table.mem_entries_of_get? hget
  · exact List.mem_cons_of_mem _ hb

/-- How frames may come about without a new name: there is one more, and it binds no result yet;
some are removed; or the innermost one that is left binds results as it did, and to the exception
that was thrown. -/
inductive Inherits (thrown : Option Term) (fs : List Frame) : List Frame → Prop
  | push {f : Frame} (hf : ∀ name ty x, ¬f.Has (.result name ty) x) : Inherits thrown fs (f :: fs)
  | keep {gs : List Frame} (hsuffix : gs <:+ fs) : Inherits thrown fs gs
  | replace {g g' : Frame} {gs : List Frame} (hsuffix : (g :: gs) <:+ fs)
      (hg : ∀ name ty x, g'.Has (.result name ty) x →
        g.Has (.result name ty) x ∨ thrown = some x) : Inherits thrown fs (g' :: gs)

theorem Inherits.refl (thrown : Option Term) (fs : List Frame) : Inherits thrown fs fs :=
  .keep (List.suffix_refl fs)

theorem Inherits.top {thrown : Option Term} {fs rest : List Frame} {f f' : Frame}
    (hfs : fs = f :: rest)
    (hf : ∀ name ty x, f'.Has (.result name ty) x → f.Has (.result name ty) x ∨ thrown = some x) :
    Inherits thrown fs (f' :: rest) :=
  .replace (hfs ▸ List.suffix_refl (f :: rest)) hf

end Frame

/-- The terms of a pending call: what receives the result, the object and the arguments. -/
def PendingCall.terms (call : PendingCall) : List Term :=
  (call.receiver.map Prod.snd).toList ++ call.callee.toList ++ call.arguments

/-- Where a tracer keeps terms. -/
inductive Place where
  | concrete
  | origins
  | nullChecked
  | typeChecked
  | indexChecked
  | lengthChecked
  | frames
  | pending
  | thrown

namespace Tracer

variable {t u w : Tracer} {x y : Term} {e : Event}

/-- The terms in a place. -/
def kept (t : Tracer) : Place → List Term
  | .concrete => t.concrete.keys
  | .origins => t.origins.keys
  | .nullChecked => t.nullChecked
  | .typeChecked => t.typeChecked.keys
  | .indexChecked => t.indexChecked.flatMap fun p => [p.1, p.2]
  | .lengthChecked => t.lengthChecked
  | .frames => t.frames.flatMap Frame.terms
  | .pending => t.pending.toList.flatMap PendingCall.terms
  | .thrown => t.thrown.toList

/-- The term is in one of the places. -/
def Keeps (t : Tracer) (x : Term) : Prop := ∃ p, x ∈ t.kept p

/-- The tracer `u` keeps only named values that `t` keeps, in the same place or in another one, and
binds no result to another of them. -/
structure Reuses (t u : Tracer) : Prop where
  count : ∀ name, t.count name ≤ u.count name
  kept : ∀ x, u.Keeps x → x.IsNamed → t.Keeps x
  frames : Frame.Inherits t.thrown t.frames u.frames

/-- One step in the supply of names: the result of an instruction gets its next name, or nothing
gets one. -/
inductive Supply (t : Tracer) : Tracer → Prop
  | reuse {u : Tracer} (h : t.Reuses u) : Supply t u
  | result {f : Frame} {fs : List Frame} (name : String) (ty : Ty) (hframes : t.frames = f :: fs) :
      Supply t (t.binding f fs (.result name ty))

/-- The tracer `u` is `t` after finitely many steps in the supply of names. -/
abbrev Supplied : Tracer → Tracer → Prop := Relation.ReflTransGen Supply

/-- The tracer `u` keeps only terms that `t` keeps, in the same place or in another one, and binds
no result to another of them. -/
structure Retains (t u : Tracer) : Prop where
  count : ∀ name, t.count name ≤ u.count name
  kept : ∀ x, u.Keeps x → t.Keeps x
  frames : Frame.Inherits t.thrown t.frames u.frames

/-- A value gets its fresh term, or terms are moved. -/
inductive Shift (t : Tracer) : Tracer → Prop
  | retain {u : Tracer} (h : t.Retains u) : Shift t u
  | bind {f : Frame} {fs : List Frame} (v : Value) (hframes : t.frames = f :: fs) :
      Shift t (t.binding f fs v)

/-- The tracer `u` is `t` after finitely many shifts. -/
abbrev Shifted : Tracer → Tracer → Prop := Relation.ReflTransGen Shift

theorem Shifted.trans (h : t.Shifted u) (h' : u.Shifted w) : t.Shifted w :=
  Relation.ReflTransGen.trans h h'

theorem Shifted.tail (h : t.Shifted u) (h' : u.Shift w) : t.Shifted w :=
  Relation.ReflTransGen.tail h h'

namespace Retains

theorem refl (t : Tracer) : t.Retains t := ⟨fun _ => Nat.le_refl _, fun _ h => h, .refl _ _⟩

theorem shifted (h : t.Retains u) : t.Shifted u := .single (.retain h)

/-- No name was given, and what is kept now was kept before, in the same place or elsewhere. -/
theorem of_kept (h : t.Retains u) (hnames : w.names = u.names)
    (hframes : Frame.Inherits t.thrown t.frames w.frames)
    (hkept : ∀ p x, x ∈ w.kept p → x ∈ u.kept p ∨ t.Keeps x) : t.Retains w := by
  refine ⟨fun name => ?_, fun x hx => ?_, hframes⟩
  · have hcount : w.count name = u.count name := by
      unfold Tracer.count
      rw [hnames]
    rw [hcount]
    exact h.count name
  · obtain ⟨p, hx⟩ := hx
    rcases hkept p x hx with hx | hx
    · exact h.kept x ⟨p, hx⟩
    · exact hx

/-- A term that was kept may be recorded. -/
theorem noted (h : t.Retains u) (m : Method) (v : Value) (seen : Option Observed) (hx : t.Keeps x) :
    t.Retains (u.noted m v x seen) := by
  refine h.of_kept rfl h.frames fun p y hy => ?_
  cases p with
  | concrete =>
    cases seen with
    | none => exact .inl hy
    | some o =>
      rcases Table.mem_keys_insertNew hy with rfl | hy
      · exact .inr hx
      · exact .inl hy
  | origins =>
    rcases Table.mem_keys_insertNew hy with rfl | hy
    · exact .inr hx
    · exact .inl hy
  | _ => exact .inl hy

end Retains

theorem Shifted.of_kept (hnames : u.names = t.names)
    (hframes : Frame.Inherits t.thrown t.frames u.frames)
    (hkept : ∀ p x, x ∈ u.kept p → x ∈ t.kept p ∨ t.Keeps x) : t.Shifted u :=
  ((Retains.refl t).of_kept hnames hframes hkept).shifted

/-! ## Names -/

theorem count_issued_self (t : Tracer) (name : String) (ty : Ty) :
    (t.issued (.result name ty)).count name = t.count name + 1 := by
  show ((t.names.insert name (t.count name + 1)).get? name).getD 0 = _
  rw [Table.get?_insert_self]
  rfl

theorem count_issued_le (t : Tracer) (v : Value) (name : String) :
    t.count name ≤ (t.issued v).count name := by
  cases v with
  | result name' ty =>
    by_cases hname : name = name'
    · subst hname
      rw [count_issued_self]
      exact Nat.le_succ _
    · show t.count name ≤ ((t.names.insert name' (t.count name' + 1)).get? name).getD 0
      rw [Table.get?_insert_of_ne _ _ hname]
      exact Nat.le_refl _
  | _ => exact Nat.le_refl _

theorem issued_kept (t : Tracer) (v : Value) (p : Place) : (t.issued v).kept p = t.kept p := by
  cases v <;> cases p <;> rfl

theorem issued_retains (t : Tracer) (v : Value) : t.Retains (t.issued v) := by
  refine ⟨count_issued_le t v, fun x hx => ?_, ?_⟩
  · obtain ⟨p, hx⟩ := hx
    exact ⟨p, issued_kept t v p ▸ hx⟩
  · rw [issued_frames]
    exact .refl _ _

/-- Only the results of instructions have names. -/
theorem fresh_named {v : Value} (h : (t.fresh v).IsNamed) : ∃ name ty, v = .result name ty := by
  obtain ⟨n, hn⟩ := h
  cases v with
  | result name ty => exact ⟨name, ty, rfl⟩
  | constant c => cases c <;> cases hn
  | receiver | argument => cases hn

/-! ## Frames -/

theorem Keeps.of_frame {f : Frame} (hf : f ∈ t.frames) (hx : x ∈ f.terms) : t.Keeps x :=
  ⟨.frames, List.mem_flatMap.mpr ⟨f, hf, hx⟩⟩

theorem Keeps.of_binds {v : Value} (h : t.Binds v x) : t.Keeps x := by
  obtain ⟨f, fs, hframes, hx⟩ := h
  refine .of_frame (f := f) (hframes ▸ List.mem_cons_self) ?_
  refine List.mem_append_left _ (List.mem_flatMap.mpr ⟨f.values, List.mem_cons_self, ?_⟩)
  exact List.mem_map_of_mem (Table.mem_entries_of_get? hx)

theorem Keeps.of_receiver {f : Frame} {fs : List Frame} {v : Value} (hframes : t.frames = f :: fs)
    (hx : f.receiver = some (v, x)) : t.Keeps x := by
  refine .of_frame (f := f) (hframes ▸ List.mem_cons_self) ?_
  refine List.mem_append_right _ ?_
  rw [hx]
  exact List.mem_singleton_self x

theorem Keeps.of_pending {call : PendingCall} (h : t.pending = some call) (hx : x ∈ call.terms) :
    t.Keeps x := by
  refine ⟨.pending, ?_⟩
  unfold kept
  rw [h]
  simpa using hx

/-- All terms of frames were kept if those of each new frame were. -/
theorem Keeps.of_frames {fs : List Frame}
    (h : ∀ f ∈ fs, f ∈ t.frames ∨ ∀ x ∈ f.terms, t.Keeps x) :
    ∀ x ∈ fs.flatMap Frame.terms, t.Keeps x := by
  intro x hx
  obtain ⟨f, hf, hx⟩ := List.mem_flatMap.mp hx
  rcases h f hf with hf | hf
  · exact .of_frame hf hx
  · exact hf x hx

/-- All terms of frames were kept if those of the new innermost frame were. -/
theorem Keeps.of_frames_cons {f : Frame} {fs : List Frame} (hfs : ∀ g ∈ fs, g ∈ t.frames)
    (hf : ∀ x ∈ f.terms, t.Keeps x) : ∀ x ∈ (f :: fs).flatMap Frame.terms, t.Keeps x := by
  refine .of_frames fun g hg => ?_
  rcases List.mem_cons.mp hg with rfl | hg
  · exact .inr hf
  · exact .inl (hfs g hg)

theorem mem_terms {f : Frame} :
    x ∈ f.terms ↔ (∃ b ∈ f.bindings, x ∈ b.entries.map Prod.snd) ∨
      x ∈ (f.receiver.map Prod.snd).toList := by
  unfold Frame.terms
  rw [List.mem_append, List.mem_flatMap]

theorem mem_terms_insert {f : Frame} {v : Value}
    (h : x ∈ Frame.terms { f with values := f.values.insert v y }) : x = y ∨ x ∈ f.terms := by
  rcases mem_terms.mp h with ⟨b, hb, h⟩ | h
  · rcases List.mem_cons.mp hb with rfl | hb
    · obtain ⟨e, he, rfl⟩ := List.mem_map.mp h
      rcases Table.mem_insert he with rfl | he
      · exact .inl rfl
      · exact .inr (mem_terms.mpr (.inl ⟨_, List.mem_cons_self, List.mem_map_of_mem he⟩))
    · exact .inr (mem_terms.mpr (.inl ⟨b, List.mem_cons_of_mem _ hb, h⟩))
  · exact .inr (mem_terms.mpr (.inr h))

/-- A frame without other bindings has no other terms. -/
theorem mem_terms_of_subset {f f' : Frame} (hsub : f'.bindings ⊆ f.bindings)
    (hreceiver : f'.receiver = f.receiver) (h : x ∈ f'.terms) : x ∈ f.terms := by
  rw [mem_terms] at h ⊢
  rw [hreceiver] at h
  rcases h with ⟨b, hb, h⟩ | h
  · exact .inl ⟨b, hsub hb, h⟩
  · exact .inr h

/-! ## Changes -/

/-- A binding adds its term and no other. -/
theorem Keeps.of_binding {f : Frame} {fs : List Frame} {v : Value} (hframes : t.frames = f :: fs)
    (h : (t.binding f fs v).Keeps x) : x = t.fresh v ∨ t.Keeps x := by
  obtain ⟨p, hx⟩ := h
  by_cases hp : p = .frames
  · subst hp
    obtain ⟨g, hg, hx⟩ := List.mem_flatMap.mp hx
    rcases List.mem_cons.mp hg with rfl | hg
    · rcases mem_terms_insert hx with rfl | hx
      · exact .inl rfl
      · exact .inr (.of_frame (hframes ▸ List.mem_cons_self) hx)
    · exact .inr (.of_frame (hframes ▸ List.mem_cons_of_mem f hg) hx)
  · have hkept : (t.binding f fs v).kept p = t.kept p := by
      rw [← issued_kept t v p]
      cases p with
      | frames => exact absurd rfl hp
      | _ => rfl
    exact .inr ⟨p, hkept ▸ hx⟩

theorem binding_shifted {f : Frame} {fs : List Frame} (v : Value) (hframes : t.frames = f :: fs) :
    t.Shifted (t.binding f fs v) := .single (.bind v hframes)

private theorem binding_binds (t : Tracer) (f : Frame) (fs : List Frame) (v : Value) :
    (t.binding f fs v).Binds v (t.fresh v) :=
  ⟨_, _, rfl, Table.get?_insert_self _ _ _⟩

theorem reading_shifted {f : Frame} {fs : List Frame} (v : Value) (hframes : t.frames = f :: fs) :
    t.Shifted (t.reading f fs v) := by
  unfold reading
  split
  · exact .refl
  · exact binding_shifted v hframes

theorem defining_shifted {f : Frame} {fs : List Frame} (v : Value) (seen : Option Observed)
    (hframes : t.frames = f :: fs) : t.Shifted (t.defining f fs v seen) :=
  (binding_shifted v hframes).tail
    (.retain ((Retains.refl _).noted _ _ _ (.of_binds (binding_binds t f fs v))))

/-- The active frame was replaced by one without other bindings. -/
theorem frame_shifted {f f' : Frame} {fs : List Frame} (hframes : t.frames = f :: fs)
    (hsub : f'.bindings ⊆ f.bindings) (hreceiver : f'.receiver = f.receiver) :
    t.Shifted { t with frames := f' :: fs } := by
  refine .of_kept rfl ?_ fun p y hy => ?_
  · exact .top hframes fun name ty x hx => .inl (hx.of_subset hsub)
  cases p with
  | frames =>
    refine .inr (Keeps.of_frames_cons (fun g hg => hframes ▸ List.mem_cons_of_mem f hg) ?_ y hy)
    intro x hx
    exact .of_frame (hframes ▸ List.mem_cons_self) (mem_terms_of_subset hsub hreceiver hx)
  | _ => exact .inl hy

theorem Change.shifted (h : t.Change u) : t.Shifted u := by
  cases h with
  | issue v => exact (issued_retains t v).shifted
  | bind hframes => exact binding_shifted _ hframes
  | note seen hframes hx =>
    exact ((Retains.refl t).noted _ _ seen (.of_binds ⟨_, _, hframes, hx⟩)).shifted
  | nonNull hx =>
    refine .of_kept rfl (.refl _ _) fun p y hy => ?_
    cases p with
    | nullChecked =>
      rcases List.mem_cons.mp hy with rfl | hy
      · exact .inr (.of_binds hx)
      · exact .inl hy
    | _ => exact .inl hy
  | typed _ hx =>
    refine .of_kept rfl (.refl _ _) fun p y hy => ?_
    cases p with
    | typeChecked =>
      rcases Table.mem_keys_insert hy with rfl | hy
      · exact .inr (.of_binds hx)
      · exact .inl hy
    | _ => exact .inl hy
  | indexed ha hk =>
    refine .of_kept rfl (.refl _ _) fun p y hy => ?_
    cases p with
    | indexChecked =>
      rcases List.mem_append.mp hy with hy | hy
      · simp only [List.mem_cons, List.not_mem_nil, or_false] at hy
        rcases hy with rfl | rfl
        · exact .inr (.of_binds ha)
        · exact .inr (.of_binds hk)
      · exact .inl hy
    | _ => exact .inl hy
  | sized hx =>
    refine .of_kept rfl (.refl _ _) fun p y hy => ?_
    cases p with
    | lengthChecked =>
      rcases List.mem_cons.mp hy with rfl | hy
      · exact .inr (.of_binds hx)
      · exact .inl hy
    | _ => exact .inl hy
  | thrown hx =>
    refine .of_kept rfl (.refl _ _) fun p y hy => ?_
    cases p with
    | thrown =>
      obtain rfl := List.mem_singleton.mp hy
      exact .inr (.of_binds hx)
    | _ => exact .inl hy
  | clause | path | trace =>
    refine .of_kept rfl (.refl _ _) fun p y hy => .inl ?_
    cases p <;> exact hy
  | handlers _ hframes =>
    exact frame_shifted hframes (Frame.bindings_refreshed_subset _ _) rfl
  | leave _ hframes => exact frame_shifted hframes (List.Subset.refl _) rfl

theorem Changed.shifted (h : t.Changed u) : t.Shifted u :=
  h.keep (P := t.Shifted) (fun hc hu => hu.trans hc.shifted) .refl

/-! ## Events -/

theorem catching_shifted {f : Frame} {fs : List Frame} (v : Value) (o : Observed)
    (hframes : t.frames = f :: fs) : t.Shifted (t.catching f fs v o) := by
  unfold catching
  cases hthrown : t.thrown with
  | none => exact defining_shifted v _ hframes
  | some x =>
    have hx : t.Keeps x := ⟨.thrown, by rw [kept, hthrown]; exact List.mem_singleton_self x⟩
    refine (Retains.noted ?_ f.method v (some o) hx).shifted
    refine (Retains.refl t).of_kept rfl ?_ fun p y hy => ?_
    · refine .top hframes fun name ty y hy => ?_
      rcases hy.of_insert with ⟨-, rfl⟩ | hy
      · exact .inr hthrown
      · exact .inl hy
    · cases p with
      | frames =>
        refine .inr (Keeps.of_frames_cons (fun g hg => hframes ▸ List.mem_cons_of_mem _ hg) ?_ y hy)
        intro z hz
        rcases mem_terms_insert hz with rfl | hz
        · exact hx
        · exact .of_frame (hframes ▸ List.mem_cons_self) hz
      | thrown => cases hy
      | _ => exact .inl hy

theorem opened_shifted (h : Event.Opened t e w) : t.Shifted w := by
  cases h with
  | same => exact .refl
  | defined _ _ _ _ hframes => exact defining_shifted _ _ hframes
  | caught _ _ hframes => exact catching_shifted _ _ hframes

theorem Receiving.shifted (h : t.Receiving w) : t.Shifted w := by
  rcases h with rfl | ⟨v, f, fs, hframes, rfl⟩
  · exact .refl
  · exact defining_shifted v none hframes

/-- The terms of a call are bound where it is made. -/
theorem Made.keeps {name : String} {spelling : MethodSpelling} {result callee : Option String}
    {arguments : List String} {call : PendingCall}
    (h : t.Made name spelling result callee arguments call) : ∀ x ∈ call.terms, t.Keeps x := by
  intro x hx
  simp only [PendingCall.terms, List.mem_append, Option.mem_toList] at hx
  rcases hx with (hx | hx) | hx
  · obtain ⟨r, hr, rfl⟩ := Option.map_eq_some_iff.mp hx
    have hreceiver := h.receiver
    rw [hr] at hreceiver
    cases hreceiver with
    | some hr => exact .of_binds hr.2
  · have hcallee := h.callee
    rw [hx] at hcallee
    cases hcallee with
    | some hx =>
      obtain ⟨v, -, hx⟩ := hx
      exact .of_binds hx
  · obtain ⟨k, rfl⟩ := List.mem_iff_get.mp hx
    obtain ⟨hlength, hmeans⟩ := List.forall₂_iff_get.mp h.arguments
    obtain ⟨v, -, hx⟩ := hmeans k.val (by rw [hlength]; exact k.isLt) k.isLt
    exact .of_binds hx

theorem calling_shifted {call : PendingCall} {next : Instruction}
    (h : ∀ x ∈ call.terms, t.Keeps x) : t.Shifted (t.calling call next) := by
  refine .of_kept rfl (.refl _ _) fun p y hy => ?_
  cases p with
  | pending =>
    obtain ⟨c, hc, hterms⟩ := List.mem_flatMap.mp hy
    obtain rfl := List.mem_singleton.mp hc
    exact .inr (h y hterms)
  | _ => exact .inl hy

/-- The values of an inlined method are bound to the terms of the call. -/
private theorem mem_terms_answering {m : Method} {call : PendingCall}
    (h : x ∈ Frame.terms { Frame.enter m call.receiver with values := Action.inlined m call }) :
    x ∈ call.terms := by
  simp only [PendingCall.terms, List.mem_append]
  rcases mem_terms.mp h with ⟨b, hb, h⟩ | h
  · obtain rfl := List.mem_singleton.mp hb
    obtain ⟨⟨v, y⟩, he, rfl⟩ := List.mem_map.mp h
    rcases List.mem_append.mp (Table.mem_ofList he) with he | he
    · exact .inl (.inr (List.of_mem_zip he).2)
    · exact .inr (List.of_mem_zip he).2
  · exact .inl (.inl h)

/-- An inlined method starts with parameters only. -/
private theorem not_has_answering {m : Method} {call : PendingCall} (name : String) (ty : Ty) :
    ¬Frame.Has { Frame.enter m call.receiver with values := Action.inlined m call }
      (.result name ty) x := by
  rintro ⟨b, hb, hx⟩
  obtain rfl := List.mem_singleton.mp hb
  rcases mem_inlined (Table.mem_ofList (Table.mem_entries_of_get? hx)) with
    ⟨_, -, heq, -⟩ | ⟨_, _, -, heq, -⟩
  · cases heq
  · cases heq

/-- There is no pending call any more, and the terms of the frames were kept. -/
theorem Shifted.of_frames {clauses : List Clause} {frames : List Frame} {callTrace : List CallSite}
    (hframes : Frame.Inherits t.thrown t.frames frames)
    (h : ∀ x ∈ frames.flatMap Frame.terms, t.Keeps x) :
    t.Shifted { t with clauses, frames, callTrace, pending := none } := by
  refine .of_kept rfl hframes fun p y hy => ?_
  cases p with
  | frames => exact .inr (h y hy)
  | pending => cases hy
  | _ => exact .inl hy

theorem flushed_shifted (t : Tracer) : t.Shifted t.flushed :=
  .of_frames (.refl _ _) fun _ hx => ⟨.frames, hx⟩

theorem resumed_shifted (t : Tracer) : t.Shifted t.resumed :=
  .of_frames (.refl _ _) fun _ hx => ⟨.frames, hx⟩

theorem pushing_shifted (t : Tracer) (m : Method) : t.Shifted (t.pushing m) := by
  refine .of_frames (.push fun name ty x hx => ?_) fun _ hx => ⟨.frames, hx⟩
  obtain ⟨b, hb, hx⟩ := hx
  obtain rfl := List.mem_singleton.mp hb
  cases hx

theorem answering_shifted {call : PendingCall} (m : Method) (hcall : t.pending = some call) :
    t.Shifted (t.answering m call) := by
  refine .of_frames (.push fun name ty x => not_has_answering name ty) ?_
  refine Keeps.of_frames_cons (fun g hg => hg) fun x hx => ?_
  exact .of_pending hcall (mem_terms_answering hx)

/-- An exception leaves no frame, or frames that were there, the first one where one of its handlers
starts. -/
theorem unwound_eq (t : Tracer) (thrown : Ty) (fs : List Frame) (calls : List CallSite) :
    (Action.unwound t thrown fs calls).1 = [] ∨
      ∃ g gs handler, (g :: gs) <:+ fs ∧
        (Action.unwound t thrown fs calls).1 = g.restored handler :: gs := by
  induction fs generalizing calls with
  | nil => exact .inl rfl
  | cons g fs ih =>
    rw [Action.unwound]
    cases Action.handler? t.program.hierarchy g thrown with
    | some handler => exact .inr ⟨g, fs, handler, List.suffix_refl _, rfl⟩
    | none =>
      rcases ih (Action.callsAfter t g calls) with hnil | ⟨g', gs, handler, hsuffix, heq⟩
      · exact .inl hnil
      · exact .inr ⟨g', gs, handler, hsuffix.trans (List.suffix_cons g fs), heq⟩

theorem unwoundBy_shifted (t : Tracer) (thrown : Ty) : t.Shifted (t.unwoundBy thrown) := by
  rcases unwound_eq t.flushed thrown t.frames t.callTrace with
    hnil | ⟨g, gs, handler, hsuffix, heq⟩
  · refine .of_frames (hnil ▸ .keep List.nil_suffix) ?_
    rw [hnil]
    exact nofun
  · refine .of_frames ?_ ?_
    · rw [heq]
      exact .replace hsuffix fun name ty x hx =>
        .inl (hx.of_subset (Frame.bindings_restored_subset g handler))
    · rw [heq]
      refine Keeps.of_frames_cons (fun f hf => hsuffix.subset (List.mem_cons_of_mem g hf)) ?_
      intro x hx
      refine .of_frame (hsuffix.subset List.mem_cons_self) ?_
      exact mem_terms_of_subset (Frame.bindings_restored_subset g handler) rfl hx

theorem Followed.flushed_shifted {name : String} (h : t.Followed name u) :
    t.Shifted u.flushed := by
  cases h with
  | left _ _ _ _ _ hframes =>
    refine .of_frames (.keep (hframes ▸ List.suffix_cons _ _)) (Keeps.of_frames fun g hg => .inl ?_)
    rw [hframes]
    exact List.mem_cons_of_mem _ hg
  | _ => exact .of_frames (.refl _ _) fun _ hx => ⟨.frames, hx⟩

/-- The result is read in the frame that is left, and what receives it is recorded. -/
theorem returned_shifted {f : Frame} {callers : List Frame} (i : Instruction) (v : Option Value)
    (o : Observed) (hframes : t.frames = f :: callers) :
    t.Shifted (t.returned i f callers v o) := by
  let s : Tracer := v.elim t (t.reading f callers)
  have hs : t.Shifted s ∧ ∃ f', s.frames = f' :: callers ∧ f'.receiver = f.receiver := by
    cases v with
    | none => exact ⟨.refl, f, hframes, rfl⟩
    | some v =>
      obtain ⟨f', hf', -, hreceiver⟩ := Action.reading_frames v hframes
      exact ⟨reading_shifted v hframes, f', hf', hreceiver⟩
  obtain ⟨hsupplied, f', hf', hreceiver⟩ := hs
  have hleft : s.Retains { s with frames := callers, trace := t.trace ++ [i] } := by
    refine (Retains.refl s).of_kept rfl (.keep (hf' ▸ List.suffix_cons _ _)) fun p y hy => ?_
    cases p with
    | frames =>
      refine .inr (Keeps.of_frames (fun g hg => .inl ?_) y hy)
      rw [hf']
      exact List.mem_cons_of_mem f' hg
    | _ => exact .inl hy
  refine hsupplied.tail (.retain ?_)
  unfold returned
  split
  · rename_i v' received y hreceived
    have hy : s.Keeps y := .of_receiver hf' (hreceiver.trans hreceived)
    have hnoted := hleft.noted ((callers.head?.map Frame.method).getD f.method) received (some o) hy
    refine hnoted.of_kept rfl hnoted.frames fun p x hx => .inl ?_
    cases p <;> exact hx
  · exact hleft

theorem Counts.shifted {s : Tracer} (h : t.Counts e s) : t.Shifted s := by
  cases h with
  | instruction => exact resumed_shifted t
  | caught => exact unwoundBy_shifted t _

/-- Whatever an event does, it is made of shifts. -/
theorem handled_shifted {ok : Bool} (h : t.Handled e ok u) : t.Shifted u := by
  cases h with
  | refused => exact .refl
  | answered hcall => exact answering_shifted _ hcall
  | pushed => exact pushing_shifted t _
  | entered _ _ _ hu =>
    exact Action.entered_keep (P := t.Shifted) hu
      (fun v o hframes h => h.trans (defining_shifted v (some o) hframes)) (pushing_shifted t _)
  | nullException => exact flushed_shifted t
  | uncaught | unwound => exact unwoundBy_shifted t _
  | skipped _ _ hu => exact hu.flushed_shifted
  | acted hs hw hu => exact (hs.shifted.trans (opened_shifted hw)).trans hu.shifted
  | failed hs hw hu =>
    rcases hw with rfl | hw
    · exact hs.shifted.trans hu.shifted
    · exact (hs.shifted.trans (opened_shifted hw)).trans hu.shifted
  | notCalled hs hw hu => exact (hs.shifted.trans hw.shifted).trans hu.shifted
  | called hs hw hu hmade hv =>
    have hmaking := (hs.shifted.trans hw.shifted).trans hu.shifted
    exact (hmaking.trans (calling_shifted hmade.keeps)).trans hv.shifted
  | returned hs _ hframes => exact hs.shifted.trans (returned_shifted _ _ _ hframes)

theorem deliver_shifted (t : Tracer) (e : Event) : t.Shifted (t.deliver e).2 := by
  refine deliver_keep e .refl (fun _ _ h => handled_shifted h) fun u fatal h => h.trans ?_
  refine .of_kept rfl (.refl _ _) fun p y hy => .inl ?_
  cases p <;> exact hy

/-! ## The supply of names -/

theorem Retains.reuses (h : t.Retains u) : t.Reuses u :=
  ⟨h.count, fun x hx _ => h.kept x hx, h.frames⟩

/-- A shift is a step in the supply of names, whether the term that a value gets has a name or not.
-/
theorem Shift.supplied (h : t.Shift u) : t.Supplied u := by
  cases h with
  | retain h => exact .single (.reuse h.reuses)
  | bind v hframes =>
    by_cases hnamed : (t.fresh v).IsNamed
    · obtain ⟨name, ty, rfl⟩ := fresh_named hnamed
      exact .single (.result name ty hframes)
    · refine .single (.reuse ⟨count_issued_le t v, fun x hx hxn => ?_, ?_⟩)
      · rcases Keeps.of_binding hframes hx with rfl | hx
        · exact absurd hxn hnamed
        · exact hx
      · refine .top hframes fun name ty x hx => .inl ?_
        rcases hx.of_insert with ⟨rfl, -⟩ | hx
        · exact absurd ⟨_, rfl⟩ hnamed
        · exact hx

theorem Shifted.supplied (h : t.Shifted u) : t.Supplied u := by
  induction h with
  | refl => exact .refl
  | tail _ hlast ih => exact Relation.ReflTransGen.trans ih hlast.supplied

theorem deliver_supplied (t : Tracer) (e : Event) : t.Supplied (t.deliver e).2 :=
  (deliver_shifted t e).supplied

end Tracer

end Concolic
