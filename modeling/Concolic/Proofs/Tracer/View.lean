import Concolic.Proofs.Tracer.Guarded

/-!
# What can be seen of a tracer

Later events do not tell all tracers apart. A parameter or a constant without a binding gets the one
term that stands for it, so whether it is bound makes no difference. What is remembered of a term
makes none either, if the guard it was remembered for cannot be stated of that term.

* `Tracer.view t`: what later events can see of a tracer, apart from the records of its terms.
* `Tracer.Alike t u`: the tracers have the same view and the same records.
* `Tracer.rest t`: the view without names and terms of values. `Tracer.Spares t u`: names, terms of
  values, records and calls of `t` are those of `u`. Together they make the tracers alike.
-/

namespace Concolic

/-- The term that stands for a parameter or a constant. -/
def Value.own? : Value → Option Term
  | .receiver ty => some (Term.receiver ty)
  | .argument index ty => some (Term.argument ty index)
  | .constant c => some (Term.constant c)
  | .result .. => none

/-- The term that a value is bound to, or else the one that stands for it. -/
def Bindings.term? (b : Bindings) (v : Value) : Option Term := (b.get? v).or v.own?

private theorem Bindings.term?_insert (b : Bindings) (v : Value) (x : Term) :
    Bindings.term? (b.insert v x) = Function.update b.term? v (some x) := by
  funext w
  by_cases h : w = v
  · subst h
    rw [Function.update_self, term?, Table.get?_insert_self]
    rfl
  · rw [Function.update_of_ne h, term?, Table.get?_insert_of_ne b x h]
    rfl

/-- What can be seen of a frame. -/
structure Frame.View where
  method : Method
  receiver : Option (Value × Term)
  /-- The handled types, each with the terms of values where its handler starts. -/
  catches : Table Ty (Value → Option Term)
  previousBlock : Nat
  values : Value → Option Term

namespace Frame

/-- The view of a frame in which a value was bound. -/
def View.bound (f : View) (v : Value) (x : Term) : View :=
  { f with values := Function.update f.values v (some x) }

/-- The view of a frame that has noted handlers. -/
def View.refreshed (f : View) (handlers : List Ty) : View :=
  { f with catches := handlers.foldl (fun catches ty => catches.insert ty f.values) ∅ }

/-- The view of a frame where one of its handlers starts. -/
def View.restored (f : View) (handler : Ty) : View :=
  { f with values := (f.catches.get? handler).getD f.values }

def view (f : Frame) : View where
  method := f.method
  receiver := f.receiver
  catches := f.catches.mapValues Bindings.term?
  previousBlock := f.previousBlock
  values := f.values.term?

theorem view_insert (f : Frame) (v : Value) (x : Term) :
    ({ f with values := f.values.insert v x } : Frame).view = f.view.bound v x := by
  unfold view View.bound
  rw [Bindings.term?_insert]

theorem view_refreshed (f : Frame) (handlers : List Ty) :
    (f.refreshed handlers).view = f.view.refreshed handlers := by
  have hfold (t : Table Ty Bindings) :
      (handlers.foldl (fun catches ty => catches.insert ty f.values) t).mapValues Bindings.term? =
        handlers.foldl (fun catches ty => catches.insert ty f.values.term?)
          (t.mapValues Bindings.term?) := by
    induction handlers generalizing t with
    | nil => rfl
    | cons ty handlers ih => rw [List.foldl_cons, List.foldl_cons, ih, Table.mapValues_insert]
  exact congrArg (fun catches => { f.view with catches }) (hfold ∅)

theorem view_restored (f : Frame) (handler : Ty) :
    (f.restored handler).view = f.view.restored handler := by
  have hvalues : Bindings.term? ((f.catches.get? handler).getD f.values) =
      ((f.catches.mapValues Bindings.term?).get? handler).getD f.values.term? := by
    rw [Table.get?_mapValues]
    cases f.catches.get? handler <;> rfl
  exact congrArg (fun values => { f.view with values }) hvalues

end Frame

/-- What can be seen of a tracer, apart from what is recorded of terms. -/
structure Tracer.View where
  setup : Program × Dispatch × Config
  clauses : List Clause
  path : List PathClause
  trace : List Instruction
  nonNull : Term → Bool
  typed : Term → Option Ty
  indexed : Term → Term → Bool
  sized : Term → Bool
  frames : List Frame.View
  count : String → Nat
  pending : Option PendingCall
  callTrace : List CallSite
  thrown : Option Term
  aborted : Bool

namespace Tracer

variable {t u w : Tracer}

/-- What is remembered of a term counts if the guard can be stated of it. -/
def view (t : Tracer) : View where
  setup := t.setup
  clauses := t.clauses
  path := t.path
  trace := t.trace
  nonNull x := x.ty.isPointer && t.nullChecked.contains x
  typed x := if x.ty.isPointer then t.typeChecked.get? x else none
  indexed a k := a.ty.element?.isSome && k.ty.isPrimitive && t.indexChecked.contains (a, k)
  sized x := x.ty.isPrimitive && t.lengthChecked.contains x
  frames := t.frames.map Frame.view
  count := t.count
  pending := t.pending
  callTrace := t.callTrace
  thrown := t.thrown
  aborted := t.aborted

/-- Later events cannot tell the tracers apart. -/
structure Alike (t u : Tracer) : Prop where
  view : u.view = t.view
  concrete : u.concrete = t.concrete
  origins : u.origins = t.origins

namespace Alike

theorem refl (t : Tracer) : t.Alike t := ⟨rfl, rfl, rfl⟩

theorem symm (h : t.Alike u) : u.Alike t := ⟨h.view.symm, h.concrete.symm, h.origins.symm⟩

theorem trans (h : t.Alike u) (h' : u.Alike w) : t.Alike w :=
  ⟨h'.view.trans h.view, h'.concrete.trans h.concrete, h'.origins.trans h.origins⟩

theorem setup (h : t.Alike u) : u.setup = t.setup := congrArg View.setup h.view

theorem program (h : t.Alike u) : u.program = t.program := congrArg Prod.fst h.setup

theorem clauses (h : t.Alike u) : u.clauses = t.clauses := congrArg View.clauses h.view

theorem path (h : t.Alike u) : u.path = t.path := congrArg View.path h.view

theorem trace (h : t.Alike u) : u.trace = t.trace := congrArg View.trace h.view

theorem frames (h : t.Alike u) : u.frames.map Frame.view = t.frames.map Frame.view :=
  congrArg View.frames h.view

theorem count (h : t.Alike u) : u.count = t.count := congrArg View.count h.view

theorem pending (h : t.Alike u) : u.pending = t.pending := congrArg View.pending h.view

theorem callTrace (h : t.Alike u) : u.callTrace = t.callTrace := congrArg View.callTrace h.view

theorem thrown (h : t.Alike u) : u.thrown = t.thrown := congrArg View.thrown h.view

theorem aborted (h : t.Alike u) : u.aborted = t.aborted := congrArg View.aborted h.view

theorem frames_nil (h : t.Alike u) (hframes : t.frames = []) : u.frames = [] := by
  have := h.frames
  rwa [hframes, List.map_nil, List.map_eq_nil_iff] at this

theorem frames_cons {f : Frame} {fs : List Frame} (h : t.Alike u) (hframes : t.frames = f :: fs) :
    ∃ g gs, u.frames = g :: gs ∧ g.view = f.view ∧ gs.map Frame.view = fs.map Frame.view := by
  have := h.frames
  rwa [hframes, List.map_cons, List.map_eq_cons_iff] at this

theorem stack (h : t.Alike u) : u.stack = t.stack := by
  have hmap (fs : List Frame) :
      fs.map Frame.method = (fs.map Frame.view).map Frame.View.method := by
    rw [List.map_map]
    rfl
  rw [Tracer.stack, Tracer.stack, hmap, hmap, h.frames]

theorem instruction? (h : t.Alike u) (name : String) :
    u.instruction? name = t.instruction? name := by
  rw [instruction?_eq, instruction?_eq, h.program, h.stack]

theorem summary (h : t.Alike u) : u.summary = t.summary := by
  simp only [Tracer.summary, pendingClauses, h.clauses, h.pending, h.path, h.concrete, h.origins]

/-- The tracers go on with views that are computed from theirs, and with the same records. -/
theorem of_view {t' u' : Tracer} (h : t.Alike u) (g : View → View) (ht : t'.view = g t.view)
    (hu : u'.view = g u.view) (hconcrete : u'.concrete = t'.concrete)
    (horigins : u'.origins = t'.origins) : t'.Alike u' :=
  ⟨by rw [ht, hu, h.view], hconcrete, horigins⟩

end Alike

/-- What can be seen of a tracer besides the names that were given out and the terms of values. -/
def rest (t : Tracer) : View := { t.view with frames := [], count := fun _ => 0 }

/-- Between `t` and `u` nothing was recorded of a term, no name was given out, no value got another
term than it had, and no call to come back to was added or removed. -/
structure Spares (t u : Tracer) : Prop where
  concrete : u.concrete = t.concrete
  origins : u.origins = t.origins
  count : u.count = t.count
  frames : u.frames.map Frame.view = t.frames.map Frame.view
  callTrace : u.callTrace = t.callTrace

theorem Alike.rest (h : t.Alike u) : u.rest = t.rest := by
  rw [Tracer.rest, Tracer.rest, h.view]

theorem Spares.alike (h : t.Spares u) (hrest : u.rest = t.rest) : t.Alike u := by
  refine ⟨?_, h.concrete, h.origins⟩
  have hview (w : Tracer) :
      w.view = { w.rest with frames := w.frames.map Frame.view, count := w.count } := rfl
  rw [hview u, hview t, hrest, h.frames, h.count]

/-! ## Views of the terms of values -/

theorem fresh_of_own {v : Value} {x : Term} (h : v.own? = some x) (t : Tracer) :
    t.fresh v = x ∧ t.issued v = t := by
  cases v with
  | result => cases h
  | receiver | argument | constant => exact ⟨Option.some.inj h, rfl⟩

theorem fresh_of_count (h : u.count = t.count) (v : Value) : u.fresh v = t.fresh v := by
  cases v with
  | result name ty => rw [fresh, fresh, h]
  | receiver | argument | constant => rfl

private theorem count_issued_result (t : Tracer) (name : String) (ty : Ty) :
    (t.issued (.result name ty)).count = Function.update t.count name (t.count name + 1) := by
  funext n
  by_cases h : n = name
  · subst h
    rw [Function.update_self, issued, count, Table.get?_insert_self]
    rfl
  · rw [Function.update_of_ne h, issued, count, Table.get?_insert_of_ne _ _ h]
    rfl

/-- The view after a term was made for a value. -/
def View.issued (w : View) : Value → View
  | .result name _ => { w with count := Function.update w.count name (w.count name + 1) }
  | _ => w

theorem view_issued (t : Tracer) (v : Value) : (t.issued v).view = t.view.issued v := by
  cases v with
  | result name ty =>
    have hcount := count_issued_result t name ty
    show ({ t.view with count := (t.issued (.result name ty)).count } : View) = _
    rw [hcount]
    rfl
  | receiver | argument | constant => rfl

theorem view_binding (t : Tracer) (f : Frame) (fs : List Frame) (v : Value) :
    (t.binding f fs v).view =
      { t.view.issued v with frames := f.view.bound v (t.fresh v) :: fs.map Frame.view } := by
  rw [← view_issued, ← Frame.view_insert]
  rfl

/-- A value that has a term of its own, and no other, may as well be bound to it. -/
theorem view_reading_of_own {f : Frame} {fs : List Frame} {v : Value} {x : Term}
    (hown : v.own? = some x) (hframes : t.frames = f :: fs) :
    (t.reading f fs v).view = t.view := by
  unfold reading
  cases hget : f.values.get? v with
  | some y => rfl
  | none =>
    obtain ⟨hfresh, hissued⟩ := fresh_of_own hown t
    have hterm : f.view.values v = some x := by
      show (f.values.get? v).or v.own? = some x
      rw [hget, hown]
      rfl
    have hbound : f.view.bound v x = f.view := by
      unfold Frame.View.bound
      rw [← hterm, Function.update_eq_self]
    show (t.binding f fs v).view = t.view
    rw [view_binding, ← view_issued, hissued, hfresh, hbound, ← List.map_cons, ← hframes]
    rfl

/-- The term of a value can be seen, and it is the one that stands for the value unless it is bound
to another. -/
theorem term_eq {f : Frame} {v : Value} (t : Tracer) :
    t.term f v = (f.view.values v).getD (t.fresh v) := by
  show (f.values.get? v).getD (t.fresh v) = ((f.values.get? v).or v.own?).getD (t.fresh v)
  cases hget : f.values.get? v with
  | some y => rfl
  | none =>
    cases hown : v.own? with
    | none => rfl
    | some x => exact (fresh_of_own hown t).1

/-! ## Views of what is remembered -/

section Memory

variable {x a k : Term}

theorem view_nonNull (t : Tracer) (x : Term) :
    ({ t with nullChecked := x :: t.nullChecked } : Tracer).view =
      { t.view with nonNull := fun y => (y.ty.isPointer && y == x) || t.view.nonNull y } := by
  have hnonNull : (fun y : Term => y.ty.isPointer && (x :: t.nullChecked).contains y) =
      fun y => (y.ty.isPointer && y == x) || (y.ty.isPointer && t.nullChecked.contains y) := by
    funext y
    rw [List.contains_cons, Bool.and_or_distrib_left]
  show ({ t.view with nonNull := _ } : View) = _
  rw [hnonNull]
  rfl

theorem view_typed (t : Tracer) (x : Term) (ty : Ty) :
    ({ t with typeChecked := t.typeChecked.insert x ty } : Tracer).view =
      { t.view with
        typed := fun y => if y.ty.isPointer && x == y then some ty else t.view.typed y } := by
  have htyped : (fun y : Term =>
      if y.ty.isPointer then (t.typeChecked.insert x ty).get? y else none) =
      fun y => if y.ty.isPointer && x == y then some ty
        else if y.ty.isPointer then t.typeChecked.get? y else none := by
    funext y
    rw [Table.get?_insert]
    cases y.ty.isPointer <;> rfl
  show ({ t.view with typed := _ } : View) = _
  rw [htyped]
  rfl

theorem view_indexed (t : Tracer) (a k : Term) :
    ({ t with indexChecked := (a, k) :: t.indexChecked } : Tracer).view =
      { t.view with
        indexed := fun b l =>
          (b.ty.element?.isSome && l.ty.isPrimitive && (b == a && l == k)) ||
            t.view.indexed b l } := by
  have hindexed : (fun b l : Term =>
      b.ty.element?.isSome && l.ty.isPrimitive && ((a, k) :: t.indexChecked).contains (b, l)) =
      fun b l => (b.ty.element?.isSome && l.ty.isPrimitive && (b == a && l == k)) ||
        (b.ty.element?.isSome && l.ty.isPrimitive && t.indexChecked.contains (b, l)) := by
    funext b l
    rw [List.contains_cons, Bool.and_or_distrib_left]
    rfl
  show ({ t.view with indexed := _ } : View) = _
  rw [hindexed]
  rfl

theorem view_sized (t : Tracer) (x : Term) :
    ({ t with lengthChecked := x :: t.lengthChecked } : Tracer).view =
      { t.view with sized := fun y => (y.ty.isPrimitive && y == x) || t.view.sized y } := by
  have hsized : (fun y : Term => y.ty.isPrimitive && (x :: t.lengthChecked).contains y) =
      fun y =>
        (y.ty.isPrimitive && y == x) || (y.ty.isPrimitive && t.lengthChecked.contains y) := by
    funext y
    rw [List.contains_cons, Bool.and_or_distrib_left]
  show ({ t.view with sized := _ } : View) = _
  rw [hsized]
  rfl

/-- A term of another type than the one that is asked for is not the same term. -/
theorem and_beq_eq_false {q : Ty → Bool} (hx : q x.ty = false) (y : Term) :
    (q y.ty && y == x) = false := by
  cases hyx : y == x with
  | false => exact Bool.and_false _
  | true => rw [Term.ty_of_beq hyx, hx]; rfl

end Memory

end Tracer

end Concolic
