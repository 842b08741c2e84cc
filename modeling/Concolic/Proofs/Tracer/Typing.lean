import Concolic.Proofs.Tracer.Allocation

/-!
# Checks of types

A tracer keeps one type with a term: the one that the term was made with, or the one that was
checked last. A check is skipped if the type that is kept is a subtype of the one in question. Since
a type is kept however its check came out, what is skipped need not follow from the path.

* `Event.typeCheck?`, `PathClause.tests?`: the question of a check, and what a decision says to it.
* `Tracer.Tested t name ty b r`: what becomes of a check, from the tracer on. `handle_tested` says
  it of all events that ask for one.
* `Tracer.typings t es`: the terms that are made in a run with their types, and the terms and types
  that its checks decide, in order. The last type of a term is the one that is kept (`Typed.run`).
* `type_check_skipped_iff`: a check is skipped exactly if the last type of the term is a subtype.
* `type_check_skipped_false`: a check that is skipped since another one failed.
-/

namespace Concolic

namespace Sample

def integer : Observed := .object 1 "java/lang/Integer" []

def string : Observed := .text 1 "s"

def typeGuard (o : Observed) (type : String) : Event := .guardExpectedType "ret" ⟨"arg$0", o⟩ type

end Sample

/-- The term whose type the decision is about, the type, and whether the term is of the type. -/
def PathClause.tests? (c : PathClause) : Option (Term × Ty × Bool) :=
  match c.predicate.decided? with
  | some (⟨.instanceOf ty, _, [x]⟩, b) => some (x, ty, b)
  | _ => none

/-- The operand whose type the event asks for, the type, and whether what was observed is of it. -/
def Event.typeCheck? (h : Hierarchy) : Event → Option (Operand × Ty × Bool)
  | .guardType _ checked => checked.observed.type?.map fun ty => (checked, ty, true)
  | .guardExpectedType _ checked text =>
    (Ty.parse text).toOption.map fun ty =>
      (checked, ty, checked.observed.type?.any (h.isSubtype · ty))
  | _ => none

/-- The event asks for the type of an operand. -/
def Event.isTypeCheck : Event → Bool
  | .guardType .. | .guardExpectedType .. => true
  | _ => false

namespace Tracer

variable {t u w : Tracer} {e : Event} {name : String} {ty : Ty} {b : Bool}

private theorem isTyped_iff {x : Term} : Action.isTyped t x ty = true ↔
    ∃ known, t.typeChecked.get? x = some known ∧
      t.program.hierarchy.isSubtype known ty = true := by
  unfold Action.isTyped
  cases t.typeChecked.get? x <;> simp

/-! ## Single checks -/

/-- Nothing was decided, and the types that are kept are the same. -/
structure Untested (t u : Tracer) : Prop where
  path : u.path = t.path
  typed : u.typeChecked = t.typeChecked

/-- What becomes of a check whether the value of a name is of a type, with the answer `b`. It fails
on the way; nothing is done, for the null constant or for a term whose type is known; the answer is
decided and the type is kept (`stated`); or the type is kept, but the term is no pointer, so that
nothing can be decided (`refused`). -/
inductive Tested (t : Tracer) (name : String) (ty : Ty) (b : Bool) :
    EStateM.Result Error Tracer Unit → Prop
  | failed {cause : Error} {u : Tracer} (h : t.Untested u) : Tested t name ty b (.error cause u)
  | null {u : Tracer} (hv : t.value? name = some (.constant .null)) (h : t.Untested u) :
      Tested t name ty b (.ok () u)
  | known {v : Value} {x : Term} {u : Tracer} (hv : t.value? name = some v) (hx : u.Binds v x)
      (hknown : Action.isTyped t x ty = true) (h : t.Untested u) : Tested t name ty b (.ok () u)
  | stated {v : Value} {x : Term} {c : PathClause} {u : Tracer} (hv : t.value? name = some v)
      (hx : u.Binds v x) (hknown : Action.isTyped t x ty = false)
      (hc : c.tests? = some (x, ty, b)) (hpath : u.path = t.path ++ [c])
      (htyped : u.typeChecked = t.typeChecked.insert x ty) : Tested t name ty b (.ok () u)
  | refused {x : Term} {cause : Error} {u : Tracer} (hx : x.ty.isPointer = false)
      (hpath : u.path = t.path) (htyped : u.typeChecked = t.typeChecked.insert x ty) :
      Tested t name ty b (.error cause u)

namespace Action

variable {α : Type} {k : α → Action Unit}

theorem tested_read {x : Action α} (hx : x.Reads)
    (hk : ∀ a, x t = .ok a t → t.Tested name ty b (k a t)) : t.Tested name ty b ((x >>= k) t) := by
  rw [bind_apply]
  cases h : x t with
  | ok a u =>
    obtain rfl := hx.ok h
    exact hk a h
  | error cause u =>
    obtain rfl := hx.error h
    exact .failed ⟨rfl, rfl⟩

/-- A pointer can be tested against any type. -/
theorem guardInstance_of_pointer (reason : Check) (i : Instruction) {x : Term} (ty : Ty) (b : Bool)
    (h : x.ty.isPointer = true) (t : Tracer) :
    ∃ (c : PathClause) (clauses : List Clause), c.tests? = some (x, ty, b) ∧
      guardInstance reason i x ty b t = .ok () { t with
        typeChecked := t.typeChecked.insert x ty, path := t.path ++ [c], clauses } := by
  let tested : Term := ⟨.instanceOf ty, .bool, [x]⟩
  have hok : Term.instanceOf x ty = .ok tested := by
    unfold Term.instanceOf Term.expectPointer Term.expect
    rw [if_pos h]
    rfl
  let c : PathClause := ⟨reason, i, i.decision.equality tested (Term.bool b)⟩
  refine ⟨c, t.clauses ++ [.path c], rfl, ?_⟩
  unfold guardInstance
  rw [modify_bind, lift_bind_of_ok hok]
  rfl

/-- The type is kept before the test turns out to make no sense. -/
theorem guardInstance_of_not_pointer (reason : Check) (i : Instruction) {x : Term} (ty : Ty)
    (b : Bool) (h : x.ty.isPointer = false) (t : Tracer) :
    ∃ cause, guardInstance reason i x ty b t =
      .error cause { t with typeChecked := t.typeChecked.insert x ty } := by
  obtain ⟨cause, herror⟩ : ∃ cause, Term.instanceOf x ty = .error cause := by
    unfold Term.instanceOf Term.expectPointer Term.expect
    rw [h]
    exact ⟨_, rfl⟩
  refine ⟨cause, ?_⟩
  unfold guardInstance
  rw [modify_bind, herror]
  rfl

/-- The term of a value is checked, unless its type is known. -/
theorem tested_termOf (reason : Check) (i : Instruction) {v : Value} {k : Term → Action Unit}
    (hv : t.value? name = some v)
    (hk : ∀ (x : Term) (u : Tracer), u.program = t.program → k x u =
      (if isTyped u x ty then pure () else guardInstance reason i x ty b : Action Unit) u) :
    t.Tested name ty b ((termOf v >>= k) t) := by
  rw [bind_apply]
  cases hframes : t.frames with
  | nil =>
    have hnone : t.value? name = none := by
      unfold Tracer.value?
      rw [hframes]
      rfl
    rw [hnone] at hv
    cases hv
  | cons f fs =>
    rw [termOf_run v hframes]
    obtain ⟨names, frames, heq⟩ := reading_eq t f fs v
    have hbinds : (t.reading f fs v).Binds v (t.term f v) :=
      ((Ensures.termOf v).of_ok (termOf_run v hframes)).2
    generalize t.term f v = x at hbinds ⊢
    generalize t.reading f fs v = w at hbinds heq ⊢
    have hprogram : w.program = t.program := by rw [heq]
    have htyped : w.typeChecked = t.typeChecked := by rw [heq]
    have hpath : w.path = t.path := by rw [heq]
    have hsame : isTyped w x ty = isTyped t x ty := by
      unfold isTyped
      rw [htyped, hprogram]
    dsimp only
    rw [hk x w hprogram, hsame]
    cases hknown : isTyped t x ty with
    | true => exact .known hv hbinds hknown ⟨hpath, htyped⟩
    | false =>
      rw [if_neg Bool.false_ne_true]
      cases hpointer : x.ty.isPointer with
      | true =>
        obtain ⟨c, clauses, hc, hrun⟩ := guardInstance_of_pointer reason i ty b hpointer w
        rw [hrun]
        exact .stated hv hbinds hknown hc (congrArg (· ++ [c]) hpath)
          (congrArg (·.insert x ty) htyped)
      | false =>
        obtain ⟨cause, hrun⟩ := guardInstance_of_not_pointer reason i ty b hpointer w
        rw [hrun]
        exact .refused hpointer hpath (congrArg (·.insert x ty) htyped)

theorem guardType_tested (name : String) {checked : Operand}
    (h : checked.observed.type? = some ty) :
    ∃ act, guardType name checked = start name act ∧
      ∀ t : Tracer, t.Tested checked.name ty true (act t) := by
  unfold guardType
  rw [h]
  refine ⟨_, rfl, fun t => tested_read (Reads.anyInstruction name) fun i _ => ?_⟩
  refine tested_read (Reads.value checked.name) fun v hv => ?_
  exact tested_termOf .overload i (value_ok hv) fun x u _ => rfl

theorem guardExpectedType_tested (name : String) (checked : Operand) {text : String}
    (h : Ty.parse text = .ok ty) :
    ∃ act, guardExpectedType name checked text = start name act ∧
      ∀ t : Tracer, t.Tested checked.name ty
        (checked.observed.type?.any (t.program.hierarchy.isSubtype · ty)) (act t) := by
  unfold guardExpectedType
  rw [h]
  refine ⟨_, rfl, fun t => tested_read (Reads.anyInstruction name) fun i _ => ?_⟩
  refine tested_read (Reads.value checked.name) fun v hv => ?_
  split
  · next hnull => exact .null (hnull ▸ value_ok hv) ⟨rfl, rfl⟩
  · refine tested_termOf .type i (value_ok hv) fun x u hu => ?_
    rw [get_bind, ← hu]
    cases checked.observed.type? <;> rfl

end Action

/-- The event of a check is handled by `start`, with an action that makes the check. -/
theorem handle_eq_start_tested {h : Hierarchy} {checked : Operand}
    (hcheck : e.typeCheck? h = some (checked, ty, b)) :
    ∃ name act, handle e = Action.start name act ∧
      ∀ t : Tracer, t.program.hierarchy = h → t.Tested checked.name ty b (act t) := by
  cases e with
  | guardType name operand =>
    obtain ⟨ty', hty, heq⟩ := Option.map_eq_some_iff.mp hcheck
    cases heq
    obtain ⟨act, hstart, hact⟩ := Action.guardType_tested name hty
    exact ⟨name, act, hstart, fun t _ => hact t⟩
  | guardExpectedType name operand text =>
    obtain ⟨ty', hty, heq⟩ := Option.map_eq_some_iff.mp hcheck
    cases heq
    have hparse : Ty.parse text = .ok ty := by
      cases hr : Ty.parse text with
      | ok ty' => rw [hr] at hty; cases hty; rfl
      | error cause => rw [hr] at hty; cases hty
    obtain ⟨act, hstart, hact⟩ := Action.guardExpectedType_tested name checked hparse
    exact ⟨name, act, hstart, fun t ht => ht ▸ hact t⟩
  | _ => cases hcheck

/-- A pending call makes no difference. -/
theorem Tested.of_resumed {r : EStateM.Result Error Tracer Unit}
    (h : t.resumed.Tested name ty b r) : t.Tested name ty b r := by
  cases h with
  | failed h => exact .failed ⟨h.path, h.typed⟩
  | null hv h => exact .null hv ⟨h.path, h.typed⟩
  | known hv hx hknown h => exact .known hv hx hknown ⟨h.path, h.typed⟩
  | stated hv hx hknown hc hpath htyped => exact .stated hv hx hknown hc hpath htyped
  | refused hx hpath htyped => exact .refused hx hpath htyped

/-- While events count, the check is made. -/
theorem handle_tested {checked : Operand}
    (hcheck : e.typeCheck? t.program.hierarchy = some (checked, ty, b))
    (hcalls : t.callTrace = []) : t.Tested checked.name ty b (handle e t) := by
  obtain ⟨name, act, hstart, hact⟩ := handle_eq_start_tested hcheck
  have hfollowed : t.Followed name t := .idle hcalls
  rw [hstart, Action.start_of_followed act hfollowed, if_pos (by simp [hcalls]),
    hfollowed.flushed_eq_resumed hcalls]
  exact (hact t.resumed rfl).of_resumed

/-- What is left of a tracer by a check of a type: nothing new, a decision and the type that it is
about, or only the type, of a term that is no pointer. -/
inductive Tried (t : Tracer) : Tracer → Prop
  | nothing {u : Tracer} (h : t.Untested u) : Tried t u
  | stated {x : Term} {ty : Ty} {b : Bool} {c : PathClause} {u : Tracer}
      (hc : c.tests? = some (x, ty, b)) (hpath : u.path = t.path ++ [c])
      (htyped : u.typeChecked = t.typeChecked.insert x ty) : Tried t u
  | refused {x : Term} {ty : Ty} {u : Tracer} (hx : x.ty.isPointer = false)
      (hpath : u.path = t.path) (htyped : u.typeChecked = t.typeChecked.insert x ty) : Tried t u

theorem Tested.tried {act : Action Unit} (h : t.Tested name ty b (act t)) :
    t.Tried (act.after t) := by
  unfold Action.after
  generalize act t = r at h ⊢
  cases h with
  | failed h | null _ h | known _ _ _ h => exact .nothing h
  | stated _ _ _ hc hpath htyped => exact .stated hc hpath htyped
  | refused hx hpath htyped => exact .refused hx hpath htyped

private theorem start_tried {act : Action Unit} (name : String) (t : Tracer)
    (hact : t.Tried (act.after t.resumed)) : t.Tried ((Action.start name act).after t) := by
  rcases Action.start_after name act t with hpassed | hafter
  · exact .nothing ⟨congrArg Summary.path hpassed.summary, hpassed.typed⟩
  · rw [hafter]
    exact hact

/-- Whatever becomes of a check, whether it counts or not. -/
theorem deliver_tried (t : Tracer) (h : e.isTypeCheck = true) : t.Tried (t.deliver e).2 := by
  have hhandle : t.Tried ((handle e).after t) := by
    cases hcheck : e.typeCheck? t.program.hierarchy with
    | some found =>
      obtain ⟨name, act, hstart, hact⟩ := handle_eq_start_tested hcheck
      rw [hstart]
      refine start_tried name t ?_
      cases (hact t.resumed rfl).tried with
      | nothing h => exact .nothing ⟨h.path, h.typed⟩
      | stated hc hpath htyped => exact .stated hc hpath htyped
      | refused hx hpath htyped => exact .refused hx hpath htyped
    | none =>
      cases e with
      | guardType name checked =>
        have hnone : checked.observed.type? = none := Option.map_eq_none_iff.mp hcheck
        have hstart : handle (.guardType name checked) = Action.start name (pure ()) := by
          show Action.guardType name checked = _
          unfold Action.guardType
          rw [hnone]
        rw [hstart]
        exact start_tried name t (.nothing ⟨rfl, rfl⟩)
      | guardExpectedType name checked text =>
        have hread : (Event.guardExpectedType name checked text).isReadable = false := by
          have hnone := Option.map_eq_none_iff.mp hcheck
          cases hr : Ty.parse text with
          | ok ty => rw [hr] at hnone; cases hnone
          | error cause => simp [Event.isReadable, hr, Except.isOk, Except.toBool]
        obtain ⟨cause, hfail⟩ := handle_unreadable hread t
        rw [Action.after_of_error hfail]
        exact .nothing ⟨rfl, rfl⟩
      | _ => cases h
  refine deliver_of_after e (.nothing ⟨rfl, rfl⟩) hhandle fun u fatal hu => ?_
  cases hu with
  | nothing h => exact .nothing ⟨h.path, h.typed⟩
  | stated hc hpath htyped => exact .stated hc hpath htyped
  | refused hx hpath htyped => exact .refused hx hpath htyped

/-- Only allocations and checks of types change what is known of types. -/
theorem Ending.typeChecked_after {ending : Ending} (hcheck : ending.kind ≠ .check)
    (hallocation : ending.kind ≠ .allocation) (t : Tracer) :
    (ending.act.after t).typeChecked = t.typeChecked := by
  have htrace (i : Instruction) (s : Tracer) :
      ((Action.trace i).after s).typeChecked = s.typeChecked := by
    obtain ⟨frames, h⟩ := Action.trace_after i s
    rw [h]
  have hleave (i : Instruction) (k : Action Unit)
      (hk : ∀ s : Tracer, (k.after s).typeChecked = s.typeChecked) :
      ((do Action.leaveBlock i; k : Action Unit).after t).typeChecked = t.typeChecked := by
    unfold Action.leaveBlock
    cases hframes : t.frames with
    | nil => rw [Action.after_bind_of_error (Action.modifyFrame_nil _ hframes)]
    | cons f fs =>
      rw [Action.after_bind_of_ok (Action.modifyFrame_cons _ hframes)]
      exact hk _
  cases ending with
  | aside act h => exact (h t).typed
  | check | allocation => contradiction
  | effect i p => exact htrace i _
  | decision i p => exact hleave i _ fun s => htrace i _
  | passage i => exact hleave i _ (htrace i)
  | call c next => exact htrace c.instruction _

theorem deliver_typeChecked (t : Tracer) (hallocation : e.isAllocation = false)
    (hcheck : e.isTypeCheck = false) : (t.deliver e).2.typeChecked = t.typeChecked := by
  have hkinds : .check ∉ e.endings ∧ .allocation ∉ e.endings := by
    cases e <;> simp_all [Event.endings, Event.isAllocation, Event.isTypeCheck]
  have hhandle : ((handle e).after t).typeChecked = t.typeChecked := by
    generalize hu : (handle e).after t = u
    cases hu ▸ handle_turned e t with
    | entered _ _ _ htyped | returned _ _ htyped => exact htyped
    | stopped hkept => exact hkept.typed
    | ended _ hkept hfits =>
      refine (Ending.typeChecked_after ?_ ?_ _).trans hkept.typed
      · exact fun h => hkinds.1 (h ▸ hfits.kind)
      · exact fun h => hkinds.2 (h ▸ hfits.kind)
  exact deliver_of_after (P := fun u => u.typeChecked = t.typeChecked) e rfl hhandle
    fun u fatal hu => hu

/-! ## Histories of types -/

/-- The last type of a term. -/
def lastType? (ts : List (Term × Ty)) (x : Term) : Option Ty :=
  (ts.reverse.find? (·.1 == x)).map Prod.snd

private theorem lastType?_concat (ts : List (Term × Ty)) (y : Term) (ty : Ty) (x : Term) :
    lastType? (ts ++ [(y, ty)]) x = if y == x then some ty else lastType? ts x := by
  unfold lastType?
  rw [List.reverse_append, List.reverse_singleton, List.singleton_append, List.find?_cons]
  cases y == x <;> rfl

private theorem mem_of_lastType? {ts : List (Term × Ty)} {x : Term} (h : lastType? ts x = some ty) :
    ∃ y, (y, ty) ∈ ts ∧ (y == x) = true := by
  obtain ⟨⟨y, ty'⟩, hfind, heq⟩ := Option.map_eq_some_iff.mp h
  cases heq
  have hbeq := List.find?_some (p := fun d : Term × Ty => d.1 == x) hfind
  exact ⟨y, List.mem_reverse.mp (List.mem_of_find?_eq_some hfind), hbeq⟩

/-- The types that the events give to terms: those of new objects, and those that are decided by
checks, no matter how. -/
def typings (t : Tracer) : List Event → List (Term × Ty)
  | [] => []
  | e :: es =>
    let u := (t.deliver e).2
    let decided := if e.isTypeCheck then
      (u.path.drop t.path.length).filterMap PathClause.tests? else []
    (t.allocations [e]).map (fun x => (x, x.ty)) ++ decided.map (fun d => (d.1, d.2.1)) ++
      u.typings es

theorem path_run (t : Tracer) (es : List Event) : t.path <+: (t.run es).path := by
  induction es generalizing t with
  | nil => exact List.prefix_rfl
  | cons e es ih => exact (deliver_appends t e).1.trans (ih _)

/-- What has a type was made with it, or the path decides about it. -/
private theorem mem_typings {x : Term} (t : Tracer) (es : List Event) (h : (x, ty) ∈ t.typings es) :
    (x ∈ t.allocations es ∧ x.ty = ty) ∨
      ∃ c ∈ (t.run es).path, ∃ b, c.tests? = some (x, ty, b) := by
  induction es generalizing t with
  | nil => cases h
  | cons e es ih =>
    have hmade : t.allocations (e :: es) =
        t.allocations [e] ++ (t.deliver e).2.allocations es := by simp [allocations]
    rcases List.mem_append.mp h with hfirst | hlater
    · rcases List.mem_append.mp hfirst with hnew | hdecided
      · obtain ⟨y, hy, heq⟩ := List.mem_map.mp hnew
        cases heq
        exact .inl ⟨hmade ▸ List.mem_append_left _ hy, rfl⟩
      · obtain ⟨⟨y, ty', b⟩, hd, heq⟩ := List.mem_map.mp hdecided
        cases heq
        split at hd
        · obtain ⟨c, hc, hb⟩ := List.mem_filterMap.mp hd
          exact .inr ⟨c, (path_run _ es).subset (List.mem_of_mem_drop hc), b, hb⟩
        · cases hd
    · rcases ih _ hlater with ⟨hx, hty⟩ | hpath
      · exact .inl ⟨hmade ▸ List.mem_append_right _ hx, hty⟩
      · exact .inr hpath

/-- The last type of a pointer is the one that is kept. -/
def Typed (t : Tracer) (ts : List (Term × Ty)) : Prop :=
  ∀ x : Term, x.ty.isPointer = true → t.typeChecked.get? x = lastType? ts x

namespace Typed

variable {ts : List (Term × Ty)}

theorem insert {y : Term} (h : t.Typed ts)
    (hu : u.typeChecked = t.typeChecked.insert y ty) : u.Typed (ts ++ [(y, ty)]) := by
  intro x hx
  rw [hu, Table.get?_insert, lastType?_concat, h x hx]

/-- A type that is kept of another term than a pointer makes no difference. -/
theorem insert_of_not_pointer {y : Term} (h : t.Typed ts) (hy : y.ty.isPointer = false)
    (hu : u.typeChecked = t.typeChecked.insert y ty) : u.Typed ts := by
  intro x hx
  have hne : (y == x) = false := by
    rw [← Bool.not_eq_true]
    intro hbeq
    rw [Term.ty_of_beq hbeq, hx] at hy
    cases hy
  rw [hu, Table.get?_insert, hne, h x hx]
  rfl

theorem deliver (h : t.Typed ts) (hp : t.program.Built) (e : Event) :
    (t.deliver e).2.Typed (ts ++ t.typings [e]) := by
  cases hallocation : e.isAllocation with
  | true =>
    have hcheck : e.isTypeCheck = false := by
      cases e <;> first | rfl | cases hallocation
    have hnew : t.typings [e] = (t.allocations [e]).map fun x => (x, x.ty) := by
      simp [typings, hcheck]
    rw [hnew]
    cases deliver_allocated t hallocation with
    | nothing hclauses htyped =>
      have hnone : t.allocations [e] = [] := by simp [allocations, hclauses]
      rw [hnone, List.map_nil, List.append_nil]
      intro x hx
      rw [htyped, h x hx]
    | @made _ i _ _ hi hv hclauses hq _ htyped =>
      obtain ⟨ty, rfl⟩ := result_of_instruction? hp hi hv
      have hone : t.allocations [e] = [t.fresh (.result i.name ty)] := by
        simp [allocations, hallocation, hclauses, hq, Clause.predicate]
      rw [hone]
      exact h.insert htyped
  | false =>
    have hnone : t.allocations [e] = [] := by simp [allocations, hallocation]
    cases hcheck : e.isTypeCheck with
    | false =>
      have hnew : t.typings [e] = [] := by simp [typings, hcheck, hnone]
      rw [hnew, List.append_nil]
      intro x hx
      rw [deliver_typeChecked t hallocation hcheck, h x hx]
    | true =>
      have hnew : t.typings [e] =
          (((t.deliver e).2.path.drop t.path.length).filterMap PathClause.tests?).map
            fun d => (d.1, d.2.1) := by
        simp [typings, hcheck, hnone]
      cases deliver_tried t hcheck with
      | nothing hsame =>
        rw [hsame.path, List.drop_length, List.filterMap_nil, List.map_nil] at hnew
        rw [hnew, List.append_nil]
        intro x hx
        rw [hsame.typed, h x hx]
      | stated hc hpath htyped =>
        rw [hpath, List.drop_left, List.filterMap_cons_some hc] at hnew
        rw [hnew]
        exact h.insert htyped
      | refused hx hpath htyped =>
        rw [hpath, List.drop_length, List.filterMap_nil, List.map_nil] at hnew
        rw [hnew, List.append_nil]
        exact h.insert_of_not_pointer hx htyped

theorem run (h : t.Typed ts) (hp : t.program.Built) (es : List Event) :
    (t.run es).Typed (ts ++ t.typings es) := by
  induction es generalizing t ts with
  | nil => exact (List.append_nil ts).symm ▸ h
  | cons e es ih =>
    have hprogram : (t.deliver e).2.program = t.program := run_program t [e]
    have hsplit : t.typings (e :: es) = t.typings [e] ++ (t.deliver e).2.typings es := by
      simp [typings]
    rw [hsplit, ← List.append_assoc]
    exact ih (h.deliver hp e) (hprogram ▸ hp)

end Typed

/-- A term with a type was made by an allocation, or the path has a decision about it. -/
private theorem reason_of_lastType? {x : Term} {known : Ty} (t : Tracer) (es : List Event)
    (h : lastType? (t.typings es) x = some known) :
    (∃ y ∈ t.allocations es, (y == x) = true ∧ y.ty = known) ∨
      ∃ c ∈ (t.run es).path, ∃ y answer, c.tests? = some (y, known, answer) ∧ (y == x) = true := by
  obtain ⟨y, hy, hbeq⟩ := mem_of_lastType? h
  rcases mem_typings t es hy with ⟨hmade, hty⟩ | ⟨c, hc, answer, htests⟩
  · exact .inl ⟨y, hmade, hbeq, hty⟩
  · exact .inr ⟨c, hc, y, answer, htests, hbeq⟩

/-- When a check is skipped. In every run, a check that succeeds while events count and is not about
the null constant is about the term of its value. For a pointer it adds nothing exactly if the last
type of the term is a subtype of the one in question, and otherwise it adds its answer. Where it is
skipped, the term was made by an allocation with a subtype, or the path has a decision about a
subtype: that the term is of it, or that it is not. -/
theorem type_check_skipped_iff {p : Program} (hp : p.Built) (config : Config) (dispatch : Dispatch)
    (es : List Event) {e : Event} {checked : Operand} {ty : Ty} {b : Bool}
    (hcheck : e.typeCheck? p.hierarchy = some (checked, ty, b)) :
    let start := new p config dispatch
    let t := start.run es
    let u := (t.deliver e).2
    t.callTrace = [] → (t.deliver e).1 = .ok () →
    ∃ v, t.value? checked.name = some v ∧
      (v ≠ .constant .null → ∃ x, u.Binds v x ∧ (x.ty.isPointer = true →
        (u.path = t.path ↔ ∃ known, lastType? (start.typings es) x = some known ∧
          p.hierarchy.isSubtype known ty = true) ∧
        (u.path ≠ t.path → ∃ c, c.tests? = some (x, ty, b) ∧ u.path = t.path ++ [c]) ∧
        (u.path = t.path →
          (∃ y ∈ start.allocations es, (y == x) = true ∧
            p.hierarchy.isSubtype y.ty ty = true) ∨
          ∃ c ∈ t.path, ∃ y known answer, c.tests? = some (y, known, answer) ∧ (y == x) = true ∧
            p.hierarchy.isSubtype known ty = true))) := by
  intro start t u hcalls hok
  have hprogram : t.program = p := run_program start es
  have hnew : start.Typed [] := fun x _ => rfl
  have htyped : t.Typed (start.typings es) := hnew.run hp es
  have hknown (x : Term) (hx : x.ty.isPointer = true) : Action.isTyped t x ty = true ↔
      ∃ known, lastType? (start.typings es) x = some known ∧
        p.hierarchy.isSubtype known ty = true := by
    rw [isTyped_iff, htyped x hx, hprogram]
  have htested := handle_tested (t := t) (hprogram ▸ hcheck) hcalls
  rw [(handle_of_deliver_ok hok).2] at htested
  cases htested with
  | null hv => exact ⟨_, hv, fun hne => absurd rfl hne⟩
  | known hv hx hskip hsame =>
    refine ⟨_, hv, fun _ => ⟨_, hx, fun hpointer => ?_⟩⟩
    have hlast := (hknown _ hpointer).mp hskip
    refine ⟨iff_of_true hsame.path hlast, fun hne => absurd hsame.path hne, fun _ => ?_⟩
    obtain ⟨known, hlast, hsub⟩ := hlast
    rcases reason_of_lastType? start es hlast with
      ⟨y, hy, hbeq, rfl⟩ | ⟨c, hc, y, answer, htests, hbeq⟩
    · exact .inl ⟨y, hy, hbeq, hsub⟩
    · exact .inr ⟨c, hc, y, known, answer, htests, hbeq, hsub⟩
  | stated hv hx hskip hc hpath =>
    refine ⟨_, hv, fun _ => ⟨_, hx, fun hpointer => ?_⟩⟩
    have hne : u.path ≠ t.path := by
      intro heq
      have hlength := congrArg List.length (heq.symm.trans hpath)
      simp at hlength
    refine ⟨iff_of_false hne fun hlast => ?_, fun _ => ⟨_, hc, hpath⟩, fun heq => absurd heq hne⟩
    rw [(hknown _ hpointer).mpr hlast] at hskip
    cases hskip

open Sample in
/-- An integer that was found to be one is not asked again whether it is a number. -/
theorem type_check_skipped_iff_integer :
    let start := new (Program.ofBodies [idle]) .standard .virtual
    let es := [enterIdle integer, .guardType "ret" ⟨"arg$0", integer⟩]
    let t := start.run es
    let u := (t.deliver (typeGuard integer "Ljava/lang/Number;")).2
    t.callTrace = [] ∧ (t.deliver (typeGuard integer "Ljava/lang/Number;")).1 = .ok () ∧
      t.path.map PathClause.text =
        ["@P arg$0 instanceof java/lang/Integer = true [OVERLOAD_CHECK]"] ∧
      u.path = t.path ∧
      ∃ x known, lastType? (start.typings es) x = some known ∧
        start.program.hierarchy.isSubtype known (.object "java/lang/Number") = true := by
  intro start es t u
  have hp : (Program.ofBodies [idle]).Built := by
    refine Program.built_ofBodies fun b hb => ?_
    obtain rfl := List.mem_singleton.mp hb
    exact .addAll (.addBlock _ (.new _ _)) _
  let v : Value := .argument 0 (.object "java/lang/Object")
  have hrun : t.callTrace = [] ∧ t.succeeds [typeGuard integer "Ljava/lang/Number;"] = true ∧
      t.path.map PathClause.text =
        ["@P arg$0 instanceof java/lang/Integer = true [OVERLOAD_CHECK]"] ∧
      u.path.length = t.path.length ∧ t.value? "arg$0" = some v ∧
      (u.frames.head?.bind fun f => f.values.get? v).all (·.ty.isPointer) = true ∧
      (Ty.parse "Ljava/lang/Number;").toOption = some (.object "java/lang/Number") := by
    decide +kernel
  obtain ⟨hcalls, hok, htext, hlength, hvalue, hpointer, hparse⟩ := hrun
  obtain ⟨b, hcheck⟩ : ∃ b, (typeGuard integer "Ljava/lang/Number;").typeCheck?
      (Program.ofBodies [idle]).hierarchy =
        some (⟨"arg$0", integer⟩, .object "java/lang/Number", b) := by
    simp only [typeGuard, Event.typeCheck?, hparse, Option.map_some]
    exact ⟨_, rfl⟩
  obtain ⟨v', hv, hx⟩ := type_check_skipped_iff hp .standard .virtual es hcheck hcalls
    (succeeds_cons hok).1
  obtain rfl : v = v' := Option.some.inj (hvalue.symm.trans hv)
  obtain ⟨x, ⟨f, fs, hframes, hget⟩, hskip⟩ := hx (by simp [v])
  have hbound : (u.frames.head?.bind fun f => f.values.get? v) = some x := by
    rw [show u.frames = f :: fs from hframes]
    exact hget
  rw [hbound] at hpointer
  have hgrows : t.path <+: u.path := path_run t [typeGuard integer "Ljava/lang/Number;"]
  have hpath : u.path = t.path := (hgrows.eq_of_length hlength.symm).symm
  obtain ⟨known, hlast, hsub⟩ := (hskip hpointer).1.mp hpath
  exact ⟨hcalls, (succeeds_cons hok).1, htext, hpath, x, known, hlast, hsub⟩

open Sample in
/-- Nothing says that a string is a number or that it is none, but it was found to be no integer. So
the question whether it is a number is skipped, although it succeeds while events count, and the
string was not made in the run. -/
theorem type_check_skipped_false :
    let start := new (Program.ofBodies [idle]) .standard .virtual
    let es := [enterIdle string, typeGuard string "Ljava/lang/Integer;"]
    let t := start.run es
    let u := (t.deliver (typeGuard string "Ljava/lang/Number;")).2
    start.succeeds (es ++ [typeGuard string "Ljava/lang/Number;"]) = true ∧ t.callTrace = [] ∧
      start.allocations es = [] ∧
      t.path.map PathClause.text =
        ["@P arg$0 instanceof java/lang/Integer = false [TYPE_CHECK]"] ∧
      u.path.map PathClause.text = t.path.map PathClause.text := by
  decide +kernel

end Tracer

end Concolic
