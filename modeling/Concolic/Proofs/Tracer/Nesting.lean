import Concolic.Proofs.Tracer.Follow

/-!
# Frames and the executed stack

Events come from an execution, and while no exception is caught they are *well nested*: a method is
entered on top of those being executed, the innermost one returns, and every other event names an
instruction of it. The frames of a tracer are meant to be that stack.

* `Program.nests p ms es`: the executed stack after the events, if they are well nested.
* `Tracer.losesReturn t e`: the event is a return that also is the instruction after a suppressed
  call, while a further call is still to come back to. The tracer takes it for the end of the inner
  call only, and the frame of the method that returned stays.
* `deliver_stack`: what one well-nested event does to the frames.
* `stack_eq_nests_iff`: the frames are the executed stack all along a run exactly if it loses no
  return. A method that ends in a call and is entered again inside it loses one
  (`stack_ne_nests_tail`).
-/

namespace Concolic

theorem forall_prefix_cons {α : Type} {P : List α → Prop} {a : α} {l : List α} :
    (∀ l', l' <+: a :: l → P l') ↔ P [] ∧ ∀ l', l' <+: l → P (a :: l') := by
  constructor
  · intro h
    exact ⟨h [] List.nil_prefix, fun l' hl => h (a :: l') (List.cons_prefix_cons.mpr ⟨rfl, hl⟩)⟩
  · rintro ⟨hnil, hcons⟩ l' hl
    rcases List.prefix_cons_iff.mp hl with rfl | ⟨l', rfl, hl'⟩
    · exact hnil
    · exact hcons l' hl'

theorem Event.subject?_of_isRet {e : Event} (h : e.isRet = true) :
    ∃ name, e.subject? = some name := by
  cases e with
  | ret name => exact ⟨name, rfl⟩
  | _ => cases h

namespace Program

/-! ## Well-nested events -/

/-- The executed stack after an event, if the event fits the stack. -/
def nest (p : Program) (ms : List Method) : Event → Option (List Method)
  | .methodEnter spelling _ _ => do
    let m ← (p.method spelling.owner spelling.name spelling.args spelling.ret).toOption
    let _ ← (p.body m).toOption
    some (m :: ms)
  | .caught _ => none
  | e => do
    let i ← p.named? ms (← e.subject?)
    match e.isRet, i.isReturn with
    | true, true => some ms.tail
    | false, false => some ms
    | _, _ => none

/-- The executed stack after well-nested events. -/
def nests (p : Program) : List Method → List Event → Option (List Method)
  | ms, [] => some ms
  | ms, e :: es => do p.nests (← p.nest ms e) es

/-- The methods that the events enter. -/
def entered (p : Program) : List Event → List Method
  | [] => []
  | .methodEnter spelling _ _ :: es =>
    (p.method spelling.owner spelling.name spelling.args spelling.ret).toOption.toList ++
      p.entered es
  | _ :: es => p.entered es

/-- The method has a body, and the body was built for this very method. -/
def hasOwnBody (p : Program) (m : Method) : Bool :=
  match p.body m with
  | .ok b => b.method = m
  | .error _ => false

/-- Some call is directly followed by a return. -/
def hasTailCall (p : Program) : Bool :=
  p.bodies.entries.any fun e =>
    e.2.instructions.any fun i => i.isCall && (e.2.next? i).any Instruction.isReturn

variable {p : Program} {ms ms' : List Method} {e : Event} {es : List Event}

theorem nest_methodEnter {spelling : MethodSpelling} {receiver : Option Observed}
    {args : List Observed} (h : p.nest ms (.methodEnter spelling receiver args) = some ms') :
    ∃ m b, p.method spelling.owner spelling.name spelling.args spelling.ret = .ok m ∧
      p.body m = .ok b ∧ ms' = m :: ms := by
  obtain ⟨m, hm, h₁⟩ := Option.bind_eq_some_iff.mp h
  obtain ⟨b, hb, h₂⟩ := Option.bind_eq_some_iff.mp h₁
  exact ⟨m, b, toOption_eq_some hm, toOption_eq_some hb, (Option.some.inj h₂).symm⟩

/-- A well-nested event of an instruction names one of the innermost method, a return if and only
if the event reports one. -/
theorem nest_subject {name : String} (hname : e.subject? = some name)
    (h : p.nest ms e = some ms') :
    ∃ i, p.named? ms name = some i ∧ i.isReturn = e.isRet ∧
      ms' = if e.isRet then ms.tail else ms := by
  have hi : ∃ i, p.named? ms name = some i ∧
      (match e.isRet, i.isReturn with
        | true, true => some ms.tail
        | false, false => some ms
        | _, _ => none) = some ms' := by
    cases e with
    | methodEnter => cases hname
    | caught => cases h
    | _ => cases hname; exact Option.bind_eq_some_iff.mp h
  obtain ⟨i, hi, hm⟩ := hi
  refine ⟨i, hi, ?_⟩
  cases hr : e.isRet <;> cases hk : i.isReturn <;> rw [hr, hk] at hm <;> cases hm <;>
    exact ⟨rfl, rfl⟩

/-- A return takes the innermost method off the stack. -/
theorem ne_of_nest_ret (hret : e.isRet = true) (h : p.nest ms e = some ms') : ms' ≠ ms := by
  obtain ⟨name, hname⟩ := Event.subject?_of_isRet hret
  obtain ⟨i, hi, -, rfl⟩ := nest_subject hname h
  obtain ⟨m, rest, -, rfl, -, -⟩ := named?_eq_some hi
  rw [if_pos hret, List.tail_cons]
  exact (List.cons_ne_self m rest).symm

theorem isReturn_of_not_hasTailCall {i j : Instruction} (h : p.hasTailCall = false)
    (hi : p.Knows i) (hcall : i.isCall = true) (hj : p.next? i = some j) : j.isReturn = false := by
  obtain ⟨b, hb, hmem⟩ := hi
  obtain ⟨c, hc, hnext⟩ := next?_eq_some hj
  rw [hb] at hc
  cases hc
  obtain ⟨entry, hentry, rfl⟩ := Option.map_eq_some_iff.mp (body_eq_ok hb)
  have hbody := List.any_eq_false.mp h entry (List.mem_of_find?_eq_some hentry)
  have hinst := List.any_eq_false.mp (Bool.not_eq_true _ ▸ hbody) i (Body.mem_of_instruction? hmem)
  rw [hcall, hnext, Bool.true_and] at hinst
  exact Bool.not_eq_true _ ▸ hinst

/-- The executed stack after an event from which well-nested events go on. -/
theorem nests_cons (h : p.nests ms (e :: es) = some ms') :
    ∃ ms₁, p.nest ms e = some ms₁ ∧ p.nests ms₁ es = some ms' :=
  Option.bind_eq_some_iff.mp h

theorem nests_append (p : Program) (ms : List Method) (es es' : List Event) :
    p.nests ms (es ++ es') = (p.nests ms es).bind fun ms => p.nests ms es' := by
  induction es generalizing ms with
  | nil => rfl
  | cons e es ih =>
    rw [List.cons_append, nests, nests, Option.bind_eq_bind, Option.bind_assoc]
    exact Option.bind_congr fun ms' _ => ih ms'

end Program

/-! ## Methods of a list

Two methods that ask a list for its size. The list is not instrumented, and while it is asked it may
call methods of the program back. -/

namespace Body.Builder

/-- Adds instructions to blocks, with types for those that produce values. -/
def addAll (b : Builder) : List (Nat × String × InstKind × Option Ty) → Builder
  | [] => b
  | (id, name, kind, ty) :: rest =>
    let added :=
      match ty with
      | some ty => b.addValue id name kind ty
      | none => b.addInstruction id name kind none
    (added.toOption.getD b).addAll rest

theorem Built.addAll {b : Builder} (hb : b.Built)
    (lines : List (Nat × String × InstKind × Option Ty)) : (b.addAll lines).Built := by
  induction lines generalizing b with
  | nil => exact hb
  | cons line rest ih =>
    obtain ⟨id, name, kind, ty⟩ := line
    cases ty with
    | some ty => exact ih (hb.getD fun _ h => .addValue hb h)
    | none => exact ih (hb.getD fun _ h => .addInstruction hb h)

end Body.Builder

namespace Program

def ofBodies (bs : List Body.Builder) : Program := bs.foldl (fun p b => p.addBody b.body) .empty

theorem built_ofBodies {bs : List Body.Builder} (h : ∀ b ∈ bs, b.Built) : (ofBodies bs).Built := by
  have hfold (p : Program) (hp : p.Built) : (bs.foldl (fun p b => p.addBody b.body) p).Built := by
    induction bs generalizing p with
    | nil => exact hp
    | cons b bs ih =>
      have hb := h b List.mem_cons_self
      exact ih (fun c hc => h c (List.mem_cons_of_mem b hc)) _ (.addBody hp ⟨b, hb, rfl⟩)
  exact hfold .empty .empty

end Program

namespace Sample

def list : Observed := .object 1 "java/util/ArrayList" []

def method (name : String) : Method :=
  Method.new "app/Main" name ⟨[.object "java/util/List"], .int⟩ Method.staticFlag

/-- Asks the list for its size and adds one to it. -/
def grown : Body.Builder :=
  ((Body.Builder.new (method "grown") none).addBlock "entry").addAll
    [(0, "%a", .call, some .int), (0, "%b", .binary .add, some .int), (0, "ret", .ret, none)]

/-- Asks the list for its size and returns it at once. -/
def tail : Body.Builder :=
  ((Body.Builder.new (method "tail") none).addBlock "entry").addAll
    [(0, "%a", .call, some .int), (0, "ret", .ret, none)]

theorem built_grown : grown.Built := .addAll (.addBlock _ (.new _ _)) _

theorem built_tail : tail.Built := .addAll (.addBlock _ (.new _ _)) _

def enter (name : String) : Event :=
  .methodEnter ⟨"app/Main", name, ["Ljava/util/List;"], "I"⟩ none [list]

def size : Event := .call "%a" ⟨"java/util/List", "size", [], "I"⟩ (some "%a") (some "arg$0") [] []

def increment : Event := .binary ⟨"%b", .int 4⟩ ⟨"%a", .int 3⟩ ⟨"1", .int 1⟩

def ret (name : String) (n : Int32) : Event := .ret "ret" (some name) (.int n)

end Sample

namespace Tracer

variable {t u : Tracer} {e : Event} {es : List Event} {ms : List Method}

/-! ## Lost returns -/

/-- All events succeed. -/
def succeeds (t : Tracer) : List Event → Bool
  | [] => true
  | e :: es => (t.deliver e).1.isOk && (t.deliver e).2.succeeds es

/-- Some call is still open after the instruction has ended the innermost one. -/
def endsInner (t : Tracer) (i : Instruction) : Bool :=
  match t.callTrace with
  | top :: _ :: _ => i == top.next
  | _ => false

/-- The event is a return that only ends the inner one of several calls to come back to. -/
def losesReturn (t : Tracer) (e : Event) : Bool :=
  e.isRet && (e.subject?.bind t.instruction?).any t.endsInner

/-- No event is a return that is lost. -/
def keepsReturns (t : Tracer) : List Event → Bool
  | [] => true
  | e :: es => !t.losesReturn e && (t.deliver e).2.keepsReturns es

theorem succeeds_cons (h : t.succeeds (e :: es) = true) :
    (t.deliver e).1 = .ok () ∧ (t.deliver e).2.succeeds es = true := by
  obtain ⟨he, hes⟩ := (Bool.and_eq_true _ _).mp h
  refine ⟨?_, hes⟩
  cases hr : (t.deliver e).1 with
  | ok => rfl
  | error => rw [hr] at he; cases he

theorem keepsReturns_cons (h : t.keepsReturns (e :: es) = true) :
    t.losesReturn e = false ∧ (t.deliver e).2.keepsReturns es = true := by
  rw [keepsReturns, Bool.and_eq_true, Bool.not_eq_true'] at h
  exact h

theorem run_append (t : Tracer) (es es' : List Event) : t.run (es ++ es') = (t.run es).run es' :=
  List.foldl_append

theorem succeeds_append (t : Tracer) (es es' : List Event) :
    t.succeeds (es ++ es') = (t.succeeds es && (t.run es).succeeds es') := by
  induction es generalizing t with
  | nil => rfl
  | cons e es ih =>
    rw [List.cons_append, succeeds, succeeds, ih, Bool.and_assoc]
    rfl

theorem losesReturn_eq {name : String} {i : Instruction} (hname : e.subject? = some name)
    (hi : t.instruction? name = some i) : t.losesReturn e = (e.isRet && t.endsInner i) := by
  unfold losesReturn
  rw [hname, Option.bind_some, hi]
  rfl

/-! ## One event -/

/-- An event that counts changes the stack only if it is a return. -/
theorem stack_effect {act : Action Unit} (heffect : e.Effect act) (hr : act t = .ok () u) :
    u.stack = if e.isRet then t.stack.tail else t.stack := by
  cases e with
  | call name =>
    obtain ⟨call, next, -, -, -, hq⟩ := (heffect t.position).of_ok rfl hr
    exact congrArg Position.stack hq
  | ret =>
    obtain ⟨m, ms, hstack, hq⟩ := (heffect t.position).of_ok rfl hr
    have htail : t.stack.tail = ms := by rw [show t.stack = m :: ms from hstack, List.tail_cons]
    exact (congrArg Position.stack hq).trans htail.symm
  | _ =>
    have hq := heffect t
    rw [Action.after_of_ok hr] at hq
    exact congrArg Position.stack hq

/-- An instruction that counts as a suppressed call is no return. -/
private theorem isReturn_of_call {name : String} {site : CallSite} {i : Instruction}
    (hg : t.position.Grounded) (hsite : site ∈ t.callTrace)
    (hname : t.instruction? name = some i) (hcall : (i == site.call) = true) :
    i.isReturn = false := by
  rw [instruction?_eq] at hname
  have heq := (hg.built.knows_of_named? hname).eq_of_beq (hg.known site hsite) hcall
  have hkind := hg.isCall site hsite
  rw [← heq] at hkind
  unfold Instruction.isReturn
  unfold Instruction.isCall at hkind
  split
  · next hret => rw [hret] at hkind; cases hkind
  · rfl

/-- Following leaves the stack alone when no call is left to come back to. Otherwise a return takes
a method off it, unless it ends an inner call. -/
theorem followed_stack {name : String} {i : Instruction} (hg : t.position.Grounded)
    (hu : t.Followed name u) (hi : t.instruction? name = some i) :
    (u.callTrace = [] ∧ u.stack = t.stack ∧ t.endsInner i = false) ∨
      (u.callTrace ≠ [] ∧
        u.stack = if i.isReturn && !t.endsInner i then t.stack.tail else t.stack) := by
  cases hu with
  | idle hcalls => exact .inl ⟨hcalls, rfl, by simp [endsInner, hcalls]⟩
  | unknown hnone =>
    rw [hi] at hnone
    cases hnone
  | again hcalls hfound hcall =>
    cases hi.symm.trans hfound
    have hreturn := isReturn_of_call hg (hcalls ▸ List.mem_cons_self) hi hcall
    exact .inr ⟨List.cons_ne_nil _ _, by rw [hreturn]; rfl⟩
  | @back top rest _ hcalls hfound hcall hnext =>
    cases hi.symm.trans hfound
    cases rest with
    | nil => exact .inl ⟨rfl, rfl, by simp [endsInner, hcalls]⟩
    | cons site rest =>
      -- The only way to lose a return.
      have hends : t.endsInner i = true := by simp [endsInner, hcalls, hnext]
      exact .inr ⟨List.cons_ne_nil _ _, by rw [hends, Bool.not_true, Bool.and_false]; rfl⟩
  | @left top rest _ f fs hcalls hfound hcall hnext hreturn hframes =>
    cases hi.symm.trans hfound
    have hends : t.endsInner i = false := by
      unfold endsInner
      split
      · next h => rw [hcalls] at h; cases h; exact hnext
      · rfl
    have hstack : t.stack.tail = fs.map Frame.method := by
      rw [stack, hframes]
      rfl
    exact .inr ⟨hcalls ▸ List.cons_ne_nil _ _, by rw [hends, hreturn]; exact hstack.symm⟩
  | within hcalls hfound hcall hnext hreturn =>
    cases hi.symm.trans hfound
    exact .inr ⟨hcalls ▸ List.cons_ne_nil _ _, by rw [hreturn]; rfl⟩

/-- A well-nested event that succeeds does to the frames what it does to the executed stack, unless
it is a return that is lost: that one leaves the frames alone. -/
theorem deliver_stack (hg : t.position.Grounded)
    (hnest : t.program.nest t.stack e = some ms) (hok : (t.deliver e).1 = .ok ()) :
    (t.deliver e).2.stack = if t.losesReturn e then t.stack else ms := by
  rcases event_cases e with
    ⟨spelling, receiver, args, rfl⟩ | ⟨exception, rfl⟩ | ⟨name, hname, hcaught⟩
  · obtain ⟨-, hr⟩ := handle_of_deliver_ok hok
    obtain ⟨m, hm, hpos⟩ := Action.enter_ok hr
    obtain ⟨m', -, hm', -, rfl⟩ := Program.nest_methodEnter hnest
    rw [hm] at hm'
    cases hm'
    exact congrArg Position.stack hpos
  · cases hnest
  · obtain ⟨i, hi, hret, rfl⟩ := Program.nest_subject hname hnest
    have hi' : t.instruction? name = some i := (instruction?_eq t name).trans hi
    obtain ⟨u, hu, hcase⟩ := deliver_ok_followed hname hcaught hok
    rw [losesReturn_eq hname hi']
    rcases followed_stack hg hu hi' with ⟨hnil, hstack, hends⟩ | ⟨hne, hstack⟩
    · rcases hcase with ⟨hne, -⟩ | ⟨-, act, heffect, hr⟩
      · exact absurd hnil hne
      · have hflushed : u.flushed.stack = t.stack := hstack
        rw [stack_effect heffect hr, hflushed, hends, Bool.and_false, if_neg Bool.false_ne_true]
    · rcases hcase with ⟨-, hd⟩ | ⟨hnil, -⟩
      · have hflushed : (t.deliver e).2.stack = u.stack := by
          rw [hd]
          rfl
        rw [hflushed, hstack, hret]
        cases e.isRet <;> cases t.endsInner i <;> rfl
      · exact absurd hnil hne

/-! ## A run -/

/-- The frames are the executed stack after each event. -/
def Mirrors (t : Tracer) (es : List Event) : Prop :=
  ∀ es', es' <+: es → t.program.nests t.stack es' = some (t.run es').stack

private theorem mirrors_nil (t : Tracer) : t.Mirrors [] := by
  intro es' hes
  rw [List.prefix_nil.mp hes]
  rfl

private theorem mirrors_cons :
    t.Mirrors (e :: es) ↔
      t.program.nest t.stack e = some (t.deliver e).2.stack ∧ (t.deliver e).2.Mirrors es := by
  have hcons {ms : List Method} (h : t.program.nest t.stack e = some ms) (es' : List Event) :
      t.program.nests t.stack (e :: es') = (t.deliver e).2.program.nests ms es' := by
    rw [Program.nests, h, deliver_program]
    rfl
  unfold Mirrors
  rw [forall_prefix_cons]
  constructor
  · rintro ⟨-, h⟩
    have hfirst : t.program.nest t.stack e = some (t.deliver e).2.stack := by
      obtain ⟨ms, hms, hnil⟩ := Program.nests_cons (h [] List.nil_prefix)
      rw [hms]
      exact hnil
    refine ⟨hfirst, fun es' hes => ?_⟩
    rw [← hcons hfirst]
    exact h es' hes
  · rintro ⟨hfirst, hrest⟩
    refine ⟨rfl, fun es' hes => ?_⟩
    rw [hcons hfirst]
    exact hrest es' hes

/-- A well-nested event that succeeds is mirrored unless it loses a return. -/
theorem nest_eq_stack_iff (hg : t.position.Grounded)
    (hnest : t.program.nest t.stack e = some ms) (hok : (t.deliver e).1 = .ok ()) :
    t.program.nest t.stack e = some (t.deliver e).2.stack ↔ t.losesReturn e = false := by
  rw [hnest, deliver_stack hg hnest hok]
  cases hl : t.losesReturn e with
  | false => exact ⟨fun _ => rfl, fun _ => rfl⟩
  | true =>
    have hret : e.isRet = true := ((Bool.and_eq_true _ _).mp hl).1
    have hne := Program.ne_of_nest_ret hret hnest
    exact ⟨fun h => absurd (Option.some.inj h) hne, nofun⟩

/-- As long as no return is lost, the events go on well nested from the frames. -/
theorem nests_deliver (hg : t.position.Grounded)
    (hnest : t.program.nests t.stack (e :: es) = some ms) (hok : (t.deliver e).1 = .ok ())
    (hkept : t.losesReturn e = false) :
    (t.deliver e).2.program.nests (t.deliver e).2.stack es = some ms := by
  obtain ⟨ms₁, hstep, hrest⟩ := Program.nests_cons hnest
  rw [deliver_stack hg hstep hok, hkept, if_neg Bool.false_ne_true, deliver_program]
  exact hrest

theorem mirrors_iff (hg : t.position.Grounded)
    (hnest : t.program.nests t.stack es = some ms) (hok : t.succeeds es = true) :
    t.Mirrors es ↔ t.keepsReturns es = true := by
  induction es generalizing t with
  | nil => exact ⟨fun _ => rfl, fun _ => t.mirrors_nil⟩
  | cons e es ih =>
    obtain ⟨ms₁, hstep, -⟩ := Program.nests_cons hnest
    obtain ⟨hok₁, hoks⟩ := succeeds_cons hok
    rw [mirrors_cons, keepsReturns, Bool.and_eq_true, Bool.not_eq_true',
      nest_eq_stack_iff hg hstep hok₁]
    refine and_congr_right fun hkept => ?_
    exact ih (grounded_deliver hg e) (nests_deliver hg hnest hok₁ hkept) hoks

/-- Only where a call is directly followed by a return can one be lost. -/
theorem losesReturn_of_not_hasTailCall (hg : t.position.Grounded)
    (htail : t.program.hasTailCall = false) (hnest : t.program.nest t.stack e = some ms) :
    t.losesReturn e = false := by
  cases hret : e.isRet with
  | false => rw [losesReturn, hret, Bool.false_and]
  | true =>
    obtain ⟨name, hname⟩ := Event.subject?_of_isRet hret
    obtain ⟨i, hi, hreturn, -⟩ := Program.nest_subject hname hnest
    rw [losesReturn_eq hname ((instruction?_eq t name).trans hi), hret, Bool.true_and]
    unfold endsInner
    split
    · next top _ _ hcalls =>
      have htop : top ∈ t.callTrace := hcalls ▸ List.mem_cons_self
      have hnext := hg.next top htop
      have hkind := Program.isReturn_of_not_hasTailCall htail (hg.known top htop)
        (hg.isCall top htop) hnext
      cases hback : i == top.next with
      | false => rfl
      | true =>
        have heq := (hg.built.knows_of_named? hi).eq_of_beq (hg.built.knows_of_next? hnext) hback
        rw [← heq, hreturn, hret] at hkind
        cases hkind
    · rfl

theorem keepsReturns_of_not_hasTailCall (hg : t.position.Grounded)
    (htail : t.program.hasTailCall = false) (hnest : t.program.nests t.stack es = some ms)
    (hok : t.succeeds es = true) : t.keepsReturns es = true := by
  induction es generalizing t with
  | nil => rfl
  | cons e es ih =>
    obtain ⟨ms₁, hstep, -⟩ := Program.nests_cons hnest
    obtain ⟨hok₁, hoks⟩ := succeeds_cons hok
    have hkept := losesReturn_of_not_hasTailCall hg htail hstep
    rw [keepsReturns, hkept]
    exact ih (grounded_deliver hg e) (deliver_program t e ▸ htail)
      (nests_deliver hg hnest hok₁ hkept) hoks

/-- The frames are the executed stack all along a well-nested run exactly if it loses no return,
and it loses none if no call of the program is directly followed by a return. -/
theorem stack_eq_nests_iff {p : Program} (hp : p.Built) (config : Config) (dispatch : Dispatch)
    (hnest : p.nests [] es = some ms) (hok : (new p config dispatch).succeeds es = true) :
    ((∀ es', es' <+: es → p.nests [] es' = some ((new p config dispatch).run es').stack) ↔
        (new p config dispatch).keepsReturns es = true) ∧
      (p.hasTailCall = false → (new p config dispatch).keepsReturns es = true) := by
  have hg := grounded_new hp config dispatch
  exact ⟨mirrors_iff hg hnest hok, fun htail =>
    keepsReturns_of_not_hasTailCall hg htail hnest hok⟩

open Sample

/-- The list enters the method again while it is asked for its size. -/
theorem stack_eq_nests_iff_grown :
    let p := Program.ofBodies [grown]
    let es := [enter "grown", size, enter "grown", size, increment, ret "%b" 4, increment]
    p.Built ∧ p.nests [] es = some [method "grown"] ∧
      (new p .standard .virtual).succeeds es = true ∧ p.hasTailCall = false ∧
      ∀ es', es' <+: es → p.nests [] es' = some ((new p .standard .virtual).run es').stack := by
  intro p es
  have hp : p.Built := Program.built_ofBodies fun b hb => List.mem_singleton.mp hb ▸ built_grown
  have hrun : p.nests [] es = some [method "grown"] ∧
      (new p .standard .virtual).succeeds es = true ∧ p.hasTailCall = false := by decide +kernel
  obtain ⟨hnest, hok, htail⟩ := hrun
  have hiff := stack_eq_nests_iff hp .standard .virtual hnest hok
  exact ⟨hp, hnest, hok, htail, hiff.1.mpr (hiff.2 htail)⟩

/-- A method that ends in a call is entered again inside it and returns: it is still on the
stack. -/
theorem stack_ne_nests_tail :
    let p := Program.ofBodies [tail]
    let es := [enter "tail", size, enter "tail", size, ret "%a" 3]
    let t := (new p .standard .virtual).run es
    p.Built ∧ p.hasOwnBody (method "tail") = true ∧ p.entered es = [method "tail", method "tail"] ∧
      (new p .standard .virtual).succeeds es = true ∧ p.nests [] es = some [method "tail"] ∧
      t.stack = [method "tail", method "tail"] ∧ t.depth = 2 := by
  intro p es t
  have hp : p.Built := Program.built_ofBodies fun b hb => List.mem_singleton.mp hb ▸ built_tail
  exact ⟨hp, by decide +kernel⟩

end Tracer

end Concolic
