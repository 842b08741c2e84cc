import Concolic.Proofs.Tracer.Condition

/-!
# The guards of a run

A tracer remembers what it has guarded, and guards nothing twice. But it remembers terms, and calls
a guard by their names.

* `Tracer.Checks t c`: the tracer remembers the condition. It never forgets one
  (`handled_checks`).
* `Tracer.Adds t u`: what is new are the clauses of guards, each for a condition that was not
  remembered before and is now. This is what every event for guards does (`deliver_adds`), and the
  conditions are those that it asks for (`Event.Asks`).
* `Tracer.guardClauses t es`: the clauses that the events for guards add in a run.
* `guard_terms_eq_iff`: the guards of a run are for different conditions, and two of them are one
  term exactly if the conditions clash.
* `guard_terms_clash`: a run in which one guard is fixed to both truth values.
-/

namespace Concolic

/-- The guard stands for the condition. -/
structure Guard.States (g : Guard) (c : Condition) : Prop where
  name : g.name = c.name
  definition : c.definition = .ok g.definition

/-- The event asks for guards of the conditions, all at once: for one that a value is null, for one
of an index, or for two of a length. -/
inductive Event.Asks (bound : Int32) : Event → List Condition → Prop
  | null (name : String) (checked : Operand) (x : Term) :
      Asks bound (.guardNull name checked) [.null x]
  | inBounds (name : String) (array index : Operand) (a k : Term) :
      Asks bound (.guardIndex name array index) [.inBounds a k]
  | length (name : String) (length : Operand) (x : Term) :
      Asks bound (.guardLength name length) [.notNegative x, .below x bound]

/-- Guards are the same if they have one name. -/
theorem Guard.States.term_beq_iff {g h : Guard} {c d : Condition} (hg : g.States c)
    (hh : h.States d) : (g.term == h.term) = true ↔ c.name = d.name := by
  rw [← hg.name, ← hh.name]
  refine ⟨fun hbeq => ?_, fun hname => ?_⟩
  · exact Term.name_of_beq hbeq
  · rw [Guard.term, Guard.term, hname]
    exact BEq.rfl

namespace Sample

/-- Returns at once, whatever it is given. -/
def idle : Body.Builder :=
  let method := Method.new "app/Main" "idle" ⟨[.object "java/lang/Object"], .int⟩ Method.staticFlag
  ((Body.Builder.new method none).addBlock "entry").addAll [(0, "ret", .ret, none)]

def enterIdle (o : Observed) : Event :=
  .methodEnter ⟨"app/Main", "idle", ["Ljava/lang/Object;"], "I"⟩ none [o]

def nullGuard (name : String) (o : Observed) : Event := .guardNull name ⟨"arg$0", o⟩

end Sample

namespace Tracer

variable {t u w : Tracer} {e : Event} {c d : Condition}

/-! ## What is remembered -/

/-- The tracer remembers the condition. -/
def Checks (t : Tracer) : Condition → Prop
  | .null x => x ∈ t.nullChecked
  | .inBounds a k => (a, k) ∈ t.indexChecked
  | .notNegative x | .below x _ => x ∈ t.lengthChecked

/-- Nothing that the tracer remembers is the condition. -/
def Lacks (t : Tracer) : Condition → Prop
  | .null x => t.nullChecked.contains x = false
  | .inBounds a k => t.indexChecked.contains (a, k) = false
  | .notNegative x | .below x _ => t.lengthChecked.contains x = false

/-- What is remembered is not what is lacking. -/
theorem Checks.not_same (hc : t.Checks c) (hd : t.Lacks d) : c.same d = false := by
  have hother {α : Type} [BEq α] {x y : α} {xs : List α} (hx : x ∈ xs)
      (hy : xs.contains y = false) : (y == x) = false := by
    rw [List.contains_eq_any_beq, List.any_eq_false] at hy
    exact Bool.not_eq_true _ ▸ hy x hx
  have hterm {x y : Term} {xs : List Term} (hx : x ∈ xs) (hy : xs.contains y = false) :
      (x == y) = false := BEq.comm.trans (hother hx hy)
  cases c with
  | null x =>
    cases d with
    | null y => exact hterm hc hd
    | _ => rfl
  | notNegative x =>
    cases d with
    | notNegative y => exact hterm hc hd
    | _ => rfl
  | below x =>
    cases d with
    | below y => exact hterm hc hd
    | _ => rfl
  | inBounds a k =>
    cases d with
    | inBounds a' k' =>
      show (a == a' && k == k') = false
      rw [BEq.comm (a := a), BEq.comm (a := k)]
      exact hother (y := (a', k')) hc hd
    | _ => rfl

/-- The terms of a condition that is remembered are kept. -/
theorem Checks.keeps (h : t.Checks c) : ∀ x ∈ c.terms, t.Keeps x := by
  intro x hx
  cases c with
  | null y =>
    obtain rfl := List.mem_singleton.mp hx
    exact ⟨.nullChecked, h⟩
  | notNegative y | below y =>
    obtain rfl := List.mem_singleton.mp hx
    exact ⟨.lengthChecked, h⟩
  | inBounds a k => exact ⟨.indexChecked, List.mem_flatMap.mpr ⟨(a, k), h, hx⟩⟩

/-- The places where conditions are remembered. -/
def memory (t : Tracer) : List Term × List (Term × Term) × List Term :=
  (t.nullChecked, t.indexChecked, t.lengthChecked)

theorem checks_of_memory (h : u.memory = t.memory) : u.Checks c ↔ t.Checks c := by
  obtain ⟨hnull, hindex, hlength⟩ : u.nullChecked = t.nullChecked ∧
      u.indexChecked = t.indexChecked ∧ u.lengthChecked = t.lengthChecked := by
    simpa [memory] using h
  cases c <;> simp only [Checks, hnull, hindex, hlength]

theorem lacks_of_memory (h : u.memory = t.memory) : u.Lacks c ↔ t.Lacks c := by
  obtain ⟨hnull, hindex, hlength⟩ : u.nullChecked = t.nullChecked ∧
      u.indexChecked = t.indexChecked ∧ u.lengthChecked = t.lengthChecked := by
    simpa [memory] using h
  cases c <;> simp only [Lacks, hnull, hindex, hlength]

theorem issued_memory (t : Tracer) (v : Value) : (t.issued v).memory = t.memory := by
  cases v <;> rfl

theorem defining_memory (t : Tracer) (f : Frame) (fs : List Frame) (v : Value)
    (seen : Option Observed) : (t.defining f fs v seen).memory = t.memory := issued_memory t v

/-- A change may add to what is remembered. -/
theorem Change.checks (h : t.Change u) (hc : t.Checks c) : u.Checks c := by
  cases h with
  | issue v | bind => exact (checks_of_memory (issued_memory t _)).mpr hc
  | nonNull | indexed | sized =>
    cases c <;> first | exact hc | exact List.mem_cons_of_mem _ hc
  | _ => exact (checks_of_memory rfl).mpr hc

theorem Changed.checks (h : t.Changed u) (hc : t.Checks c) : u.Checks c :=
  h.keep (P := fun w => w.Checks c) (fun hchange => hchange.checks) hc

theorem opened_memory (h : Event.Opened t e w) : w.memory = t.memory := by
  cases h with
  | same => rfl
  | defined => exact defining_memory t _ _ _ _
  | caught =>
    unfold catching
    split
    · rfl
    · exact defining_memory t _ _ _ _

theorem Receiving.memory (h : t.Receiving w) : w.memory = t.memory := by
  rcases h with rfl | ⟨v, f, fs, -, rfl⟩
  · rfl
  · exact defining_memory t f fs v none

theorem Counts.memory {s : Tracer} (h : t.Counts e s) : s.memory = t.memory := by
  cases h <;> rfl

/-- Whatever an event does, nothing is forgotten. -/
theorem handled_checks {ok : Bool} (h : t.Handled e ok u) (hc : t.Checks c) : u.Checks c := by
  cases h with
  | refused => exact hc
  | answered | pushed | nullException | uncaught | unwound => exact (checks_of_memory rfl).mpr hc
  | entered _ _ _ hu =>
    refine (checks_of_memory ?_).mpr hc
    exact Action.entered_keep (P := fun w => w.memory = t.memory) hu
      (fun v o _ h => (defining_memory _ _ _ v (some o)).trans h) rfl
  | skipped _ _ hu => exact (checks_of_memory (by cases hu <;> rfl)).mpr hc
  | acted hs hw hu =>
    exact hu.checks ((checks_of_memory ((opened_memory hw).trans hs.memory)).mpr hc)
  | failed hs hw hu =>
    rcases hw with rfl | hw
    · exact hu.checks ((checks_of_memory hs.memory).mpr hc)
    · exact hu.checks ((checks_of_memory ((opened_memory hw).trans hs.memory)).mpr hc)
  | notCalled hs hw hu =>
    exact hu.checks ((checks_of_memory (hw.memory.trans hs.memory)).mpr hc)
  | called hs hw hu _ hv =>
    have hcalling := hu.checks ((checks_of_memory (hw.memory.trans hs.memory)).mpr hc)
    exact hv.checks ((checks_of_memory rfl).mpr hcalling)
  | returned hs =>
    obtain ⟨_, _, _, _, _, heq⟩ := returned_eq t.resumed _ _ _ _ _
    rw [heq]
    exact (checks_of_memory rfl).mpr hc

theorem deliver_checks (e : Event) (hc : t.Checks c) : (t.deliver e).2.Checks c :=
  deliver_keep (P := fun u => u.Checks c) e hc (fun _ _ h => handled_checks h hc)
    fun _ _ h => (checks_of_memory rfl).mpr h

/-! ## What guards add -/

/-- The tracer `u` is `t` with the guards of conditions that `t` lacks and `u` remembers. -/
structure Adds (t u : Tracer) (gs : List (Guard × Condition)) : Prop where
  clauses : u.summary.clauses = t.summary.clauses ++ gs.flatMap fun g => g.1.clauses
  states : ∀ g ∈ gs, g.1.States g.2 ∧ t.Lacks g.2 ∧ u.Checks g.2
  apart : gs.Pairwise fun g h => g.2.same h.2 = false

namespace Adds

variable {gs : List (Guard × Condition)}

theorem nothing (h : u.summary.clauses = t.summary.clauses) : t.Adds u [] :=
  ⟨h.trans (List.append_nil _).symm, List.forall_mem_nil _, .nil⟩

/-- What was remembered and stated before is the same. -/
theorem congr_left (h : t.Adds u gs) (hclauses : t.summary.clauses = w.summary.clauses)
    (hmemory : t.memory = w.memory) : w.Adds u gs := by
  refine ⟨hclauses ▸ h.clauses, fun g hg => ?_, h.apart⟩
  obtain ⟨hstates, hlacks, hchecks⟩ := h.states g hg
  exact ⟨hstates, (lacks_of_memory hmemory).mp hlacks, hchecks⟩

/-- The clauses of a guard are put behind all others. -/
theorem one {g : Guard} (htp : t.pending = none) (hup : u.pending = none)
    (hclauses : u.clauses = t.clauses ++ g.clauses) (hg : g.States c) (hlacks : t.Lacks c)
    (hchecks : u.Checks c) : t.Adds u [(g, c)] := by
  refine ⟨?_, List.forall_mem_singleton.mpr ⟨hg, hlacks, hchecks⟩, List.pairwise_singleton _ _⟩
  rw [summary_clauses_of_none htp, summary_clauses_of_none hup, hclauses, List.flatMap_singleton]

theorem two {g h : Guard} (htp : t.pending = none) (hup : u.pending = none)
    (hclauses : u.clauses = t.clauses ++ g.clauses ++ h.clauses) (hg : g.States c)
    (hh : h.States d) (hlacks : t.Lacks c ∧ t.Lacks d) (hchecks : u.Checks c ∧ u.Checks d)
    (hne : c.same d = false) : t.Adds u [(g, c), (h, d)] := by
  refine ⟨?_, ?_, List.pairwise_pair.mpr hne⟩
  · rw [summary_clauses_of_none htp, summary_clauses_of_none hup, hclauses, List.append_assoc]
    simp
  · refine List.forall_mem_cons.mpr ⟨⟨hg, hlacks.1, hchecks.1⟩, ?_⟩
    exact List.forall_mem_singleton.mpr ⟨hh, hlacks.2, hchecks.2⟩

end Adds

namespace Action

variable {α β : Type}

/-- The tracer `u` is `t` with the guards that the event asks for, or without any more. -/
def AddsFor (e : Event) (t u : Tracer) : Prop :=
  ∃ gs, t.Adds u gs ∧ (gs = [] ∨ e.Asks t.config.maxArrayLength (gs.map Prod.snd))

theorem AddsFor.nothing (h : u.summary.clauses = t.summary.clauses) : AddsFor e t u :=
  ⟨[], .nothing h, .inl rfl⟩

/-- Where no call is pending, the action adds guards for the event, whether it succeeds or fails. -/
def AddsGuards (e : Event) (act : Action α) (t : Tracer) : Prop :=
  t.pending = none → AddsFor e t (act.after t)

namespace AddsGuards

variable {k : α → Action β}

theorem pure (a : α) : AddsGuards e (Pure.pure a : Action α) t := fun _ => .nothing rfl

theorem read {x : Action α} (hx : x.Reads) (hk : ∀ a, AddsGuards e (k a) t) :
    AddsGuards e (x >>= k) t := fun hpending => by
  cases h : x t with
  | ok a u =>
    obtain rfl := hx.ok h
    rw [after_bind_of_ok h]
    exact hk a hpending
  | error cause u =>
    obtain rfl := hx.error h
    rw [after_bind_of_error h]
    exact .nothing rfl

/-- The term of a value is looked up, or the value gets one. -/
theorem termOf {k : Term → Action β} (v : Value)
    (hk : ∀ x u, AddsGuards e (k x) u) : AddsGuards e (Action.termOf v >>= k) t :=
  fun hpending => by
  cases hframes : t.frames with
  | nil =>
    have h : Action.termOf v t = .error (.broken .noFrame) t := by
      rw [Action.termOf, bind_apply, frame_nil hframes]
    rw [after_bind_of_error h]
    exact .nothing rfl
  | cons f fs =>
    rw [after_bind_of_ok (termOf_run v hframes)]
    obtain ⟨names, frames, heq⟩ := reading_eq t f fs v
    obtain ⟨gs, hgs, hasks⟩ := hk (t.term f v) (t.reading f fs v) (by rw [heq]; exact hpending)
    refine ⟨gs, hgs.congr_left ?_ ?_, ?_⟩
    · rw [heq]; rfl
    · rw [heq]; rfl
    · rw [heq] at hasks
      exact hasks

end AddsGuards

theorem after_lift_of_ok {r : Result α} {a : α} (h : r = .ok a) (k : α → Action β) (t : Tracer) :
    ((liftM r : Action α) >>= k).after t = (k a).after t := by
  unfold after
  rw [lift_bind_of_ok h]

theorem after_lift_of_error {r : Result α} {cause : Error} (h : r = .error cause)
    (k : α → Action β) (t : Tracer) : ((liftM r : Action α) >>= k).after t = t := by
  rw [h]
  rfl

theorem after_guarded (check : Check) (i : Instruction) (name : String) (definition : Term)
    (observed : Bool) (t : Tracer) :
    (guarded check i name definition observed).after t =
      let g : Guard := { check, instruction := i, name, definition, observed }
      { t with clauses := t.clauses ++ g.clauses, path := t.path ++ [g.fixed] } :=
  after_of_ok (Contributes.guarded_run { check, instruction := i, name, definition, observed } t)

theorem guardNull_adds (name : String) (checked : Operand) :
    ∃ act, guardNull name checked = start name act ∧
      ∀ t : Tracer, AddsGuards (.guardNull name checked) act t := by
  refine ⟨_, rfl, fun t => .read (Reads.anyInstruction name) fun i => ?_⟩
  refine .read (Reads.value checked.name) fun v => .termOf v fun x u hpending => ?_
  rw [after_bind_of_ok (x := get) (a := u) rfl]
  split
  · exact .nothing rfl
  · next hnew =>
    simp only [Bool.or_eq_true, not_or, Bool.not_eq_true] at hnew
    rw [after_bind_of_ok (x := modify _) (a := ⟨⟩) rfl]
    cases hdefinition : Term.compare .eq x Term.null with
    | error cause =>
      rw [after_lift_of_error rfl]
      exact .nothing rfl
    | ok definition =>
      have hcondition : (Condition.null x).definition = .ok definition := hdefinition
      rw [after_lift_of_ok rfl, after_guarded]
      exact ⟨_, .one hpending hpending rfl ⟨rfl, hcondition⟩ hnew.2 List.mem_cons_self,
        .inr (.null name checked x)⟩

theorem guardIndex_adds (name : String) (array index : Operand) :
    ∃ act, guardIndex name array index = start name act ∧
      ∀ t : Tracer, AddsGuards (.guardIndex name array index) act t := by
  refine ⟨_, rfl, fun t => ?_⟩
  split
  · exact .pure _
  · refine .read (Reads.anyInstruction name) fun i => ?_
    refine .read (Reads.value array.name) fun v => .read (Reads.value index.name) fun w => ?_
    refine .termOf v fun a _ => .termOf w fun k u => ?_
    split
    · exact .pure _
    · intro hpending
      rw [after_bind_of_ok (x := get) (a := u) rfl]
      split
      · exact .nothing rfl
      · next n _ hnew =>
        rw [Bool.not_eq_true] at hnew
        rw [after_bind_of_ok (x := modify _) (a := ⟨⟩) rfl]
        cases hlength : Term.arrayLength a with
        | error cause =>
          rw [after_lift_of_error rfl]
          exact .nothing rfl
        | ok length =>
          rw [after_lift_of_ok rfl]
          cases hdefinition : Term.compare .lt k length with
          | error cause =>
            rw [after_lift_of_error rfl]
            exact .nothing rfl
          | ok definition =>
            have hcondition : (Condition.inBounds a k).definition = .ok definition := by
              rw [Condition.definition, hlength]
              exact hdefinition
            rw [after_lift_of_ok rfl, after_guarded]
            exact ⟨_, .one hpending hpending rfl ⟨rfl, hcondition⟩ hnew List.mem_cons_self,
              .inr (.inBounds name array index a k)⟩

theorem guardLength_adds (name : String) (length : Operand) :
    ∃ act, guardLength name length = start name act ∧
      ∀ t : Tracer, AddsGuards (.guardLength name length) act t := by
  refine ⟨_, rfl, fun t => .read (Reads.anyInstruction name) fun i => ?_⟩
  refine .read (Reads.value length.name) fun v => ?_
  split
  · exact .pure _
  · refine .termOf v fun x u hpending => ?_
    rw [after_bind_of_ok (x := get) (a := u) rfl]
    split
    · exact .nothing rfl
    · next hnew =>
      rw [Bool.not_eq_true] at hnew
      split
      · exact .nothing rfl
      · next n _ =>
        rw [after_bind_of_ok (x := modify _) (a := ⟨⟩) rfl]
        cases hleast : Term.compare .ge x (Term.int 0) with
        | error cause =>
          rw [after_lift_of_error rfl]
          exact .nothing rfl
        | ok least =>
          obtain ⟨most, hmost⟩ : ∃ most,
              Term.compare .lt x (Term.int u.config.maxArrayLength) = .ok most :=
            compare_int_ok hleast
          rw [after_lift_of_ok rfl, after_bind_of_ok (Contributes.guarded_run ⟨_, _, _, _, _⟩ _),
            after_lift_of_ok hmost, after_guarded]
          exact ⟨_, .two (c := .notNegative x) (d := .below x u.config.maxArrayLength) hpending
            hpending rfl ⟨rfl, hleast⟩ ⟨rfl, hmost⟩ ⟨hnew, hnew⟩
            ⟨List.mem_cons_self, List.mem_cons_self⟩ rfl, .inr (.length name length x)⟩

/-- An event that counts adds the guards that its action adds, any other event adds none. -/
theorem start_adds {act : Action Unit} (name : String) (hact : ∀ t : Tracer, AddsGuards e act t)
    (t : Tracer) : AddsFor e t ((start name act).after t) := by
  rcases start_after name act t with hpassed | hafter
  · exact .nothing (congrArg Summary.clauses hpassed.summary)
  · obtain ⟨gs, hgs, hasks⟩ := hact t.resumed rfl
    refine ⟨gs, hafter ▸ hgs.congr_left ?_ rfl, hasks⟩
    exact congrArg Summary.clauses (summary_flushed t)

end Action

/-- Whatever becomes of an event for guards, it adds guards of conditions that are new. -/
theorem deliver_adds (t : Tracer) (h : e.guardCount ≠ 0) :
    Action.AddsFor e t (t.deliver e).2 := by
  have hhandle : Action.AddsFor e t ((handle e).after t) := by
    cases e with
    | guardNull name checked =>
      obtain ⟨act, hstart, hact⟩ := Action.guardNull_adds name checked
      rw [handle, hstart]
      exact Action.start_adds name hact t
    | guardIndex name array index =>
      obtain ⟨act, hstart, hact⟩ := Action.guardIndex_adds name array index
      rw [handle, hstart]
      exact Action.start_adds name hact t
    | guardLength name length =>
      obtain ⟨act, hstart, hact⟩ := Action.guardLength_adds name length
      rw [handle, hstart]
      exact Action.start_adds name hact t
    | _ => exact absurd rfl h
  refine deliver_of_after e (.nothing rfl) hhandle fun u fatal hu => ?_
  obtain ⟨gs, hgs, hasks⟩ := hu
  refine ⟨gs, ⟨hgs.clauses, fun g hg => ?_, hgs.apart⟩, hasks⟩
  obtain ⟨hstates, hlacks, hchecks⟩ := hgs.states g hg
  exact ⟨hstates, hlacks, (checks_of_memory rfl).mpr hchecks⟩

/-! ## The guards of a run -/

/-- The clauses that the events for guards add. -/
def guardClauses (t : Tracer) : List Event → List Clause
  | [] => []
  | e :: es =>
    let u := (t.deliver e).2
    (if e.guardCount = 0 then [] else u.summary.clauses.drop t.summary.clauses.length) ++
      u.guardClauses es

/-- The guards are for different conditions, which the tracer remembers. -/
structure Guards (t : Tracer) (gs : List (Guard × Condition)) : Prop where
  states : ∀ g ∈ gs, g.1.States g.2 ∧ t.Checks g.2
  apart : gs.Pairwise fun g h => g.2.same h.2 = false

theorem Guards.deliver {gs : List (Guard × Condition)} (h : t.Guards gs) (e : Event) :
    (t.deliver e).2.Guards gs := by
  refine ⟨fun g hg => ?_, h.apart⟩
  obtain ⟨hstates, hchecks⟩ := h.states g hg
  exact ⟨hstates, deliver_checks e hchecks⟩

/-- New guards are for conditions that were not guarded before. -/
theorem Guards.append {gs new : List (Guard × Condition)} (h : t.Guards gs) (hadds : t.Adds u new)
    (hu : u.Guards gs) : u.Guards (gs ++ new) := by
  refine ⟨fun g hg => ?_, List.pairwise_append.mpr ⟨h.apart, hadds.apart, fun g hg k hk => ?_⟩⟩
  · rcases List.mem_append.mp hg with hg | hg
    · exact hu.states g hg
    · obtain ⟨hstates, -, hchecks⟩ := hadds.states g hg
      exact ⟨hstates, hchecks⟩
  · exact (h.states g hg).2.not_same (hadds.states k hk).2.1

theorem Guards.run {gs : List (Guard × Condition)} (h : t.Guards gs) (es : List Event) :
    ∃ new, t.guardClauses es = new.flatMap (fun g => g.1.clauses) ∧
      (t.run es).Guards (gs ++ new) := by
  induction es generalizing t gs with
  | nil => exact ⟨[], rfl, (List.append_nil gs).symm ▸ h⟩
  | cons e es ih =>
    have hu := h.deliver e
    by_cases hcount : e.guardCount = 0
    · obtain ⟨new, hclauses, hnew⟩ := ih hu
      refine ⟨new, ?_, hnew⟩
      rw [guardClauses, if_pos hcount]
      exact hclauses
    · obtain ⟨added, hadded, -⟩ := deliver_adds t hcount
      obtain ⟨new, hclauses, hnew⟩ := ih (h.append hadded hu)
      refine ⟨added ++ new, ?_, List.append_assoc gs added new ▸ hnew⟩
      rw [guardClauses, if_neg hcount, hadded.clauses, List.drop_left, List.flatMap_append,
        ← hclauses]

/-- The guards that a run states are for conditions that are pairwise different: each of them is
defined as its condition says. Two of them are the same term if and only if their conditions clash.
So the guards for two terms are different unless the terms are receivers, or arguments of one
position, of different types; and those of an index and an array can also be mixed up if the name of
an instruction has the word in it that they are called by. -/
theorem guard_terms_eq_iff (p : Program) (config : Config) (dispatch : Dispatch)
    (es : List Event) :
    ∃ gs : List (Guard × Condition),
      (new p config dispatch).guardClauses es = gs.flatMap (fun g => g.1.clauses) ∧
      (∀ g ∈ gs, g.1.States g.2) ∧
      gs.Pairwise fun g h =>
        g.2.same h.2 = false ∧ ((g.1.term == h.1.term) = true ↔ g.2.Clashes h.2) := by
  have hnone : (new p config dispatch).Guards [] := ⟨List.forall_mem_nil _, .nil⟩
  obtain ⟨gs, hclauses, hgs⟩ := hnone.run es
  rw [List.nil_append] at hgs
  refine ⟨gs, hclauses, fun g hg => (hgs.states g hg).1, ?_⟩
  refine hgs.apart.imp_of_mem fun {g h} hg hh hne => ⟨hne, ?_⟩
  obtain ⟨hstates, hchecks⟩ := hgs.states g hg
  obtain ⟨hstates', hchecks'⟩ := hgs.states h hh
  rw [hstates.term_beq_iff hstates']
  exact (clear_run p config dispatch es).clashes_iff hchecks.keeps hchecks'.keeps hne

open Sample in
/-- Two methods check their first arguments, which have different types. One argument is a list and
the other is null. Both have the same guard, and the path fixes it to both truth values. -/
theorem guard_terms_clash :
    let t := new (Program.ofBodies [tail, idle]) .standard .virtual
    let es := [enter "tail", nullGuard "%a" list, enterIdle .null, nullGuard "ret" .null]
    t.succeeds es = true ∧
      (t.run es).nullChecked.map Term.debug =
        ["arg$0: java/lang/Object", "arg$0: java/util/List"] ∧
      (t.guardClauses es).map Clause.text =
        ["@S arg$0NullCheck = (arg$0 == null)", "@P arg$0NullCheck = false [NULL_CHECK]",
          "@S arg$0NullCheck = (arg$0 == null)", "@P arg$0NullCheck = true [NULL_CHECK]"] ∧
      (t.run es).path.map (fun c => c.predicate.decided?.map fun d => (d.1.debug, d.2)) =
        [some ("arg$0NullCheck: boolean", false), some ("arg$0NullCheck: boolean", true)] := by
  decide +kernel

end Tracer

end Concolic
