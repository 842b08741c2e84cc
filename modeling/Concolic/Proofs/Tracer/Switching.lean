import Concolic.Proofs.Tracer.Departure
import Concolic.Proofs.Tracer.Evaluation

/-!
# Switches with tables and with keys

A switch lists its keys, a table switch gives the least and the greatest of them. For a number that
is a key both decide that the term is this number. For any other number a switch decides that the
term is none of its keys, which is all that the default case says. A table switch still decides that
the term is this number, and so it leaves out the other numbers of the default case.

* `keysBetween least most`: the keys of a table.
* `caseOf keys n`: the case that a number takes.
* `Predicate.admits p m`: the decision allows the number.
* `Tracer.Switches`: an event switches on a term, with a number.
* `switch_run`, `tableSwitch_run`: the event succeeds and adds its decision.
* `table_switch_eq_switch_iff`: where the decisions of the two agree.
-/

namespace Concolic

/-! ## Keys and cases -/

/-- All numbers from the least to the greatest. -/
def keysBetween (least most : Int32) : List Int32 :=
  (List.range (most.toInt - least.toInt + 1).toNat).map fun k : Nat => Int32.ofInt (least.toInt + k)

private theorem mem_keysBetween {least most n : Int32} :
    n ∈ keysBetween least most ↔ least ≤ n ∧ n ≤ most := by
  have hleast := least.le_toInt
  have hmost := most.toInt_lt
  simp only [keysBetween, List.mem_map, List.mem_range, Int32.le_iff_toInt_le]
  constructor
  · rintro ⟨k, hk, rfl⟩
    rw [Int32.toInt_ofInt_of_le (by omega) (by omega)]
    omega
  · rintro ⟨hle, hle'⟩
    refine ⟨(n.toInt - least.toInt).toNat, by omega, ?_⟩
    rw [← Int32.toInt_inj, Int32.toInt_ofInt_of_le (by omega) (by omega)]
    omega

/-- The case that a number takes, which is the default case if the number is no key. -/
def caseOf (keys : List Int32) (n : Int32) : Option Int32 := if n ∈ keys then some n else none

private theorem caseOf_eq_of_mem {keys : List Int32} {n : Int32} (hn : n ∈ keys) (m : Int32) :
    caseOf keys m = caseOf keys n ↔ m = n := by
  unfold caseOf
  rw [if_pos hn]
  by_cases hm : m ∈ keys
  · rw [if_pos hm, Option.some.injEq]
  · rw [if_neg hm]
    refine iff_of_false (by simp) ?_
    rintro rfl
    exact hm hn

private theorem caseOf_eq_of_not_mem {keys : List Int32} {n : Int32} (hn : n ∉ keys) (m : Int32) :
    caseOf keys m = caseOf keys n ↔ m ∉ keys := by
  unfold caseOf
  rw [if_neg hn]
  by_cases hm : m ∈ keys <;> simp [hm]

/-! ## Decisions about a number -/

namespace Predicate

/-- The decision about its first operand allows that this is the number. -/
def admits (p : Predicate) (m : Int32) : Bool :=
  match p.kind, p.operands with
  | .equality, [_, y] => y.int? == some m.toInt
  | .defaultSwitch, _ :: ys => ys.all fun y => y.int? != some m.toInt
  | _, _ => false

/-- The decision of a switch on a term with an observed number. -/
def switched (c : Context) (keys : List Int32) (x : Term) (n : Int32) : Predicate :=
  if keys.contains n then c.equality x (Term.int n) else c.defaultSwitch x (keys.map Term.int)

theorem admits_equality (c : Context) (x : Term) (n m : Int32) :
    (c.equality x (Term.int n)).admits m = true ↔ m = n := by
  show (some n.toInt == some m.toInt) = true ↔ _
  rw [beq_iff_eq, Option.some.injEq, Int32.toInt_inj, eq_comm]

theorem admits_defaultSwitch (c : Context) (x : Term) (keys : List Int32) (m : Int32) :
    (c.defaultSwitch x (keys.map Term.int)).admits m = true ↔ m ∉ keys := by
  show ((keys.map Term.int).all fun y => y.int? != some m.toInt) = true ↔ _
  rw [List.all_map, List.all_eq_true]
  have hne (n : Int32) : ((Term.int n).int? != some m.toInt) = true ↔ m ≠ n := by
    show (some n.toInt != some m.toInt) = true ↔ _
    rw [bne_iff_ne, ne_eq, Option.some.injEq, Int32.toInt_inj, eq_comm]
  constructor
  · intro h hm
    exact (hne m).mp (h m hm) rfl
  · intro h n hn
    refine (hne n).mpr ?_
    rintro rfl
    exact h hn

/-- The decision of a switch allows the numbers that take the same case. -/
theorem admits_switched (c : Context) (keys : List Int32) (x : Term) (n m : Int32) :
    (switched c keys x n).admits m = true ↔ caseOf keys m = caseOf keys n := by
  unfold switched
  by_cases hn : n ∈ keys
  · rw [if_pos (List.contains_iff_mem.mpr hn), admits_equality, caseOf_eq_of_mem hn]
  · rw [if_neg (fun h => hn (List.contains_iff_mem.mp h)), admits_defaultSwitch,
      caseOf_eq_of_not_mem hn]

/-- The decision of a switch is that the term is the number exactly if the number is a key. -/
theorem equality_beq_switched {c d : Context} (hrole : c.role = d.role) (keys : List Int32)
    (x : Term) (n : Int32) :
    (c.equality x (Term.int n) == switched d keys x n) = true ↔ n ∈ keys := by
  unfold switched
  by_cases hn : n ∈ keys
  · rw [if_pos (List.contains_iff_mem.mpr hn)]
    refine iff_of_true ?_ hn
    show (_ && (c.role == d.role) && _) = true
    rw [hrole]
    simp [Context.equality, Context.make]
  · rw [if_neg (fun h => hn (List.contains_iff_mem.mp h))]
    refine iff_of_false ?_ hn
    simp [beq_def, same, Context.equality, Context.defaultSwitch, Context.make]

/-- When it is not too much to say of the term that it is the number. -/
theorem admits_equality_iff_caseOf (c : Context) (keys : List Int32) (x : Term) (n : Int32) :
    (∀ m, (c.equality x (Term.int n)).admits m = true ↔ caseOf keys m = caseOf keys n) ↔
      n ∈ keys ∨ ∀ m, m ≠ n → m ∈ keys := by
  simp only [admits_equality]
  by_cases hn : n ∈ keys
  · exact iff_of_true (fun m => (caseOf_eq_of_mem hn m).symm) (.inl hn)
  · simp only [caseOf_eq_of_not_mem hn, hn, false_or]
    refine ⟨fun h m hne => ?_, fun h m => ?_⟩
    · exact Classical.not_not.mp fun hm => hne ((h m).mpr hm)
    · constructor
      · rintro rfl
        exact hn
      · exact fun hm => Classical.not_not.mp fun hne => hm (h m hne)

end Predicate

namespace InstKind

def keys? : InstKind → Option (List Int32)
  | .switch keys => some keys
  | _ => none

/-- The least and the greatest key of a table. -/
def table? : InstKind → Option (Int32 × Int32)
  | .tableSwitch least most => some (least, most)
  | _ => none

private theorem eq_switch {kind : InstKind} {keys : List Int32} (h : kind.keys? = some keys) :
    kind = .switch keys := by
  cases kind <;> cases h
  rfl

private theorem eq_tableSwitch {kind : InstKind} {least most : Int32}
    (h : kind.table? = some (least, most)) : kind = .tableSwitch least most := by
  cases kind <;> cases h
  rfl

end InstKind

namespace Sample

/-- Switches on its argument, first by keys and then by a table. -/
def pick : Body.Builder :=
  let method := Method.new "app/Main" "pick" ⟨[.int], .void⟩ Method.staticFlag
  ((Body.Builder.new method none).addBlocks ["b0", "b1", "b2"]).addAll
    [(0, "sw", .switch [0, 1, 2], none), (1, "tsw", .tableSwitch 0 2, none), (2, "ret", .ret, none)]

theorem built_pick : pick.Built := .addAll (.addBlocks (.new _ _) _) _

def enterPick (n : Int32) : Event := .methodEnter ⟨"app/Main", "pick", ["I"], "V"⟩ none [.int n]

end Sample

namespace Tracer

variable {t u : Tracer} {name : String} {key : Operand} {i : Instruction} {x : Term} {n : Int32}

/-! ## Events -/

/-- The event of the instruction counts, its key has the term `x` in the active frame, and the
number `n` was observed of it. -/
structure Switches (t : Tracer) (name : String) (key : Operand) (i : Instruction) (x : Term)
    (n : Int32) : Prop where
  aborted : t.aborted = false
  collecting : t.callTrace = []
  instruction : t.instruction? name = some i
  term : ∃ f v, t.frames.head? = some f ∧ t.value? key.name = some v ∧ t.term f v = x
  observed : key.observed.int? = some n.toInt64

private theorem switchKey_eq_ok {o : Observed} (h : o.int? = some n.toInt64) :
    Action.switchKey o = .ok n := by
  unfold Action.switchKey
  simp only [h, Int32.toInt32_toInt64, if_true]

/-- Both switches do the same but for the decision that they take. -/
theorem Switches.run {α : Type} {expected : String} {accept : InstKind → Option α} {a : α}
    (h : t.Switches name key i x n) (hs : t.program.Sound) (ha : accept i.kind = some a)
    (decision : Instruction → α → Term → Int32 → Predicate) :
    ∃ u, (Action.start name do
        let (i, a) ← Action.select name expected accept
        let key ← Action.resolve key
        let x ← Action.use key
        let n ← Action.switchKey key.observed
        Action.decide i (decision i a x n)) t = .ok () u ∧
      u.path = t.path ++
        [{ check := .condition, instruction := i, predicate := decision i a x n }] := by
  obtain ⟨f, v, hf, hv, hx⟩ := h.term
  obtain ⟨fs, hframes⟩ := List.head?_eq_some_iff.mp hf
  obtain ⟨handlers, hh⟩ := hs.exists_handlers (Action.contains_of_instruction? h.instruction)
  have hterm : t.flushed.term f v = x := by
    rw [← hx, Tracer.term, Tracer.term, fresh_flushed]
  obtain ⟨names, origins, concrete, g, hused, -⟩ :=
    used_eq (t := t.flushed) v (some key.observed) hframes
  rw [Action.start_of_collecting _ h.collecting, Action.bind_apply,
    Action.select_run (t := t.flushed) h.instruction ha]
  dsimp only
  rw [Action.bind_apply, Action.resolve_run (t := t.flushed) hv]
  dsimp only
  rw [Action.bind_apply, Action.use_run ⟨v, key.observed⟩ (t := t.flushed) hframes, hterm, hused]
  dsimp only
  rw [Action.lift_bind_of_ok (switchKey_eq_ok h.observed)]
  exact ⟨_, Action.decide_run _ rfl hh, rfl⟩

theorem switch_run (h : t.Switches name key i x n) (hs : t.program.Sound) {keys : List Int32}
    (hkind : i.kind = .switch keys) :
    ∃ u, t.deliver (.switch name key) = (.ok (), u) ∧ u.path = t.path ++
      [{ check := .condition, instruction := i
         predicate := .switched i.decision keys x n }] := by
  let c : PathClause := ⟨.condition, i, .switched i.decision keys x n⟩
  have hrun : ∃ u, Action.switch name key t = .ok () u ∧ u.path = t.path ++ [c] :=
    h.run hs (congrArg InstKind.keys? hkind) fun i keys x n => .switched i.decision keys x n
  obtain ⟨u, hu, hpath⟩ := hrun
  exact ⟨u, deliver_of_handle_ok h.aborted hu, hpath⟩

theorem tableSwitch_run (h : t.Switches name key i x n) (hs : t.program.Sound)
    {least most : Int32} (hkind : i.kind = .tableSwitch least most) :
    ∃ u, t.deliver (.tableSwitch name key) = (.ok (), u) ∧ u.path = t.path ++
      [{ check := .condition, instruction := i
         predicate := i.decision.equality x (Term.int n) }] := by
  let c : PathClause := ⟨.condition, i, i.decision.equality x (Term.int n)⟩
  have hrun : ∃ u, Action.tableSwitch name key t = .ok () u ∧ u.path = t.path ++ [c] := by
    unfold Action.tableSwitch
    refine h.run (α := Unit) (a := ()) hs ?_ fun i _ x n => i.decision.equality x (Term.int n)
    rw [hkind]
  obtain ⟨u, hu, hpath⟩ := hrun
  exact ⟨u, deliver_of_handle_ok h.aborted hu, hpath⟩

/-- Table and keys. Take a table switch and a switch over the keys of its table, in any two runs,
both about the same term and with the same observed number. Both events succeed, and each adds one
decision. The decisions agree exactly if the number is a key. The switch allows the numbers that
take the same case as the observed one, but the table switch allows this number only, also if it
takes the default case. That is right exactly if the number is a key, or if all others are. -/
theorem table_switch_eq_switch_iff {p q : Program} (hp : p.Built) (hq : q.Built)
    (config config' : Config) (dispatch dispatch' : Dispatch) (es es' : List Event)
    {name name' : String} {key key' : Operand} {i j : Instruction} {x : Term}
    {n least most : Int32} :
    let t := (new p config dispatch).run es
    let t' := (new q config' dispatch').run es'
    let keys := keysBetween least most
    let P := i.decision.equality x (Term.int n)
    let Q := Predicate.switched j.decision keys x n
    t.Switches name key i x n → i.kind = .tableSwitch least most →
    t'.Switches name' key' j x n → j.kind = .switch keys →
    ∃ u u' : Tracer,
      t.deliver (.tableSwitch name key) = (.ok (), u) ∧
      u.path = t.path ++ [{ check := .condition, instruction := i, predicate := P }] ∧
      t'.deliver (.switch name' key') = (.ok (), u') ∧
      u'.path = t'.path ++ [{ check := .condition, instruction := j, predicate := Q }] ∧
      ((P == Q) = true ↔ least ≤ n ∧ n ≤ most) ∧
      (∀ m, Q.admits m = true ↔ caseOf keys m = caseOf keys n) ∧
      (∀ m, P.admits m = true ↔ m = n) ∧
      ((∀ m, P.admits m = true ↔ caseOf keys m = caseOf keys n) ↔
        (least ≤ n ∧ n ≤ most) ∨ ∀ m, m ≠ n → least ≤ m ∧ m ≤ most) := by
  intro t t' keys P Q ht hi ht' hj
  have hs : t.program.Sound := run_program (new p config dispatch) es ▸ hp.sound
  have hs' : t'.program.Sound := run_program (new q config' dispatch') es' ▸ hq.sound
  obtain ⟨u, hu, hpath⟩ := tableSwitch_run ht hs hi
  obtain ⟨u', hu', hpath'⟩ := switch_run ht' hs' hj
  refine ⟨u, u', hu, hpath, hu', hpath', ?_, ?_, ?_, ?_⟩
  · have hrole : i.decision.role = j.decision.role := rfl
    rw [Predicate.equality_beq_switched hrole, mem_keysBetween]
  · exact Predicate.admits_switched j.decision keys x n
  · exact Predicate.admits_equality i.decision x n
  · simpa only [keys, mem_keysBetween] using
      Predicate.admits_equality_iff_caseOf i.decision keys x n

open Sample in
/-- The greatest key is decided in the same way with the table and with the keys. -/
theorem table_switch_eq_switch_iff_pick :
    let t := (new (Program.ofBodies [pick]) .standard .virtual).run [enterPick 2]
    let key : Operand := ⟨"arg$0", .int 2⟩
    ∃ i j x, t.Switches "tsw" key i x 2 ∧ i.kind = .tableSwitch 0 2 ∧
      t.Switches "sw" key j x 2 ∧ j.kind = .switch (keysBetween 0 2) ∧
      let P := i.decision.equality x (Term.int 2)
      let Q := Predicate.switched j.decision (keysBetween 0 2) x 2
      (t.deliver (.tableSwitch "tsw" key)).2.path =
        t.path ++ [{ check := .condition, instruction := i, predicate := P }] ∧
      (t.deliver (.switch "sw" key)).2.path =
        t.path ++ [{ check := .condition, instruction := j, predicate := Q }] ∧
      (P == Q) = true := by
  intro t key
  have hp : (Program.ofBodies [pick]).Built :=
    Program.built_ofBodies fun b hb => List.mem_singleton.mp hb ▸ built_pick
  have hrun : t.aborted = false ∧ t.callTrace = [] ∧
      t.value? "arg$0" = some (.argument 0 .int) ∧
      (t.instruction? "tsw").bind (·.kind.table?) = some (0, 2) ∧
      (t.instruction? "sw").bind (·.kind.keys?) = some (keysBetween 0 2) := by decide +kernel
  obtain ⟨haborted, hcalls, hvalue, htable, hkeys⟩ := hrun
  obtain ⟨i, hi, hikind⟩ := Option.bind_eq_some_iff.mp htable
  obtain ⟨j, hj, hjkind⟩ := Option.bind_eq_some_iff.mp hkeys
  obtain ⟨f, fs, hframes⟩ := Action.frames_of_instruction? hi
  have hterm : ∃ g v, t.frames.head? = some g ∧ t.value? key.name = some v ∧
      t.term g v = t.term f (.argument 0 .int) := ⟨f, _, by rw [hframes]; rfl, hvalue, rfl⟩
  have htsw : t.Switches "tsw" key i _ 2 := ⟨haborted, hcalls, hi, hterm, rfl⟩
  have hsw : t.Switches "sw" key j _ 2 := ⟨haborted, hcalls, hj, hterm, rfl⟩
  obtain ⟨u, u', hu, hpath, hu', hpath', hagree, -⟩ :=
    table_switch_eq_switch_iff hp hp .standard .standard .virtual .virtual [enterPick 2]
      [enterPick 2] htsw (InstKind.eq_tableSwitch hikind) hsw (InstKind.eq_switch hjkind)
  refine ⟨i, j, _, htsw, InstKind.eq_tableSwitch hikind, hsw, InstKind.eq_switch hjkind, ?_, ?_,
    hagree.mpr (by decide)⟩
  · exact (congrArg (fun r => r.2.path) hu).trans hpath
  · exact (congrArg (fun r => r.2.path) hu').trans hpath'

open Sample in
/-- The number 9 takes the default case, and so does 10. The switch over the keys allows both, the
table switch over the same keys does not. -/
theorem table_switch_ne_switch :
    let start := new (Program.ofBodies [pick]) .standard .virtual
    let key : Operand := ⟨"arg$0", .int 9⟩
    let es := [enterPick 9, .switch "sw" key, .tableSwitch "tsw" key]
    let u := start.run es
    start.succeeds es = true ∧ keysBetween 0 2 = [0, 1, 2] ∧
      u.path.map PathClause.text =
        ["@P arg$0 !in (0, 1, 2) [CONDITION_CHECK]", "@P arg$0 = 9 [CONDITION_CHECK]"] ∧
      caseOf [0, 1, 2] 10 = caseOf [0, 1, 2] 9 ∧
      u.path.map (·.predicate.admits 10) = [true, false] := by
  decide +kernel

end Tracer

end Concolic
