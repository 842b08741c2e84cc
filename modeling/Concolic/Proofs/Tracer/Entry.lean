import Concolic.Proofs.Tracer.Fresh
import Concolic.Proofs.Tracer.Inlining
import Concolic.Proofs.Tracer.Output

/-!
# Values of parameters

A method that is entered from outside gets a term for each parameter, and the values that were
reported are recorded under these terms. Unlike a result, a parameter has a term that is named only
by its place and type, and the first value that is recorded under a term stays. So it is the first
report of a run that counts, for all methods with a parameter of the type in this place.

* `Parametrized`, `Action.defineAll_arguments`: what a list of parameters is bound to, and what is
  recorded for it.
* `entry_values`: which values are recorded when a method is entered from outside.
* `entry_value_stale`: a flag is first true and then false, and it is recorded as true.
-/

namespace Concolic

namespace Sample

def flagMethod : Method := Method.new "app/Main" "flag" ⟨[.bool], .void⟩ Method.staticFlag

/-- Branches on its argument. -/
def flag : Body.Builder :=
  ((Body.Builder.new flagMethod none).addBlock "entry").addAll
    [(0, "br", .branch, none), (0, "ret", .ret, none)]

def enterFlag (b : Bool) : Event := .methodEnter ⟨"app/Main", "flag", ["Z"], "V"⟩ none [.bool b]

def branch : Event := .branch "br" "arg$0"

def leave : Event := .ret "ret" none .null

end Sample

namespace Tracer

variable {t u : Tracer} {e : Event}

/-- A recorded value stays for the rest of the run. -/
theorem concrete_run (t : Tracer) (es : List Event) : t.concrete.Within (t.run es).concrete := by
  induction es generalizing t with
  | nil => exact .refl _
  | cons e es ih =>
    refine .trans ?_ (ih (t.deliver e).2)
    cases hanswers : t.answers e with
    | true =>
      obtain ⟨call, frames, -, hd⟩ := deliver_of_answers hanswers
      rw [hd]
      exact .refl _
    | false =>
      obtain ⟨c, -, hc, -⟩ := deliver_contributed hanswers
      exact hc.concrete

/-- From `t` with the active frame `f` to `u` with `f'`, the parameters from number `n` on are bound
to their terms, and under each term the reported value is recorded if nothing was. The parameters
before `n` are left alone. -/
structure Parametrized (t : Tracer) (f : Frame) (u : Tracer) (f' : Frame) (n : Nat) (tys : List Ty)
    (os : List Observed) : Prop where
  method : f'.method = f.method
  bound : ∀ i ty o, tys[i]? = some ty → os[i]? = some o →
    f'.values.get? (.argument (n + i) ty) = some (Term.argument ty (n + i))
  recorded : ∀ i ty o, tys[i]? = some ty → os[i]? = some o →
    u.concrete.get? (Term.argument ty (n + i)) =
      some ((t.concrete.get? (Term.argument ty (n + i))).getD (o.describeAs t.config.limits ty))
  values : ∀ i ty, i < n → f'.values.get? (.argument i ty) = f.values.get? (.argument i ty)
  concrete : ∀ i ty, i < n →
    u.concrete.get? (Term.argument ty i) = t.concrete.get? (Term.argument ty i)

namespace Parametrized

variable {f f' : Frame} {fs : List Frame} {n : Nat} {tys : List Ty} {os : List Observed}

/-- No parameter is left, or no value was reported for one. -/
theorem refl (h : tys = [] ∨ os = []) : Parametrized t f t f n tys os := by
  have hnone : ∀ (i : Nat) (ty : Ty) (o : Observed), tys[i]? = some ty → os[i]? ≠ some o := by
    intro i ty o hty ho
    rcases h with rfl | rfl
    · simp at hty
    · simp at ho
  exact ⟨rfl, fun i ty o hty ho => absurd ho (hnone i ty o hty),
    fun i ty o hty ho => absurd ho (hnone i ty o hty), fun _ _ _ => rfl, fun _ _ _ => rfl⟩

/-- The parameter number `n` is bound and recorded, and then the ones after it. -/
theorem cons {ty : Ty} {o : Observed}
    (h : Parametrized (t.defining f fs (.argument n ty) (some o))
      { f with values := f.values.insert (.argument n ty) (Term.argument ty n) } u f' (n + 1)
      tys os) : Parametrized t f u f' n (ty :: tys) (o :: os) where
  method := h.method
  bound i ty' o' hty ho := by
    cases i with
    | zero =>
      cases hty
      rw [Nat.add_zero, h.values n ty (Nat.lt_succ_self n)]
      exact Table.get?_insert_self _ _ _
    | succ i =>
      rw [← Nat.succ_add_eq_add_succ]
      exact h.bound i ty' o' hty ho
  recorded i ty' o' hty ho := by
    cases i with
    | zero =>
      cases hty
      cases ho
      rw [Nat.add_zero, h.concrete n ty (Nat.lt_succ_self n)]
      exact Table.get?_insertNew_self _ _ _
    | succ i =>
      rw [← Nat.succ_add_eq_add_succ, h.recorded i ty' o' hty ho]
      have hne : n ≠ n + 1 + i := by omega
      have hother : (t.defining f fs (.argument n ty) (some o)).concrete.get?
          (Term.argument ty' (n + 1 + i)) = t.concrete.get? (Term.argument ty' (n + 1 + i)) :=
        Table.get?_insertNew_of_ne _ _ (Term.argument_beq_of_ne ty ty' hne)
      rw [hother]
      rfl
  values i ty' hi := by
    rw [h.values i ty' (Nat.lt_succ_of_lt hi)]
    refine Table.get?_insert_of_ne _ _ fun heq => ?_
    cases heq
    exact Nat.lt_irrefl _ hi
  concrete i ty' hi := by
    rw [h.concrete i ty' (Nat.lt_succ_of_lt hi)]
    exact Table.get?_insertNew_of_ne _ _ (Term.argument_beq_of_ne ty ty' (Nat.ne_of_gt hi))

end Parametrized

theorem Action.defineAll_arguments {f : Frame} {fs : List Frame} (tys : List Ty)
    (os : List Observed) (n : Nat) (hframes : t.frames = f :: fs)
    (hu : defineAll (tys.mapIdx fun i ty => .argument (n + i) ty) os t = .ok () u) :
    ∃ f', u.frames = f' :: fs ∧ Parametrized t f u f' n tys os := by
  induction tys generalizing os n t f with
  | nil =>
    cases hu
    exact ⟨f, hframes, .refl (.inl rfl)⟩
  | cons ty tys ih =>
    cases os with
    | nil =>
      rw [List.mapIdx_cons] at hu
      cases hu
      exact ⟨f, hframes, .refl (.inr rfl)⟩
    | cons o os =>
      rw [List.mapIdx_cons, Nat.add_zero, defineAll, bind_apply,
        define_run ⟨.argument n ty, o⟩ hframes] at hu
      have hnext : ∀ i ty', Value.argument (n + (i + 1)) ty' = .argument (n + 1 + i) ty' :=
        fun i ty' => by rw [Nat.succ_add_eq_add_succ]
      simp only [hnext] at hu
      obtain ⟨f', hf', h⟩ := ih os (n + 1) rfl hu
      exact ⟨f', hf', h.cons⟩

/-! ## Entries from outside -/

/-- A method that is entered when no call is open is entered from outside. -/
theorem Handled.entry {spelling : MethodSpelling} {receiver : Option Observed}
    {args : List Observed} (h : t.Handled (.methodEnter spelling receiver args) true u)
    (hphase : t.phase = .idle) :
    ∃ m, t.program.method spelling.owner spelling.name spelling.args spelling.ret = .ok m ∧
      Action.defineAll m.parameters.2 args (t.pushing m) = .ok () u := by
  obtain ⟨hpending, hcalls⟩ := phase_eq_idle_iff.mp hphase
  cases h with
  | entered _ _ hm hu => exact ⟨_, hm, hu⟩
  | answered hcall => rw [hpending] at hcall; cases hcall
  | pushed _ _ hopen =>
    rcases hopen with hopen | hopen
    · rw [hpending] at hopen; cases hopen
    · exact absurd hcalls hopen
  | skipped hname => cases hname
  | acted hs => cases hs with
    | instruction hname => cases hname

/-- Which values are recorded when a method is entered from outside, at a time when no call is open:
every parameter is bound to the term of its place and type. If a value is reported for it, the value
of this term is from then on the first one that was recorded for it in the run; it is the reported
one if there was none. -/
theorem entry_values {spelling : MethodSpelling} {receiver : Option Observed}
    {args : List Observed} (hphase : t.phase = .idle)
    (hok : (t.deliver (.methodEnter spelling receiver args)).1 = .ok ()) :
    let u := (t.deliver (.methodEnter spelling receiver args)).2
    ∃ m f, t.program.method spelling.owner spelling.name spelling.args spelling.ret = .ok m ∧
      u.frames = f :: t.frames ∧ f.method = m ∧
      ∀ i ty o, m.signature.args[i]? = some ty → args[i]? = some o →
        let x := Term.argument ty i
        f.values.get? (.argument i ty) = some x ∧
        ∀ es, (u.run es).concrete.get? x =
          some ((t.concrete.get? x).getD (o.describeAs t.config.limits ty)) := by
  intro u
  obtain ⟨m, hm, hu⟩ := (deliver_of_ok hok).entry hphase
  have hparameters : m.parameters.2 = m.signature.args.mapIdx fun i ty => .argument (0 + i) ty := by
    simp only [Nat.zero_add]
    rfl
  rw [hparameters] at hu
  obtain ⟨f, hframes, h⟩ := Action.defineAll_arguments _ args 0 rfl hu
  refine ⟨m, f, hm, hframes, h.method, fun i ty o hty ho => ⟨?_, fun es => ?_⟩⟩
  · simpa only [Nat.zero_add] using h.bound i ty o hty ho
  · have hrecorded := h.recorded i ty o hty ho
    rw [Nat.zero_add] at hrecorded
    exact (concrete_run u es).value _ _ hrecorded

open Sample in
/-- The number that is passed to `second` is recorded, whatever flags there were before it. -/
theorem entry_values_second :
    let p := Program.ofBodies [flag, second]
    let t := (new p .standard .virtual).run [enterFlag true, branch, leave]
    let u := (t.deliver enterSecond).2
    t.phase = .idle ∧ t.concrete.keys.map Term.name = ["arg$0"] ∧
      u.Binds (.argument 0 .int) (Term.argument .int 0) ∧
      ∀ es, (u.run es).concrete.get? (Term.argument .int 0) =
        some ((Observed.int 7).describeAs Config.standard.limits .int) := by
  intro p t u
  have hrun : t.phase = .idle ∧ t.concrete.keys.map Term.name = ["arg$0"] ∧
      t.succeeds [enterSecond] = true ∧ (t.concrete.get? (Term.argument .int 0)).isNone = true ∧
      (t.program.method "app/Main" "second" ["I", "Ljava/util/List;"] "I").toOption =
        some secondMethod := by
    decide +kernel
  obtain ⟨hphase, hkeys, hok, hnone, hmethod⟩ := hrun
  have hconfig : t.config = .standard :=
    congrArg (fun s : Program × Dispatch × Config => s.2.2) (run_setup (new p .standard .virtual) _)
  obtain ⟨m, f, hm, hframes, -, hvalues⟩ := entry_values hphase (succeeds_cons hok).1
  obtain rfl : secondMethod = m :=
    Except.ok.inj ((Program.toOption_eq_some hmethod).symm.trans hm)
  obtain ⟨hbound, hrecorded⟩ := hvalues 0 .int (.int 7) rfl rfl
  refine ⟨hphase, hkeys, ⟨f, _, hframes, hbound⟩, fun es => (hrecorded es).trans ?_⟩
  rw [Option.isNone_iff_eq_none.mp hnone, hconfig]
  rfl

open Sample in
/-- A method is entered with a flag that is true, and later with one that is false. The flag is
recorded as true, and the second branch is taken to be like the first. -/
theorem entry_value_stale :
    let p := Program.ofBodies [flag]
    let t := (new p .standard .virtual).run [enterFlag true, branch, leave]
    let u := (t.deliver (enterFlag false)).2
    p.Built ∧ t.phase = .idle ∧ (t.deliver (enterFlag false)).1 = .ok () ∧
      (∃ x, u.Binds (.argument 0 .bool) x ∧ u.concrete.get? x = some (.bool true)) ∧
      (Observed.bool false).describeAs Config.standard.limits .bool = .bool false ∧
      (u.run [branch]).path.map PathClause.text =
        ["@P arg$0 = true [CONDITION_CHECK]", "@P arg$0 = true [CONDITION_CHECK]"] := by
  intro p t u
  have hp : p.Built := by
    refine Program.built_ofBodies fun b hb => ?_
    obtain rfl := List.mem_singleton.mp hb
    exact .addAll (.addBlock _ (.new _ _)) _
  have hrun : t.phase = .idle ∧ t.succeeds [enterFlag false] = true ∧
      (u.frames.head?.any fun f => (f.values.get? (.argument 0 .bool)).any fun x =>
        (u.concrete.get? x).bind Description.bool? == some true) = true ∧
      (u.run [branch]).path.map PathClause.text =
        ["@P arg$0 = true [CONDITION_CHECK]", "@P arg$0 = true [CONDITION_CHECK]"] := by
    decide +kernel
  obtain ⟨hphase, hok, hbound, hpath⟩ := hrun
  obtain ⟨f, hf, hbound⟩ := Option.any_eq_true _ _ |>.mp hbound
  obtain ⟨x, hx, hbound⟩ := Option.any_eq_true _ _ |>.mp hbound
  obtain ⟨fs, hframes⟩ := List.head?_eq_some_iff.mp hf
  have hd := Description.eq_bool_of_bind (eq_of_beq hbound)
  exact ⟨hp, hphase, (succeeds_cons hok).1, ⟨x, ⟨f, fs, hframes, hx⟩, hd⟩, rfl, hpath⟩

end Tracer

end Concolic
