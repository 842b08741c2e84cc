import Concolic.Proofs.Term
import Concolic.Proofs.Tracer.Kept
import Concolic.Proofs.Tracer.Suppression

/-!
# Fresh results

A result of an instruction is bound to a term of a new name: the name of the instruction and the
number of terms that were made for it. That no other term has this name, whatever the names of the
instructions are, is a matter of how names are written (`numbered_inj`) and of where terms come
from.

* `Tracer.Numbered t`: the named values that a tracer keeps all have names that it has given. Every
  step in the supply of names keeps this (`Numbered.supply`), and so does every run
  (`Numbered.run`).
* `Tracer.Unused t`: no term that the tracer keeps is one that it would give to a result next. It
  follows from `Numbered`.
* `results_fresh`: every result gets an unused term, and the value that is recorded for the result
  of an instruction is the one that was reported.
-/

namespace Concolic

namespace Sample

/-- Adds twice, under names of which one looks like a term of the other. -/
def counted : Body.Builder :=
  ((Body.Builder.new (method "counted") none).addBlock "entry").addAll
    [(0, "%a", .binary .add, some .int), (0, "%a_0", .binary .add, some .int)]

def add (name : String) (n : Int32) : Event :=
  .binary ⟨name, .int n⟩ ⟨"1", .int 1⟩ ⟨"2", .int 2⟩

end Sample

/-! ## Names with a number -/

/-- A name and its number can be read off: digits stand after the last underscore. -/
theorem numbered_inj {a b : String} {m n : Nat} (h : numbered a m = numbered b n) :
    a = b ∧ m = n := by
  have hlist : a.toList ++ '_' :: Nat.toDigits 10 m = b.toList ++ '_' :: Nat.toDigits 10 n := by
    have htext := congrArg String.toList h
    simpa [numbered, Nat.toString_eq_repr, Nat.toList_repr] using htext
  -- if one name were longer, an underscore would stand among the digits of the other number
  have hm : '_' ∉ Nat.toDigits 10 m := Nat.underscore_not_in_toDigits
  have hn : '_' ∉ Nat.toDigits 10 n := Nat.underscore_not_in_toDigits
  rcases List.append_eq_append_iff.mp hlist with ⟨l, hb, hl⟩ | ⟨l, ha, hl⟩
  · cases l with
    | nil =>
      rw [List.append_nil] at hb
      exact ⟨String.toList_inj.mp hb.symm, toDigits_inj (List.cons.inj hl).2⟩
    | cons c l =>
      rw [(List.cons.inj hl).2] at hm
      exact absurd (List.mem_append_right l List.mem_cons_self) hm
  · cases l with
    | nil =>
      rw [List.append_nil] at ha
      exact ⟨String.toList_inj.mp ha, toDigits_inj (List.cons.inj hl).2.symm⟩
    | cons c l =>
      rw [(List.cons.inj hl).2] at hn
      exact absurd (List.mem_append_right l List.mem_cons_self) hn

namespace Tracer

variable {t u : Tracer} {e : Event}

/-- Every named value that the tracer keeps has a name that it has given. -/
def Numbered (t : Tracer) : Prop :=
  ∀ x, t.Keeps x → ∀ n, x.kind = .value n → ∃ name k, n = numbered name k ∧ k < t.count name

/-- No term that the tracer keeps is one that it would give to a result next. -/
def Unused (t : Tracer) : Prop :=
  ∀ name ty x, t.Keeps x → (x == t.fresh (.result name ty)) = false

/-- No term that the tracer keeps is one that it may still give. -/
theorem Numbered.beq_later (h : t.Numbered) {name : String} {k : Nat} (hk : t.count name ≤ k)
    (ty : Ty) {x : Term} (hx : t.Keeps x) : (x == Term.value ty (numbered name k)) = false := by
  rw [← Bool.not_eq_true]
  intro hbeq
  obtain ⟨name', k', hn, hlt⟩ := h x hx _ (congrArg Term.kind (Term.eq_value_of_beq hbeq))
  obtain ⟨rfl, rfl⟩ := numbered_inj hn
  omega

theorem Numbered.unused (h : t.Numbered) : t.Unused :=
  fun _ ty _ hx => h.beq_later (Nat.le_refl _) ty hx

/-- No name that was given is to be given again. -/
theorem Supply.count_le (hu : t.Supply u) (name : String) : t.count name ≤ u.count name := by
  cases hu with
  | reuse hreuses => exact hreuses.count name
  | result name' ty => exact count_issued_le t (.result name' ty) name

private theorem Supplied.count_le (hu : t.Supplied u) (name : String) :
    t.count name ≤ u.count name := by
  induction hu with
  | refl => exact Nat.le_refl _
  | tail _ hlast ih => exact Nat.le_trans ih (hlast.count_le name)

theorem Numbered.supply (h : t.Numbered) (hu : t.Supply u) : u.Numbered := by
  intro x hx n hn
  have hold (hx : t.Keeps x) : ∃ name k, n = numbered name k ∧ k < u.count name := by
    obtain ⟨name, k, hname, hlt⟩ := h x hx n hn
    exact ⟨name, k, hname, Nat.lt_of_lt_of_le hlt (hu.count_le name)⟩
  cases hu with
  | reuse hreuses => exact hold (hreuses.kept x hx ⟨n, hn⟩)
  | result name ty hframes =>
    rcases Keeps.of_binding hframes hx with rfl | hx
    · cases hn
      refine ⟨name, t.count name, rfl, ?_⟩
      show _ < (t.issued (.result name ty)).count name
      rw [count_issued_self]
      exact Nat.lt_succ_self _
    · exact hold hx

/-- Every step in the supply of names starts where names are unused. -/
theorem Numbered.supplied (h : t.Numbered) (hu : t.Supplied u) :
    u.Numbered ∧ Relation.ReflTransGen (fun s s' => s.Supply s' ∧ s.Unused) t u := by
  induction hu with
  | refl => exact ⟨h, .refl⟩
  | tail _ hlast ih =>
    obtain ⟨hs, hsteps⟩ := ih
    exact ⟨hs.supply hlast, hsteps.tail ⟨hlast, hs.unused⟩⟩

/-- A named value that is kept then was kept before, or it is none of the terms that were. -/
theorem Numbered.kept_or_new (h : t.Numbered) (hu : t.Supplied u) {x : Term} (hx : u.Keeps x)
    (hnamed : x.IsNamed) : t.Keeps x ∨ ∀ y, t.Keeps y → (y == x) = false := by
  induction hu with
  | refl => exact .inl hx
  | @tail s _ hsteps hlast ih =>
    cases hlast with
    | reuse hreuses => exact ih (hreuses.kept x hx hnamed)
    | result name ty hframes =>
      rcases Keeps.of_binding hframes hx with rfl | hx
      · exact .inr fun y hy => h.beq_later (Supplied.count_le hsteps name) ty hy
      · exact ih hx

theorem numbered_new (p : Program) (config : Config) (dispatch : Dispatch) :
    (new p config dispatch).Numbered := by
  intro x hx
  obtain ⟨p, hx⟩ := hx
  cases p <;> cases hx

theorem Numbered.run (h : t.Numbered) (es : List Event) : (t.run es).Numbered := by
  induction es generalizing t with
  | nil => exact h
  | cons e es ih => exact ih (h.supplied (deliver_supplied t e)).1

/-! ## Recorded values -/

/-- An event that reports a result, succeeds and is acted on binds the result first. -/
theorem Handled.defines (h : t.Handled e true u) (hdefines : e.defines = true)
    (hphase : u.phase ≠ .suppressed) :
    ∃ name i v f fs, e.subject? = some name ∧ t.instruction? name = some i ∧ i.result = some v ∧
      t.frames = f :: fs ∧ (t.resumed.defining f fs v (e.outcome? i)).Changed u := by
  cases h with
  | acted hs hw hu =>
    cases hs with
    | caught => cases hdefines
    | instruction =>
      cases hw with
      | same hnot => rw [hdefines] at hnot; cases hnot
      | caught => cases hdefines
      | defined _ hname hi hv hframes => exact ⟨_, _, _, _, _, hname, hi, hv, hframes, hu⟩
  | skipped _ _ _ hcalls => exact (hphase (phase_eq_suppressed_iff.mpr ⟨rfl, hcalls⟩)).elim
  | answered | pushed | entered | unwound | called | returned => cases hdefines

/-- In a built program an instruction produces the result of its own name. -/
theorem result_of_instruction? (hp : t.program.Built) {name : String} {i : Instruction} {v : Value}
    (hi : t.instruction? name = some i) (hv : i.result = some v) :
    ∃ ty, v = .result i.name ty := by
  rw [instruction?_eq] at hi
  obtain ⟨m, ms, b, -, hb, hi⟩ := Program.named?_eq_some hi
  exact (hp.body (Program.body_eq_ok hb)).result (Body.mem_of_instruction? hi) hv

/-- What was seen of a value is recorded under its term, unless something was before. -/
private theorem concrete_defining (t : Tracer) (f : Frame) (fs : List Frame) (v : Value)
    (o : Observed) :
    (t.defining f fs v (some o)).concrete.get? (t.fresh v) =
      some ((t.concrete.get? (t.fresh v)).getD
        (o.describeAs t.config.limits (t.fresh v).ty)) := by
  cases v <;> exact Table.get?_insertNew_self _ _ _

/-- Results are fresh. Whatever happens in a run and whatever the names of instructions are, the
names to come are unused: the term that a result would get is no key of the recorded values and
origins, was never checked, and is bound in no frame, neither now nor where a handler starts, and
received by none. Every event is made of steps that start with unused names, and in which a result
gets its term or terms are reused. So a named value that is kept after an event was kept before it,
or it is new and equals no term that was.

If an event that reports a result succeeds and is acted on, the result is bound to the term that was
unused, and the value that is recorded for it is the one that was reported or computed. -/
theorem results_fresh {p : Program} (hp : p.Built) (config : Config) (dispatch : Dispatch)
    (es : List Event) (e : Event) :
    let t := (new p config dispatch).run es
    let u := (t.deliver e).2
    t.Unused ∧ Relation.ReflTransGen (fun s s' => s.Supply s' ∧ s.Unused) t u ∧
      (∀ x, u.Keeps x → x.IsNamed → t.Keeps x ∨ ∀ y, t.Keeps y → (y == x) = false) ∧
      (e.defines = true → (t.deliver e).1 = .ok () → u.phase ≠ .suppressed →
        ∃ name i ty, e.subject? = some name ∧ t.instruction? name = some i ∧
          i.result = some (.result i.name ty) ∧
          let x := Term.value ty (numbered i.name (t.count i.name))
          u.Binds (.result i.name ty) x ∧
            ∀ o, e.outcome? i = some o →
              u.concrete.get? x = some (o.describeAs config.limits ty)) := by
  intro t u
  have ht : t.Numbered := (numbered_new p config dispatch).run es
  have hsupplied := deliver_supplied t e
  refine ⟨ht.unused, (ht.supplied hsupplied).2, fun _ => ht.kept_or_new hsupplied, ?_⟩
  intro hdefines hok hphase
  obtain ⟨name, i, v, f, fs, hname, hi, hv, hframes, hu⟩ :=
    (deliver_of_ok hok).defines hdefines hphase
  have hsetup : t.setup = (p, dispatch, config) := run_setup _ es
  obtain ⟨hprogram, -, hconfig⟩ : t.program = p ∧ t.dispatch = dispatch ∧ t.config = config := by
    simpa [setup] using hsetup
  obtain ⟨ty, rfl⟩ := result_of_instruction? (hprogram ▸ hp) hi hv
  refine ⟨name, i, ty, hname, hi, hv, hu.binds ?_, fun o ho => ?_⟩
  · exact ⟨_, _, rfl, Table.get?_insert_self _ _ _⟩
  · have hnone : t.concrete.get? (t.fresh (.result i.name ty)) = none :=
      Table.get?_eq_none fun y hy => ht.unused i.name ty y ⟨.concrete, hy⟩
    have hrecorded := concrete_defining t.resumed f fs (.result i.name ty) o
    rw [show t.resumed.concrete.get? (t.resumed.fresh (.result i.name ty)) = none from hnone,
      show t.resumed.config = config from hconfig] at hrecorded
    rw [ho] at hu
    exact hu.concrete.value _ _ hrecorded

open Sample in
/-- The names `%a` and `%a_0` are given in turns, and the third term is none of the older ones. -/
theorem results_fresh_counted :
    let p := Program.ofBodies [counted]
    let t := (new p .standard .virtual).run [enter "counted", add "%a" 3, add "%a_0" 4]
    let u := (t.deliver (add "%a" 5)).2
    t.concrete.keys.map Term.name = ["arg$0", "%a_0", "1", "2", "%a_0_0"] ∧
      ∃ x, x.name = "%a_1" ∧ (∀ y, t.Keeps y → (y == x) = false) ∧
        u.Binds (.result "%a" .int) x ∧
        u.concrete.get? x = some ((Observed.int 5).describeAs Config.standard.limits .int) := by
  intro p t u
  have hp : p.Built := by
    refine Program.built_ofBodies fun b hb => ?_
    obtain rfl := List.mem_singleton.mp hb
    exact .addAll (.addBlock _ (.new _ _)) _
  have hrun : t.concrete.keys.map Term.name = ["arg$0", "%a_0", "1", "2", "%a_0_0"] ∧
      t.succeeds [add "%a" 5] = true ∧ u.phase ≠ .suppressed ∧
      numbered "%a" (t.count "%a") = "%a_1" ∧
      ((t.instruction? "%a").any fun i => i.name = "%a" ∧ i.result = some (.result "%a" .int)) =
        true := by
    decide +kernel
  obtain ⟨hkeys, hok, hphase, hnumber, hinstruction⟩ := hrun
  obtain ⟨hunused, -, -, hresult⟩ := results_fresh hp .standard .virtual
    [enter "counted", add "%a" 3, add "%a_0" 4] (add "%a" 5)
  obtain ⟨name, i, ty, hname, hi, hv, hbinds, hrecorded⟩ :=
    hresult rfl (succeeds_cons hok).1 hphase
  cases hname
  obtain ⟨i', hi', hfound⟩ := Option.any_eq_true _ _ |>.mp hinstruction
  obtain rfl : i' = i := Option.some.inj (hi'.symm.trans hi)
  obtain ⟨hiname, hiresult⟩ := of_decide_eq_true hfound
  rw [hiresult, hiname] at hv
  cases hv
  rw [hiname, hnumber] at hbinds hrecorded
  refine ⟨hkeys, _, rfl, fun y hy => ?_, hbinds, hrecorded _ rfl⟩
  rw [← hnumber]
  exact hunused "%a" .int y hy

end Tracer

end Concolic
