import Concolic.Proofs.Summary
import Concolic.Proofs.Tracer.Atoms
import Concolic.Proofs.Tracer.Decision
import Concolic.Proofs.Tracer.Recorded

/-!
# The terms of a summary

The terms that a tracer states something about are made of the terms that it keeps, by the
constructors. So its summary can be renamed.

* `Program.LambdasBuilt p`: the bodies of the lambdas in the program are terms that the constructors
  make. Then a term that is expressed over atoms was built (`Expresses.built`).
* `Tracer.Formed t`: the terms that the tracer keeps are clear, and its clauses are about terms that
  were built. Every event keeps this (`handled_formed`), and so does every run (`formed_run`).
* `rename_summary`: the summary of every run can be renamed, and nothing is lost.
-/

namespace Concolic

/-- The bodies of the lambdas in the program are terms that the constructors make. -/
def Program.LambdasBuilt (p : Program) : Prop :=
  ∀ i, p.Contains i → ∀ base body, i.kind = .invokeDynamic base → base.body = some body →
    body.Built

namespace Sample

/-- The argument plus one. -/
def successor : Term := ⟨.binary .add, .int, [.argument .int 0, .int 1]⟩

theorem built_successor : successor.Built := by
  have hcomposes : Term.Composes [.argument .int 0, .int 1] successor :=
    .binary (show Term.binaryTyped .int .add _ _ = .ok successor from rfl)
  refine .composite (fun x hx => ?_) hcomposes
  rcases List.mem_pair.mp hx with rfl | rfl
  · exact .argument .int 0
  · exact .constant (.int 1)

/-- Creates a lambda. -/
def creator : Body.Builder :=
  let base : LambdaBase :=
    ⟨Method.new "app/Main" "lambda$0" ⟨[.int], .int⟩ Method.staticFlag, some successor⟩
  ((Body.Builder.new (method "creator") none).addBlock "entry").addAll
    [(0, "%f", .invokeDynamic base, some (.object "java/util/function/IntUnaryOperator"))]

theorem lambdasBuilt_creator : (Program.ofBodies [creator]).LambdasBuilt := by
  rintro i ⟨m, b, hb, hi⟩ base body hkind hbody
  have hentry := Table.mem_entries_of_get? (Program.body_eq_ok hb)
  obtain rfl : b = creator.body := congrArg Prod.snd (List.mem_singleton.mp hentry)
  rw [List.mem_singleton.mp hi] at hkind
  cases hkind
  cases hbody
  exact built_successor

def create : Event := .invokeDynamic ⟨"%f", .object 2 "app/Main$$Lambda" []⟩ [] []

end Sample

namespace Tracer

variable {t u w : Tracer} {e : Event} {x : Term}

/-! ## Terms that are expressed -/

/-- The arguments of a method are replaced by the parameters of its lambda, in order. -/
theorem mapsVariables_parameters (m : Method) :
    Term.MapsVariables (.ofList ((m.signature.args.mapIdx fun i ty => Term.argument ty i).zip
      (Action.lambdaParameters m))) := by
  intro e he
  obtain ⟨k, hk, rfl⟩ := List.mem_iff_getElem.mp (Table.mem_ofList he)
  rw [List.getElem_zip, List.getElem_mapIdx]
  unfold Action.lambdaParameters
  rw [List.getElem_mapIdx]
  exact ⟨.inr ⟨_, _, rfl⟩, .inl ⟨_, _, rfl⟩, rfl⟩

theorem lambdaOf_built {ty : Ty} {m : Method} {body : Term} (hbody : body.Built)
    (h : Action.lambdaOf ty m body = .ok x) : x.Built := by
  have hm := mapsVariables_parameters m
  obtain ⟨body', hrename, h⟩ := Term.andThen_ok_iff.mp h
  rw [Term.rename_built hm hbody] at hrename
  cases hrename
  refine .composite (List.forall_mem_append.mpr ⟨fun y hy => ?_, fun y hy => ?_⟩) (.lambda h)
  · obtain ⟨i, hi, rfl⟩ := List.mem_mapIdx.mp hy
    exact .value _ _
  · rw [List.mem_singleton.mp hy]
    exact Term.renamed_built hm hbody

/-- What is expressed over atoms was built. -/
theorem Expresses.built (hp : t.program.LambdasBuilt) (ht : t.Clear)
    (h : t.Expresses x) : x.Built := by
  induction h with
  | bound h => exact (ht.atoms _ (.of_binds h)).built
  | constant c => exact .constant c
  | truth name => exact .value _ _
  | staticRef className => exact .staticRef className
  | composite _ h ih => exact .composite ih h
  | lambda hi hkind hbody h => exact lambdaOf_built (hp _ hi _ _ hkind hbody) h

/-! ## What every event keeps -/

/-- The terms of the tracer are clear, and its clauses are about terms that were built. -/
structure Formed (t : Tracer) : Prop where
  lambdas : t.program.LambdasBuilt
  clear : t.Clear
  clauses : ∀ c ∈ t.summary.clauses, c.predicate.Built

namespace Formed

/-- What is new in the summary are clauses about terms that were built. -/
theorem of_clauses (h : t.Formed) (hshift : t.Shifted u) (hprogram : u.program = t.program)
    (hclauses : ∀ c ∈ u.summary.clauses, c ∈ t.summary.clauses ∨ c.predicate.Built) : u.Formed := by
  refine ⟨hprogram ▸ h.lambdas, hshift.clear h.clear, fun c hc => ?_⟩
  rcases hclauses c hc with hc | hc
  · exact h.clauses c hc
  · exact hc

theorem of_eq (h : t.Formed) (hshift : t.Shifted u) (hprogram : u.program = t.program)
    (hclauses : u.summary.clauses = t.summary.clauses) : u.Formed :=
  h.of_clauses hshift hprogram fun _ hc => .inl (hclauses ▸ hc)

theorem expressed (h : t.Formed) {p : Predicate} (hp : ∀ x ∈ p.operands, t.Expresses x) :
    p.Built := fun x hx => (hp x hx).built h.lambdas h.clear

/-- Clauses about terms that were built are added, in front of the pending call. -/
theorem of_append (h : t.Formed) {cs : List Clause} (hshift : t.Shifted u)
    (hprogram : u.program = t.program) (hclauses : u.clauses = t.clauses ++ cs)
    (hpending : u.pending = t.pending) (hcs : ∀ c ∈ cs, c.predicate.Built) : u.Formed := by
  refine h.of_clauses hshift hprogram fun c hc => ?_
  simp only [summary, pendingClauses, hclauses, hpending, List.mem_append] at hc ⊢
  rcases hc with (hc | hc) | hc
  · exact .inl (.inl hc)
  · exact .inr (hcs c hc)
  · exact .inl (.inr hc)

end Formed

private theorem issued_summary (t : Tracer) (v : Value) : (t.issued v).summary = t.summary := by
  cases v <;> rfl

theorem defining_formed {f : Frame} {fs : List Frame} (v : Value) (seen : Option Observed)
    (hframes : t.frames = f :: fs) (h : t.Formed) : (t.defining f fs v seen).Formed := by
  refine h.of_eq (defining_shifted v seen hframes) ?_ ?_
  · exact congrArg Prod.fst (issued_setup t v)
  · cases v <;> rfl

theorem Change.formed (h : t.Change u) (ht : t.Formed) : u.Formed := by
  have hprogram : u.program = t.program := congrArg (fun fixed => fixed.1.1) h.fixed
  have hshift := h.shifted
  cases h with
  | issue v => exact ht.of_eq hshift hprogram (congrArg Summary.clauses (issued_summary t v))
  | @bind f fs v => exact ht.of_eq hshift hprogram (congrArg Summary.clauses (issued_summary t v))
  | clause hc hx =>
    refine ht.of_append hshift rfl rfl rfl fun d hd => ?_
    rw [List.mem_singleton.mp hd]
    exact ht.expressed hx
  | _ => exact ht.of_eq hshift rfl rfl

theorem Changed.formed (h : t.Changed u) (ht : t.Formed) : u.Formed :=
  h.keep (P := Formed) (fun hc => hc.formed) ht

theorem opened_formed (h : Event.Opened t e w) (ht : t.Formed) : w.Formed := by
  have hshift := opened_shifted h
  cases h with
  | same => exact ht
  | defined _ _ _ _ hframes => exact defining_formed _ _ hframes ht
  | @caught exception i v f fs _ _ hframes =>
    cases hthrown : t.thrown with
    | none =>
      unfold catching
      rw [hthrown]
      exact defining_formed _ _ hframes ht
    | some x =>
      refine ht.of_eq hshift ?_ ?_
      · rw [catching, hthrown]; rfl
      · rw [catching, hthrown]; rfl

theorem Receiving.formed (h : t.Receiving w) (ht : t.Formed) : w.Formed := by
  rcases h with rfl | ⟨v, f, fs, hframes, rfl⟩
  · exact ht
  · exact defining_formed v none hframes ht

theorem Counts.formed {s : Tracer} (h : t.Counts e s) (ht : t.Formed) : s.Formed := by
  have hshift := h.shifted
  cases h with
  | instruction | caught =>
    exact ht.of_eq hshift rfl (congrArg Summary.clauses (summary_flushed t))

/-- What a value stands for in a frame is an atom. -/
theorem Formed.term (h : t.Formed) {f : Frame} {fs : List Frame} (hframes : t.frames = f :: fs)
    (v : Value) : (t.term f v).Atom := by
  unfold Tracer.term
  cases hv : f.values.get? v with
  | none => exact fresh_atom t v
  | some x => exact h.clear.atoms x (.of_binds ⟨f, fs, hframes, hv⟩)

/-- What receives the result and what is returned are terms of frames. -/
private theorem passing_built {f : Frame} {fs : List Frame} (i : Instruction) (v : Option Value)
    (hframes : t.frames = f :: fs) (ht : t.Formed) :
    ∀ c ∈ t.passing i f v, c.predicate.Built := by
  unfold passing
  split
  · next v r y hreceiver =>
    refine List.forall_mem_singleton.mpr fun x hx => ?_
    rcases List.mem_pair.mp hx with rfl | rfl
    · exact (ht.clear.atoms x (.of_receiver hframes hreceiver)).built
    · exact (ht.term hframes v).built
  · exact List.forall_mem_nil _

theorem returned_formed {f : Frame} {callers : List Frame} (i : Instruction) (v : Option Value)
    (o : Observed) (hframes : t.frames = f :: callers) (ht : t.Formed) :
    (t.returned i f callers v o).Formed := by
  have hshift := returned_shifted i v o hframes
  have hclauses := returned_clauses t i f callers v o
  obtain ⟨names, origins, concrete, clauses, trace, heq⟩ := returned_eq t i f callers v o
  rw [heq] at hshift hclauses ⊢
  exact ht.of_append hshift rfl hclauses rfl (passing_built i v hframes ht)

theorem calling_formed {call : PendingCall} {next : Instruction}
    (hcall : ∀ x ∈ call.terms, t.Keeps x) (hx : ∀ x ∈ call.predicate.operands, t.Expresses x)
    (ht : t.Formed) : (t.calling call next).Formed := by
  refine ht.of_clauses (calling_shifted hcall) rfl fun c hc => ?_
  rcases List.mem_append.mp hc with hc | hc
  · exact .inl (List.mem_append_left _ hc)
  · rw [List.mem_singleton.mp hc]
    exact .inr (ht.expressed hx)

theorem handled_formed {ok : Bool} (h : t.Handled e ok u) (ht : t.Formed) : u.Formed := by
  have hshift := handled_shifted h
  cases h with
  | refused => exact ht
  | answered hcall =>
    refine ht.of_clauses hshift rfl fun c hc => .inl (List.mem_append_left _ ?_)
    rw [summary_clauses_of_none rfl] at hc
    exact hc
  | pushed | nullException | uncaught | unwound =>
    exact ht.of_eq hshift rfl (congrArg Summary.clauses (summary_flushed t))
  | entered _ _ _ hu =>
    refine Action.entered_keep (P := Formed) hu (fun v o => defining_formed v (some o)) ?_
    exact ht.of_eq (pushing_shifted t _) rfl (congrArg Summary.clauses (summary_flushed t))
  | skipped _ _ hu =>
    cases hu <;> exact ht.of_eq hshift rfl (congrArg Summary.clauses (summary_flushed t))
  | acted hs hw hu => exact hu.formed (opened_formed hw (hs.formed ht))
  | failed hs hw hu =>
    rcases hw with rfl | hw
    · exact hu.formed (hs.formed ht)
    · exact hu.formed (opened_formed hw (hs.formed ht))
  | notCalled hs hw hu => exact hu.formed (hw.formed (hs.formed ht))
  | called hs hw hu hmade hv hx =>
    exact hv.formed (calling_formed hmade.keeps hx (hu.formed (hw.formed (hs.formed ht))))
  | returned hs _ hframes => exact returned_formed _ _ _ hframes (hs.formed ht)

theorem deliver_formed (e : Event) (ht : t.Formed) : (t.deliver e).2.Formed :=
  deliver_keep (P := Formed) e ht (fun _ _ h => handled_formed h ht) fun u fatal h =>
    h.of_eq (.of_kept rfl (.refl _ _) fun p _ hx => .inl (by cases p <;> exact hx)) rfl rfl

theorem run_formed (es : List Event) (ht : t.Formed) : (t.run es).Formed := by
  induction es generalizing t with
  | nil => exact ht
  | cons e es ih => exact ih (deliver_formed e ht)

theorem formed_run {p : Program} (hp : p.LambdasBuilt) (config : Config) (dispatch : Dispatch)
    (es : List Event) : ((new p config dispatch).run es).Formed := by
  exact run_formed es ⟨hp, clear_new p config dispatch, List.forall_mem_nil _⟩

/-! ## Renaming the summary of a run -/

/-- All that renaming needs holds of the summary of every run. -/
theorem renameable_run {p : Program} (hp : p.LambdasBuilt) (config : Config) (dispatch : Dispatch)
    (es : List Event) : ((new p config dispatch).run es).summary.Renameable where
  clauses := (formed_run hp config dispatch es).clauses
  path c hc := by
    have hagrees := PathAgrees.run (t := new p config dispatch) rfl es
    exact (formed_run hp config dispatch es).clauses _ (hagrees.mem_clauses hc)
  concrete := (recorded_run p config dispatch es).concrete
  origins := (recorded_run p config dispatch es).origins
  keys x hx := by
    have hatom : x.Atom := (clear_run p config dispatch es).atoms x <| by
      rcases hx with hx | hx
      · exact ⟨.concrete, hx⟩
      · exact ⟨.origins, hx⟩
    exact ⟨hatom.built, hatom.leaf⟩

/-- If the bodies of the lambdas were built, then the summary of every run can be renamed. The
outcome has the clauses and the decisions in their order, each with its operands renamed and of its
old shape, and the path is still the sequence of the decisions among the clauses. Every record has
its entry under the renamed key, with its value, and no two keys became one. -/
theorem rename_summary {p : Program} (hp : p.LambdasBuilt) (config : Config) (dispatch : Dispatch)
    (es : List Event) (suffix : String) :
    let s := ((new p config dispatch).run es).summary
    ∃ s', s.rename suffix ∅ = .ok s' ∧
      s'.clauses = s.clauses.map (Clause.renamed suffix) ∧
      s'.path = s.path.map (PathClause.renamed suffix) ∧
      s'.clauses.map Clause.shape = s.clauses.map Clause.shape ∧
      s'.path.map PathClause.shape = s.path.map PathClause.shape ∧
      s'.path = s'.clauses.filterMap Clause.path? ∧
      s'.concrete.entries = s.concrete.entries.map (fun e => (e.1.renamed suffix ∅, e.2)) ∧
      s'.origins.entries = s.origins.entries.map (fun e => (e.1.renamed suffix ∅, e.2)) ∧
      s'.concrete.Distinct ∧ s'.origins.Distinct := by
  intro s
  have hs : s.Renameable := renameable_run hp config dispatch es
  have hpath : s.path = s.clauses.filterMap Clause.path? :=
    PathAgrees.run (t := new p config dispatch) rfl es
  refine ⟨s.renamed suffix, Summary.rename_eq_renamed hs, rfl, rfl, ?_, ?_, ?_, rfl, rfl, ?_, ?_⟩
  · rw [Summary.renamed, List.map_map]
    exact List.map_congr_left fun c hc => Clause.shape_renamed (hs.clauses c hc)
  · rw [Summary.renamed, List.map_map]
    exact List.map_congr_left fun c hc => PathClause.shape_renamed (hs.path c hc)
  · rw [Summary.renamed, hpath, List.map_filterMap, List.filterMap_map]
    exact List.filterMap_congr fun c _ => (Clause.path?_renamed c).symm
  · exact hs.concrete.mapKeys_renamed fun x hx => (hs.keys x (.inl hx)).2
  · exact hs.origins.mapKeys_renamed fun x hx => (hs.keys x (.inr hx)).2

open Sample in
/-- A method creates the lambda that adds one to its argument. Before the renaming and after it the
summary has one clause and two records. -/
theorem rename_summary_creator :
    let p := Program.ofBodies [creator]
    let s := ((new p .standard .virtual).run [enter "creator", create]).summary
    p.LambdasBuilt ∧ s.clauses.length = 1 ∧ s.concrete.keys.map Term.name = ["arg$0", "%f_0"] ∧
      ∃ s', s.rename "x" ∅ = .ok s' ∧
        s'.clauses.map Clause.shape = s.clauses.map Clause.shape ∧
        s'.concrete.keys.map Term.name = ["arg$0", "%f_0x"] := by
  intro p s
  have hp : p.LambdasBuilt := lambdasBuilt_creator
  have hrun : s.clauses.length = 1 ∧ s.concrete.keys.map Term.name = ["arg$0", "%f_0"] ∧
      (s.concrete.keys.map (Term.renamed "x" ∅)).map Term.name = ["arg$0", "%f_0x"] := by
    decide +kernel
  obtain ⟨hclauses, hkeys, hrenamed⟩ := hrun
  obtain ⟨s', hs', -, -, hshape, -, -, hconcrete, -⟩ :=
    rename_summary hp .standard .virtual [enter "creator", create] "x"
  refine ⟨hp, hclauses, hkeys, s', hs', hshape, ?_⟩
  rw [← hrenamed]
  simp only [Table.keys, hconcrete, List.map_map]
  rfl

end Tracer

end Concolic
