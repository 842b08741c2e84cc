import Concolic.Proofs.Tracer.Decision
import Concolic.Proofs.Tracer.Recorded
import Concolic.Record
import Mathlib.Data.List.Nodup

/-!
# Records of summaries

A record names instructions by the keys of their methods and lists the tables of a summary in the
order of the names of their terms.

* `byName_sorted`, `named_byName`: entries are listed in the order of their names, and those of one
  name as they were. These two facts determine the list (`byName_eq_iff`).
* `InstructionRef.resolve_of`: in a program that was built, the reference to an instruction leads
  back to it.
* `restore_record`: the record of every run can be restored, to the same clauses and the same finite
  maps.
* `record_eq_iff`: when summaries that are equal have the same record. The order in which terms of
  one name are listed is that of the tables, so they need not (`record_ne_reversed`).
-/

namespace Concolic

/-! ## The order of entries -/

namespace Record

variable {β : Type} {es es' : List (Term × β)}

/-- The entries are in the order of the names of their terms. -/
def Sorted (es : List (Term × β)) : Prop := es.Pairwise fun d e => d.1.name ≤ e.1.name

/-- The entries of the terms with a name. -/
def named (es : List (Term × β)) (name : String) : List (Term × β) :=
  es.filter fun e => e.1.name == name

theorem byName_perm (es : List (Term × β)) : (byName es).Perm es := List.mergeSort_perm _ _

/-- The test by which entries are sorted. -/
theorem inOrder_iff (d e : Term × β) :
    (!(decide (e.1.name < d.1.name))) = true ↔ d.1.name ≤ e.1.name := by
  rw [Bool.not_eq_true', decide_eq_false_iff_not, String.not_lt]

theorem inOrder_trans (a b c : Term × β) (h : (!decide (b.1.name < a.1.name)) = true)
    (h' : (!decide (c.1.name < b.1.name)) = true) : (!decide (c.1.name < a.1.name)) = true := by
  rw [inOrder_iff] at h h' ⊢
  exact String.le_trans h h'

theorem inOrder_total (a b : Term × β) :
    (!decide (b.1.name < a.1.name) || !decide (a.1.name < b.1.name)) = true := by
  rw [Bool.or_eq_true, inOrder_iff, inOrder_iff]
  exact String.le_total _ _

theorem byName_sorted (es : List (Term × β)) : Sorted (byName es) :=
  (List.pairwise_mergeSort inOrder_trans inOrder_total es).imp fun h => (inOrder_iff _ _).mp h

/-- Entries of one name stay as they were. -/
theorem named_byName (es : List (Term × β)) (name : String) :
    named (byName es) name = named es name := by
  have hsorted : (named es name).Pairwise fun d e => (!decide (e.1.name < d.1.name)) = true := by
    refine List.pairwise_of_forall_mem_list fun d hd e he => ?_
    have hd := eq_of_beq (List.mem_filter.mp hd).2
    have he := eq_of_beq (List.mem_filter.mp he).2
    exact (inOrder_iff d e).mpr (hd ▸ he ▸ String.le_refl e.1.name)
  have hsublist : (named es name).Sublist (byName es) :=
    List.sublist_mergeSort inOrder_trans inOrder_total hsorted List.filter_sublist
  have hnamed := hsublist.filter fun e => e.1.name == name
  rw [named, List.filter_filter] at hnamed
  simp only [Bool.and_self] at hnamed
  exact (hnamed.eq_of_length ((byName_perm es).filter _).length_eq.symm).symm

private theorem mem_named {e : Term × β} (he : e ∈ es) : e ∈ named es e.1.name :=
  List.mem_filter.mpr ⟨he, BEq.rfl⟩

theorem Sorted.head_le {d e : Term × β} (h : Sorted (d :: es)) (he : e ∈ d :: es) :
    d.1.name ≤ e.1.name := by
  rcases List.mem_cons.mp he with rfl | he
  · exact String.le_refl _
  · exact (List.pairwise_cons.mp h).1 e he

private theorem mem_of_named (hnamed : ∀ n, named es n = named es' n) {e : Term × β} (he : e ∈ es) :
    e ∈ es' :=
  (List.mem_filter.mp (hnamed e.1.name ▸ mem_named he)).1

/-- Entries in order are determined by those of each name. -/
theorem Sorted.eq_of_named (h : Sorted es) (h' : Sorted es')
    (hnamed : ∀ n, named es n = named es' n) : es = es' := by
  have hnamed' : ∀ n, named es' n = named es n := fun n => (hnamed n).symm
  induction es generalizing es' with
  | nil =>
    refine (List.eq_nil_iff_forall_not_mem.mpr fun e he => ?_).symm
    exact List.not_mem_nil (mem_of_named hnamed' he)
  | cons d es ih =>
    cases es' with
    | nil => exact absurd (mem_of_named hnamed List.mem_cons_self) List.not_mem_nil
    | cons d' es' =>
      have hname : d.1.name = d'.1.name :=
        String.le_antisymm (h.head_le (mem_of_named hnamed' List.mem_cons_self))
          (h'.head_le (mem_of_named hnamed List.mem_cons_self))
      have hfirst := hnamed d.1.name
      simp only [named, List.filter_cons, hname, BEq.rfl, if_true] at hfirst
      obtain rfl := (List.cons.inj hfirst).1
      have hrest (n : String) : named es n = named es' n := by
        have hn := hnamed n
        simp only [named, List.filter_cons] at hn
        split at hn
        · exact (List.cons.inj hn).2
        · exact hn
      rw [ih (List.pairwise_cons.mp h).2 (List.pairwise_cons.mp h').2 hrest fun n => (hrest n).symm]

/-- Lists of entries are put in the same order if and only if they have the same entries of each
name, in the same order. -/
theorem byName_eq_iff : byName es = byName es' ↔ ∀ n, named es n = named es' n := by
  refine ⟨fun h n => ?_, fun h => (byName_sorted es).eq_of_named (byName_sorted es') fun n => ?_⟩
  · rw [← named_byName es, ← named_byName es', h]
  · rw [named_byName, named_byName, h]

/-- If no two terms have the same name, the order of the entries does not matter. -/
private theorem byName_eq_of_nodup (hperm : es.Perm es')
    (hnodup : (es.map fun e => e.1.name).Nodup) : byName es = byName es' := by
  refine List.Perm.eq_of_pairwise (fun d e hd he hle hge => ?_) (byName_sorted es)
    (byName_sorted es') (((byName_perm es).trans hperm).trans (byName_perm es').symm)
  have hd := (byName_perm es).mem_iff.mp hd
  have he := hperm.mem_iff.mpr ((byName_perm es').mem_iff.mp he)
  exact List.inj_on_of_nodup_map hnodup hd he (String.le_antisymm hle hge)

end Record

/-! ## Restoring -/

/-- The reference to an instruction leads back to it. -/
theorem InstructionRef.resolve_of {p : Program} (hp : p.Built) {i : Instruction}
    (hi : p.Contains i) : (InstructionRef.of i).resolve p = .ok i := by
  obtain ⟨b, hb, hname⟩ := hp.knows hi
  obtain ⟨m, hm⟩ := hp.registered (Program.body_eq_ok hb)
  have hbody : p.body m = .ok b := (Program.body_of_key (hp.key_of_method? hm)).trans hb
  unfold resolve InstructionRef.of
  dsimp only
  rw [hm]
  dsimp only
  rw [hbody]
  show b.instruction i.name = .ok i
  unfold Body.instruction Body.orUnknown
  rw [hname]

/-- The summaries have the same clauses and the same path, and their tables are the same finite
maps. -/
structure Summary.Agrees (s t : Summary) : Prop where
  clauses : s.clauses = t.clauses
  path : s.path = t.path
  concrete : s.concrete.Agrees t.concrete
  origins : s.origins.Agrees t.origins

namespace Record

variable {p : Program} {s : Summary}

private theorem mapM_ok {α γ : Type} {f : γ → Result α} {g : α → γ} {xs : List α}
    (h : ∀ x ∈ xs, f (g x) = .ok x) : (xs.map g).mapM f = .ok xs := by
  induction xs with
  | nil => rfl
  | cons x xs ih =>
    rw [List.map_cons, List.mapM_cons, h x List.mem_cons_self,
      ih fun y hy => h y (List.mem_cons_of_mem x hy)]
    rfl

theorem restore_of {c : Clause}
    (h : (InstructionRef.of c.instruction).resolve p = .ok c.instruction) :
    (ClauseRecord.of c).restore p = .ok c := by
  cases c with
  | state i q =>
    unfold ClauseRecord.restore ClauseRecord.of
    dsimp only
    rw [show (InstructionRef.of i).resolve p = .ok i from h]
    rfl
  | path d =>
    unfold ClauseRecord.restore ClauseRecord.of ClauseRecord.ofPath
    dsimp only
    rw [show (InstructionRef.of d.instruction).resolve p = .ok d.instruction from h]
    rfl

theorem restorePath_ofPath {c : PathClause}
    (h : (InstructionRef.of c.instruction).resolve p = .ok c.instruction) :
    (ClauseRecord.ofPath c).restorePath p = .ok c := by
  unfold ClauseRecord.restorePath ClauseRecord.ofPath
  dsimp only
  rw [h]
  rfl

/-- Origins are restored if their methods are those that the program has under their keys. -/
private theorem restoreOrigin_map {es : List (Term × Origin)}
    (h : ∀ e ∈ es, (p.method? e.2.method.key).getD e.2.method = e.2.method) :
    (es.map fun (term, o) => ({ term, method := o.method, value := o.value } : OriginRecord)).map
      (restoreOrigin p) = es := by
  rw [List.map_map]
  refine (List.map_congr_left fun e he => ?_).trans (List.map_id es)
  show (e.1, (⟨(p.method? e.2.method.key).getD e.2.method, e.2.value⟩ : Origin)) = e
  rw [h e he]

/-- A record is restored with its clauses and its entries, in their order. -/
theorem restore_ofSummary
    (hclauses : ∀ c ∈ s.clauses, (InstructionRef.of c.instruction).resolve p = .ok c.instruction)
    (hpath : ∀ c ∈ s.path, (InstructionRef.of c.instruction).resolve p = .ok c.instruction)
    (hmethods : ∀ e ∈ s.origins.entries,
      (p.method? e.2.method.key).getD e.2.method = e.2.method)
    (hconcrete : s.concrete.Distinct) (horigins : s.origins.Distinct) :
    (ofSummary s).restore p = .ok { s with
      concrete := ⟨byName s.concrete.entries⟩
      origins := ⟨byName s.origins.entries⟩ } := by
  have hdistinct := hconcrete.perm (u := ⟨byName s.concrete.entries⟩) (byName_perm _).symm
  have hdistinct' := horigins.perm (u := ⟨byName s.origins.entries⟩) (byName_perm _).symm
  have hlist : ∀ e ∈ byName s.origins.entries,
      (p.method? e.2.method.key).getD e.2.method = e.2.method :=
    fun e he => hmethods e ((byName_perm _).mem_iff.mp he)
  unfold restore ofSummary
  dsimp only
  rw [mapM_ok fun c hc => restore_of (hclauses c hc),
    mapM_ok fun c hc => restorePath_ofPath (hpath c hc), restoreOrigin_map hlist,
    Table.ofList_eq hdistinct, Table.ofList_eq hdistinct']
  rfl

end Record

/-- In a program that was built, the record of every run is restored: to the same clauses and path,
in order, and to the same finite maps. -/
theorem restore_record {p : Program} (hp : p.Built) (config : Config) (dispatch : Dispatch)
    (es : List Event) :
    let s := ((Tracer.new p config dispatch).run es).summary
    ∃ s', (Record.ofSummary s).restore p = .ok s' ∧ s'.Agrees s := by
  intro s
  have hprogram : ((Tracer.new p config dispatch).run es).program = p := Tracer.run_program _ es
  have hrecorded := Tracer.recorded_run p config dispatch es
  have hresolve : ∀ c ∈ s.clauses, (InstructionRef.of c.instruction).resolve p =
      .ok c.instruction := fun c hc => by
    have hcontains := (Tracer.supports_run p config dispatch es c hc).contains
    rw [hprogram] at hcontains
    exact InstructionRef.resolve_of hp hcontains
  have hpath : ∀ c ∈ s.path, (InstructionRef.of c.instruction).resolve p = .ok c.instruction :=
    fun c hc => hresolve (.path c)
      ((Tracer.PathAgrees.run (t := Tracer.new p config dispatch) rfl es).mem_clauses hc)
  have hmethods : ∀ e ∈ s.origins.entries,
      (p.method? e.2.method.key).getD e.2.method = e.2.method := fun e he => by
    have hfinds := hrecorded.origin e he
    rw [hprogram] at hfinds
    exact hp.method?_of_finds hfinds
  refine ⟨_, Record.restore_ofSummary hresolve hpath hmethods hrecorded.concrete hrecorded.origins,
    rfl, rfl, ?_, ?_⟩
  · exact (hrecorded.concrete.perm (Record.byName_perm _).symm).agrees (Record.byName_perm _)
  · exact (hrecorded.origins.perm (Record.byName_perm _).symm).agrees (Record.byName_perm _)

namespace Sample

/-- A method with two parameters that no program here has. -/
def enterPair : Event :=
  .methodEnter ⟨"app/Other", "pair", ["I", "J"], "V"⟩ none [.int 7, .long 8]

end Sample

open Sample in
/-- A method is entered that is not registered, then one that branches, and then one that calls. The
record has the branch, the pending call and origins of all three methods. -/
theorem restore_record_flag :
    let p := Program.ofBodies [flag, grown]
    let s := ((Tracer.new p .standard .virtual).run
      [enterPair, enterFlag true, branch, leave, enter "grown", size]).summary
    p.Built ∧ s.clauses.length = 2 ∧ s.path.length = 1 ∧
      (s.origins.entries.any fun e => (p.method? e.2.method.key).isNone) = true ∧
      ∃ s', (Record.ofSummary s).restore p = .ok s' ∧ s'.Agrees s := by
  intro p s
  have hp : p.Built := by
    refine Program.built_ofBodies fun b hb => ?_
    rcases List.mem_cons.mp hb with rfl | hb
    · exact .addAll (.addBlock _ (.new _ _)) _
    · exact List.mem_singleton.mp hb ▸ built_grown
  have hrun : s.clauses.length = 2 ∧ s.path.length = 1 ∧
      (s.origins.entries.any fun e => (p.method? e.2.method.key).isNone) = true := by
    decide +kernel
  obtain ⟨hclauses, hpath, horigins⟩ := hrun
  exact ⟨hp, hclauses, hpath, horigins, restore_record hp .standard .virtual _⟩

/-! ## Equal summaries -/

namespace Record

/-- The origin of a term can be read off its record. -/
theorem originRecord_injective : Function.Injective fun e : Term × Origin =>
    ({ term := e.1, method := e.2.method, value := e.2.value } : OriginRecord) := by
  rintro ⟨x, m, v⟩ ⟨x', m', v'⟩ h
  cases h
  rfl

/-- Of summaries with the same clauses and path, the records are identical if and only if their
tables are listed in the same order. -/
theorem ofSummary_eq_iff {s t : Summary} (hclauses : s.clauses = t.clauses)
    (hpath : s.path = t.path) :
    ofSummary s = ofSummary t ↔ byName s.concrete.entries = byName t.concrete.entries ∧
      byName s.origins.entries = byName t.origins.entries := by
  refine ⟨fun h => ⟨congrArg Record.concrete h, ?_⟩, fun ⟨hconcrete, horigins⟩ => ?_⟩
  · exact originRecord_injective.list_map (congrArg Record.origins h)
  · unfold ofSummary
    rw [hclauses, hpath, hconcrete, horigins]

end Record

/-- Equal summaries have records with the same clauses, the same path and the same entries. The
records are identical if and only if for each name the tables have the entries of this name in the
same order, so in particular if no two terms of a table have the same name. -/
theorem record_eq_iff {s t : Summary} (h : s.Agrees t) :
    let r := Record.ofSummary s
    let r' := Record.ofSummary t
    (r.clauses = r'.clauses ∧ r.path = r'.path ∧ r.concrete.Perm r'.concrete ∧
        r.origins.Perm r'.origins) ∧
      (r = r' ↔ ∀ n, Record.named s.concrete.entries n = Record.named t.concrete.entries n ∧
        Record.named s.origins.entries n = Record.named t.origins.entries n) ∧
      ((s.concrete.keys.map Term.name).Nodup → (s.origins.keys.map Term.name).Nodup → r = r') := by
  intro r r'
  have hperm {β : Type} {es es' : List (Term × β)} (hes : es.Perm es') :
      (Record.byName es).Perm (Record.byName es') :=
    ((Record.byName_perm es).trans hes).trans (Record.byName_perm es').symm
  refine ⟨⟨?_, ?_, hperm h.concrete.entries, (hperm h.origins.entries).map _⟩, ?_, fun hc ho => ?_⟩
  · exact congrArg (List.map _) h.clauses
  · exact congrArg (List.map _) h.path
  · rw [Record.ofSummary_eq_iff h.clauses h.path, Record.byName_eq_iff, Record.byName_eq_iff,
      forall_and]
  · rw [Table.keys, List.map_map] at hc ho
    exact (Record.ofSummary_eq_iff h.clauses h.path).mpr
      ⟨Record.byName_eq_of_nodup h.concrete.entries hc,
        Record.byName_eq_of_nodup h.origins.entries ho⟩

/-- The summary with the entries of its tables in the opposite order. -/
def Summary.reversed (s : Summary) : Summary :=
  { s with concrete := ⟨s.concrete.entries.reverse⟩, origins := ⟨s.origins.entries.reverse⟩ }

/-- The order of its tables does not matter to the summary of a run. -/
theorem agrees_reversed (p : Program) (config : Config) (dispatch : Dispatch) (es : List Event) :
    let s := ((Tracer.new p config dispatch).run es).summary
    s.Agrees s.reversed := by
  intro s
  have hrecorded := Tracer.recorded_run p config dispatch es
  exact ⟨rfl, rfl, hrecorded.concrete.agrees (List.reverse_perm _).symm,
    hrecorded.origins.agrees (List.reverse_perm _).symm⟩

open Sample in
/-- The parameters of a method have different names, so the order of the tables does not show. -/
theorem record_eq_iff_pair :
    let s := ((Tracer.new .empty .standard .virtual).run [enterPair]).summary
    s.Agrees s.reversed ∧ s.concrete.keys.map Term.name = ["arg$0", "arg$1"] ∧
      s.reversed.concrete.keys.map Term.name = ["arg$1", "arg$0"] ∧
      Record.ofSummary s = Record.ofSummary s.reversed := by
  intro s
  have hagrees := agrees_reversed .empty .standard .virtual [enterPair]
  have hnames : s.concrete.keys.map Term.name = ["arg$0", "arg$1"] ∧
      s.origins.keys.map Term.name = ["arg$0", "arg$1"] ∧
      s.reversed.concrete.keys.map Term.name = ["arg$1", "arg$0"] := by decide +kernel
  obtain ⟨hconcrete, horigins, hreversed⟩ := hnames
  have hsame := (record_eq_iff hagrees).2.2 (hconcrete ▸ by decide) (horigins ▸ by decide)
  exact ⟨hagrees, hconcrete, hreversed, hsame⟩

namespace Sample

/-- Takes an argument of a type and returns. -/
def taking (name : String) (ty : Ty) : Body.Builder :=
  ((Body.Builder.new (Method.new "app/Main" name ⟨[ty], .void⟩ Method.staticFlag) none).addBlock
    "entry").addAll [(0, "ret", .ret, none)]

def numbers : Program := Program.ofBodies [taking "narrow" .int, taking "wide" .long]

/-- Two methods are executed, one after the other. -/
def takeBoth : List Event :=
  [.methodEnter ⟨"app/Main", "narrow", ["I"], "V"⟩ none [.int 7], leave,
    .methodEnter ⟨"app/Main", "wide", ["J"], "V"⟩ none [.long 8], leave]

end Sample

open Sample in
/-- The first arguments of two methods have different types and one name. So the order of the tables
shows in the record. -/
theorem record_ne_reversed :
    let s := ((Tracer.new numbers .standard .virtual).run takeBoth).summary
    s.Agrees s.reversed ∧ (s == s.reversed) = true ∧
      Record.ofSummary s ≠ Record.ofSummary s.reversed := by
  intro s
  refine ⟨agrees_reversed numbers .standard .virtual takeBoth, by decide +kernel, fun h => ?_⟩
  have hnamed := Record.byName_eq_iff.mp (congrArg Record.concrete h) "arg$0"
  have htypes : (Record.named s.concrete.entries "arg$0").map (·.1.ty) ≠
      (Record.named s.reversed.concrete.entries "arg$0").map (·.1.ty) := by decide +kernel
  exact htypes (congrArg (List.map (·.1.ty)) hnamed)

end Concolic
