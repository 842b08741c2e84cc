import Concolic.Proofs.Term.Position
import Concolic.Proofs.Tracer.Evaluation
import Concolic.Proofs.Tracer.Formed

/-!
# Lambdas do not capture

A lambda has the body of a method, with a named value for each argument of the method. The named
values that stand in the body already are renamed apart.

The parameter in place `i` of a method `f` is called `lambda_f_i`, and a value `n` of the body
becomes `n.lambda.f`. The second name has at least two dots more than `f`, and the first has no dot
but those of `f`. So the two never meet, whatever the method and the value are called
(`suffixed_ne_parameterName`).

* `Term.Abstracts`: a term is the body of a method over parameters that nothing else is mixed up
  with.
* `Tracer.NodeAbstracted`: what becomes of one node of the body.
* `abstracts_parameters`: hence the body of a lambda abstracts the body of its method.
* `lambda_not_capturing`: so it is in every lambda that an event states something about.
-/

namespace Concolic

namespace Sample

/-- A variable that is called like a parameter of the lambda of a method `f`. -/
def shadow : Term := .value .int "lambda_f_0"

/-- The variable is the second argument. -/
def matching : Term := ⟨.compare .eq, .bool, [shadow, .argument .int 1]⟩

def matcher : Term := ⟨.lambda, .object "java/util/function/IntPredicate", [shadow, matching]⟩

/-- Some number below the first argument is the second one. -/
def member : Term := ⟨.forSome, .bool, [.int 0, .argument .int 0, matcher]⟩

theorem built_member : member.Built := by
  have hshadow : shadow.Built := .value _ _
  have hmatching : matching.Built := .composite
    (List.forall_mem_cons.mpr ⟨hshadow, List.forall_mem_singleton.mpr (.argument .int 1)⟩)
    (.compare rfl)
  have hmatcher : matcher.Built := .composite
    (List.forall_mem_cons.mpr ⟨hshadow, List.forall_mem_singleton.mpr hmatching⟩)
    (.lambda (show Term.lambda _ [shadow] matching = .ok matcher from rfl))
  have hbounds : (Term.argument .int 0).Built ∧ ∀ s ∈ [matcher], s.Built :=
    ⟨.argument .int 0, List.forall_mem_singleton.mpr hmatcher⟩
  exact .composite
    (List.forall_mem_cons.mpr ⟨.constant (.int 0), List.forall_mem_cons.mpr hbounds⟩) (.forSome rfl)

def membership : LambdaBase :=
  ⟨Method.new "app/Main" "f" ⟨[.int, .int], .bool⟩ Method.staticFlag, some member⟩

/-- Creates the lambda of the method `f`. -/
def binder : Body.Builder :=
  ((Body.Builder.new (method "binder") none).addBlock "entry").addAll
    [(0, "%f", .invokeDynamic membership, some (.object "java/util/function/BiPredicate"))]

theorem built_binder : binder.Built := .addAll (.addBlock _ (.new _ _)) _

theorem kind_binder {i : Instruction} (h : (Program.ofBodies [binder]).Contains i) :
    i.kind = .invokeDynamic membership := by
  obtain ⟨m, b, hb, hi⟩ := h
  have hentry := Table.mem_entries_of_get? (Program.body_eq_ok hb)
  obtain rfl : b = binder.body := congrArg Prod.snd (List.mem_singleton.mp hentry)
  rw [List.mem_singleton.mp hi]

end Sample

namespace Term

/-- The term `inner` is `body` with parameters for the arguments, which are of the types `args`. -/
structure Abstracts (args : List Ty) (body : Term) (parameters : List Term) (inner : Term) :
    Prop where
  types : parameters.map ty = args
  distinct : parameters.Pairwise fun y z => (y == z) = false
  /-- An argument is replaced by the parameter in its place. -/
  argument : ∀ p s k, body.at? p = some s → s.kind = .argument k →
    ∃ y, parameters[k]? = some y ∧ inner.at? p = some y
  /-- A named value does not become a parameter. -/
  value : ∀ p s n, body.at? p = some s → s.kind = .value n →
    ∃ s', inner.at? p = some s' ∧ ∀ y ∈ parameters, (s' == y) = false
  noArgument : ∀ p s k, inner.at? p = some s → s.kind ≠ .argument k
  /-- The nodes stay where they are, of their type and, unless they are named, of their kind. -/
  shape : ∀ p, Option.Rel (fun s s' => s'.ty = s.ty ∧
    s'.subterms.length = s.subterms.length ∧ (s.kind.isNamed = false → s'.kind = s.kind))
    (body.at? p) (inner.at? p)

/-- An argument is in a place and of the type of the list. -/
def isArgumentOf (args : List Ty) (s : Term) : Bool :=
  match s.kind with
  | .argument k => args[k]? == some s.ty
  | _ => true

theorem ty_of_isArgumentOf {args : List Ty} {s : Term} {k : Nat} (h : s.isArgumentOf args = true)
    (hk : s.kind = .argument k) : args[k]? = some s.ty := by
  unfold isArgumentOf at h
  rw [hk] at h
  exact eq_of_beq h

theorem value_beq_of_ne (ty ty' : Ty) {n n' : String} (h : n ≠ n') :
    (value ty n == value ty' n') = false := by
  rw [← Bool.not_eq_true]
  intro hbeq
  cases eq_value_of_beq hbeq
  exact h rfl

end Term

theorem Kind.eq_of_isNamed {k : Kind} (h : k.isNamed = true) :
    (∃ n, k = .value n) ∨ ∃ i, k = .argument i := by
  unfold isNamed at h
  split at h
  · next n => exact .inl ⟨n, rfl⟩
  · next i => exact .inr ⟨i, rfl⟩
  · cases h

private theorem pairwise_mapIdx {α β : Type} {f : Nat → α → β} {R : β → β → Prop} (as : List α)
    (h : ∀ i j a b, i ≠ j → R (f i a) (f j b)) : (as.mapIdx f).Pairwise R := by
  rw [List.pairwise_iff_getElem]
  intro i j hi hj hij
  rw [List.getElem_mapIdx, List.getElem_mapIdx]
  exact h i j _ _ (Nat.ne_of_lt hij)

namespace Tracer

variable {t u : Tracer} {m : Method} {s body : Term} {i : Instruction}

/-! ## Names -/

/-- The name of the parameter in a place of the lambda of a method. -/
def parameterName (m : Method) (k : Nat) : String := "lambda_" ++ m.name ++ "_" ++ toString k

/-- What is put behind the named values in the body of a method. -/
def lambdaSuffix (m : Method) : String := ".lambda." ++ m.name

theorem parameterName_inj {j k : Nat} (h : parameterName m j = parameterName m k) : j = k := by
  have hdigits := congrArg String.toList ((String.append_right_inj _).mp h)
  rw [Nat.toString_eq_repr, Nat.toString_eq_repr, Nat.toList_repr, Nat.toList_repr] at hdigits
  exact toDigits_inj hdigits

private theorem dot_notMem_toString (k : Nat) : '.' ∉ (toString k).toList := by
  rw [Nat.toString_eq_repr, Nat.toList_repr]
  intro hdot
  have hdigit := Nat.isDigit_of_mem_toDigits (by decide) (by decide) hdot
  cases hdigit

/-- The names differ in the number of their dots. -/
theorem suffixed_ne_parameterName (m : Method) (n : String) (k : Nat) :
    n ++ lambdaSuffix m ≠ parameterName m k := by
  intro h
  have hcount := congrArg (fun name => name.toList.count '.') h
  have hnumber : (toString k).toList.count '.' = 0 := List.count_eq_zero.mpr (dot_notMem_toString k)
  have hsuffix : ".lambda.".toList.count '.' = 2 := by decide
  have hstart : "lambda_".toList.count '.' = 0 := by decide
  have hlow : "_".toList.count '.' = 0 := by decide
  simp only [lambdaSuffix, parameterName, String.toList_append, List.count_append] at hcount
  omega

/-! ## The arguments of a method and the parameters of its lambda -/

/-- Each argument of the method with the parameter for it. -/
def parameterTable (m : Method) : Table Term Term :=
  ⟨m.signature.args.mapIdx fun k ty => (.argument ty k, .value ty (parameterName m k))⟩

theorem distinct_parameterTable (m : Method) : (parameterTable m).Distinct :=
  pairwise_mapIdx _ fun _ _ ty ty' hne => Term.argument_beq_of_ne ty ty' hne

theorem ofList_parameters (m : Method) :
    .ofList ((m.signature.args.mapIdx fun k ty => Term.argument ty k).zip
      (Action.lambdaParameters m)) = parameterTable m := by
  have hzip : (m.signature.args.mapIdx fun k ty => Term.argument ty k).zip
      (Action.lambdaParameters m) = (parameterTable m).entries := by
    refine List.ext_getElem (by simp [Action.lambdaParameters, parameterTable]) fun k hk hk' => ?_
    simp [Action.lambdaParameters, parameterTable, parameterName]
  rw [hzip, Table.ofList_eq (distinct_parameterTable m)]

private theorem get?_parameterTable {k : Nat} {ty : Ty} (h : m.signature.args[k]? = some ty) :
    (parameterTable m).get? (.argument ty k) = some (.value ty (parameterName m k)) := by
  obtain ⟨hk, rfl⟩ := List.getElem?_eq_some_iff.mp h
  exact (distinct_parameterTable m).get?_eq_some_iff.mpr
    ⟨_, List.mem_mapIdx.mpr ⟨k, hk, rfl⟩, BEq.rfl, rfl⟩

/-- Only arguments are replaced. -/
private theorem get?_parameterTable_of_ne (h : ∀ k, s.kind ≠ .argument k) :
    (parameterTable m).get? s = none := by
  refine Table.get?_eq_none fun x hx => ?_
  obtain ⟨e, he, rfl⟩ := List.mem_map.mp hx
  obtain ⟨k, hk, rfl⟩ := List.mem_mapIdx.mp he
  rw [← Bool.not_eq_true]
  intro hbeq
  have hs := Term.eq_argument_of_beq (BEq.symm hbeq)
  exact h k (by rw [hs]; rfl)

/-! ## Nodes of the body -/

/-- The node of the lambda that a node of the body of the method becomes. -/
inductive NodeAbstracted (m : Method) : Term → Term → Prop
  | argument {k : Nat} {ty : Ty} (h : m.signature.args[k]? = some ty) :
      NodeAbstracted m (.argument ty k) (.value ty (parameterName m k))
  | value (ty : Ty) (n : String) :
      NodeAbstracted m (.value ty n) (.value ty (n ++ lambdaSuffix m))
  | kept {s s' : Term} (hty : s'.ty = s.ty) (harity : s'.subterms.length = s.subterms.length)
      (hkind : s'.kind = s.kind) (hnamed : s.kind.isNamed = false) : NodeAbstracted m s s'

theorem NodeAbstracted.shape {s' : Term} (h : NodeAbstracted m s s') :
    s'.ty = s.ty ∧ s'.subterms.length = s.subterms.length ∧
      (s.kind.isNamed = false → s'.kind = s.kind) := by
  cases h with
  | argument | value => exact ⟨rfl, rfl, nofun⟩
  | kept hty harity hkind => exact ⟨hty, harity, fun _ => hkind⟩

theorem NodeAbstracted.kind_ne {s' : Term} (h : NodeAbstracted m s s') (k : Nat) :
    s'.kind ≠ .argument k := by
  cases h with
  | argument | value => nofun
  | kept hty harity hkind hnamed =>
    rw [hkind]
    intro hk
    rw [hk] at hnamed
    cases hnamed

theorem mapsVariables_parameterTable (m : Method) : Term.MapsVariables (parameterTable m) :=
  ofList_parameters m ▸ mapsVariables_parameters m

theorem nodeAbstracted (hs : s.Built) (harg : s.isArgumentOf m.signature.args = true) :
    NodeAbstracted m s (s.renamed (lambdaSuffix m) (parameterTable m)) := by
  have hnode : Term.NodeRenamed (lambdaSuffix m) (parameterTable m) s
      (s.renamed (lambdaSuffix m) (parameterTable m)) :=
    Term.nodeRenamed (mapsVariables_parameterTable m) hs
  cases hnamed : s.kind.isNamed with
  | true =>
    rcases Kind.eq_of_isNamed hnamed with ⟨n, hn⟩ | ⟨k, hk⟩
    · obtain ⟨ty, rfl⟩ := hs.exists_leaf hn rfl
      rw [hnode.named n rfl (get?_parameterTable_of_ne nofun)]
      exact .value ty n
    · obtain ⟨ty, rfl⟩ := hs.exists_leaf hk rfl
      have hty := Term.ty_of_isArgumentOf harg rfl
      rw [hnode.mapped _ (get?_parameterTable hty)]
      exact .argument hty
  | false =>
    have hvalue (n : String) : s.kind ≠ .value n := fun hn => by rw [hn] at hnamed; cases hnamed
    have hother (k : Nat) : s.kind ≠ .argument k := fun hk => by rw [hk] at hnamed; cases hnamed
    exact .kept hnode.ty hnode.arity (hnode.kept hvalue (get?_parameterTable_of_ne hother)) hnamed

/-! ## The body of a lambda -/

theorem abstracts_parameters (hbody : body.Built)
    (hargs : body.all (Term.isArgumentOf m.signature.args) = true) :
    Term.Abstracts m.signature.args body (Action.lambdaParameters m)
      (body.renamed (lambdaSuffix m) (parameterTable m)) := by
  have hat (p : List Nat) : (body.renamed (lambdaSuffix m) (parameterTable m)).at? p =
      (body.at? p).map (Term.renamed (lambdaSuffix m) (parameterTable m)) :=
    Term.at?_renamed (mapsVariables_parameterTable m) hbody p
  have hnode {p : List Nat} {s : Term} (hs : body.at? p = some s) :
      NodeAbstracted m s (s.renamed (lambdaSuffix m) (parameterTable m)) :=
    nodeAbstracted (hbody.at? hs) (Term.of_all hargs hs)
  constructor
  case types =>
    refine List.ext_getElem (by simp [Action.lambdaParameters]) fun k hk hk' => ?_
    simp [Action.lambdaParameters, Term.value, Term.leaf]
  case distinct =>
    exact pairwise_mapIdx _ fun j k ty ty' hne =>
      Term.value_beq_of_ne ty ty' fun h => hne (parameterName_inj h)
  case argument =>
    intro p s k hs hk
    refine ⟨_, ?_, by rw [hat, hs]; rfl⟩
    have h := hnode hs
    generalize s.renamed (lambdaSuffix m) (parameterTable m) = s' at h
    cases h with
    | argument hty =>
      cases hk
      rw [Action.lambdaParameters, List.getElem?_mapIdx, hty]
      rfl
    | value => cases hk
    | kept _ _ _ hnamed => rw [hk] at hnamed; cases hnamed
  case value =>
    intro p s n hs hn
    refine ⟨_, by rw [hat, hs]; rfl, fun y hy => ?_⟩
    obtain ⟨k, hk, rfl⟩ := List.mem_mapIdx.mp hy
    have h := hnode hs
    generalize s.renamed (lambdaSuffix m) (parameterTable m) = s' at h
    cases h with
    | argument => cases hn
    | value ty n' => exact Term.value_beq_of_ne _ _ (suffixed_ne_parameterName m n' k)
    | kept _ _ _ hnamed => rw [hn] at hnamed; cases hnamed
  case noArgument =>
    intro p s' k hs'
    rw [hat] at hs'
    obtain ⟨s, hs, rfl⟩ := Option.map_eq_some_iff.mp hs'
    exact (hnode hs).kind_ne k
  case shape =>
    intro p
    rw [hat]
    cases hs : body.at? p with
    | none => exact .none
    | some s => exact .some (hnode hs).shape

theorem lambdaOf_eq (ty : Ty) (m : Method) (hbody : body.Built) :
    Action.lambdaOf ty m body = .ok ⟨.lambda, ty,
      Action.lambdaParameters m ++ [body.renamed (lambdaSuffix m) (parameterTable m)]⟩ := by
  refine Term.andThen_ok_iff.mpr ⟨body.renamed (lambdaSuffix m) (parameterTable m), ?_, ?_⟩
  · rw [ofList_parameters]
    exact Term.rename_built (mapsVariables_parameterTable m) hbody
  · refine Term.lambda_ok_iff.mpr ⟨fun y hy => ?_, rfl⟩
    obtain ⟨k, hk, rfl⟩ := List.mem_mapIdx.mp hy
    rfl

/-! ## Events that create lambdas -/

/-- An event that adds a clause succeeds. -/
theorem deliver_ok_of_clauses_ne {e : Event} (hs : t.program.Sound)
    (h : (t.deliver e).2.summary.clauses ≠ t.summary.clauses) : (t.deliver e).1 = .ok () := by
  cases hr : (t.deliver e).1 with
  | ok => rfl
  | error failure => exact absurd ((deliver_error hs hr).clauses.trans (List.append_nil _)) h

/-- An event that succeeds is acted on, or it leaves the summary as it is. -/
private theorem start_ok {name : String} {act : Action Unit}
    (h : Action.start name act t = .ok () u) :
    u.summary = t.summary ∨ act t.resumed = .ok () u := by
  rcases Action.start_cases name act t with ⟨cause, hr⟩ | ⟨w, hw, ⟨hcalls, hr⟩ | ⟨hcalls, hr⟩⟩
  · rw [hr] at h
    cases h
  · rw [hr] at h
    cases h
    rw [summary_flushed]
    cases hw <;> exact .inl rfl
  · rw [hr, hw.flushed_eq_resumed hcalls] at h
    exact .inr h

theorem Action.Learns.ok {α : Type} {act : Action α} {a : α} (hact : act.Learns)
    (h : act t = .ok a u) : t.Learned u := Action.after_of_ok h ▸ hact t

private theorem emit_ok {p : Predicate} (h : Action.emit i p t = .ok () u) :
    u.clauses = t.clauses ++ [.state i p] ∧ u.pending = t.pending := by
  obtain ⟨fs, hfs⟩ := Action.trace_after i { t with clauses := t.clauses ++ [.state i p] }
  have hu : (Action.trace i).after { t with clauses := t.clauses ++ [.state i p] } = u :=
    Action.after_of_ok h
  rw [← hu, hfs]
  exact ⟨rfl, rfl⟩

/-- An event that creates a lambda adds at most the equality of its result and the lambda. -/
theorem invokeDynamic_ok {result : Operand} {operands : List String} {observed : List Observed}
    (h : Action.invokeDynamic result operands observed t = .ok () u) :
    u.summary.clauses = t.summary.clauses ∨
      ∃ i base body x y, t.instruction? result.name = some i ∧ i.kind = .invokeDynamic base ∧
        base.body = some body ∧ Action.lambdaOf x.ty base.method body = .ok y ∧
        u.summary.clauses = t.summary.clauses ++ [.state i (i.effect.equality x y)] := by
  rcases start_ok h with hsame | hact
  · exact .inl (congrArg Summary.clauses hsame)
  obtain ⟨⟨i, base⟩, s₁, hselect, h₁⟩ := Action.bind_ok hact
  obtain ⟨rfl, -⟩ := Action.select_ok hselect
  obtain ⟨hi, hbase⟩ := Action.instruction?_of_select hselect
  obtain ⟨r, s₂, hresult, h₂⟩ := Action.bind_ok h₁
  obtain rfl := (Action.Reads.resultOf i).ok hresult
  obtain ⟨values, s₃, hvalues, h₃⟩ := Action.bind_ok h₂
  obtain rfl := (Action.Reads.values operands).ok hvalues
  obtain ⟨x, s₄, hdefine, h₄⟩ := Action.bind_ok h₃
  obtain ⟨_, s₅, huse, h₅⟩ := Action.bind_ok h₄
  have hlearned : t.resumed.Learned s₅ := by
    have hdefined := (Action.Learns.define _).ok hdefine
    refine hdefined.trans (Action.Learns.ok (.forM (fun o => ?_) _) huse)
    exact (Action.Learns.use ⟨o.1, o.2⟩).bind fun _ => .pure _
  have hbefore : t.resumed.clauses = t.summary.clauses := by
    rw [← summary_flushed t, summary_clauses_of_none rfl]
    rfl
  cases hbody : base.body with
  | none =>
    rw [hbody] at h₅
    cases h₅
    refine .inl ?_
    rw [summary_clauses_of_none hlearned.pending, hlearned.clauses, hbefore]
  | some body =>
    rw [hbody] at h₅
    obtain ⟨y, s₆, hlift, hemit⟩ := Action.bind_ok h₅
    obtain ⟨hy, rfl⟩ := Action.lift_ok hlift
    obtain ⟨hclauses, hpending⟩ := emit_ok hemit
    refine .inr ⟨i, base, body, x, y, hi, Action.kind_of_invokeDynamic hbase, hbody, hy, ?_⟩
    rw [summary_clauses_of_none (hpending.trans hlearned.pending), hclauses, hlearned.clauses,
      hbefore]

/-- Creating a lambda does not capture. In every run, if an event adds a clause for a lambda whose
body was built and has no argument that the method does not have, then the clause says that the
result equals the lambda with the body of the method, in which each argument is the parameter in its
place and no named value has become a parameter. -/
theorem lambda_not_capturing {p : Program} (hp : p.Built) (config : Config) (dispatch : Dispatch)
    (es : List Event) (result : Operand) (operands : List String) (observed : List Observed)
    {i : Instruction} {base : LambdaBase} {body : Term} (hbody : body.Built)
    (hargs : body.all (Term.isArgumentOf base.method.signature.args) = true) :
    let t := (new p config dispatch).run es
    let u := (t.deliver (.invokeDynamic result operands observed)).2
    t.instruction? result.name = some i → i.kind = .invokeDynamic base → base.body = some body →
    u.summary.clauses ≠ t.summary.clauses →
    ∃ x parameters inner, u.summary.clauses = t.summary.clauses ++
        [.state i (i.effect.equality x ⟨.lambda, x.ty, parameters ++ [inner]⟩)] ∧
      inner.Built ∧ Term.Abstracts base.method.signature.args body parameters inner := by
  intro t u hi hkind hbase hclauses
  have hs : t.program.Sound := run_program (new p config dispatch) es ▸ hp.sound
  obtain ⟨-, hhandle⟩ := handle_of_deliver_ok (deliver_ok_of_clauses_ne hs hclauses)
  rcases invokeDynamic_ok hhandle with hsame | ⟨i', base', body', x, y, hi', hkind', hbase', hy, hu⟩
  · exact absurd hsame hclauses
  · obtain rfl : i = i' := Option.some.inj (hi.symm.trans hi')
    cases hkind.symm.trans hkind'
    cases hbase.symm.trans hbase'
    rw [lambdaOf_eq x.ty base.method hbody] at hy
    cases hy
    exact ⟨x, _, _, hu, Term.renamed_built (mapsVariables_parameterTable base.method) hbody,
      abstracts_parameters hbody hargs⟩

open Sample in
/-- The body of the method binds a variable that is called like a parameter of its lambda. -/
theorem lambda_not_capturing_member :
    let t := (new (Program.ofBodies [binder]) .standard .virtual).run [enter "binder"]
    let u := (t.deliver create).2
    (member.Built ∧ member.all (Term.isArgumentOf [.int, .int]) = true ∧
        u.summary.clauses ≠ t.summary.clauses) ∧
      u.summary.clauses.map Clause.text =
        ["@S %f_0 = (lambda_f_0, lambda_f_1) -> \x7b exists(0, lambda_f_0, " ++
          "(lambda_f_0.lambda.f) -> \x7b (lambda_f_0.lambda.f == lambda_f_1) \x7d) \x7d"] ∧
      ∃ i x parameters inner, t.instruction? "%f" = some i ∧
        u.summary.clauses = t.summary.clauses ++
          [.state i (i.effect.equality x ⟨.lambda, x.ty, parameters ++ [inner]⟩)] ∧
        Term.Abstracts [.int, .int] member parameters inner := by
  intro t u
  have hp : (Program.ofBodies [binder]).Built :=
    Program.built_ofBodies fun b hb => List.mem_singleton.mp hb ▸ built_binder
  have hrun : (t.instruction? "%f").isSome = true ∧ t.summary.clauses.length = 0 ∧
      u.summary.clauses.map Clause.text =
        ["@S %f_0 = (lambda_f_0, lambda_f_1) -> \x7b exists(0, lambda_f_0, " ++
          "(lambda_f_0.lambda.f) -> \x7b (lambda_f_0.lambda.f == lambda_f_1) \x7d) \x7d"] := by
    decide +kernel
  obtain ⟨hsome, hlength, htext⟩ := hrun
  have hclauses : u.summary.clauses ≠ t.summary.clauses := by
    intro heq
    have hone := congrArg List.length htext
    rw [heq, List.length_map, hlength] at hone
    cases hone
  have hargs : member.all (Term.isArgumentOf [.int, .int]) = true := by decide +kernel
  obtain ⟨i, hi⟩ := Option.isSome_iff_exists.mp hsome
  have hprogram : t.program = Program.ofBodies [binder] := run_program _ _
  have hkind : i.kind = .invokeDynamic membership :=
    kind_binder (hprogram ▸ Action.contains_of_instruction? hi)
  obtain ⟨x, parameters, inner, hu, -, habstracts⟩ := lambda_not_capturing hp .standard .virtual
    [enter "binder"] ⟨"%f", .object 2 "app/Main$$Lambda" []⟩ [] [] built_member hargs hi hkind rfl
    hclauses
  exact ⟨⟨built_member, hargs, hclauses⟩, htext, i, x, parameters, inner, hi, hu, habstracts⟩

end Tracer

end Concolic
