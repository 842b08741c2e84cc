import Concolic.Predicate.Basic
import Concolic.Proofs.Term.Rename
import Concolic.Proofs.Ty

/-!
# What equality sees of a method

A call is named after its owner, its arguments and the name of its method; the value that a method
returned is named after the class and the name of the method. Both have the return type of the
method. Equality compares names, types and subterms, and so this is all that it sees of a method: it
does not see the argument types, and in a call it does not see the class.

* `Compared x y same`: wherever terms are compared, the two count as one term just if `same` is
  true. Predicates, tables and traversals all go by equality (`compared`).
* `call_beq_iff`, `returnValue_beq_iff`: when the terms of two methods are equal.
-/

namespace Concolic

namespace Sample

/-- A method of one argument. -/
def scale (owner : String) (argument ret : Ty) : Method :=
  .new owner "scale" { args := [argument], ret } 0

end Sample

namespace Term

variable {x y owner : Term} {m m' : Method} {arguments : List Term}

/-! ## Where terms are compared -/

/-- In each place where terms are compared, the two count as one term just if `same` is true:
operands of predicates, keys of tables, and children of a term that a traversal looks at to see
whether one of them changed. -/
structure Compared (x y : Term) (same : Bool) : Prop where
  beq : (x == y) = same
  operand (p : Predicate) (front back : List Term) :
    ({ p with operands := front ++ x :: back } == { p with operands := front ++ y :: back }) = same
  key {β : Type} (t : Table Term β) (v : β) :
    (t.insert x v).get? y = if same then some v else t.get? y
  child {σ : Type} (r : Traversal σ) (kind : Kind) (ty : Ty) (front back : List Term) (s s' : σ) :
    let parent : Term := ⟨kind, ty, front ++ x :: back⟩
    r.enter parent = none → r.terms parent.subterms s = .ok (front ++ y :: back, s') →
    r.term parent s = if same then r.finish parent s'
      else (do r.finish (← liftM (parent.rebuild (front ++ y :: back)))) s'

theorem beq_replace (front back : List Term) (x y : Term) :
    (front ++ x :: back == front ++ y :: back) = (x == y) := by
  induction front with
  | nil => simp
  | cons t front ih => simpa using ih

theorem compared (x y : Term) : Compared x y (x == y) where
  beq := rfl
  operand p front back := by
    rw [Predicate.beq_def, Predicate.same]
    simp [beq_replace]
  key t v := Table.get?_insert t x y v
  child r kind ty front back s s' := by
    intro parent henter hterms
    rw [Traversal.term, henter]
    dsimp only
    rw [walk_bind_of_ok hterms, beq_replace, BEq.comm]
    cases hsame : x == y with
    | true => rfl
    | false => rfl

theorem compared_of_iff {p : Prop} [Decidable p] (h : (x == y) = true ↔ p) :
    Compared x y (decide p) := by
  have hsame : (x == y) = decide p := by
    rw [Bool.eq_iff_iff, decide_eq_true_iff]
    exact h
  exact hsame ▸ compared x y

/-! ## Terms of methods -/

theorem call_beq_iff (ty ty' : Ty) :
    ((⟨.call m, ty, owner :: arguments⟩ : Term) == ⟨.call m', ty', owner :: arguments⟩) = true ↔
      m.name = m'.name ∧ ty = ty' := by
  rw [beq_def, same, sameAll_refl]
  simp only [Kind.name, Kind.render, beq_self_eq_true, Bool.true_and, Bool.and_true,
    Bool.and_eq_true, beq_iff_eq, String.append_left_inj, String.append_right_inj]

theorem returnValue_beq_iff : (returnValue m == returnValue m') = true ↔
    m.owner ++ "." ++ m.name = m'.owner ++ "." ++ m'.name ∧
      m.signature.ret = m'.signature.ret := by
  rw [beq_def, returnValue, returnValue, leaf, leaf, same, sameAll_refl]
  simp only [Kind.name, Kind.render, beq_self_eq_true, Bool.true_and, Bool.and_true,
    Bool.and_eq_true, beq_iff_eq, String.append_assoc, String.append_right_inj]

/-- The class of a method ends at the first dot of a returned value's name. -/
theorem owner_name_inj (howner : '.' ∉ m.owner.toList) (howner' : '.' ∉ m'.owner.toList) :
    m.owner ++ "." ++ m.name = m'.owner ++ "." ++ m'.name ↔
      m.owner = m'.owner ∧ m.name = m'.name := by
  constructor
  · intro h
    have hlist : m.owner.toList ++ '.' :: m.name.toList =
        m'.owner.toList ++ '.' :: m'.name.toList := by
      simpa using congrArg String.toList h
    obtain ⟨ho, hn⟩ := append_mark_inj howner howner' hlist
    exact ⟨String.toList_inj.mp ho, String.toList_inj.mp hn⟩
  · rintro ⟨ho, hn⟩
    rw [ho, hn]

/-- Wherever terms are compared, two calls with the same owner and arguments count as one term just
if their methods have the same name and return type, whatever the classes and argument types of the
methods are. The values that two methods returned count as one term just if the methods have the
same class, name and return type, whatever the argument types are; this is so because the class, if
it is written with slashes, can be read off the name of the term. -/
theorem method_terms_compared (m m' : Method) :
    (∀ owner arguments c c', call owner m arguments = .ok c → call owner m' arguments = .ok c' →
      Compared c c' (decide (m.name = m'.name ∧ m.signature.ret = m'.signature.ret))) ∧
    Compared (returnValue m) (returnValue m')
      (decide (m.owner ++ "." ++ m.name = m'.owner ++ "." ++ m'.name ∧
        m.signature.ret = m'.signature.ret)) ∧
    ('.' ∉ m.owner.toList → '.' ∉ m'.owner.toList →
      Compared (returnValue m) (returnValue m')
        (decide (m.owner = m'.owner ∧ m.name = m'.name ∧ m.signature.ret = m'.signature.ret))) := by
  refine ⟨fun owner arguments c c' hc hc' => ?_, ?_, fun howner howner' => ?_⟩
  · obtain ⟨-, -, rfl⟩ := call_ok_iff.mp hc
    obtain ⟨-, -, rfl⟩ := call_ok_iff.mp hc'
    exact compared_of_iff (call_beq_iff _ _)
  · exact compared_of_iff returnValue_beq_iff
  · refine compared_of_iff (returnValue_beq_iff.trans ?_)
    rw [owner_name_inj howner howner', and_assoc]

/-- Two methods that differ in their return type are told apart, in calls and in returned values. -/
theorem method_terms_compared_wide :
    let circle := value (.object "app/Circle") "c"
    let m := Sample.scale "app/Shape" .int .int
    let m' := Sample.scale "app/Shape" .int .long
    (call circle m [int 2] = .ok ⟨.call m, .int, [circle, int 2]⟩ ∧
      call circle m' [int 2] = .ok ⟨.call m', .long, [circle, int 2]⟩ ∧
      '.' ∉ m.owner.toList ∧ '.' ∉ m'.owner.toList) ∧
    Compared ⟨.call m, .int, [circle, int 2]⟩ ⟨.call m', .long, [circle, int 2]⟩ false ∧
    Compared (returnValue m) (returnValue m') false := by
  intro circle m m'
  have howner : '.' ∉ m.owner.toList := dot_notMem_slashed _
  have howner' : '.' ∉ m'.owner.toList := dot_notMem_slashed _
  obtain ⟨hcalls, -, hreturned⟩ := method_terms_compared m m'
  exact ⟨⟨rfl, rfl, howner, howner'⟩, hcalls circle [int 2] _ _ rfl rfl, hreturned howner howner'⟩

/-- Calls of a method and of the one that overrides it are equal, and so are calls of two methods
that take different arguments and the values that they returned. -/
theorem method_terms_same :
    let circle := value (.object "app/Circle") "c"
    let m := Sample.scale "app/Shape" (.object "java/lang/Object") .int
    let overriding := Sample.scale "app/Circle" (.object "java/lang/Object") .int
    let overloaded := Sample.scale "app/Shape" (.object "java/lang/String") .int
    (m.owner ≠ overriding.owner ∧ ∃ c c', call circle m [null] = .ok c ∧
      call circle overriding [null] = .ok c' ∧ (c == c') = true) ∧
    m.signature ≠ overloaded.signature ∧
    (∃ c c', call circle m [null] = .ok c ∧ call circle overloaded [null] = .ok c' ∧
      (c == c') = true) ∧
    (returnValue m == returnValue overloaded) = true := by
  refine ⟨⟨by decide +kernel, _, _, rfl, rfl, ?_⟩, by decide, ⟨_, _, rfl, rfl, ?_⟩, ?_⟩
  · exact (call_beq_iff _ _).mpr ⟨rfl, rfl⟩
  · exact (call_beq_iff _ _).mpr ⟨rfl, rfl⟩
  · exact returnValue_beq_iff.mpr ⟨rfl, rfl⟩

end Term

end Concolic
