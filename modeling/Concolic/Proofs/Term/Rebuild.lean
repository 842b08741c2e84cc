import Concolic.Proofs.Term.Built

/-!
# Rebuilding terms

Rebuilding takes the arguments of the constructor of a term from the term: the result type and what
the kind carries from the node, the operands from the children. A term that was built gives these
back as they went in.

* `unaryOver_ok`, `binaryOver_ok`, `ternaryOver_ok`: a constructor that is applied to as many
  children as it takes is applied to all of them.
* `Composes.of_construct`: what the constructor of the kind makes of other children has the same
  kind, and these children.
* `rebuild_built`: rebuilding a term from its own subterms gives the term, and from others a term of
  its kind.
-/

namespace Concolic

namespace Sample

/-- The reference to an element of the first argument. -/
def element : Term :=
  ⟨.arrayIndex, .reference .int, [.argument (.array .int) 0, .value .int "i"]⟩

/-- The function that looks up an element of the first argument. -/
def lookup : Term :=
  ⟨.lambda, .object "java/util/function/IntUnaryOperator",
    [.value .int "i", ⟨.arrayLoad, .int, [element]⟩]⟩

theorem built_lookup : lookup.Built := by
  have helement : element.Built := .composite
    (List.forall_mem_cons.mpr ⟨.argument (.array .int) 0, List.forall_mem_singleton.mpr
      (.value .int "i")⟩) (.arrayIndex rfl)
  have hload : Term.Built ⟨.arrayLoad, .int, [element]⟩ :=
    .composite (List.forall_mem_singleton.mpr helement) (.arrayLoad rfl)
  exact .composite
    (List.forall_mem_cons.mpr ⟨.value .int "i", List.forall_mem_singleton.mpr hload⟩)
    (.lambda (show Term.lambda _ [.value .int "i"] _ = .ok lookup from rfl))

end Sample

namespace Term

variable {t u : Term} {cs : List Term}

theorem unaryOver_ok {build : Term → Result Term} (hlength : cs.length = 1)
    (h : unaryOver build cs = .ok u) : ∃ a, cs = [a] ∧ build a = .ok u := by
  obtain ⟨a, rfl⟩ := List.length_eq_one_iff.mp hlength
  exact ⟨a, rfl, h⟩

theorem binaryOver_ok {build : Term → Term → Result Term} (hlength : cs.length = 2)
    (h : binaryOver build cs = .ok u) : ∃ a b, cs = [a, b] ∧ build a b = .ok u := by
  obtain ⟨a, b, rfl⟩ := List.length_eq_two.mp hlength
  exact ⟨a, b, rfl, h⟩

theorem ternaryOver_ok {build : Term → Term → Term → Result Term} (hlength : cs.length = 3)
    (h : ternaryOver build cs = .ok u) : ∃ a b c, cs = [a, b, c] ∧ build a b c = .ok u := by
  obtain ⟨a, b, c, rfl⟩ := List.length_eq_three.mp hlength
  exact ⟨a, b, c, rfl, h⟩

/-- The constructor of the kind of a composite term makes a term of that kind, of all children. -/
theorem Composes.of_construct {subs : List Term} (ht : Composes subs t)
    (hlength : cs.length = subs.length) (h : t.construct cs = .ok u) :
    u.kind = t.kind ∧ Composes cs u := by
  cases ht with
  | arrayIndex ht =>
    obtain ⟨_, -, -, rfl⟩ := arrayIndex_ok_iff.mp ht
    obtain ⟨a, b, rfl, h⟩ := binaryOver_ok hlength h
    obtain ⟨_, -, -, rfl⟩ := arrayIndex_ok_iff.mp h
    exact ⟨rfl, .arrayIndex h⟩
  | arrayLoad ht =>
    obtain ⟨-, hload⟩ := arrayLoad_ok_iff.mp ht
    obtain ⟨_, -, rfl⟩ := loadReferenced_ok_iff.mp hload
    obtain ⟨a, rfl, h⟩ := unaryOver_ok hlength h
    obtain ⟨-, hload⟩ := arrayLoad_ok_iff.mp h
    obtain ⟨_, -, rfl⟩ := loadReferenced_ok_iff.mp hload
    exact ⟨rfl, .arrayLoad h⟩
  | arrayLength ht =>
    obtain ⟨-, rfl⟩ := arrayLength_ok_iff.mp ht
    obtain ⟨a, rfl, h⟩ := unaryOver_ok hlength h
    obtain ⟨-, rfl⟩ := arrayLength_ok_iff.mp h
    exact ⟨rfl, .arrayLength h⟩
  | arrayContains ht =>
    obtain ⟨-, -, rfl⟩ := arrayContains_ok_iff.mp ht
    obtain ⟨a, b, rfl, h⟩ := binaryOver_ok hlength h
    obtain ⟨-, -, rfl⟩ := arrayContains_ok_iff.mp h
    exact ⟨rfl, .arrayContains h⟩
  | field ht =>
    obtain ⟨-, rfl⟩ := field_ok_iff.mp ht
    obtain ⟨a, rfl, h⟩ := unaryOver_ok hlength h
    obtain ⟨-, rfl⟩ := field_ok_iff.mp h
    exact ⟨rfl, .field h⟩
  | fieldLoad ht =>
    obtain ⟨-, hload⟩ := fieldLoad_ok_iff.mp ht
    obtain ⟨_, -, rfl⟩ := loadReferenced_ok_iff.mp hload
    obtain ⟨a, rfl, h⟩ := unaryOver_ok hlength h
    obtain ⟨-, hload⟩ := fieldLoad_ok_iff.mp h
    obtain ⟨_, -, rfl⟩ := loadReferenced_ok_iff.mp hload
    exact ⟨rfl, .fieldLoad h⟩
  | binary ht =>
    obtain ⟨-, -, -, rfl⟩ := binaryTyped_ok_iff.mp ht
    obtain ⟨a, b, rfl, h⟩ := binaryOver_ok hlength h
    obtain ⟨-, -, -, rfl⟩ := binaryTyped_ok_iff.mp h
    exact ⟨rfl, .binary h⟩
  | neg ht =>
    obtain ⟨-, rfl⟩ := neg_ok_iff.mp ht
    obtain ⟨a, rfl, h⟩ := unaryOver_ok hlength h
    obtain ⟨-, rfl⟩ := neg_ok_iff.mp h
    exact ⟨rfl, .neg h⟩
  | compare ht =>
    obtain ⟨-, -, rfl⟩ := compare_ok_iff.mp ht
    obtain ⟨a, b, rfl, h⟩ := binaryOver_ok hlength h
    obtain ⟨-, -, rfl⟩ := compare_ok_iff.mp h
    exact ⟨rfl, .compare h⟩
  | equals ht =>
    obtain ⟨-, -, rfl⟩ := equals_ok_iff.mp ht
    obtain ⟨a, b, rfl, h⟩ := binaryOver_ok hlength h
    obtain ⟨-, -, rfl⟩ := equals_ok_iff.mp h
    exact ⟨rfl, .equals h⟩
  | cast ht =>
    obtain ⟨-, -, rfl⟩ := cast_ok_iff.mp ht
    obtain ⟨a, rfl, h⟩ := unaryOver_ok hlength h
    obtain ⟨-, -, rfl⟩ := cast_ok_iff.mp h
    exact ⟨rfl, .cast h⟩
  | instanceOf ht =>
    obtain ⟨-, rfl⟩ := instanceOf_ok_iff.mp ht
    obtain ⟨a, rfl, h⟩ := unaryOver_ok hlength h
    obtain ⟨-, rfl⟩ := instanceOf_ok_iff.mp h
    exact ⟨rfl, .instanceOf h⟩
  | classAccess ht =>
    obtain ⟨-, rfl⟩ := classAccess_ok_iff.mp ht
    obtain ⟨a, rfl, h⟩ := unaryOver_ok hlength h
    obtain ⟨-, rfl⟩ := classAccess_ok_iff.mp h
    exact ⟨rfl, .classAccess h⟩
  | bound ht =>
    obtain ⟨-, rfl⟩ := bound_ok_iff.mp ht
    obtain ⟨a, rfl, h⟩ := unaryOver_ok hlength h
    obtain ⟨-, rfl⟩ := bound_ok_iff.mp h
    exact ⟨rfl, .bound h⟩
  | call ht =>
    obtain ⟨-, -, rfl⟩ := call_ok_iff.mp ht
    obtain ⟨owner, arguments, rfl⟩ := List.exists_cons_of_length_eq_add_one hlength
    have h : Term.call owner _ arguments = .ok u := h
    obtain ⟨-, -, rfl⟩ := call_ok_iff.mp h
    exact ⟨rfl, .call h⟩
  | concat ht =>
    obtain ⟨-, -, rfl⟩ := concat_ok_iff.mp ht
    obtain ⟨a, b, rfl, h⟩ := binaryOver_ok hlength h
    obtain ⟨-, -, rfl⟩ := concat_ok_iff.mp h
    exact ⟨rfl, .concat h⟩
  | substring ht =>
    obtain ⟨-, -, -, rfl⟩ := substring_ok_iff.mp ht
    obtain ⟨a, b, c, rfl, h⟩ := ternaryOver_ok hlength h
    obtain ⟨-, -, -, rfl⟩ := substring_ok_iff.mp h
    exact ⟨rfl, .substring h⟩
  | indexOf ht =>
    obtain ⟨-, -, -, rfl⟩ := indexOf_ok_iff.mp ht
    obtain ⟨a, b, c, rfl, h⟩ := ternaryOver_ok hlength h
    obtain ⟨-, -, -, rfl⟩ := indexOf_ok_iff.mp h
    exact ⟨rfl, .indexOf h⟩
  | charAt ht =>
    obtain ⟨-, -, rfl⟩ := charAt_ok_iff.mp ht
    obtain ⟨a, b, rfl, h⟩ := binaryOver_ok hlength h
    obtain ⟨-, -, rfl⟩ := charAt_ok_iff.mp h
    exact ⟨rfl, .charAt h⟩
  | stringLength ht =>
    obtain ⟨-, rfl⟩ := stringLength_ok_iff.mp ht
    obtain ⟨a, rfl, h⟩ := unaryOver_ok hlength h
    obtain ⟨-, rfl⟩ := stringLength_ok_iff.mp h
    exact ⟨rfl, .stringLength h⟩
  | stringContains ht =>
    obtain ⟨-, -, rfl⟩ := stringTest_ok_iff.mp ht
    obtain ⟨a, b, rfl, h⟩ := binaryOver_ok hlength h
    obtain ⟨-, -, rfl⟩ := stringTest_ok_iff.mp h
    exact ⟨rfl, .stringContains h⟩
  | startsWith ht =>
    obtain ⟨-, -, rfl⟩ := stringTest_ok_iff.mp ht
    obtain ⟨a, b, rfl, h⟩ := binaryOver_ok hlength h
    obtain ⟨-, -, rfl⟩ := stringTest_ok_iff.mp h
    exact ⟨rfl, .startsWith h⟩
  | endsWith ht =>
    obtain ⟨-, -, rfl⟩ := stringTest_ok_iff.mp ht
    obtain ⟨a, b, rfl, h⟩ := binaryOver_ok hlength h
    obtain ⟨-, -, rfl⟩ := stringTest_ok_iff.mp h
    exact ⟨rfl, .endsWith h⟩
  | stringParse ht =>
    obtain ⟨-, -, rfl⟩ := stringParse_ok_iff.mp ht
    obtain ⟨a, rfl, h⟩ := unaryOver_ok hlength h
    obtain ⟨-, -, rfl⟩ := stringParse_ok_iff.mp h
    exact ⟨rfl, .stringParse h⟩
  | toText ht =>
    obtain ⟨-, rfl⟩ := toText_ok_iff.mp ht
    obtain ⟨a, rfl, h⟩ := unaryOver_ok hlength h
    obtain ⟨-, rfl⟩ := toText_ok_iff.mp h
    exact ⟨rfl, .toText h⟩
  | forAll ht =>
    obtain ⟨-, -, -, rfl⟩ := quantifier_ok_iff.mp ht
    obtain ⟨a, b, c, rfl, h⟩ := ternaryOver_ok hlength h
    obtain ⟨-, -, -, rfl⟩ := quantifier_ok_iff.mp h
    exact ⟨rfl, .forAll h⟩
  | forSome ht =>
    obtain ⟨-, -, -, rfl⟩ := quantifier_ok_iff.mp ht
    obtain ⟨a, b, c, rfl, h⟩ := ternaryOver_ok hlength h
    obtain ⟨-, -, -, rfl⟩ := quantifier_ok_iff.mp h
    exact ⟨rfl, .forSome h⟩
  | ite ht =>
    obtain ⟨-, rfl⟩ := ite_ok_iff.mp ht
    obtain ⟨a, b, c, rfl, h⟩ := ternaryOver_ok hlength h
    obtain ⟨-, rfl⟩ := ite_ok_iff.mp h
    exact ⟨rfl, .ite h⟩
  | lambda ht =>
    obtain ⟨-, rfl⟩ := lambda_ok_iff.mp ht
    obtain ⟨parameters, body, rfl⟩ := (List.eq_nil_or_concat' cs).resolve_left <| by
      rintro rfl
      simp at hlength
    rw [Term.construct] at h
    simp only [List.getLast?_append, List.getLast?_singleton, Option.some_or,
      List.dropLast_concat] at h
    obtain ⟨-, rfl⟩ := lambda_ok_iff.mp h
    exact ⟨rfl, .lambda h⟩

theorem construct_of_leaf (h : t.kind.isLeaf = true) (cs : List Term) :
    t.construct cs = .ok t := by
  unfold construct
  cases hk : t.kind with
  | argument | value | receiver | returnValue | null | constBool | constByte | constChar
  | constShort | constInt | constLong | constFloat | constDouble | constString | constClass
  | staticRef | undef => rfl
  | _ => rw [hk] at h; cases h

/-- A term that was built is a leaf or what a constructor makes of its subterms. -/
theorem Built.leaf_or_composes (h : t.Built) : t.kind.isLeaf = true ∨ Composes t.subterms t := by
  cases h with
  | composite _ h => exact .inr (h.construct.2.1 ▸ h)
  | constant c => cases c <;> exact .inl rfl
  | _ => exact .inl rfl

/-- Every term that was built is what rebuilding makes of its subterms. What rebuilding makes of
other children, if it succeeds on a composite term, has the kind of the term and all that this
carries, and exactly these children. It is again what the constructor of the kind makes of them, so
it was built if they were. -/
theorem rebuild_built (ht : t.Built) :
    t.rebuild t.subterms = .ok t ∧
      ∀ cs u, t.kind.isLeaf = false → t.rebuild cs = .ok u →
        u.kind = t.kind ∧ u.subterms = cs ∧ Composes cs u ∧ ((∀ c ∈ cs, c.Built) → u.Built) := by
  have hself : t.rebuild t.subterms = t.construct t.subterms := if_pos rfl
  rcases ht.leaf_or_composes with hleaf | hc
  · refine ⟨hself.trans (construct_of_leaf hleaf _), fun cs u hcomposite => ?_⟩
    rw [hleaf] at hcomposite
    cases hcomposite
  · refine ⟨hself.trans (hc.construct.2.2 t rfl rfl), fun cs u _ h => ?_⟩
    rw [rebuild] at h
    split at h
    · next hlength =>
      obtain ⟨hkind, hu⟩ := hc.of_construct hlength h
      exact ⟨hkind, hu.construct.2.1, hu, fun hcs => .composite hcs hu⟩
    · cases h

open Sample in
/-- The function that looks up an element, and the same function with another parameter and body. -/
theorem rebuild_built_lookup :
    let cs : List Term := [.value .int "k", .null]
    lookup.Built ∧ lookup.rebuild lookup.subterms = .ok lookup ∧
      ∃ u, lookup.rebuild cs = .ok u ∧ lookup.kind.isLeaf = false ∧ u.kind = .lambda ∧
        u.subterms = cs ∧ Composes cs u ∧ u.name = "(k) -> \x7b null \x7d" := by
  intro cs
  obtain ⟨hself, hother⟩ := rebuild_built built_lookup
  have hcs : lookup.rebuild cs = .ok ⟨.lambda, lookup.ty, cs⟩ := rfl
  obtain ⟨hkind, hsubterms, hc, -⟩ := hother cs _ rfl hcs
  exact ⟨built_lookup, hself, _, hcs, rfl, hkind, hsubterms, hc, by decide⟩

end Term

end Concolic
