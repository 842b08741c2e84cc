import Concolic.Term.Rebuild
import Mathlib.Data.List.Forall2

/-!
# Terms that the constructors make

The checked constructors look at the types of their operands, now and then at a kind, and once at
the body of a lambda. This file says when each of them succeeds and what it makes.

* `X_ok_iff`: the constructor `X` succeeds exactly on operands like these, with this outcome.
* `Term.Composes subs t`: some constructor makes `t` of the terms `subs`. Rebuilding applies the
  constructor of the kind, and it makes the same term of them (`Composes.construct`).
* `Term.Built t`: the term is made by constructors, down to its leaves.
* `Term.Fits t u`: every constructor that accepts `t` as an operand accepts `u` in its place
  (`Composes.replace`).
-/

namespace Concolic.Term

/-! ## When the constructors succeed -/

theorem andThen_ok_iff {α β : Type} {x : Result α} {f : α → Result β} {b : β} :
    (x >>= f) = .ok b ↔ ∃ a, x = .ok a ∧ f a = .ok b := by
  cases x with
  | ok a => exact ⟨fun h => ⟨a, rfl, h⟩, fun ⟨_, ha, h⟩ => by cases ha; exact h⟩
  | error e => exact ⟨nofun, nofun⟩

theorem expect_ok_iff {ok : Bool} {expected : Expectation} {role : String} {t : Term} {u : Unit} :
    expect ok expected role t = .ok u ↔ ok = true := by
  unfold expect
  split <;> simp_all [typeFault]

theorem expectValue_ok_iff {role : String} {t : Term} {u : Unit} :
    expectValue role t = .ok u ↔ Hierarchy.isNonValue t.ty = false := by
  unfold expectValue
  split <;> simp_all [typeFault]

theorem expectPrimitive_ok_iff {op : BinaryOp} {t : Term} {u : Unit} :
    expectPrimitive op t = .ok u ↔ t.ty.isPrimitive = true := by
  unfold expectPrimitive
  split <;> simp_all [typeFault]

/-- The term counts as text. -/
def isText (t : Term) : Bool := t.ty.isString || t.isNull

theorem expectString_ok_iff {role : String} {t : Term} {u : Unit} :
    expectString role t = .ok u ↔ t.isText = true := expect_ok_iff

section Constructors

variable {t x y z : Term} {ty : Ty}

theorem arrayIndex_ok_iff : arrayIndex x y = .ok t ↔
    ∃ element, x.ty.element? = some element ∧ y.ty.isIntegral = true ∧
      ⟨.arrayIndex, .reference element, [x, y]⟩ = t := by
  unfold arrayIndex
  cases x.ty.element? with
  | none => simp [typeFault]
  | some element => simp [andThen_ok_iff, expectIntegral, expect_ok_iff]

theorem loadReferenced_ok_iff {kind : Kind} : loadReferenced kind x = .ok t ↔
    ∃ ty, x.ty.referenced? = some ty ∧ ⟨kind, ty, [x]⟩ = t := by
  unfold loadReferenced
  cases x.ty.referenced? <;> simp [typeFault]

theorem arrayLoad_ok_iff : arrayLoad x = .ok t ↔
    x.kind = .arrayIndex ∧ loadReferenced .arrayLoad x = .ok t := by
  unfold arrayLoad
  split <;> simp_all [typeFault]

theorem fieldLoad_ok_iff : fieldLoad x = .ok t ↔
    (∃ name, x.kind = .field name) ∧ loadReferenced .fieldLoad x = .ok t := by
  unfold fieldLoad
  split <;> simp_all [typeFault]

theorem arrayLength_ok_iff : arrayLength x = .ok t ↔
    x.ty.element?.isSome ∧ ⟨.arrayLength, .int, [x]⟩ = t := by
  unfold arrayLength
  cases x.ty.element? <;> simp [typeFault]

theorem arrayContains_ok_iff : arrayContains x y = .ok t ↔
    x.ty.element?.isSome ∧ Hierarchy.isNonValue y.ty = false ∧
      ⟨.arrayContains, .bool, [x, y]⟩ = t := by
  unfold arrayContains
  cases x.ty.element? <;> simp [typeFault, andThen_ok_iff, expectValue_ok_iff]

theorem field_ok_iff {name : String} : field x ty name = .ok t ↔
    x.ty.isPointer = true ∧ ⟨.field name, .reference ty, [x]⟩ = t := by
  simp [field, andThen_ok_iff, expectPointer, expect_ok_iff]

theorem binaryTyped_ok_iff {op : BinaryOp} : binaryTyped ty op x y = .ok t ↔
    x.ty.isPrimitive = true ∧ y.ty.isPrimitive = true ∧ ty.isPrimitive = true ∧
      ⟨.binary op, ty, [x, y]⟩ = t := by
  unfold binaryTyped
  cases ty.isPrimitive <;> simp [typeFault, andThen_ok_iff, expectPrimitive_ok_iff]

theorem neg_ok_iff : neg x = .ok t ↔ x.ty.isNumeric = true ∧ ⟨.neg, x.ty, [x]⟩ = t := by
  unfold neg
  split <;> simp_all [typeFault]

theorem compare_ok_iff {op : CompareOp} : compare op x y = .ok t ↔
    ((x.ty.isPrimitive && y.ty.isPrimitive) = true ∨
      (x.ty.isPointer && y.ty.isPointer) = true) ∧
      ((x.ty.isPointer && y.ty.isPointer) = true → op.isEquality = true) ∧
      ⟨.compare op, if op.isThreeWay then .int else .bool, [x, y]⟩ = t := by
  unfold compare
  generalize (x.ty.isPrimitive && y.ty.isPrimitive) = primitive
  generalize (x.ty.isPointer && y.ty.isPointer) = pointer
  cases primitive <;> cases pointer <;> cases op.isEquality <;> simp [typeFault]

theorem equals_ok_iff : equals x y = .ok t ↔
    x.ty.isPointer = true ∧ y.ty.isPointer = true ∧ ⟨.equals, .bool, [x, y]⟩ = t := by
  simp [equals, andThen_ok_iff, expectPointer, expect_ok_iff]

theorem cast_ok_iff : cast ty x = .ok t ↔ Hierarchy.isNonValue x.ty = false ∧
    (x.ty.isPrimitive != ty.isPrimitive || ty == .void) = false ∧ ⟨.cast, ty, [x]⟩ = t := by
  unfold cast
  generalize (x.ty.isPrimitive != ty.isPrimitive || ty == .void) = wrong
  cases wrong <;> simp [typeFault, andThen_ok_iff, expectValue_ok_iff]

theorem instanceOf_ok_iff {checked : Ty} : instanceOf x checked = .ok t ↔
    x.ty.isPointer = true ∧ ⟨.instanceOf checked, .bool, [x]⟩ = t := by
  simp [instanceOf, andThen_ok_iff, expectPointer, expect_ok_iff]

theorem classAccess_ok_iff : classAccess x = .ok t ↔
    x.ty.isPointer = true ∧ ⟨.classAccess, .classLiteral, [x]⟩ = t := by
  simp [classAccess, andThen_ok_iff, expectPointer, expect_ok_iff]

theorem bound_ok_iff : bound x = .ok t ↔
    x.ty.isPointer = true ∧ ⟨.bound, .int, [x]⟩ = t := by
  simp [bound, andThen_ok_iff, expectPointer, expect_ok_iff]

theorem call_ok_iff {m : Method} {xs : List Term} : call x m xs = .ok t ↔
    x.ty.isPointer = true ∧ xs.length = m.signature.args.length ∧
      ⟨.call m, m.signature.ret, x :: xs⟩ = t := by
  unfold call
  by_cases h : xs.length = m.signature.args.length <;>
    simp [h, typeFault, andThen_ok_iff, expectPointer, expect_ok_iff]

theorem concat_ok_iff : concat x y = .ok t ↔
    x.isText = true ∧ y.isText = true ∧ ⟨.concat, .string, [x, y]⟩ = t := by
  simp [concat, andThen_ok_iff, expectString_ok_iff]

theorem substring_ok_iff : substring x y z = .ok t ↔
    x.isText = true ∧ y.ty.isIntegral = true ∧ z.ty.isIntegral = true ∧
      ⟨.substring, .string, [x, y, z]⟩ = t := by
  simp [substring, andThen_ok_iff, expectString_ok_iff, expectIntegral, expect_ok_iff]

theorem indexOf_ok_iff : indexOf x y z = .ok t ↔
    x.isText = true ∧ y.isText = true ∧ z.ty.isIntegral = true ∧
      ⟨.indexOf, .int, [x, y, z]⟩ = t := by
  simp [indexOf, andThen_ok_iff, expectString_ok_iff, expectIntegral, expect_ok_iff]

theorem charAt_ok_iff : charAt x y = .ok t ↔
    x.isText = true ∧ y.ty.isIntegral = true ∧ ⟨.charAt, .char, [x, y]⟩ = t := by
  simp [charAt, andThen_ok_iff, expectString_ok_iff, expectIntegral, expect_ok_iff]

theorem stringLength_ok_iff : stringLength x = .ok t ↔
    x.isText = true ∧ ⟨.stringLength, .int, [x]⟩ = t := by
  simp [stringLength, andThen_ok_iff, expectString_ok_iff]

theorem stringTest_ok_iff {kind : Kind} : stringTest kind x y = .ok t ↔
    x.isText = true ∧ y.isText = true ∧ ⟨kind, .bool, [x, y]⟩ = t := by
  simp [stringTest, andThen_ok_iff, expectString_ok_iff]

theorem stringParse_ok_iff : stringParse ty x = .ok t ↔
    x.isText = true ∧ ty.isPrimitive = true ∧ ⟨.stringParse, ty, [x]⟩ = t := by
  unfold stringParse
  cases ty.isPrimitive <;> simp [typeFault, andThen_ok_iff, expectString_ok_iff]

theorem toText_ok_iff : toText x = .ok t ↔
    Hierarchy.isNonValue x.ty = false ∧ ⟨.toText, .string, [x]⟩ = t := by
  simp [toText, andThen_ok_iff, expectValue_ok_iff]

/-- The term is a lambda of one parameter that yields a truth value. -/
def IsCondition (t : Term) : Prop :=
  t.kind = .lambda ∧ ∃ parameter body, t.subterms = [parameter, body] ∧ body.ty = .bool

theorem quantifier_ok_iff {kind : Kind} : quantifier kind x y z = .ok t ↔
    x.ty.isIntegral = true ∧ y.ty.isIntegral = true ∧ z.IsCondition ∧
      ⟨kind, .bool, [x, y, z]⟩ = t := by
  simp only [quantifier, andThen_ok_iff, expectIntegral, expect_ok_iff]
  split
  · next parameter body hkind hsubs =>
    simp [andThen_ok_iff, expectBool, expect_ok_iff, IsCondition, hkind, hsubs]
  · next hno =>
    simp only [typeFault, reduceCtorEq, and_false, exists_false, false_iff]
    rintro ⟨-, -, ⟨hkind, parameter, body, hsubs, -⟩, -⟩
    exact hno _ _ hkind hsubs

theorem ite_ok_iff : ite ty x y z = .ok t ↔
    x.ty = .bool ∧ ⟨.ite, ty, [x, y, z]⟩ = t := by
  simp [ite, andThen_ok_iff, expectBool, expect_ok_iff]

theorem lambda_ok_iff {xs : List Term} : lambda ty xs x = .ok t ↔
    (∀ p ∈ xs, p.kind.isNamed = true) ∧ ⟨.lambda, ty, xs ++ [x]⟩ = t := by
  unfold lambda
  cases h : xs.find? fun p => !p.kind.isNamed with
  | none =>
    have hall : ∀ p ∈ xs, p.kind.isNamed = true := by simpa using h
    simp only [Except.ok.injEq]
    exact ⟨fun heq => ⟨hall, heq⟩, And.right⟩
  | some p =>
    have hp := List.find?_some h
    have hmem := List.mem_of_find?_eq_some h
    simp only [typeFault, reduceCtorEq, false_iff, not_and]
    intro hall
    simp [hall p hmem] at hp

end Constructors

/-! ## What the constructors make -/

/-- The term is what a constructor makes of the subterms. -/
inductive Composes : List Term → Term → Prop
  | arrayIndex {array index t : Term} (h : arrayIndex array index = .ok t) :
      Composes [array, index] t
  | arrayLoad {index t : Term} (h : arrayLoad index = .ok t) : Composes [index] t
  | arrayLength {array t : Term} (h : arrayLength array = .ok t) : Composes [array] t
  | arrayContains {array item t : Term} (h : arrayContains array item = .ok t) :
      Composes [array, item] t
  | field {owner t : Term} {ty : Ty} {name : String} (h : field owner ty name = .ok t) :
      Composes [owner] t
  | fieldLoad {ref t : Term} (h : fieldLoad ref = .ok t) : Composes [ref] t
  | binary {left right t : Term} {ty : Ty} {op : BinaryOp}
      (h : binaryTyped ty op left right = .ok t) : Composes [left, right] t
  | neg {operand t : Term} (h : neg operand = .ok t) : Composes [operand] t
  | compare {left right t : Term} {op : CompareOp} (h : compare op left right = .ok t) :
      Composes [left, right] t
  | equals {left right t : Term} (h : equals left right = .ok t) : Composes [left, right] t
  | cast {operand t : Term} {ty : Ty} (h : cast ty operand = .ok t) : Composes [operand] t
  | instanceOf {operand t : Term} {checked : Ty} (h : instanceOf operand checked = .ok t) :
      Composes [operand] t
  | classAccess {operand t : Term} (h : classAccess operand = .ok t) : Composes [operand] t
  | bound {pointer t : Term} (h : bound pointer = .ok t) : Composes [pointer] t
  | call {owner t : Term} {m : Method} {arguments : List Term}
      (h : call owner m arguments = .ok t) : Composes (owner :: arguments) t
  | concat {left right t : Term} (h : concat left right = .ok t) : Composes [left, right] t
  | substring {text offset length t : Term} (h : substring text offset length = .ok t) :
      Composes [text, offset, length] t
  | indexOf {text part offset t : Term} (h : indexOf text part offset = .ok t) :
      Composes [text, part, offset] t
  | charAt {text index t : Term} (h : charAt text index = .ok t) : Composes [text, index] t
  | stringLength {text t : Term} (h : stringLength text = .ok t) : Composes [text] t
  | stringContains {text part t : Term} (h : stringContains text part = .ok t) :
      Composes [text, part] t
  | startsWith {text part t : Term} (h : startsWith text part = .ok t) : Composes [text, part] t
  | endsWith {text part t : Term} (h : endsWith text part = .ok t) : Composes [text, part] t
  | stringParse {text t : Term} {ty : Ty} (h : stringParse ty text = .ok t) : Composes [text] t
  | toText {operand t : Term} (h : toText operand = .ok t) : Composes [operand] t
  | forAll {start stop body t : Term} (h : forAll start stop body = .ok t) :
      Composes [start, stop, body] t
  | forSome {start stop body t : Term} (h : forSome start stop body = .ok t) :
      Composes [start, stop, body] t
  | ite {condition positive negative t : Term} {ty : Ty}
      (h : ite ty condition positive negative = .ok t) : Composes [condition, positive, negative] t
  | lambda {body t : Term} {parameters : List Term} {ty : Ty}
      (h : lambda ty parameters body = .ok t) : Composes (parameters ++ [body]) t

section Shorthands

variable {t x y : Term}

theorem composes_of_load (h : load x = .ok t) : Composes [x] t := by
  unfold load at h
  split at h
  · exact .arrayLoad h
  · exact .fieldLoad h
  · cases h

theorem composes_of_binary {hierarchy : Hierarchy} {op : BinaryOp}
    (h : Term.binary hierarchy op x y = .ok t) : Composes [x, y] t := by
  obtain ⟨ty, -, h⟩ := andThen_ok_iff.mp h
  exact .binary h

theorem composes_of_unary {op : UnaryOp} (h : unary op x = .ok t) : Composes [x] t := by
  cases op with
  | neg => exact .neg h
  | length => exact .arrayLength h

end Shorthands

/-- The term is made by the constructors. -/
inductive Built : Term → Prop
  | argument (ty : Ty) (index : Nat) : Built (argument ty index)
  | value (ty : Ty) (name : String) : Built (value ty name)
  | receiver (ty : Ty) : Built (receiver ty)
  | returnValue (m : Method) : Built (returnValue m)
  | constant (c : Constant) : Built (constant c)
  | staticRef (className : String) : Built (staticRef className)
  | undef (ty : Ty) : Built (undef ty)
  | composite {subs : List Term} {t : Term} (hsubs : ∀ s ∈ subs, Built s) (h : Composes subs t) :
      Built t

/-! ## Operands that fit -/

/-- The term `u` can take the place of `t` under every constructor. -/
structure Fits (t u : Term) : Prop where
  ty : u.ty = t.ty
  named : u.kind.isNamed = t.kind.isNamed
  kind : t.kind.isNamed = false → u.kind = t.kind
  subterms : t.kind.isNamed = false → u.subterms.map Term.ty = t.subterms.map Term.ty

namespace Fits

variable {t u : Term}

theorem kind_eq (h : t.Fits u) {k : Kind} (hk : t.kind = k) (hnamed : k.isNamed = false) :
    u.kind = k := by
  rw [← hk] at hnamed ⊢
  exact h.kind hnamed

theorem isText (h : t.Fits u) : u.isText = t.isText := by
  have hnull : u.isNull = t.isNull := by
    cases hnamed : t.kind.isNamed with
    | false => rw [isNull, isNull, h.kind hnamed]
    | true =>
      have hne (k : Kind) (hk : k.isNamed = true) : (k == Kind.null) = false := by
        cases k <;> first | rfl | cases hk
      rw [isNull, isNull, hne _ hnamed, hne _ (h.named.trans hnamed)]
  rw [Term.isText, Term.isText, h.ty, hnull]

theorem isCondition (h : t.Fits u) (ht : t.IsCondition) : u.IsCondition := by
  obtain ⟨hkind, parameter, body, hsubs, hbody⟩ := ht
  have hnamed : t.kind.isNamed = false := by rw [hkind]; rfl
  refine ⟨h.kind_eq hkind rfl, ?_⟩
  have htypes := h.subterms hnamed
  rw [hsubs] at htypes
  obtain ⟨p, rest, hu, -, hrest⟩ := List.map_eq_cons_iff.mp htypes
  obtain ⟨b, last, rfl, hb, hlast⟩ := List.map_eq_cons_iff.mp hrest
  obtain rfl := List.map_eq_nil_iff.mp hlast
  exact ⟨p, b, hu, hb.trans hbody⟩

end Fits

private theorem forall₂_concat_left {α β : Type} {R : α → β → Prop} {xs : List α} {x : α}
    {l : List β} (h : List.Forall₂ R (xs ++ [x]) l) :
    ∃ ys y, l = ys ++ [y] ∧ List.Forall₂ R xs ys ∧ R x y := by
  induction xs generalizing l with
  | nil =>
    obtain _ | ⟨hx, ⟨⟩⟩ := h
    exact ⟨[], _, rfl, .nil, hx⟩
  | cons a xs ih =>
    obtain _ | ⟨ha, h⟩ := h
    obtain ⟨ys, y, rfl, hys, hy⟩ := ih h
    exact ⟨_ :: ys, y, rfl, .cons ha hys, hy⟩

theorem exists_of_forall₂_right {α β : Type} {R : α → β → Prop} {xs : List α} {ys : List β} {y : β}
    (h : List.Forall₂ R xs ys) (hy : y ∈ ys) : ∃ x ∈ xs, R x y := by
  induction h with
  | nil => cases hy
  | cons hr _ ih =>
    rcases List.mem_cons.mp hy with rfl | hy
    · exact ⟨_, List.mem_cons_self, hr⟩
    · obtain ⟨x, hx, hr⟩ := ih hy
      exact ⟨x, List.mem_cons_of_mem _ hx, hr⟩

/-- What a constructor accepts it accepts again after every operand was replaced by one that fits,
and the outcome differs in the subterms only. -/
theorem Composes.replace {t : Term} {subs subs' : List Term} (h : Composes subs t)
    (hs : List.Forall₂ Fits subs subs') : Composes subs' ⟨t.kind, t.ty, subs'⟩ := by
  cases h with
  | arrayIndex h =>
    obtain ⟨element, ha, hi, rfl⟩ := arrayIndex_ok_iff.mp h
    obtain _ | ⟨hx, _ | ⟨hy, ⟨⟩⟩⟩ := hs
    exact .arrayIndex (arrayIndex_ok_iff.mpr ⟨element, hx.ty ▸ ha, hy.ty ▸ hi, rfl⟩)
  | arrayLoad h =>
    obtain ⟨hk, h⟩ := arrayLoad_ok_iff.mp h
    obtain ⟨ty, hr, rfl⟩ := loadReferenced_ok_iff.mp h
    obtain _ | ⟨hx, ⟨⟩⟩ := hs
    exact .arrayLoad (arrayLoad_ok_iff.mpr
      ⟨hx.kind_eq hk rfl, loadReferenced_ok_iff.mpr ⟨ty, hx.ty ▸ hr, rfl⟩⟩)
  | arrayLength h =>
    obtain ⟨ha, rfl⟩ := arrayLength_ok_iff.mp h
    obtain _ | ⟨hx, ⟨⟩⟩ := hs
    exact .arrayLength (arrayLength_ok_iff.mpr ⟨hx.ty ▸ ha, rfl⟩)
  | arrayContains h =>
    obtain ⟨ha, hv, rfl⟩ := arrayContains_ok_iff.mp h
    obtain _ | ⟨hx, _ | ⟨hy, ⟨⟩⟩⟩ := hs
    exact .arrayContains (arrayContains_ok_iff.mpr ⟨hx.ty ▸ ha, hy.ty ▸ hv, rfl⟩)
  | field h =>
    obtain ⟨ho, rfl⟩ := field_ok_iff.mp h
    obtain _ | ⟨hx, ⟨⟩⟩ := hs
    exact .field (field_ok_iff.mpr ⟨hx.ty ▸ ho, rfl⟩)
  | fieldLoad h =>
    obtain ⟨⟨name, hk⟩, h⟩ := fieldLoad_ok_iff.mp h
    obtain ⟨ty, hr, rfl⟩ := loadReferenced_ok_iff.mp h
    obtain _ | ⟨hx, ⟨⟩⟩ := hs
    exact .fieldLoad (fieldLoad_ok_iff.mpr
      ⟨⟨name, hx.kind_eq hk rfl⟩, loadReferenced_ok_iff.mpr ⟨ty, hx.ty ▸ hr, rfl⟩⟩)
  | binary h =>
    obtain ⟨hl, hr, hty, rfl⟩ := binaryTyped_ok_iff.mp h
    obtain _ | ⟨hx, _ | ⟨hy, ⟨⟩⟩⟩ := hs
    exact .binary (binaryTyped_ok_iff.mpr ⟨hx.ty ▸ hl, hy.ty ▸ hr, hty, rfl⟩)
  | neg h =>
    obtain ⟨hn, rfl⟩ := neg_ok_iff.mp h
    obtain _ | ⟨hx, ⟨⟩⟩ := hs
    exact .neg (neg_ok_iff.mpr ⟨hx.ty ▸ hn, by rw [hx.ty]⟩)
  | compare h =>
    obtain ⟨hc, ho, rfl⟩ := compare_ok_iff.mp h
    obtain _ | ⟨hx, _ | ⟨hy, ⟨⟩⟩⟩ := hs
    rw [← hx.ty, ← hy.ty] at hc ho
    exact .compare (compare_ok_iff.mpr ⟨hc, ho, rfl⟩)
  | equals h =>
    obtain ⟨hl, hr, rfl⟩ := equals_ok_iff.mp h
    obtain _ | ⟨hx, _ | ⟨hy, ⟨⟩⟩⟩ := hs
    exact .equals (equals_ok_iff.mpr ⟨hx.ty ▸ hl, hy.ty ▸ hr, rfl⟩)
  | cast h =>
    obtain ⟨hv, hc, rfl⟩ := cast_ok_iff.mp h
    obtain _ | ⟨hx, ⟨⟩⟩ := hs
    rw [← hx.ty] at hv hc
    exact .cast (cast_ok_iff.mpr ⟨hv, hc, rfl⟩)
  | instanceOf h =>
    obtain ⟨ho, rfl⟩ := instanceOf_ok_iff.mp h
    obtain _ | ⟨hx, ⟨⟩⟩ := hs
    exact .instanceOf (instanceOf_ok_iff.mpr ⟨hx.ty ▸ ho, rfl⟩)
  | classAccess h =>
    obtain ⟨ho, rfl⟩ := classAccess_ok_iff.mp h
    obtain _ | ⟨hx, ⟨⟩⟩ := hs
    exact .classAccess (classAccess_ok_iff.mpr ⟨hx.ty ▸ ho, rfl⟩)
  | bound h =>
    obtain ⟨hp, rfl⟩ := bound_ok_iff.mp h
    obtain _ | ⟨hx, ⟨⟩⟩ := hs
    exact .bound (bound_ok_iff.mpr ⟨hx.ty ▸ hp, rfl⟩)
  | call h =>
    obtain ⟨ho, hlength, rfl⟩ := call_ok_iff.mp h
    obtain _ | ⟨hx, hs⟩ := hs
    exact .call (call_ok_iff.mpr ⟨hx.ty ▸ ho, hs.length_eq ▸ hlength, rfl⟩)
  | concat h =>
    obtain ⟨hl, hr, rfl⟩ := concat_ok_iff.mp h
    obtain _ | ⟨hx, _ | ⟨hy, ⟨⟩⟩⟩ := hs
    exact .concat (concat_ok_iff.mpr ⟨hx.isText ▸ hl, hy.isText ▸ hr, rfl⟩)
  | substring h =>
    obtain ⟨ht, ho, hl, rfl⟩ := substring_ok_iff.mp h
    obtain _ | ⟨hx, _ | ⟨hy, _ | ⟨hz, ⟨⟩⟩⟩⟩ := hs
    exact .substring (substring_ok_iff.mpr ⟨hx.isText ▸ ht, hy.ty ▸ ho, hz.ty ▸ hl, rfl⟩)
  | indexOf h =>
    obtain ⟨ht, hp, ho, rfl⟩ := indexOf_ok_iff.mp h
    obtain _ | ⟨hx, _ | ⟨hy, _ | ⟨hz, ⟨⟩⟩⟩⟩ := hs
    exact .indexOf (indexOf_ok_iff.mpr ⟨hx.isText ▸ ht, hy.isText ▸ hp, hz.ty ▸ ho, rfl⟩)
  | charAt h =>
    obtain ⟨ht, hi, rfl⟩ := charAt_ok_iff.mp h
    obtain _ | ⟨hx, _ | ⟨hy, ⟨⟩⟩⟩ := hs
    exact .charAt (charAt_ok_iff.mpr ⟨hx.isText ▸ ht, hy.ty ▸ hi, rfl⟩)
  | stringLength h =>
    obtain ⟨ht, rfl⟩ := stringLength_ok_iff.mp h
    obtain _ | ⟨hx, ⟨⟩⟩ := hs
    exact .stringLength (stringLength_ok_iff.mpr ⟨hx.isText ▸ ht, rfl⟩)
  | stringContains h =>
    obtain ⟨ht, hp, rfl⟩ := stringTest_ok_iff.mp h
    obtain _ | ⟨hx, _ | ⟨hy, ⟨⟩⟩⟩ := hs
    exact .stringContains (stringTest_ok_iff.mpr ⟨hx.isText ▸ ht, hy.isText ▸ hp, rfl⟩)
  | startsWith h =>
    obtain ⟨ht, hp, rfl⟩ := stringTest_ok_iff.mp h
    obtain _ | ⟨hx, _ | ⟨hy, ⟨⟩⟩⟩ := hs
    exact .startsWith (stringTest_ok_iff.mpr ⟨hx.isText ▸ ht, hy.isText ▸ hp, rfl⟩)
  | endsWith h =>
    obtain ⟨ht, hp, rfl⟩ := stringTest_ok_iff.mp h
    obtain _ | ⟨hx, _ | ⟨hy, ⟨⟩⟩⟩ := hs
    exact .endsWith (stringTest_ok_iff.mpr ⟨hx.isText ▸ ht, hy.isText ▸ hp, rfl⟩)
  | stringParse h =>
    obtain ⟨ht, hty, rfl⟩ := stringParse_ok_iff.mp h
    obtain _ | ⟨hx, ⟨⟩⟩ := hs
    exact .stringParse (stringParse_ok_iff.mpr ⟨hx.isText ▸ ht, hty, rfl⟩)
  | toText h =>
    obtain ⟨hv, rfl⟩ := toText_ok_iff.mp h
    obtain _ | ⟨hx, ⟨⟩⟩ := hs
    exact .toText (toText_ok_iff.mpr ⟨hx.ty ▸ hv, rfl⟩)
  | forAll h =>
    obtain ⟨hstart, hstop, hbody, rfl⟩ := quantifier_ok_iff.mp h
    obtain _ | ⟨hx, _ | ⟨hy, _ | ⟨hz, ⟨⟩⟩⟩⟩ := hs
    exact .forAll (quantifier_ok_iff.mpr
      ⟨hx.ty ▸ hstart, hy.ty ▸ hstop, hz.isCondition hbody, rfl⟩)
  | forSome h =>
    obtain ⟨hstart, hstop, hbody, rfl⟩ := quantifier_ok_iff.mp h
    obtain _ | ⟨hx, _ | ⟨hy, _ | ⟨hz, ⟨⟩⟩⟩⟩ := hs
    exact .forSome (quantifier_ok_iff.mpr
      ⟨hx.ty ▸ hstart, hy.ty ▸ hstop, hz.isCondition hbody, rfl⟩)
  | ite h =>
    obtain ⟨hc, rfl⟩ := ite_ok_iff.mp h
    obtain _ | ⟨hx, _ | ⟨hy, _ | ⟨hz, ⟨⟩⟩⟩⟩ := hs
    exact .ite (ite_ok_iff.mpr ⟨hx.ty.trans hc, rfl⟩)
  | lambda h =>
    obtain ⟨hnamed, rfl⟩ := lambda_ok_iff.mp h
    obtain ⟨ps, b, rfl, hps, hb⟩ := forall₂_concat_left hs
    refine .lambda (lambda_ok_iff.mpr ⟨fun p hp => ?_, rfl⟩)
    obtain ⟨q, hq, hfits⟩ := exists_of_forall₂_right hps hp
    exact hfits.named.trans (hnamed q hq)

/-! ## Rebuilding -/

/-- A composite term is what the constructor of its kind makes of its subterms. -/
theorem Composes.construct {t : Term} {subs : List Term} (h : Composes subs t) :
    t.kind.isLeaf = false ∧ t.subterms = subs ∧
      ∀ s : Term, s.kind = t.kind → s.ty = t.ty → s.construct subs = .ok t := by
  cases h with
  | arrayIndex h =>
    obtain ⟨element, -, -, rfl⟩ := arrayIndex_ok_iff.mp h
    exact ⟨rfl, rfl, fun s hk _ => by rw [Term.construct, hk]; exact h⟩
  | arrayLoad h =>
    obtain ⟨-, hload⟩ := arrayLoad_ok_iff.mp h
    obtain ⟨ty, -, rfl⟩ := loadReferenced_ok_iff.mp hload
    exact ⟨rfl, rfl, fun s hk _ => by rw [Term.construct, hk]; exact h⟩
  | arrayLength h =>
    obtain ⟨-, rfl⟩ := arrayLength_ok_iff.mp h
    exact ⟨rfl, rfl, fun s hk _ => by rw [Term.construct, hk]; exact h⟩
  | arrayContains h =>
    obtain ⟨-, -, rfl⟩ := arrayContains_ok_iff.mp h
    exact ⟨rfl, rfl, fun s hk _ => by rw [Term.construct, hk]; exact h⟩
  | field h =>
    obtain ⟨-, rfl⟩ := field_ok_iff.mp h
    exact ⟨rfl, rfl, fun s hk hty => by rw [Term.construct, hk, hty]; exact h⟩
  | fieldLoad h =>
    obtain ⟨-, hload⟩ := fieldLoad_ok_iff.mp h
    obtain ⟨ty, -, rfl⟩ := loadReferenced_ok_iff.mp hload
    exact ⟨rfl, rfl, fun s hk _ => by rw [Term.construct, hk]; exact h⟩
  | binary h =>
    obtain ⟨-, -, -, rfl⟩ := binaryTyped_ok_iff.mp h
    exact ⟨rfl, rfl, fun s hk hty => by rw [Term.construct, hk, hty]; exact h⟩
  | neg h =>
    obtain ⟨-, rfl⟩ := neg_ok_iff.mp h
    exact ⟨rfl, rfl, fun s hk _ => by rw [Term.construct, hk]; exact h⟩
  | compare h =>
    obtain ⟨-, -, rfl⟩ := compare_ok_iff.mp h
    exact ⟨rfl, rfl, fun s hk _ => by rw [Term.construct, hk]; exact h⟩
  | equals h =>
    obtain ⟨-, -, rfl⟩ := equals_ok_iff.mp h
    exact ⟨rfl, rfl, fun s hk _ => by rw [Term.construct, hk]; exact h⟩
  | cast h =>
    obtain ⟨-, -, rfl⟩ := cast_ok_iff.mp h
    exact ⟨rfl, rfl, fun s hk hty => by rw [Term.construct, hk, hty]; exact h⟩
  | instanceOf h =>
    obtain ⟨-, rfl⟩ := instanceOf_ok_iff.mp h
    exact ⟨rfl, rfl, fun s hk _ => by rw [Term.construct, hk]; exact h⟩
  | classAccess h =>
    obtain ⟨-, rfl⟩ := classAccess_ok_iff.mp h
    exact ⟨rfl, rfl, fun s hk _ => by rw [Term.construct, hk]; exact h⟩
  | bound h =>
    obtain ⟨-, rfl⟩ := bound_ok_iff.mp h
    exact ⟨rfl, rfl, fun s hk _ => by rw [Term.construct, hk]; exact h⟩
  | call h =>
    obtain ⟨-, -, rfl⟩ := call_ok_iff.mp h
    exact ⟨rfl, rfl, fun s hk _ => by rw [Term.construct, hk]; exact h⟩
  | concat h =>
    obtain ⟨-, -, rfl⟩ := concat_ok_iff.mp h
    exact ⟨rfl, rfl, fun s hk _ => by rw [Term.construct, hk]; exact h⟩
  | substring h =>
    obtain ⟨-, -, -, rfl⟩ := substring_ok_iff.mp h
    exact ⟨rfl, rfl, fun s hk _ => by rw [Term.construct, hk]; exact h⟩
  | indexOf h =>
    obtain ⟨-, -, -, rfl⟩ := indexOf_ok_iff.mp h
    exact ⟨rfl, rfl, fun s hk _ => by rw [Term.construct, hk]; exact h⟩
  | charAt h =>
    obtain ⟨-, -, rfl⟩ := charAt_ok_iff.mp h
    exact ⟨rfl, rfl, fun s hk _ => by rw [Term.construct, hk]; exact h⟩
  | stringLength h =>
    obtain ⟨-, rfl⟩ := stringLength_ok_iff.mp h
    exact ⟨rfl, rfl, fun s hk _ => by rw [Term.construct, hk]; exact h⟩
  | stringContains h =>
    obtain ⟨-, -, rfl⟩ := stringTest_ok_iff.mp h
    exact ⟨rfl, rfl, fun s hk _ => by rw [Term.construct, hk]; exact h⟩
  | startsWith h =>
    obtain ⟨-, -, rfl⟩ := stringTest_ok_iff.mp h
    exact ⟨rfl, rfl, fun s hk _ => by rw [Term.construct, hk]; exact h⟩
  | endsWith h =>
    obtain ⟨-, -, rfl⟩ := stringTest_ok_iff.mp h
    exact ⟨rfl, rfl, fun s hk _ => by rw [Term.construct, hk]; exact h⟩
  | stringParse h =>
    obtain ⟨-, -, rfl⟩ := stringParse_ok_iff.mp h
    exact ⟨rfl, rfl, fun s hk hty => by rw [Term.construct, hk, hty]; exact h⟩
  | toText h =>
    obtain ⟨-, rfl⟩ := toText_ok_iff.mp h
    exact ⟨rfl, rfl, fun s hk _ => by rw [Term.construct, hk]; exact h⟩
  | forAll h =>
    obtain ⟨-, -, -, rfl⟩ := quantifier_ok_iff.mp h
    exact ⟨rfl, rfl, fun s hk _ => by rw [Term.construct, hk]; exact h⟩
  | forSome h =>
    obtain ⟨-, -, -, rfl⟩ := quantifier_ok_iff.mp h
    exact ⟨rfl, rfl, fun s hk _ => by rw [Term.construct, hk]; exact h⟩
  | ite h =>
    obtain ⟨-, rfl⟩ := ite_ok_iff.mp h
    exact ⟨rfl, rfl, fun s hk hty => by rw [Term.construct, hk, hty]; exact h⟩
  | lambda h =>
    obtain ⟨-, rfl⟩ := lambda_ok_iff.mp h
    refine ⟨rfl, rfl, fun s hk hty => ?_⟩
    rw [Term.construct, hk]
    simp only [List.getLast?_append, List.getLast?_singleton, Option.some_or, hty,
      List.dropLast_concat]
    exact h

end Concolic.Term
