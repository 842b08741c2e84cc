import Concolic.Term.Build

/-!
# Equality of terms

That two terms count as the same (`==`) is an equivalence, although such terms need not be
identical. So it does not matter under which of two such terms a table is asked. A term without
subterms is known by the word of its kind, its name and its type (`eq_leaf_of_beq`); if it is a
named value or an argument, it is the same as no other term.
-/

namespace Concolic

namespace Term

mutual

theorem same_comm : (a b : Term) → a.same b = b.same a
  | ⟨k, ty, subs⟩, ⟨k', ty', subs'⟩ => by
    rw [same, same, sameAll_comm subs subs', BEq.comm (a := k.name), BEq.comm (a := ty),
      BEq.comm (a := k.render ty (names subs))]

theorem sameAll_comm : (as bs : List Term) → sameAll as bs = sameAll bs as
  | [], [] => rfl
  | [], _ :: _ | _ :: _, [] => rfl
  | a :: as, b :: bs => by rw [sameAll, sameAll, same_comm a b, sameAll_comm as bs]

end

mutual

theorem same_trans : (a b c : Term) → a.same b = true → b.same c = true → a.same c = true
  | ⟨k, ty, subs⟩, ⟨k', ty', subs'⟩, ⟨k'', ty'', subs''⟩, h, h' => by
    simp only [same, Bool.and_eq_true, beq_iff_eq] at h h' ⊢
    obtain ⟨⟨⟨hkind, hname⟩, hty⟩, hsubs⟩ := h
    obtain ⟨⟨⟨hkind', hname'⟩, hty'⟩, hsubs'⟩ := h'
    exact ⟨⟨⟨hkind.trans hkind', hname.trans hname'⟩, hty.trans hty'⟩,
      sameAll_trans subs subs' subs'' hsubs hsubs'⟩

theorem sameAll_trans : (as bs cs : List Term) → sameAll as bs = true → sameAll bs cs = true →
    sameAll as cs = true
  | [], [], [], _, _ => rfl
  | a :: as, b :: bs, c :: cs, h, h' => by
    simp only [sameAll, Bool.and_eq_true] at h h' ⊢
    exact ⟨same_trans a b c h.1 h'.1, sameAll_trans as bs cs h.2 h'.2⟩

end

instance : EquivBEq Term where
  symm {a b} h := (same_comm b a).trans h
  trans {a b c} := same_trans a b c

theorem name_of_beq {x y : Term} (h : (x == y) = true) : x.name = y.name := by
  obtain ⟨k, ty, subs⟩ := x
  obtain ⟨k', ty', subs'⟩ := y
  rw [beq_def, same] at h
  simp only [Bool.and_eq_true, beq_iff_eq] at h
  rw [name, name]
  exact h.1.1.2

theorem ty_of_beq {x y : Term} (h : (x == y) = true) : x.ty = y.ty := by
  obtain ⟨k, ty, subs⟩ := x
  obtain ⟨k', ty', subs'⟩ := y
  rw [beq_def, same] at h
  simp only [Bool.and_eq_true, beq_iff_eq] at h
  exact h.1.2

end Term

/-! ## Terms without subterms -/

theorem toDigits_inj {m n : Nat} (h : Nat.toDigits 10 m = Nat.toDigits 10 n) : m = n := by
  have hm := Nat.ofDigitChars_toDigits (b := 10) (n := m) (by decide) (by decide)
  have hn := Nat.ofDigitChars_toDigits (b := 10) (n := n) (by decide) (by decide)
  rw [← hm, ← hn, h]

theorem Value.argumentName_inj {i j : Nat} (h : argumentName i = argumentName j) : i = j := by
  have htext := congrArg String.toList h
  refine toDigits_inj ?_
  simpa [argumentName, Nat.toString_eq_repr, Nat.toList_repr] using htext

theorem Kind.eq_value {k : Kind} (h : k.name = "value") : ∃ n, k = .value n := by
  cases k with
  | value n => exact ⟨n, rfl⟩
  | _ => simp [Kind.name] at h

theorem Kind.eq_argument {k : Kind} (h : k.name = "argument") : ∃ i, k = .argument i := by
  cases k with
  | argument i => exact ⟨i, rfl⟩
  | _ => simp [Kind.name] at h

/-- What counts as the same as a term without subterms has none, and the same word and text. -/
theorem Term.eq_leaf_of_beq {x : Term} {k : Kind} {ty : Ty} (h : (x == leaf k ty) = true) :
    ∃ k', x = leaf k' ty ∧ k'.name = k.name ∧ k'.render ty [] = k.render ty [] := by
  obtain ⟨k', ty', subs⟩ := x
  rw [beq_def, leaf, same] at h
  simp only [Bool.and_eq_true, beq_iff_eq] at h
  obtain ⟨⟨⟨hname, hrender⟩, rfl⟩, hsubs⟩ := h
  cases subs with
  | nil => exact ⟨k', rfl, hname, hrender⟩
  | cons => cases hsubs

theorem Term.eq_value_of_beq {x : Term} {ty : Ty} {n : String}
    (h : (x == Term.value ty n) = true) : x = Term.value ty n := by
  obtain ⟨k, rfl, hname, hrender⟩ := eq_leaf_of_beq h
  obtain ⟨n', rfl⟩ := Kind.eq_value hname
  exact congrArg (Term.value ty) hrender

theorem Term.eq_argument_of_beq {x : Term} {ty : Ty} {i : Nat}
    (h : (x == Term.argument ty i) = true) : x = Term.argument ty i := by
  obtain ⟨k, rfl, hname, hrender⟩ := eq_leaf_of_beq h
  obtain ⟨j, rfl⟩ := Kind.eq_argument hname
  rw [Value.argumentName_inj hrender]
  rfl

/-- Parameters in different places have different terms. -/
theorem Term.argument_beq_of_ne {i j : Nat} (ty ty' : Ty) (h : i ≠ j) :
    (Term.argument ty i == Term.argument ty' j) = false := by
  rw [← Bool.not_eq_true]
  intro hbeq
  cases eq_argument_of_beq hbeq
  exact h rfl

end Concolic
