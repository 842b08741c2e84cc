import Concolic.Fp.Decimal
import Mathlib.Data.List.Basic

/-!
# The characters of numbers

Which characters the decimal text of a number is made of. A whole number is digits with an optional
sign. The text of a floating-point number that is finite has only digits, signs, points and exponent
marks, and always a point or a mark, so it is never the text of a whole number. Both end in a digit.
-/

namespace Concolic

/-- The text of a whole number is digits with an optional sign. -/
theorem toString_int_chars {n : Int} {c : Char} (h : c ∈ (toString n).toList) :
    c.isDigit = true ∨ c = '-' := by
  have hdigit (m : Nat) (h : c ∈ m.repr.toList) : c.isDigit = true := by
    rw [Nat.toList_repr] at h
    exact Nat.isDigit_of_mem_toDigits (by decide) (by decide) h
  rw [Int.toString_eq_repr, Int.repr_eq_if] at h
  split at h
  · exact .inl (hdigit _ h)
  · rw [String.toList_append] at h
    rcases List.mem_append.mp h with h | h
    · exact .inr (List.mem_singleton.mp h)
    · exact .inl (hdigit _ h)

/-- The text of a natural number ends in a digit. -/
theorem getLast?_toDigits (n : Nat) :
    ∃ d, (Nat.toDigits 10 n).getLast? = some d ∧ d.isDigit = true := by
  have hne : Nat.toDigits 10 n ≠ [] := Nat.toDigits_ne_nil
  refine ⟨_, List.getLast?_eq_some_getLast hne, ?_⟩
  exact Nat.isDigit_of_mem_toDigits (by decide) (by decide) (List.getLast_mem hne)

theorem getLast?_toString_int (n : Int) :
    ∃ d, (toString n).toList.getLast? = some d ∧ d.isDigit = true := by
  rw [Int.toString_eq_repr, Int.repr_eq_if]
  split
  · rw [Nat.toList_repr]
    exact getLast?_toDigits _
  · obtain ⟨d, hd, hdigit⟩ := getLast?_toDigits (-n).toNat
    refine ⟨d, ?_, hdigit⟩
    rw [String.toList_append, Nat.toList_repr, List.getLast?_append, hd]
    rfl

namespace Fp

/-- The character stands in the text of a finite number. -/
def isNumeric (c : Char) : Bool := c.isDigit || c == '-' || c == '.' || c == 'e'

/-- The characters stand in the text of a finite number, there is a point or an exponent mark among
them, and the last one is a digit. -/
structure IsNumeral (cs : List Char) : Prop where
  chars : ∀ c ∈ cs, isNumeric c = true
  marked : '.' ∈ cs ∨ 'e' ∈ cs
  last : ∃ d, cs.getLast? = some d ∧ d.isDigit = true

private theorem isNumeric_of_isDigit {c : Char} (h : c.isDigit = true) : isNumeric c = true := by
  simp [isNumeric, h]

private theorem isNumeric_of_mem_toDigits {n : Nat} {c : Char} (h : c ∈ Nat.toDigits 10 n) :
    isNumeric c = true :=
  isNumeric_of_isDigit (Nat.isDigit_of_mem_toDigits (by decide) (by decide) h)

theorem isNumeric_of_mem_int {n : Int} {c : Char} (h : c ∈ (toString n).toList) :
    isNumeric c = true := by
  rcases toString_int_chars h with h | rfl
  · exact isNumeric_of_isDigit h
  · rfl

private theorem isNumeric_of_mem_zeros {n : Nat} {c : Char} (h : c ∈ List.replicate n '0') :
    isNumeric c = true := by
  rw [List.eq_of_mem_replicate h]
  rfl

/-- What ends in the last digits of a number ends in a digit. -/
theorem getLast?_append_digits (cs : List Char) {ds : List Char}
    (h : ∃ d, ds.getLast? = some d ∧ d.isDigit = true) :
    ∃ d, (cs ++ ds).getLast? = some d ∧ d.isDigit = true := by
  obtain ⟨d, hd, hdigit⟩ := h
  refine ⟨d, ?_, hdigit⟩
  rw [List.getLast?_append, hd]
  rfl

theorem Decimal.render_isNumeral (layout : Layout) (x : Decimal) :
    IsNumeral (x.render layout).toList := by
  have hdigits {c : Char} (h : c ∈ Nat.toDigits 10 x.digits) := isNumeric_of_mem_toDigits h
  have hlast := getLast?_toDigits x.digits
  rw [Decimal.render, String.toList_ofList]
  dsimp only
  split
  · split
    · refine ⟨fun c hc => ?_, .inl (by simp), ?_⟩
      · simp only [List.mem_append, List.mem_cons, List.not_mem_nil, or_false] at hc
        rcases hc with (hc | hc) | rfl | rfl
        · exact hdigits hc
        · exact isNumeric_of_mem_zeros hc
        · rfl
        · rfl
      · exact getLast?_append_digits _ ⟨'0', rfl, rfl⟩
    · next hexponent =>
      split
      · next hpositional =>
        refine ⟨fun c hc => ?_, .inl (by simp), ?_⟩
        · simp only [List.mem_append, List.mem_cons, List.not_mem_nil, or_false] at hc
          rcases hc with (hc | rfl) | hc
          · exact hdigits (List.mem_of_mem_take hc)
          · rfl
          · exact hdigits (List.mem_of_mem_drop hc)
        · refine getLast?_append_digits _ ?_
          -- the exponent is negative, so digits are left behind the point
          rw [List.getLast?_drop, if_neg (by omega)]
          exact hlast
      · refine ⟨fun c hc => ?_, .inl (by simp), getLast?_append_digits _ hlast⟩
        simp only [List.mem_append, List.mem_cons, List.not_mem_nil, or_false] at hc
        rcases hc with ((rfl | rfl) | hc) | hc
        · rfl
        · rfl
        · exact isNumeric_of_mem_zeros hc
        · exact hdigits hc
  · refine ⟨fun c hc => ?_, .inr (by simp), getLast?_append_digits _ (getLast?_toString_int _)⟩
    simp only [List.mem_append, List.mem_cons, List.not_mem_nil, or_false] at hc
    rcases hc with ((hc | hc) | rfl) | hc
    · exact hdigits (List.mem_of_mem_take hc)
    · split at hc
      · cases hc
      · rcases List.mem_cons.mp hc with rfl | hc
        · rfl
        · exact hdigits (List.mem_of_mem_drop hc)
    · rfl
    · exact isNumeric_of_mem_int hc

theorem IsNumeral.sign {cs : List Char} (h : IsNumeral cs) : IsNumeral ('-' :: cs) :=
  ⟨List.forall_mem_cons.mpr ⟨rfl, h.chars⟩,
    h.marked.imp (List.mem_cons_of_mem _) (List.mem_cons_of_mem _),
    getLast?_append_digits ['-'] h.last⟩

/-- The text of a number is a numeral or one of three words. -/
theorem text_cases {f : Format} (x : Fp f) :
    IsNumeral x.text.toList ∨ x.text = "NaN" ∨ x.text = "inf" ∨ x.text = "-inf" := by
  have hsigned {s : String} (h : IsNumeral s.toList) :
      IsNumeral ((if x.negative then "-" else "") ++ s).toList := by
    rw [String.toList_append]
    split
    · exact h.sign
    · exact h
  unfold text render
  dsimp only
  split
  · exact .inr (.inl rfl)
  · cases x.negative
    · exact .inr (.inr (.inl rfl))
    · exact .inr (.inr (.inr rfl))
  · refine .inl (hsigned ?_)
    split
    · exact ⟨List.all_eq_true.mp rfl, .inl (by decide), '0', rfl, rfl⟩
    · exact Decimal.render_isNumeral _ _

end Fp

end Concolic
