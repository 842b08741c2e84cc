import Concolic.Json.Read
import Concolic.Json.Write
import Concolic.Proofs.Fp.Shortest
import Concolic.Proofs.Fp.Text
import Mathlib.Data.List.TakeWhile
import Mathlib.Tactic.FieldSimp
import Mathlib.Tactic.IntervalCases

/-!
# Numbers as text

* `Numeral.Proper`: what the grammar of numbers asks of a numeral. Its text is read as the numeral
  (`readNumeral_text`).
* `Numeral.json_ofInt`: a whole number that fits a word is read as itself.
* `Numeral.Spells n x`: the numeral has a point or an exponent and stands for the decimal. Each
  layout of a decimal is one of four forms (`HasDigits.spells_whole`, `spells_point`,
  `spells_fraction`, `spells_exponent`), and each of them spells it.
* `exists_numeral_writeFp`: so a finite number is written as a numeral that is read as the number.
-/

namespace Concolic

namespace Fp

theorem ofDigits_append (cs ds : List Char) :
    ofDigits (cs ++ ds) = 10 ^ ds.length * ofDigits cs + ofDigits ds := by
  unfold ofDigits
  rw [← Nat.ofDigitChars_eq_foldl, ← Nat.ofDigitChars_eq_foldl, ← Nat.ofDigitChars_eq_foldl,
    Nat.ofDigitChars_append, Nat.ofDigitChars_eq_ofDigitChars_zero]

@[simp] theorem ofDigits_toDigits (n : Nat) : ofDigits (Nat.toDigits 10 n) = n := by
  unfold ofDigits
  rw [← Nat.ofDigitChars_eq_foldl, Nat.ofDigitChars_ten_toDigits]

@[simp] theorem ofDigits_zeros (n : Nat) : ofDigits (List.replicate n '0') = 0 := by
  unfold ofDigits
  rw [← Nat.ofDigitChars_eq_foldl, Nat.ofDigitChars_replicate_zero, Nat.mul_zero]

/-- The digits of a positive number start with one that is not zero. -/
private theorem toDigits_eq_cons {n : Nat} (hn : 0 < n) :
    ∃ c cs, Nat.toDigits 10 n = c :: cs ∧ c ≠ '0' := by
  induction n using Nat.strongRecOn with
  | ind n ih =>
    rw [Nat.toDigits_eq_if (by decide)]
    split
    · next h =>
      refine ⟨n.digitChar, [], rfl, ?_⟩
      interval_cases n <;> decide
    · next h =>
      obtain ⟨c, cs, hcs, hc⟩ := ih (n / 10) (by omega) (by omega)
      exact ⟨c, cs ++ [(n % 10).digitChar], by rw [hcs, List.cons_append], hc⟩

end Fp

/-- The text of a whole number is its digits, after a minus if it is negative. -/
theorem toList_toString_int (n : Int) :
    (toString n).toList = (if n < 0 then ['-'] else []) ++ Nat.toDigits 10 n.natAbs := by
  rw [Int.toString_eq_repr, Int.repr_eq_if]
  split
  · next h =>
    rw [if_neg (by omega), Nat.toList_repr, List.nil_append]
    congr 1
    omega
  · next h =>
    rw [if_pos (by omega), String.toList_append, Nat.toList_repr]
    congr 2
    omega

/-- The characters up to the first that does not belong. -/
theorem span_append {p : Char → Bool} {ds cs : List Char} (hds : ∀ c ∈ ds, p c = true)
    (hcs : ∀ c ∈ cs.head?, p c = false) :
    (ds ++ cs).takeWhile p = ds ∧ (ds ++ cs).dropWhile p = cs := by
  have hstop : cs.takeWhile p = [] ∧ cs.dropWhile p = cs := by
    cases cs with
    | nil => exact ⟨rfl, rfl⟩
    | cons c cs =>
      have hc : p c = false := hcs c rfl
      simp [hc]
  rw [List.takeWhile_append_of_pos hds, List.dropWhile_append_of_pos hds, hstop.1, hstop.2,
    List.append_nil]
  exact ⟨rfl, rfl⟩

theorem isDigit_of_mem_toDigits {n : Nat} {c : Char} (h : c ∈ Nat.toDigits 10 n) :
    c.isDigit = true :=
  Nat.isDigit_of_mem_toDigits (by decide) (by decide) h

/-- Digits do not start with a sign. -/
theorem Fp.splitSign_of_isDigit {cs : List Char} (h : ∀ c ∈ cs.head?, c.isDigit = true) :
    Fp.splitSign cs = (false, cs) := by
  unfold Fp.splitSign
  split
  · exact absurd (h '-' rfl) (by decide)
  · exact absurd (h '+' rfl) (by decide)
  · rfl

namespace Json

private theorem trimZeros_append (ds : List Char) :
    ∃ k, ds = trimZeros ds ++ List.replicate k '0' := by
  refine ⟨(ds.reverse.takeWhile (· == '0')).length, ?_⟩
  have hzeros : (ds.reverse.takeWhile (· == '0')) =
      List.replicate (ds.reverse.takeWhile (· == '0')).length '0' := by
    rw [List.eq_replicate_iff]
    exact ⟨rfl, fun c hc => by simpa using List.mem_takeWhile_imp hc⟩
  rw [trimZeros, ← List.reverse_replicate, ← hzeros, ← List.reverse_append,
    List.takeWhile_append_dropWhile, List.reverse_reverse]

/-- A fraction as text. -/
def fractionText : Option (List Char) → List Char
  | none => []
  | some ds => '.' :: ds

/-- An exponent as text. -/
def exponentText : Option Int → List Char
  | none => []
  | some e => 'e' :: (toString e).toList

namespace Numeral

/-- The text of a numeral without its sign. -/
def body (n : Numeral) : List Char :=
  n.whole ++ (fractionText n.fraction ++ exponentText n.exponent)

/-- The text of a numeral. -/
def text (n : Numeral) : List Char := (if n.negative then ['-'] else []) ++ n.body

/-- The digits are digits, there are enough of them, and no zero is in front without need. -/
structure Proper (n : Numeral) : Prop where
  whole : isWhole n.whole = true
  digits : ∀ c ∈ n.whole, c.isDigit = true
  fraction : ∀ ds ∈ n.fraction, ds ≠ [] ∧ ∀ c ∈ ds, c.isDigit = true

/-- All digits of the numeral. -/
def digits (n : Numeral) : List Char := n.whole ++ n.fraction.getD []

/-- The number that a numeral stands for, without its sign. -/
def value (n : Numeral) : Rat :=
  Fp.ofDigits n.digits * 10 ^ (n.exponent.getD 0 - (n.fraction.getD []).length)

theorem value_decimal (n : Numeral) : n.decimal.value = n.value := by
  obtain ⟨k, hk⟩ := trimZeros_append (n.fraction.getD [])
  unfold decimal value Fp.Decimal.value digits
  dsimp only
  generalize trimZeros (n.fraction.getD []) = ds at *
  rw [hk, ← List.append_assoc, Fp.ofDigits_append (n.whole ++ ds), Fp.ofDigits_zeros,
    List.length_append, List.length_replicate]
  push_cast
  rw [show n.exponent.getD 0 - ds.length = n.exponent.getD 0 - (ds.length + k) + (k : Nat) by omega,
    zpow_add₀ (by norm_num), zpow_natCast]
  ring

theorem digits_decimal_le (n : Numeral) : n.decimal.digits ≤ Fp.ofDigits n.digits := by
  obtain ⟨k, hk⟩ := trimZeros_append (n.fraction.getD [])
  unfold decimal digits
  dsimp only
  generalize trimZeros (n.fraction.getD []) = ds at *
  rw [hk, ← List.append_assoc, Fp.ofDigits_append (n.whole ++ ds), Fp.ofDigits_zeros]
  exact Nat.le_mul_of_pos_left _ (Nat.pow_pos (by decide))

theorem readExponent_exponentText (exponent : Option Int) :
    readExponent (exponentText exponent) = some exponent := by
  cases exponent with
  | none => rfl
  | some e =>
    have hdigits : ∀ c ∈ Nat.toDigits 10 e.natAbs, c.isDigit = true :=
      fun c hc => isDigit_of_mem_toDigits hc
    have hne : Nat.toDigits 10 e.natAbs ≠ [] := Nat.toDigits_ne_nil
    have hsign : Fp.splitSign (toString e).toList = (decide (e < 0), Nat.toDigits 10 e.natAbs) := by
      rw [toList_toString_int]
      by_cases he : e < 0
      · rw [if_pos he, decide_eq_true he]
        rfl
      · rw [if_neg he, decide_eq_false he]
        exact Fp.splitSign_of_isDigit fun c hc => hdigits c (List.mem_of_mem_head? hc)
    have hall : (Nat.toDigits 10 e.natAbs).all Char.isDigit = true := List.all_eq_true.mpr hdigits
    have hvalue : (if e < 0 then -(e.natAbs : Int) else e.natAbs) = e := by split <;> omega
    simp only [exponentText, readExponent, Fp.readExponent?, hsign, hall, Fp.ofDigits_toDigits]
    simpa [hne] using hvalue

theorem head?_exponentText (exponent : Option Int) :
    ∀ c ∈ (exponentText exponent).head?, c.isDigit = false := by
  cases exponent with
  | none => exact fun c hc => by cases hc
  | some e =>
    rintro c ⟨⟩
    rfl

theorem splitFraction_fractionText {fraction : Option (List Char)}
    (h : ∀ ds ∈ fraction, ds ≠ [] ∧ ∀ c ∈ ds, c.isDigit = true) (exponent : Option Int) :
    splitFraction (fractionText fraction ++ exponentText exponent) =
      some (fraction, exponentText exponent) := by
  cases fraction with
  | none =>
    cases exponent with
    | none => rfl
    | some e => rfl
  | some ds =>
    obtain ⟨hne, hdigits⟩ := h ds rfl
    obtain ⟨htake, hdrop⟩ := span_append hdigits (head?_exponentText exponent)
    simp [fractionText, splitFraction, htake, hdrop, hne]

theorem readNumeral_text {n : Numeral} (h : n.Proper) : readNumeral n.text = some n := by
  obtain ⟨negative, whole, fraction, exponent⟩ := n
  obtain ⟨hwhole, hdigits, hfraction⟩ := h
  dsimp only at *
  have htail : ∀ c ∈ (fractionText fraction ++ exponentText exponent).head?, c.isDigit = false := by
    cases fraction with
    | none => exact head?_exponentText exponent
    | some ds =>
      rintro c ⟨⟩
      rfl
  obtain ⟨htake, hdrop⟩ := span_append hdigits htail
  obtain ⟨first, digits, rfl⟩ : ∃ c cs, whole = c :: cs := by
    cases whole with
    | nil => cases hwhole
    | cons c cs => exact ⟨c, cs, rfl⟩
  unfold readNumeral text body
  split
  next negative' rest hsign =>
  obtain ⟨rfl, rfl⟩ : negative' = negative ∧
      rest = first :: digits ++ (fractionText fraction ++ exponentText exponent) := by
    dsimp only at hsign
    cases negative with
    | true =>
      cases hsign
      exact ⟨rfl, rfl⟩
    | false =>
      split at hsign
      · next hminus =>
        cases hminus
        exact absurd (hdigits '-' (List.mem_cons_self ..)) (by decide)
      · cases hsign
        exact ⟨rfl, rfl⟩
  simp only [htake, hdrop, hwhole, splitFraction_fractionText hfraction]
  simp [readExponent_exponentText]

theorem readNumber_text {n : Numeral} (h : n.Proper) : readNumber n.text = some n.json := by
  rw [readNumber, readNumeral_text h, Option.map_some]

end Numeral

private theorem isWhole_cons {c : Char} (cs : List Char) (hc : c ≠ '0') :
    isWhole (c :: cs) = true := by
  unfold isWhole
  split
  · rfl
  · next h =>
    cases h
    exact absurd rfl hc
  · rfl

theorem isWhole_toDigits (n : Nat) : isWhole (Nat.toDigits 10 n) = true := by
  rcases Nat.eq_zero_or_pos n with rfl | hn
  · rfl
  · obtain ⟨c, cs, hcs, hc⟩ := Fp.toDigits_eq_cons hn
    rw [hcs]
    exact isWhole_cons cs hc

/-- A whole number as a numeral. -/
def Numeral.ofInt (n : Int) : Numeral := ⟨decide (n < 0), Nat.toDigits 10 n.natAbs, none, none⟩

theorem Numeral.proper_ofInt (n : Int) : (ofInt n).Proper :=
  ⟨isWhole_toDigits _, fun _ hc => isDigit_of_mem_toDigits hc, fun _ hds => by cases hds⟩

theorem Numeral.text_ofInt (n : Int) : (ofInt n).text = (toString n).toList := by
  rw [toList_toString_int]
  simp [text, body, ofInt, fractionText, exponentText]

/-- A whole number that fits a word, with a sign if it is negative, is read as it was written. -/
theorem Numeral.json_ofInt {n : Int} (hleast : -2 ^ 63 ≤ n) (hmost : n < 2 ^ 64) :
    (ofInt n).json = .int n := by
  have hsize : UInt64.size = 2 ^ 64 := rfl
  have hmin : Int64.minValue.toInt.natAbs = 2 ^ 63 := by decide
  unfold json ofInt
  dsimp only
  rw [Fp.ofDigits_toDigits, hsize, hmin, if_neg (by simp; omega)]
  by_cases hn : n < 0
  · rw [if_neg (by simpa using hn), if_pos (by simp; omega)]
    congr 1
    omega
  · rw [if_pos (by simpa using hn)]
    congr 1
    omega

/-! ## Decimals -/

/-- The numeral has a point or an exponent mark, and it stands for the decimal. -/
structure Numeral.Spells (n : Numeral) (x : Fp.Decimal) : Prop extends n.Proper where
  marked : n.fraction.isSome = true ∨ n.exponent.isSome = true
  value : n.value = x.value
  bound : Fp.ofDigits n.digits ≤ 10 ^ 17

theorem Numeral.Spells.json {n : Numeral} {x : Fp.Decimal} (h : n.Spells x) :
    n.json = .decimal n.negative n.decimal := by
  have hmarked := h.marked
  rw [Numeral.json, if_pos]
  simp only [Bool.or_eq_true, decide_eq_true_eq]
  exact .inl hmarked

private theorem isDigit_of_mem_zeros {n : Nat} {c : Char} (h : c ∈ List.replicate n '0') :
    c.isDigit = true := by
  rw [List.eq_of_mem_replicate h]
  rfl

/-- The numeral has the digits of the decimal, `k` zeros behind them, and the exponent that makes up
for the zeros. -/
theorem Numeral.Spells.of_digits {n : Numeral} {x : Fp.Decimal} (k : Nat) (h : n.Proper)
    (hmarked : n.fraction.isSome = true ∨ n.exponent.isSome = true)
    (hdigits : Fp.ofDigits n.digits = 10 ^ k * x.digits)
    (hexponent : n.exponent.getD 0 - (n.fraction.getD []).length = x.exponent - k)
    (hbound : 10 ^ k * x.digits ≤ 10 ^ 17) : n.Spells x := by
  refine ⟨h, hmarked, ?_, hdigits ▸ hbound⟩
  rw [Numeral.value, hdigits, hexponent, Fp.Decimal.value, zpow_sub₀ (by norm_num), zpow_natCast]
  push_cast
  field_simp

/-- `first` and `others` are the digits of a decimal that is not zero, at most as many as the
shortest one may have. -/
structure HasDigits (x : Fp.Decimal) (first : Char) (others : List Char) : Prop where
  digits : ∀ c ∈ first :: others, c.isDigit = true
  nonzero : first ≠ '0'
  value : Fp.ofDigits (first :: others) = x.digits
  length : x.digits < 10 ^ (others.length + 1)
  bound : 10 ^ 0 * x.digits ≤ 10 ^ 17

namespace HasDigits

variable {x : Fp.Decimal} {first : Char} {others : List Char}

/-- The zeros of the exponent stand before the point, and one more behind it. -/
theorem spells_whole (h : HasDigits x first others) (negative : Bool) (hexponent : 0 ≤ x.exponent)
    (hmost : x.exponent + others.length ≤ 15) :
    Numeral.Spells ⟨negative, first :: others ++ List.replicate x.exponent.toNat '0', some ['0'],
      none⟩ x := by
  refine .of_digits (x.exponent.toNat + 1) ⟨isWhole_cons _ h.nonzero, ?_, ?_⟩ (.inl rfl) ?_
    (by simp; omega) ?_
  · intro c hc
    rcases List.mem_append.mp hc with hc | hc
    · exact h.digits c hc
    · exact isDigit_of_mem_zeros hc
  · rintro ds ⟨⟩
    exact ⟨by simp, by simp⟩
  · rw [Numeral.digits]
    dsimp only
    rw [Fp.ofDigits_append, Fp.ofDigits_append (first :: others), Fp.ofDigits_zeros, h.value,
      List.length_replicate]
    show 10 ^ 1 * _ + 0 = _
    ring
  · calc 10 ^ (x.exponent.toNat + 1) * x.digits
        ≤ 10 ^ (x.exponent.toNat + 1) * 10 ^ (others.length + 1) :=
          Nat.mul_le_mul_left _ h.length.le
      _ = 10 ^ (x.exponent.toNat + 1 + (others.length + 1)) := (Nat.pow_add ..).symm
      _ ≤ 10 ^ 17 := Nat.pow_le_pow_right (by decide) (by omega)

/-- The point stands among the digits. -/
theorem spells_point (h : HasDigits x first others) (negative : Bool) {k : Nat}
    (hk : x.exponent + others.length = k) (hexponent : x.exponent < 0) :
    Numeral.Spells ⟨negative, (first :: others).take (k + 1), some ((first :: others).drop (k + 1)),
      none⟩ x := by
  refine .of_digits 0 ⟨isWhole_cons _ h.nonzero, ?_, ?_⟩ (.inl rfl) ?_ (by simp; omega) h.bound
  · exact fun c hc => h.digits c (List.mem_of_mem_take hc)
  · rintro ds ⟨⟩
    exact ⟨by simp; omega, fun c hc => h.digits c (List.mem_of_mem_drop hc)⟩
  · rw [Numeral.digits]
    dsimp only
    rw [Option.getD_some, List.take_append_drop, h.value, Nat.pow_zero, Nat.one_mul]

/-- The digits stand behind the point and zeros. -/
theorem spells_fraction (h : HasDigits x first others) (negative : Bool) {k : Nat}
    (hk : x.exponent + others.length + 1 = -k) :
    Numeral.Spells ⟨negative, ['0'], some (List.replicate k '0' ++ first :: others), none⟩ x := by
  refine .of_digits 0 ⟨rfl, by simp, ?_⟩ (.inl rfl) ?_ (by simp; omega) h.bound
  · rintro ds ⟨⟩
    refine ⟨by simp, fun c hc => ?_⟩
    rcases List.mem_append.mp hc with hc | hc
    · exact isDigit_of_mem_zeros hc
    · exact h.digits c hc
  · rw [Numeral.digits]
    dsimp only
    rw [Option.getD_some, Fp.ofDigits_append, Fp.ofDigits_append, Fp.ofDigits_zeros, h.value]
    show _ * 0 + _ = _
    simp

/-- One digit stands before the point and an exponent follows. -/
theorem spells_exponent (h : HasDigits x first others) (negative : Bool) :
    Numeral.Spells ⟨negative, [first], if others.isEmpty then none else some others,
      some (x.exponent + others.length)⟩ x := by
  have hgetD : (if others.isEmpty then none else some others).getD [] = others := by
    cases others <;> rfl
  refine .of_digits 0 ⟨isWhole_cons _ h.nonzero, ?_, ?_⟩ (.inr rfl) ?_ ?_ h.bound
  · exact fun c hc => h.digits c (List.mem_of_mem_head? (List.mem_singleton.mp hc ▸ rfl))
  · intro ds hds
    split at hds
    · cases hds
    · next hne =>
      cases hds
      exact ⟨by simpa using hne, fun c hc => h.digits c (List.mem_cons_of_mem _ hc)⟩
  · rw [Numeral.digits, hgetD, List.singleton_append, h.value, Nat.pow_zero, Nat.one_mul]
  · rw [hgetD]
    dsimp only [Option.getD_some]
    omega

end HasDigits

/-- A decimal in a layout is the text of a numeral that stands for it. -/
theorem exists_numeral {layout : Fp.Layout} (hlayout : layout.mostPositional ≤ 15)
    (negative : Bool) {x : Fp.Decimal} (hpos : 0 < x.digits) (hx : x.digits ≤ 10 ^ 17) :
    ∃ n : Numeral, n.negative = negative ∧ n.Spells x ∧ n.body = (x.render layout).toList := by
  obtain ⟨first, others, hcons, hfirst⟩ := Fp.toDigits_eq_cons hpos
  have h : HasDigits x first others := by
    refine ⟨fun c hc => isDigit_of_mem_toDigits (hcons ▸ hc), hfirst, ?_, ?_, by omega⟩
    · rw [← hcons, Fp.ofDigits_toDigits]
    · have := Fp.lt_pow_digitCount x.digits
      rwa [Fp.digitCount, hcons] at this
  rw [Fp.Decimal.render, String.toList_ofList]
  dsimp only
  rw [hcons, List.length_cons, Nat.add_sub_cancel]
  split
  · next hpositional =>
    split
    · next hexponent =>
      exact ⟨_, rfl, h.spells_whole negative hexponent (by omega),
        by simp [Numeral.body, fractionText, exponentText]⟩
    · split
      · exact ⟨_, rfl, h.spells_point negative (Int.toNat_of_nonneg ‹_›).symm (by omega),
          by simp [Numeral.body, fractionText, exponentText]⟩
      · refine ⟨_, rfl, h.spells_fraction negative (k := (-(x.exponent + others.length) - 1).toNat)
          (by omega), by simp [Numeral.body, fractionText, exponentText]⟩
  · refine ⟨_, rfl, h.spells_exponent negative, ?_⟩
    cases others <;> simp [Numeral.body, fractionText, exponentText]

/-- A finite number is written as a numeral that is read as the number. -/
theorem exists_numeral_writeFp {f : Fp.Format} (hf : f.Common) {x : Fp f}
    (h : x.isFinite = true) :
    ∃ n : Numeral, n.Proper ∧ n.text = (writeFp x).toList ∧
      n.json = .decimal x.negative n.decimal ∧ Fp.nearest? f x.negative n.decimal = some x := by
  obtain ⟨m, q, hx⟩ := Fp.isFinite_iff.mp h
  have hsign : (if x.negative then "-" else "").toList = if x.negative then ['-'] else [] := by
    split <;> rfl
  rw [writeFp, if_pos h, Fp.render, hx]
  dsimp only
  rw [String.toList_append, hsign]
  rcases Nat.eq_zero_or_pos m with rfl | hm
  · have hspells : Numeral.Spells ⟨x.negative, ['0'], some ['0'], none⟩ ⟨0, 0⟩ :=
      .of_digits 1 ⟨rfl, by simp, by simp⟩ (.inl rfl) rfl rfl (by decide)
    refine ⟨_, hspells.toProper, ?_, hspells.json,
      Fp.nearest?_of_spells hf hx ⟨fun _ => rfl, ?_, ?_⟩⟩
    · rw [if_pos rfl]
      rfl
    · exact fun hpos => absurd hpos (lt_irrefl 0)
    · exact (Numeral.digits_decimal_le _).trans hspells.bound
  · obtain ⟨hrounds, hdigits⟩ := Fp.shortest_spec layout.tie hf.fits (Fp.of_shape hx).1 hm
    have hlayout : layout.mostPositional ≤ 15 := by decide
    obtain ⟨n, hnegative, hspells, hbody⟩ :=
      exists_numeral hlayout x.negative (Fp.Decimal.digits_pos (hrounds.pos hm)) hdigits
    refine ⟨n, hspells.toProper, ?_, hnegative ▸ hspells.json,
      Fp.nearest?_of_spells hf hx ⟨?_, ?_, ?_⟩⟩
    · rw [if_neg hm.ne', ← hbody, Numeral.text, hnegative]
    · exact fun hzero => absurd hzero hm.ne'
    · intro _
      rwa [n.value_decimal, hspells.value]
    · exact n.digits_decimal_le.trans hspells.bound

end Json

end Concolic
