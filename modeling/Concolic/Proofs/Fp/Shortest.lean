import Concolic.Proofs.Fp.Round

/-!
# The shortest decimal reads back

* `decimalExponent_spec`: the exponent is the smallest power of ten above the number.
* `Interval.search_spec`: the search stops at the first grid with a neighbour in the interval; on a
  grid that is finer than the interval there is one (`nearest?_ne_none`).
* `shortest_spec`: so the search ends within seventeen digits, with a decimal in the interval around
  the number, and such a decimal rounds to it (`roundsTo_of_contains`).
* `Spells f m q y`: the decimal rounds to `m * 2 ^ q` and is short enough. It is read as the number
  (`nearest?_of_spells`), for formats that are `Common`.
-/

namespace Concolic.Fp

/-- The number that a decimal stands for. -/
def Decimal.value (x : Decimal) : Rat := x.digits * 10 ^ x.exponent

theorem Decimal.digits_pos {x : Decimal} (h : 0 < x.value) : 0 < x.digits := by
  refine Nat.pos_of_ne_zero fun hzero => ?_
  rw [value, hzero, Nat.cast_zero, zero_mul] at h
  exact lt_irrefl _ h

/-! ## Numbers of digits -/

theorem digitCount_pos (n : Nat) : 0 < digitCount n := Nat.length_toDigits_pos

theorem lt_pow_digitCount (n : Nat) : n < 10 ^ digitCount n :=
  (Nat.length_toDigits_le_iff (by decide) (digitCount_pos n)).mp (le_refl _)

private theorem pow_le_of_pos {n : Nat} (hn : 0 < n) : 10 ^ (digitCount n - 1) ≤ n := by
  by_contra! h
  by_cases hone : digitCount n = 1
  · rw [hone, Nat.sub_self, Nat.pow_zero] at h
    omega
  · have hpos := digitCount_pos n
    have : digitCount n ≤ digitCount n - 1 :=
      (Nat.length_toDigits_le_iff (by decide) (by omega)).mpr h
    omega

/-- The decimal exponent is the smallest `k` with `n / d < 10 ^ k`. -/
theorem decimalExponent_spec {n d : Nat} (hn : 0 < n) (hd : 0 < d) :
    10 ^ (decimalExponent n d - 1) ≤ (n / d : Rat) ∧ (n / d : Rat) < 10 ^ decimalExponent n d := by
  have hn' : (0 : Rat) < n := by exact_mod_cast hn
  have hd' : (0 : Rat) < d := by exact_mod_cast hd
  unfold decimalExponent
  split
  · next h =>
    have hquot : 0 < n / d := Nat.div_pos h hd
    have hlow := pow_le_of_pos hquot
    have hhigh := lt_pow_digitCount (n / d)
    have hpos := digitCount_pos (n / d)
    generalize digitCount (n / d) = k at *
    rw [Nat.le_div_iff_mul_le hd] at hlow
    rw [Nat.div_lt_iff_lt_mul hd] at hhigh
    constructor
    · rw [le_div_iff₀ hd', show (k : Int) - 1 = (k - 1 : Nat) by omega, zpow_natCast]
      exact_mod_cast hlow
    · rw [div_lt_iff₀ hd', zpow_natCast]
      exact_mod_cast hhigh
  · next h =>
    have hquot : 0 < (d - 1) / n := Nat.div_pos (by omega) hn
    have hlow := pow_le_of_pos hquot
    have hhigh := lt_pow_digitCount ((d - 1) / n)
    have hpos := digitCount_pos ((d - 1) / n)
    generalize digitCount ((d - 1) / n) = k at *
    rw [Nat.le_div_iff_mul_le hn] at hlow
    rw [Nat.div_lt_iff_lt_mul hn] at hhigh
    constructor
    · rw [show 1 - (k : Int) - 1 = -(k : Int) by omega, zpow_neg, zpow_natCast, le_div_iff₀ hd',
        inv_mul_le_iff₀ (by positivity)]
      have : d ≤ 10 ^ k * n := by omega
      exact_mod_cast this
    · rw [show 1 - (k : Int) = -((k - 1 : Nat) : Int) by omega, zpow_neg, zpow_natCast,
        div_lt_iff₀ hd', lt_inv_mul_iff₀ (by positivity)]
      have : 10 ^ (k - 1) * n < d := by omega
      exact_mod_cast this

/-! ## Intervals -/

/-- `10 ^ e` as a quotient of natural numbers, one of which is one. -/
private theorem ten_zpow_eq (e : Int) :
    0 < (if 0 ≤ e then 1 else Nat.pow 10 (-e).toNat) ∧
      0 < (if 0 ≤ e then Nat.pow 10 e.toNat else 1) ∧
      ((if 0 ≤ e then Nat.pow 10 e.toNat else 1 : Nat) : Rat) =
        10 ^ e * (if 0 ≤ e then 1 else Nat.pow 10 (-e).toNat : Nat) := by
  split
  · next h =>
    refine ⟨Nat.one_pos, Nat.pow_pos (by decide), ?_⟩
    rw [zpow_of_nonneg 10 h]
    simp
  · next h =>
    refine ⟨Nat.pow_pos (by decide), Nat.one_pos, ?_⟩
    rw [zpow_of_neg 10 (by omega)]
    simp

theorem Tie.nearest_eq (tie : Tie) (n d : Nat) :
    tie.nearest n d = n / d ∨ tie.nearest n d = n / d + 1 := by
  unfold Tie.nearest
  dsimp only
  split
  · exact .inl rfl
  · exact .inr rfl

namespace Interval

variable {i : Interval}

def lowest (i : Interval) : Rat := i.low / i.unit

def number (i : Interval) : Rat := i.value / i.unit

def highest (i : Interval) : Rat := i.high / i.unit

/-- The ends belong to a closed interval. -/
theorem contains_iff (hunit : 0 < i.unit) (c : Nat) (e : Int) :
    i.contains c e = true ↔
      if i.closed then i.lowest ≤ c * 10 ^ e ∧ c * 10 ^ e ≤ i.highest
      else i.lowest < c * 10 ^ e ∧ c * 10 ^ e < i.highest := by
  have hunit' : (0 : Rat) < i.unit := by exact_mod_cast hunit
  obtain ⟨hdown, -, hscale⟩ := ten_zpow_eq e
  unfold contains lowest highest
  simp only [div_le_iff₀ hunit', le_div_iff₀ hunit', div_lt_iff₀ hunit', lt_div_iff₀ hunit']
  generalize (if 0 ≤ e then Nat.pow 10 e.toNat else 1) = up at *
  generalize (if 0 ≤ e then 1 else Nat.pow 10 (-e).toNat) = down at *
  have hdown' : (0 : Rat) < down := by exact_mod_cast hdown
  have hprod : ((c * up * i.unit : Nat) : Rat) = c * 10 ^ e * i.unit * down := by
    push_cast
    rw [hscale]
    ring
  have hle (k : Nat) : k * down ≤ c * up * i.unit ↔ (k : Rat) ≤ c * 10 ^ e * i.unit := by
    rw [← Nat.cast_le (α := Rat), hprod, Nat.cast_mul, mul_le_mul_iff_left₀ hdown']
  have hge (k : Nat) : c * up * i.unit ≤ k * down ↔ c * 10 ^ e * i.unit ≤ (k : Rat) := by
    rw [← Nat.cast_le (α := Rat), hprod, Nat.cast_mul, mul_le_mul_iff_left₀ hdown']
  split
  · simp only [Bool.and_eq_true, decide_eq_true_eq, hle, hge]
  · simp only [Bool.and_eq_true, decide_eq_true_eq, ← not_le, hle, hge]

/-- `nearest?` takes one of the two neighbours of the number on the grid, and none only if neither
lies in the interval. -/
theorem nearest?_cases (hunit : 0 < i.unit) (tie : Tie) (e : Int) :
    ∃ c : Nat, c * 10 ^ e ≤ i.number ∧ i.number < (c + 1) * 10 ^ e ∧
      ((∃ k, (k = c ∨ k = c + 1) ∧ i.contains k e = true ∧ i.nearest? tie e = some ⟨k, e⟩) ∨
        i.nearest? tie e = none ∧ i.contains c e = false ∧ i.contains (c + 1) e = false) := by
  have hunit' : (0 : Rat) < i.unit := by exact_mod_cast hunit
  obtain ⟨hdown, hup, hscale⟩ := ten_zpow_eq e
  unfold nearest?
  dsimp only
  generalize (if 0 ≤ e then Nat.pow 10 e.toNat else 1) = up at *
  generalize (if 0 ≤ e then 1 else Nat.pow 10 (-e).toNat) = down at *
  have hdown' : (0 : Rat) < down := by exact_mod_cast hdown
  have hfloor (k : Nat) : k * (i.unit * up) ≤ i.value * down ↔ k * 10 ^ e ≤ i.number := by
    rw [number, le_div_iff₀ hunit', ← Nat.cast_le (α := Rat)]
    push_cast
    rw [hscale, show (k : Rat) * (i.unit * (10 ^ e * down)) = k * 10 ^ e * i.unit * down by ring,
      mul_le_mul_iff_left₀ hdown']
  have hpos : 0 < i.unit * up := Nat.mul_pos hunit hup
  refine ⟨i.value * down / (i.unit * up), (hfloor _).mp (Nat.div_mul_le_self _ _), ?_, ?_⟩
  · rw [← not_le, ← Nat.cast_add_one, ← hfloor, not_le]
    exact (Nat.div_lt_iff_lt_mul hpos).mp (Nat.lt_succ_self _)
  · generalize hc : i.value * down / (i.unit * up) = c
    split
    · next hlow hhigh =>
      rcases tie.nearest_eq (i.value * down) (i.unit * up) with h | h <;> rw [h, hc]
      · exact .inl ⟨c, .inl rfl, hlow, rfl⟩
      · exact .inl ⟨c + 1, .inr rfl, hhigh, rfl⟩
    · next hlow _ => exact .inl ⟨c, .inl rfl, hlow, rfl⟩
    · next _ hhigh => exact .inl ⟨c + 1, .inr rfl, hhigh, rfl⟩
    · next hlow hhigh => exact .inr ⟨rfl, hlow, hhigh⟩

/-- On a grid that is finer than the interval one of the two neighbours lies in it. -/
theorem nearest?_ne_none {tie : Tie} {e : Int} (hunit : 0 < i.unit) (hlow : i.lowest < i.number)
    (hhigh : i.number < i.highest) (hgrid : 10 ^ e < i.highest - i.lowest) :
    i.nearest? tie e ≠ none := by
  obtain ⟨c, hc, hd, ⟨k, -, -, hk⟩ | ⟨-, hnotlow, hnothigh⟩⟩ := nearest?_cases hunit tie e
  · rw [hk]
    exact Option.some_ne_none _
  · rw [← Bool.not_eq_true, contains_iff hunit] at hnotlow hnothigh
    push_cast at hnothigh
    have hbelow : c * 10 ^ e ≤ i.lowest := by
      split at hnotlow
      · exact le_of_not_ge fun hle => hnotlow ⟨hle, hc.trans hhigh.le⟩
      · exact le_of_not_gt fun hlt => hnotlow ⟨hlt, hc.trans_lt hhigh⟩
    have habove : i.highest ≤ (c + 1) * 10 ^ e := by
      split at hnothigh
      · exact le_of_not_ge fun hle => hnothigh ⟨hlow.le.trans hd.le, hle⟩
      · exact le_of_not_gt fun hlt => hnothigh ⟨hlow.trans hd, hlt⟩
    linarith

/-- What is found on a grid lies in the interval, and it is not far from the number. -/
theorem of_nearest? {tie : Tie} {e : Int} {x : Decimal} (hunit : 0 < i.unit)
    (h : i.nearest? tie e = some x) :
    x.exponent = e ∧ i.contains x.digits e = true ∧ x.digits * 10 ^ e ≤ i.number + 10 ^ e := by
  obtain ⟨c, hc, -, ⟨k, hk, hcontains, hsome⟩ | ⟨hnone, -⟩⟩ := nearest?_cases hunit tie e
  · rw [h] at hsome
    cases hsome
    refine ⟨rfl, hcontains, ?_⟩
    have : (k : Rat) ≤ c + 1 := by
      have : k ≤ c + 1 := by omega
      exact_mod_cast this
    calc (k : Rat) * 10 ^ e ≤ (c + 1) * 10 ^ e := by gcongr
      _ ≤ i.number + 10 ^ e := by linarith
  · rw [h] at hnone
    cases hnone

/-- The search ends on the first grid with a neighbour in the interval, if there is one. -/
theorem search_spec (tie : Tie) (top : Int) (last : Nat)
    (hlast : i.nearest? tie (top - last) ≠ none) {fuel count : Nat} (hcount : count ≤ last)
    (hfuel : last < count + fuel) :
    ∃ n, n ≤ last ∧ i.nearest? tie (top - n) = some (i.search tie top fuel count) := by
  induction fuel generalizing count with
  | zero => omega
  | succ fuel ih =>
    unfold search
    split
    · next x hx => exact ⟨count, hcount, hx⟩
    · next hnone =>
      have hne : count ≠ last := fun h => hlast (h ▸ hnone)
      exact ih (by omega) (by omega)

end Interval

/-! ## The shortest decimal -/

/-- Moving zeros does not change the number. -/
theorem Decimal.value_strip (fuel : Nat) (x : Decimal) : (x.strip fuel).value = x.value := by
  induction fuel generalizing x with
  | zero => rfl
  | succ fuel ih =>
    unfold strip
    split
    · next h =>
      rw [ih, value, value, zpow_add_one₀ (by norm_num)]
      have : (x.digits : Rat) = (x.digits / 10 : Nat) * 10 := by
        have : x.digits = x.digits / 10 * 10 := by omega
        exact_mod_cast this
      rw [this]
      ring
    · rfl

theorem Decimal.strip_le (fuel : Nat) (x : Decimal) : (x.strip fuel).digits ≤ x.digits := by
  induction fuel generalizing x with
  | zero => exact le_refl _
  | succ fuel ih =>
    unfold strip
    split
    · exact (ih _).trans (Nat.div_le_self _ _)
    · exact le_refl _

variable {f : Format} {m : Nat} {q : Int}

/-- How far the numbers that round to `m * 2 ^ q` reach below it, in units. -/
def reach (f : Format) (m : Nat) (q : Int) : Rat :=
  if m = 2 ^ f.fractionBits ∧ f.minExponent < q then 1 / 4 else 1 / 2

theorem reach_cases (f : Format) (m : Nat) (q : Int) :
    reach f m q = 1 / 4 ∧ m = 2 ^ f.fractionBits ∧ f.minExponent < q ∨
      reach f m q = 1 / 2 ∧ ¬(m = 2 ^ f.fractionBits ∧ f.minExponent < q) := by
  unfold reach
  split
  · next h => exact .inl ⟨rfl, h⟩
  · next h => exact .inr ⟨rfl, h⟩

namespace Interval

theorem around_unit (f : Format) (m : Nat) (q : Int) : 0 < (around f m q).unit :=
  (quotient_eq 1 (q - 2)).1

theorem around_scale (q : Int) :
    4 * ((quotient 1 (q - 2)).1 : Rat) / (quotient 1 (q - 2)).2 = 2 ^ q := by
  rw [mul_div_assoc, (quotient_eq 1 (q - 2)).2, zpow_sub₀ two_ne_zero]
  norm_num
  ring

theorem around_number (f : Format) (m : Nat) (q : Int) : (around f m q).number = m * 2 ^ q := by
  rw [← around_scale q]
  unfold around number
  push_cast
  ring

theorem around_highest (f : Format) (m : Nat) (q : Int) :
    (around f m q).highest = (m + 1 / 2) * 2 ^ q := by
  rw [← around_scale q]
  unfold around highest
  push_cast
  ring

theorem around_lowest (f : Format) (hm : 0 < m) (q : Int) :
    (around f m q).lowest = (m - reach f m q) * 2 ^ q := by
  have hgap (gap : Nat) (h : gap ≤ 2) : ((4 * m - gap : Nat) : Rat) = 4 * m - gap := by
    push_cast [show gap ≤ 4 * m by omega]
    rfl
  rw [← around_scale q]
  unfold around lowest reach
  dsimp only
  push_cast
  rw [hgap _ (by split <;> decide), Nat.pow_eq]
  split <;> push_cast <;> ring

/-- A decimal in the interval around a number rounds to it. -/
theorem roundsTo_of_contains (hm : 0 < m) {c : Nat} {e : Int}
    (h : (around f m q).contains c e = true) : RoundsTo f m q (c * 10 ^ e) := by
  have hbelow : (m - 1 / 2) * 2 ^ q ≤ (m - reach f m q) * 2 ^ q := by
    have : reach f m q ≤ 1 / 2 := by
      rcases reach_cases f m q with ⟨h, -⟩ | ⟨h, -⟩ <;> norm_num [h]
    gcongr
  have hdense (hpower : m = 2 ^ f.fractionBits) (hq : f.minExponent < q) : reach f m q = 1 / 4 :=
    if_pos ⟨hpower, hq⟩
  have hclosed : (around f m q).closed = decide (m % 2 = 0) := rfl
  rw [contains_iff (around_unit f m q), around_highest, around_lowest f hm, hclosed] at h
  by_cases heven : m % 2 = 0
  · rw [if_pos (decide_eq_true heven)] at h
    obtain ⟨hlow, hhigh⟩ := h
    refine ⟨hbelow.trans hlow, hhigh, fun hodd => by omega, fun hpower hq => ?_⟩
    rwa [hdense hpower hq] at hlow
  · rw [if_neg (by simpa using heven)] at h
    obtain ⟨hlow, hhigh⟩ := h
    refine ⟨hbelow.trans hlow.le, hhigh.le, fun _ => ⟨hbelow.trans_lt hlow, hhigh⟩,
      fun hpower hq => ?_⟩
    rw [hdense hpower hq] at hlow
    exact hlow.le

end Interval

/-- Sixteen digits after the first one are finer than the numbers of the format. -/
theorem shortest_finer (hfits : 2 ^ (f.fractionBits + 1) ≤ 10 ^ 16) (hc : Canonical f m q)
    (hm : 0 < m) {top : Int} (htop : (10 : Rat) ^ (top - 1) ≤ m * 2 ^ q) :
    (10 : Rat) ^ (top - 17) < (Interval.around f m q).highest - (Interval.around f m q).lowest := by
  have hpos : (0 : Rat) < 2 ^ q := by positivity
  have hfits' : (2 : Rat) * (2 ^ f.fractionBits : Nat) ≤ 10 ^ 16 := by
    rw [Nat.pow_succ, Nat.mul_comm] at hfits
    exact_mod_cast hfits
  have hm' : (m : Rat) < 2 * (2 ^ f.fractionBits : Nat) := by
    have := hc.fits
    rw [Nat.pow_succ, Nat.mul_comm] at this
    exact_mod_cast this
  have hsplit : (10 : Rat) ^ (top - 1) = 10 ^ (top - 17) * 10 ^ 16 := by
    rw [show top - 1 = top - 17 + (16 : Nat) by omega, zpow_add₀ (by norm_num), zpow_natCast]
  rw [Interval.around_highest, Interval.around_lowest f hm, ← sub_mul]
  have hunits : (m : Rat) < (m + 1 / 2 - (m - reach f m q)) * 10 ^ 16 := by
    rcases reach_cases f m q with ⟨h, hpower, -⟩ | ⟨h, -⟩ <;> rw [h]
    · rw [← hpower] at hfits'
      linarith
    · linarith
  have : (10 : Rat) ^ (top - 17) * 10 ^ 16 <
      (m + 1 / 2 - (m - reach f m q)) * 2 ^ q * 10 ^ 16 := by
    calc (10 : Rat) ^ (top - 17) * 10 ^ 16 ≤ m * 2 ^ q := hsplit ▸ htop
      _ < (m + 1 / 2 - (m - reach f m q)) * 10 ^ 16 * 2 ^ q := by gcongr
      _ = _ := by ring
  exact lt_of_mul_lt_mul_right this (by positivity)

/-- The shortest decimal of a positive number rounds to it and has at most seventeen digits. -/
theorem shortest_spec (tie : Tie) (hfits : 2 ^ (f.fractionBits + 1) ≤ 10 ^ 16)
    (hc : Canonical f m q) (hm : 0 < m) :
    RoundsTo f m q (shortest tie f m q).value ∧ (shortest tie f m q).digits ≤ 10 ^ 17 := by
  have hm' : (0 : Rat) < m := by exact_mod_cast hm
  have hunit := Interval.around_unit f m q
  have hnumber := Interval.around_number f m q
  have hpos : 0 < (Interval.around f m q).number := by rw [hnumber]; positivity
  have hvalue : 0 < (Interval.around f m q).value := by
    refine Nat.pos_of_ne_zero fun hzero => hpos.ne' ?_
    rw [Interval.number, hzero, Nat.cast_zero, zero_div]
  obtain ⟨htop, hbelow⟩ := decimalExponent_spec hvalue hunit
  rw [← Interval.number, hnumber] at htop hbelow
  unfold shortest
  dsimp only
  generalize decimalExponent (Interval.around f m q).value (Interval.around f m q).unit = top at *
  have hlast : (Interval.around f m q).nearest? tie (top - (17 : Nat)) ≠ none := by
    refine Interval.nearest?_ne_none hunit ?_ ?_ (shortest_finer hfits hc hm htop)
    · rw [Interval.around_lowest f hm, hnumber]
      have : 0 < reach f m q := by
        rcases reach_cases f m q with ⟨h, -⟩ | ⟨h, -⟩ <;> norm_num [h]
      gcongr
      linarith
    · rw [Interval.around_highest, hnumber]
      gcongr
      linarith
  obtain ⟨n, hn, hfound⟩ :=
    Interval.search_spec tie top 17 hlast (by decide : 1 ≤ 17) (by decide : 17 < 1 + 17)
  obtain ⟨hexponent, hcontains, hnear⟩ := Interval.of_nearest? hunit hfound
  generalize (Interval.around f m q).search tie top 17 1 = x at *
  constructor
  · rw [Decimal.value_strip, Decimal.value, hexponent]
    exact Interval.roundsTo_of_contains hm hcontains
  · have hten : (10 : Rat) ^ top = 10 ^ n * 10 ^ (top - n) := by
      rw [zpow_sub₀ (by norm_num), zpow_natCast, mul_div_cancel₀ _ (by positivity)]
    have hdigits : (x.digits : Rat) * 10 ^ (top - n) < (10 ^ n + 1) * 10 ^ (top - n) := by
      rw [add_mul, one_mul, ← hten]
      linarith
    have hlt : (x.digits : Rat) < 10 ^ n + 1 := lt_of_mul_lt_mul_right hdigits (by positivity)
    have hle : x.digits ≤ 10 ^ n := by
      have : x.digits < 10 ^ n + 1 := by exact_mod_cast hlt
      omega
    exact (x.strip_le 20).trans (hle.trans (Nat.pow_le_pow_right (by decide) hn))

/-! ## Reading decimals -/

/-- What `shortest` and `nearest?` take for granted of a format. -/
structure Format.Common (f : Format) : Prop where
  fits : 2 ^ (f.fractionBits + 1) ≤ 10 ^ 16
  ties : 10 ^ 17 ≤ f.tieDigits
  least : -1300 ≤ f.minExponent
  most : f.minExponent + 2 ^ f.exponentBits + f.fractionBits ≤ 1300

theorem Format.single_common : Format.single.Common :=
  ⟨by decide, by decide +kernel, by decide, by decide⟩

theorem Format.double_common : Format.double.Common :=
  ⟨by decide, by decide +kernel, by decide, by decide⟩

/-- The bounds of a decimal by its number of digits. -/
theorem Decimal.value_bounds {x : Decimal} (hx : 0 < x.digits) :
    10 ^ (x.exponent + digitCount x.digits - 1) ≤ x.value ∧
      x.value < 10 ^ (x.exponent + digitCount x.digits) := by
  have hpos := digitCount_pos x.digits
  have hlow : ((10 ^ (digitCount x.digits - 1) : Nat) : Rat) ≤ x.digits := by
    exact_mod_cast pow_le_of_pos hx
  have hhigh : (x.digits : Rat) < (10 ^ digitCount x.digits : Nat) := by
    exact_mod_cast lt_pow_digitCount x.digits
  push_cast at hlow hhigh
  unfold value
  constructor
  · rw [show x.exponent + digitCount x.digits - 1 = (digitCount x.digits - 1 : Nat) + x.exponent by
      omega, zpow_add₀ (by norm_num), zpow_natCast]
    gcongr
  · rw [add_comm, zpow_add₀ (by norm_num), zpow_natCast]
    gcongr

/-- What rounds to a number of the format is in the range that `ofDecimal` computes out. -/
theorem RoundsTo.range {v : Rat} (hf : f.Common) (hc : Canonical f m q) (hm : 0 < m)
    (hfinite : encode f m q < f.infinity) (h : RoundsTo f m q v) :
    10 ^ (-400 : Int) < v ∧ v < 10 ^ (400 : Int) := by
  have hone : (1 : Rat) < 2 := one_lt_two
  have hm' : (1 : Rat) ≤ m := by exact_mod_cast hm
  have hleast := hc.least
  have hrange : (2 : Rat) ^ 1301 < 10 ^ 400 := by
    have : 2 ^ 1301 < 10 ^ 400 := by decide +kernel
    exact_mod_cast this
  have hq : q < f.minExponent + (2 ^ f.exponentBits : Nat) := by
    have hlt : (q - f.minExponent).toNat * 2 ^ f.fractionBits <
        2 ^ f.exponentBits * 2 ^ f.fractionBits :=
      calc (q - f.minExponent).toNat * 2 ^ f.fractionBits ≤ encode f m q := Nat.le_add_right _ _
        _ < f.infinity := hfinite
        _ ≤ 2 ^ f.exponentBits * 2 ^ f.fractionBits := Nat.mul_le_mul_right _ (Nat.sub_le _ _)
    have := Nat.lt_of_mul_lt_mul_right hlt
    omega
  constructor
  · calc (10 : Rat) ^ (-400 : Int) < 2 ^ (-1301 : Int) := by
          rw [zpow_neg, zpow_neg]
          exact inv_strictAnti₀ (by positivity) (by exact_mod_cast hrange)
      _ ≤ 2 ^ (q - 1) := (zpow_le_zpow_iff_right₀ hone).mpr (by have := hf.least; omega)
      _ = 1 / 2 * 2 ^ q := by rw [zpow_sub_one₀ two_ne_zero]; ring
      _ ≤ (m - 1 / 2) * 2 ^ q := by gcongr; linarith
      _ ≤ v := h.low
  · calc v < 2 ^ (q + (f.fractionBits + 1 : Nat)) := h.lt_top hc
      _ ≤ 2 ^ (1301 : Int) :=
          (zpow_le_zpow_iff_right₀ hone).mpr (by have := hf.most; push_cast at *; omega)
      _ < 10 ^ (400 : Int) := by exact_mod_cast hrange

/-- A decimal that rounds to a number is read as the number. -/
theorem ofDecimal_of_roundsTo {x : Fp f} (hf : f.Common) (hx : x.shape = .finite m q) (hm : 0 < m)
    {y : Decimal} (h : RoundsTo f m q y.value) : ofDecimal f x.negative y = x := by
  obtain ⟨hleast, hmost⟩ := h.range hf (of_shape hx).1 hm (encode_lt_infinity hx)
  have hpos : 0 < y.digits := Decimal.digits_pos (h.pos hm)
  obtain ⟨hlow, hhigh⟩ := y.value_bounds hpos
  have hone : (1 : Rat) < 10 := by norm_num
  have hbelow := (zpow_lt_zpow_iff_right₀ hone).mp (hleast.trans hhigh)
  have habove := (zpow_lt_zpow_iff_right₀ hone).mp (hlow.trans_lt hmost)
  unfold ofDecimal
  dsimp only
  rw [if_neg (by omega), if_neg (by omega)]
  split
  · next he =>
    refine ofRatio_of_roundsTo hx hm Nat.one_pos ?_
    have : ((y.digits * Nat.pow 10 y.exponent.toNat : Nat) : Rat) / (1 : Nat) = y.value := by
      rw [Decimal.value, zpow_of_nonneg 10 he]
      simp
    rwa [this]
  · next he =>
    refine ofRatio_of_roundsTo hx hm (Nat.pow_pos (by decide)) ?_
    have : (y.digits : Rat) / (Nat.pow 10 (-y.exponent).toNat : Nat) = y.value := by
      rw [Decimal.value, zpow_of_neg 10 (by omega), div_eq_mul_inv]
      simp
    rwa [this]

/-- A zero of either sign has no magnitude. -/
theorem ofMagnitude_of_shape {x : Fp f} (hx : x.shape = .finite 0 q) :
    ofMagnitude x.negative 0 = x := by
  obtain ⟨hc, hencode⟩ := of_shape hx
  have hq : q = f.minExponent :=
    hc.full.resolve_right (not_le.mpr (Nat.two_pow_pos f.fractionBits))
  have hzero : encode f 0 q = 0 := by rw [encode, hq, sub_self, Int.toNat_zero, Nat.zero_mul]
  rw [← hzero, hencode, ofMagnitude_magnitude]

/-- The decimal stands for zero, or it rounds to `m * 2 ^ q` and has no more digits than the
shortest one may have. -/
structure Spells (f : Format) (m : Nat) (q : Int) (y : Decimal) : Prop where
  zero : m = 0 → y.digits = 0
  roundsTo : 0 < m → RoundsTo f m q y.value
  digits : y.digits ≤ 10 ^ 17

/-- Such a decimal is read as the number. -/
theorem nearest?_of_spells {x : Fp f} (hf : f.Common) (hx : x.shape = .finite m q) {y : Decimal}
    (h : Spells f m q y) : nearest? f x.negative y = some x := by
  have hy : ofDecimal f x.negative y = x := by
    rcases Nat.eq_zero_or_pos m with rfl | hm
    · unfold ofDecimal
      dsimp only
      rw [if_pos (.inl (h.zero rfl)), ofMagnitude_of_shape hx]
    · exact ofDecimal_of_roundsTo hf hx hm (h.roundsTo hm)
  unfold nearest? Decimal.cut
  rw [if_pos (h.digits.trans hf.ties), hy]
  exact if_pos (isFinite_iff.mpr ⟨m, q, hx⟩)

end Concolic.Fp
