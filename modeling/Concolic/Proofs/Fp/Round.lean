import Concolic.Fp.Decimal
import Mathlib.Algebra.Order.Field.Power
import Mathlib.Algebra.Order.Field.Basic
import Mathlib.Tactic.GCongr
import Mathlib.Tactic.Linarith
import Mathlib.Tactic.Positivity
import Mathlib.Tactic.Ring

/-!
# Rounding gives back what was written

The exact numbers are rational, `m * 2 ^ q` for a finite magnitude. Between two neighbours of a
format lies the number halfway, which goes to the even one.

* `RoundsTo f m q v`: the number `v` lies around `m * 2 ^ q`, no further away than halfway to the
  neighbours. It is `Interval.around` as a statement.
* `roundMagnitude_of_roundsTo`: what lies so is rounded to the magnitude of `m * 2 ^ q`. Only below
  a power of two `roundMagnitude` starts with another unit than the result has, and then rounding
  carries.
* `of_shape`: the shape of a finite number is canonical and gives the magnitude.
* `ofRatio_of_roundsTo`: the two together, for a number with its sign.
-/

namespace Concolic.Fp

/-! ## Exact quotients -/

theorem zpow_of_nonneg (b : Rat) {e : Int} (h : 0 ≤ e) : b ^ e = b ^ e.toNat := by
  rw [← zpow_natCast, Int.toNat_of_nonneg h]

theorem zpow_of_neg (b : Rat) {e : Int} (h : e < 0) : b ^ e = (b ^ (-e).toNat)⁻¹ := by
  rw [← zpow_natCast, Int.toNat_of_nonneg (by omega), zpow_neg, inv_inv]

/-- The quotient is `m * 2 ^ q`. -/
theorem quotient_eq (m : Nat) (q : Int) :
    0 < (quotient m q).2 ∧ ((quotient m q).1 : Rat) / (quotient m q).2 = m * 2 ^ q := by
  unfold quotient
  by_cases h : 0 ≤ q
  · rw [if_pos h, zpow_of_nonneg 2 h]
    exact ⟨Nat.one_pos, by simp⟩
  · rw [if_neg h, zpow_of_neg 2 (by omega)]
    exact ⟨Nat.two_pow_pos _, by simp [div_eq_mul_inv]⟩

theorem divNearest_eq {n d k : Nat} (hd : 0 < d) (hlow : k - 1 / 2 ≤ (n / d : Rat))
    (hhigh : (n / d : Rat) ≤ k + 1 / 2)
    (hodd : k % 2 = 1 → k - 1 / 2 < (n / d : Rat) ∧ (n / d : Rat) < k + 1 / 2) :
    divNearest n d = k := by
  have hd' : (0 : Rat) < d := by exact_mod_cast hd
  -- the bounds without the quotient
  have hlow' : 2 * (k * d) ≤ 2 * n + d := by
    rw [le_div_iff₀ hd'] at hlow
    have : (2 * (k * d) : Rat) ≤ 2 * n + d := by linarith
    exact_mod_cast this
  have hhigh' : 2 * n ≤ 2 * (k * d) + d := by
    rw [div_le_iff₀ hd'] at hhigh
    have : (2 * n : Rat) ≤ 2 * (k * d) + d := by linarith
    exact_mod_cast this
  have hodd' (h : k % 2 = 1) : 2 * (k * d) < 2 * n + d ∧ 2 * n < 2 * (k * d) + d := by
    obtain ⟨h₁, h₂⟩ := hodd h
    rw [lt_div_iff₀ hd'] at h₁
    rw [div_lt_iff₀ hd'] at h₂
    have h₁' : (2 * (k * d) : Rat) < 2 * n + d := by linarith
    have h₂' : (2 * n : Rat) < 2 * (k * d) + d := by linarith
    exact ⟨by exact_mod_cast h₁', by exact_mod_cast h₂'⟩
  have hdiv : d * (n / d) + n % d = n := Nat.div_add_mod n d
  have hmod : n % d < d := Nat.mod_lt n hd
  unfold divNearest
  generalize n / d = c at hdiv ⊢
  generalize n % d = r at hdiv hmod ⊢
  have hle : c ≤ k := by
    by_contra! h
    have := Nat.mul_le_mul_right d (show k + 1 ≤ c from h)
    rw [Nat.add_mul, Nat.mul_comm c] at this
    omega
  have hge : k ≤ c + 1 := by
    by_contra! h
    have := Nat.mul_le_mul_right d (show c + 2 ≤ k from h)
    rw [Nat.add_mul, Nat.mul_comm c] at this
    omega
  dsimp only
  obtain rfl | rfl : c = k ∨ k = c + 1 := by omega
  · rw [Nat.mul_comm c d] at *
    split <;> omega
  · rw [Nat.add_mul, Nat.mul_comm c d] at *
    split <;> omega

/-- The number of units `2 ^ q` that is nearest to `n / d`, as `roundMagnitude` computes it. -/
theorem divNearest_units {n d k : Nat} {q : Int} (hd : 0 < d)
    (hlow : (k - 1 / 2) * 2 ^ q ≤ (n / d : Rat)) (hhigh : (n / d : Rat) ≤ (k + 1 / 2) * 2 ^ q)
    (hodd : k % 2 = 1 → (k - 1 / 2) * 2 ^ q < (n / d : Rat) ∧ (n / d : Rat) < (k + 1 / 2) * 2 ^ q) :
    (if 0 ≤ q then divNearest n (d * Nat.pow 2 q.toNat)
      else divNearest (n * Nat.pow 2 (-q).toNat) d) = k := by
  have hpos : (0 : Rat) < 2 ^ q := by positivity
  rw [← le_div_iff₀ hpos] at hlow
  rw [← div_le_iff₀ hpos] at hhigh
  rw [← lt_div_iff₀ hpos, ← div_lt_iff₀ hpos] at hodd
  split
  · next h =>
    have hunits : (n / (d * Nat.pow 2 q.toNat : Nat) : Rat) = n / d / 2 ^ q := by
      rw [zpow_of_nonneg 2 h, div_div]
      simp
    refine divNearest_eq (Nat.mul_pos hd (Nat.two_pow_pos _)) ?_ ?_ ?_ <;> rwa [hunits]
  · next h =>
    have hunits : ((n * Nat.pow 2 (-q).toNat : Nat) / d : Rat) = n / d / 2 ^ q := by
      rw [zpow_of_neg 2 (by omega), div_inv_eq_mul, div_mul_eq_mul_div]
      simp
    refine divNearest_eq hd ?_ ?_ ?_ <;> rwa [hunits]

/-- `2 ^ e ≤ n / d`, as `binaryExponent` tests it. -/
private theorem zpow_le_div_iff {n d : Nat} (hd : 0 < d) (e : Int) :
    (if 0 ≤ e then d * Nat.pow 2 e.toNat ≤ n else d ≤ n * Nat.pow 2 (-e).toNat) ↔
      2 ^ e ≤ (n / d : Rat) := by
  have hd' : (0 : Rat) < d := by exact_mod_cast hd
  rw [le_div_iff₀ hd']
  split
  · next h =>
    rw [zpow_of_nonneg 2 h, mul_comm]
    exact_mod_cast Iff.rfl
  · next h =>
    rw [zpow_of_neg 2 (by omega), inv_mul_le_iff₀ (by positivity), mul_comm]
    exact_mod_cast Iff.rfl

private theorem zpow_log2_le {n : Nat} (hn : 0 < n) : (2 : Rat) ^ (n.log2 : Int) ≤ n := by
  rw [zpow_natCast]
  exact_mod_cast Nat.log2_self_le hn.ne'

private theorem lt_zpow_log2 (n : Nat) : (n : Rat) < 2 ^ (n.log2 + 1 : Int) := by
  have h : n < 2 ^ (n.log2 + 1) := Nat.lt_log2_self
  exact_mod_cast h

theorem binaryExponent_spec {n d : Nat} (hn : 0 < n) (hd : 0 < d) :
    2 ^ binaryExponent n d ≤ (n / d : Rat) ∧ (n / d : Rat) < 2 ^ (binaryExponent n d + 1) := by
  have hd' : (0 : Rat) < d := by exact_mod_cast hd
  have htwo : (2 : Rat) ≠ 0 := two_ne_zero
  have hhigh : (n / d : Rat) < 2 ^ ((n.log2 - d.log2 : Int) + 1) := by
    rw [show (n.log2 - d.log2 : Int) + 1 = n.log2 + 1 - d.log2 by omega, zpow_sub₀ htwo]
    exact div_lt_div₀ (lt_zpow_log2 n) (zpow_log2_le hd) (by positivity) (by positivity)
  have hlow : 2 ^ ((n.log2 - d.log2 : Int) - 1) ≤ (n / d : Rat) := by
    rw [show (n.log2 - d.log2 : Int) - 1 = n.log2 - (d.log2 + 1) by omega, zpow_sub₀ htwo]
    exact div_le_div₀ (by positivity) (zpow_log2_le hn) hd' (lt_zpow_log2 d).le
  unfold binaryExponent
  simp only [zpow_le_div_iff hd]
  split
  · next h => exact ⟨h, hhigh⟩
  · next h => exact ⟨hlow, by rw [sub_add_cancel]; exact not_le.mp h⟩

/-! ## Magnitudes -/

/-- `m * 2 ^ q` is written as `shape` writes it. -/
structure Canonical (f : Format) (m : Nat) (q : Int) : Prop where
  least : f.minExponent ≤ q
  fits : m < 2 ^ (f.fractionBits + 1)
  full : q = f.minExponent ∨ 2 ^ f.fractionBits ≤ m

/-- The number rounds to `m * 2 ^ q`. -/
structure RoundsTo (f : Format) (m : Nat) (q : Int) (v : Rat) : Prop where
  low : (m - 1 / 2) * 2 ^ q ≤ v
  high : v ≤ (m + 1 / 2) * 2 ^ q
  odd : m % 2 = 1 → (m - 1 / 2) * 2 ^ q < v ∧ v < (m + 1 / 2) * 2 ^ q
  /-- Below a power of two the numbers are twice as dense. -/
  dense : m = 2 ^ f.fractionBits → f.minExponent < q → (m - 1 / 4) * 2 ^ q ≤ v

variable {f : Format} {m : Nat} {q : Int} {v : Rat}

private theorem two_zpow_add (q : Int) (k : Nat) : (2 : Rat) ^ (q + k) = (2 ^ k : Nat) * 2 ^ q := by
  rw [zpow_add₀ two_ne_zero, zpow_natCast, mul_comm]
  push_cast
  rfl

theorem RoundsTo.pos (h : RoundsTo f m q v) (hm : 0 < m) : 0 < v := by
  have hone : (1 : Rat) ≤ m := by exact_mod_cast hm
  have hpos : (0 : Rat) < (m - 1 / 2) * 2 ^ q := mul_pos (by linarith) (by positivity)
  exact hpos.trans_le h.low

/-- What rounds to a number is below the next power of two: the last number before it is odd. -/
theorem RoundsTo.lt_top (h : RoundsTo f m q v) (hc : Canonical f m q) :
    v < 2 ^ (q + (f.fractionBits + 1 : Nat)) := by
  have hpos : (0 : Rat) < 2 ^ q := by positivity
  have heven : 2 ^ (f.fractionBits + 1) % 2 = 0 := by omega
  have hfits := hc.fits
  rw [two_zpow_add]
  by_cases hodd : m % 2 = 1
  · have hm : (m : Rat) + 1 ≤ (2 ^ (f.fractionBits + 1) : Nat) := by exact_mod_cast hfits
    calc v < (m + 1 / 2) * 2 ^ q := (h.odd hodd).2
      _ ≤ (2 ^ (f.fractionBits + 1) : Nat) * 2 ^ q := by gcongr; linarith
  · have hm : (m : Rat) + 2 ≤ (2 ^ (f.fractionBits + 1) : Nat) := by
      have : m + 2 ≤ 2 ^ (f.fractionBits + 1) := by omega
      exact_mod_cast this
    calc v ≤ (m + 1 / 2) * 2 ^ q := h.high
      _ < (2 ^ (f.fractionBits + 1) : Nat) * 2 ^ q := by gcongr; linarith

/-- What rounds to a number with all fraction bits is at least a quarter of a unit below the power
of two in front of it. -/
theorem RoundsTo.ge_power (h : RoundsTo f m q v) (hfull : 2 ^ f.fractionBits ≤ m) :
    m = 2 ^ f.fractionBits ∨ 2 ^ (q + f.fractionBits) ≤ v := by
  have hpos : (0 : Rat) < 2 ^ q := by positivity
  rcases hfull.eq_or_lt with heq | hlt
  · exact .inl heq.symm
  · right
    have hm : ((2 ^ f.fractionBits : Nat) : Rat) + 1 ≤ m := by exact_mod_cast hlt
    rw [two_zpow_add]
    calc ((2 ^ f.fractionBits : Nat) : Rat) * 2 ^ q ≤ (m - 1 / 2) * 2 ^ q := by gcongr; linarith
      _ ≤ v := h.low

/-- The magnitude of `m * 2 ^ q`. -/
def encode (f : Format) (m : Nat) (q : Int) : Nat :=
  (q - f.minExponent).toNat * Nat.pow 2 f.fractionBits + m

/-- Only just below a power of two the unit of a rounded number is not that of the result. -/
theorem RoundsTo.unit {n d : Nat} (hn : 0 < n) (hd : 0 < d) (hc : Canonical f m q)
    (h : RoundsTo f m q (n / d)) :
    max (binaryExponent n d - f.fractionBits) f.minExponent = q ∨
      max (binaryExponent n d - f.fractionBits) f.minExponent = q - 1 ∧ f.minExponent < q ∧
        m = 2 ^ f.fractionBits ∧ (n / d : Rat) < 2 ^ (q + f.fractionBits) := by
  have hpos : (0 : Rat) < 2 ^ q := by positivity
  have hone : (1 : Rat) < 2 := one_lt_two
  have hleast := hc.least
  obtain ⟨hlow, hhigh⟩ := binaryExponent_spec hn hd
  generalize binaryExponent n d = e at *
  have htop : e < q + (f.fractionBits + 1 : Nat) :=
    (zpow_lt_zpow_iff_right₀ hone).mp (hlow.trans_lt (h.lt_top hc))
  by_cases hq : f.minExponent < q ∧ e < q + f.fractionBits
  · obtain ⟨hq, he⟩ := hq
    have hbelow : (n / d : Rat) < 2 ^ (q + f.fractionBits) :=
      hhigh.trans_le ((zpow_le_zpow_iff_right₀ hone).mpr (by omega))
    have hm : m = 2 ^ f.fractionBits :=
      (h.ge_power (hc.full.resolve_left (by omega))).resolve_right (not_le.mpr hbelow)
    have hhalf : (2 : Rat) ^ (q + f.fractionBits - 1) ≤ n / d := by
      have hge : (1 : Rat) ≤ (2 ^ f.fractionBits : Nat) := by exact_mod_cast Nat.one_le_two_pow
      calc (2 : Rat) ^ (q + f.fractionBits - 1) = (2 ^ f.fractionBits : Nat) / 2 * 2 ^ q := by
            rw [zpow_sub_one₀ two_ne_zero, two_zpow_add]; ring
        _ ≤ (m - 1 / 4) * 2 ^ q := by rw [hm]; gcongr; linarith
        _ ≤ n / d := h.dense hm hq
    have : q + f.fractionBits - 1 < e + 1 :=
      (zpow_lt_zpow_iff_right₀ hone).mp (hhalf.trans_lt hhigh)
    exact .inr ⟨by omega, hq, hm, hbelow⟩
  · exact .inl (by omega)

/-- Rounding what rounds to a number gives the number. -/
theorem roundMagnitude_of_roundsTo {n d : Nat} (hd : 0 < d) (hc : Canonical f m q) (hm : 0 < m)
    (hfinite : encode f m q < f.infinity) (h : RoundsTo f m q (n / d)) :
    roundMagnitude f n d = encode f m q := by
  have hn : 0 < n := by
    refine Nat.pos_of_ne_zero fun hzero => ?_
    rw [hzero, Nat.cast_zero, zero_div] at h
    exact lt_irrefl _ (h.pos hm)
  unfold roundMagnitude
  rw [if_neg hn.ne']
  dsimp only
  rcases h.unit hn hd hc with hunit | ⟨hunit, hleast, hpower, hbelow⟩
  · rw [hunit, divNearest_units hd h.low h.high h.odd]
    exact min_eq_left hfinite.le
  · have hhalf : (2 : Rat) ^ q = 2 * 2 ^ (q - 1) := by
      rw [zpow_sub_one₀ two_ne_zero]; ring
    have hnearest : (if 0 ≤ q - 1 then divNearest n (d * Nat.pow 2 (q - 1).toNat)
        else divNearest (n * Nat.pow 2 (-(q - 1)).toNat) d) = 2 * m := by
      refine divNearest_units hd ?_ ?_ (fun hodd => by omega)
      · calc (((2 * m : Nat) : Rat) - 1 / 2) * 2 ^ (q - 1) = (m - 1 / 4) * 2 ^ q := by
              rw [hhalf]; push_cast; ring
          _ ≤ n / d := h.dense hpower hleast
      · calc (n / d : Rat) ≤ m * 2 ^ q := by rw [hpower, ← two_zpow_add]; exact hbelow.le
          _ ≤ ((2 * m : Nat) + 1 / 2) * 2 ^ (q - 1) := by
              rw [hhalf]; push_cast; linarith [show (0 : Rat) < 2 ^ (q - 1) by positivity]
    have hencode :
        (q - 1 - f.minExponent).toNat * Nat.pow 2 f.fractionBits + 2 * m = encode f m q := by
      have : (q - f.minExponent).toNat = (q - 1 - f.minExponent).toNat + 1 := by omega
      rw [encode, this, hpower, Nat.pow_eq]
      ring
    rw [hunit, hnearest, hencode]
    exact min_eq_left hfinite.le

/-! ## Patterns -/

theorem ofMagnitude_magnitude (x : Fp f) : ofMagnitude x.negative x.magnitude = x := by
  have hlt : x.bits.toNat < 2 * 2 ^ f.magnitudeBits := by
    have h : x.bits.toNat < 2 ^ (f.magnitudeBits + 1) := x.bits.isLt
    rwa [Nat.pow_succ, Nat.mul_comm] at h
  unfold ofMagnitude negative magnitude
  simp only [Nat.pow_eq, decide_eq_true_eq]
  have hbits : (if 2 ^ f.magnitudeBits ≤ x.bits.toNat
      then 2 ^ f.magnitudeBits + x.bits.toNat % 2 ^ f.magnitudeBits
      else x.bits.toNat % 2 ^ f.magnitudeBits) = x.bits.toNat := by
    split
    · next h => rw [Nat.mod_eq_sub_mod h, Nat.mod_eq_of_lt (by omega)]; omega
    · next h => exact Nat.mod_eq_of_lt (by omega)
  rw [hbits, BitVec.ofNat_toNat, BitVec.setWidth_eq]

theorem isFinite_iff {x : Fp f} : x.isFinite = true ↔ ∃ m q, x.shape = .finite m q := by
  unfold isFinite shape
  dsimp only
  rw [decide_eq_true_eq]
  constructor
  · intro h
    rw [if_neg (by omega), if_neg (by omega)]
    split
    · exact ⟨_, _, rfl⟩
    · exact ⟨_, _, rfl⟩
  · rintro ⟨m, q, h⟩
    split at h
    · cases h
    · split at h
      · cases h
      · omega

/-- The shape of a finite number gives its magnitude. -/
theorem of_shape {x : Fp f} (h : x.shape = .finite m q) :
    Canonical f m q ∧ encode f m q = x.magnitude := by
  have hdiv := Nat.div_add_mod x.magnitude (2 ^ f.fractionBits)
  have hmod := Nat.mod_lt x.magnitude (Nat.two_pow_pos f.fractionBits)
  have hpow : 2 ^ (f.fractionBits + 1) = 2 * 2 ^ f.fractionBits := by
    rw [Nat.pow_succ, Nat.mul_comm]
  have hlt : x.magnitude < f.infinity := by simpa [isFinite] using isFinite_iff.mpr ⟨m, q, h⟩
  unfold shape at h
  simp only [Nat.pow_eq] at h
  rw [if_neg (by omega), if_neg (by omega)] at h
  generalize x.magnitude % 2 ^ f.fractionBits = fraction at *
  generalize x.magnitude / 2 ^ f.fractionBits = exponent at *
  split at h
  · next hzero =>
    cases h
    refine ⟨⟨le_refl _, by omega, .inl rfl⟩, ?_⟩
    rw [encode, sub_self, Int.toNat_zero, Nat.zero_mul, Nat.zero_add]
    rwa [hzero, Nat.mul_zero, Nat.zero_add] at hdiv
  · next hpos =>
    cases h
    refine ⟨⟨by omega, by omega, .inr (by omega)⟩, ?_⟩
    rw [encode, add_sub_cancel_left, Int.toNat_natCast, Nat.pow_eq]
    obtain ⟨k, rfl⟩ : ∃ k, exponent = k + 1 := ⟨exponent - 1, by omega⟩
    rw [← hdiv, Nat.add_sub_cancel]
    ring

theorem encode_lt_infinity {x : Fp f} (h : x.shape = .finite m q) :
    encode f m q < f.infinity := by
  rw [(of_shape h).2]
  simpa [isFinite] using isFinite_iff.mpr ⟨m, q, h⟩

/-- Rounding what rounds to a finite number gives the number. -/
theorem ofRatio_of_roundsTo {x : Fp f} {n d : Nat} (hx : x.shape = .finite m q) (hm : 0 < m)
    (hd : 0 < d) (h : RoundsTo f m q (n / d)) : ofRatio f x.negative n d = x := by
  obtain ⟨hc, hencode⟩ := of_shape hx
  rw [ofRatio, roundMagnitude_of_roundsTo hd hc hm (encode_lt_infinity hx) h, hencode,
    ofMagnitude_magnitude]

end Concolic.Fp
