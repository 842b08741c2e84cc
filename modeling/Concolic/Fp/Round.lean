import Concolic.Fp.Basic

/-!
# Rounding

Every operation here computes an exact quotient of natural numbers and rounds it once to the nearest
number of the format, a tie to the even one. Quotients too large for the format become infinite.
-/

namespace Concolic.Fp

/-- The natural number nearest to `n / d`, a tie to the even one. -/
def divNearest (n d : Nat) : Nat :=
  let k := n / d
  let r := n % d
  if 2 * r < d ∨ (2 * r = d ∧ k % 2 = 0) then k else k + 1

/-- The exponent of the highest power of two that is not above `n / d`, both positive. -/
def binaryExponent (n d : Nat) : Int :=
  let e : Int := (n.log2 : Int) - d.log2
  let below := if 0 ≤ e then d * Nat.pow 2 e.toNat ≤ n else d ≤ n * Nat.pow 2 (-e).toNat
  if below then e else e - 1

/-- The magnitude of the number of the format nearest to `n / d`. -/
def roundMagnitude (f : Format) (n d : Nat) : Nat :=
  if n = 0 then 0
  else
    let q := max (binaryExponent n d - f.fractionBits) f.minExponent
    let m :=
      if 0 ≤ q then divNearest n (d * Nat.pow 2 q.toNat)
      else divNearest (n * Nat.pow 2 (-q).toNat) d
    min ((q - f.minExponent).toNat * Nat.pow 2 f.fractionBits + m) f.infinity

/-- The number nearest to `n / d`, with a sign. -/
def ofRatio (f : Format) (negative : Bool) (n d : Nat) : Fp f :=
  ofMagnitude negative (roundMagnitude f n d)

def ofInt (f : Format) (n : Int) : Fp f := ofRatio f (n < 0) n.natAbs 1

/-- The number of the format `g` nearest to `x`. -/
def convert {f : Format} (g : Format) (x : Fp f) : Fp g :=
  match x.shape with
  | .nan => nan x.negative
  | .infinite => infinity x.negative
  | .finite m q => let (n, d) := quotient m q; ofRatio g x.negative n d

/-- The integer part of a number, cut to the range of 64-bit words; what is no number gives 0. -/
def toInt64 {f : Format} (x : Fp f) : Int64 :=
  match x.shape with
  | .nan => 0
  | .infinite => if x.negative then Int64.minValue else Int64.maxValue
  | .finite m q =>
    let (n, d) := quotient m q
    let whole : Int := if x.negative then -((n / d : Nat) : Int) else (n / d : Nat)
    Int64.ofInt (max Int64.minValue.toInt (min Int64.maxValue.toInt whole))

end Concolic.Fp
