/-!
# Floating-point numbers

A floating-point number is its bit pattern in a binary interchange format: a sign bit, an exponent
field and a fraction field. Two numbers are the same datum iff their patterns are equal, so `-0.0`
and `0.0` are two data and the order of numbers, `Fp.compare?`, is a definition of its own.

`shape` reads a pattern: a finite magnitude is `m * 2 ^ q` for a natural number `m`. The exponent
field 0 holds the numbers below the first full binade; all finite numbers have `q` at least
`Format.minExponent`, the exponent of the unit in the last place of the smallest ones. With this
reading, a magnitude in its format is `(q - minExponent) * 2 ^ fractionBits + m`, also when rounding
carries `m` up to the next power of two.
-/

namespace Concolic

namespace Fp

/-- The widths of the fraction and exponent fields. -/
structure Format where
  fractionBits : Nat
  exponentBits : Nat
deriving DecidableEq

namespace Format

def single : Format := ⟨23, 8⟩

def double : Format := ⟨52, 11⟩

variable (f : Format)

/-- The number of bits without the sign. -/
def magnitudeBits : Nat := f.exponentBits + f.fractionBits

def width : Nat := f.magnitudeBits + 1

/-- The magnitude of infinity; larger magnitudes are not numbers. -/
def infinity : Nat := (Nat.pow 2 f.exponentBits - 1) * Nat.pow 2 f.fractionBits

def minExponent : Int := 2 - (Nat.pow 2 (f.exponentBits - 1) : Int) - f.fractionBits

end Format

end Fp

/-- A number of the format `f`, as its bit pattern. -/
structure Fp (f : Fp.Format) where
  bits : BitVec f.width
deriving DecidableEq

abbrev Single := Fp .single

abbrev Double := Fp .double

namespace Fp

variable {f : Format}

/-- What a magnitude stands for. -/
inductive Shape where
  | finite (m : Nat) (q : Int)
  | infinite
  | nan
deriving DecidableEq

def negative (x : Fp f) : Bool := Nat.pow 2 f.magnitudeBits ≤ x.bits.toNat

/-- The pattern without its sign bit. -/
def magnitude (x : Fp f) : Nat := x.bits.toNat % Nat.pow 2 f.magnitudeBits

def ofMagnitude (negative : Bool) (magnitude : Nat) : Fp f :=
  ⟨BitVec.ofNat _ (if negative then Nat.pow 2 f.magnitudeBits + magnitude else magnitude)⟩

def zero : Fp f := ofMagnitude false 0

def infinity (negative : Bool) : Fp f := ofMagnitude negative f.infinity

/-- The quiet value that is no number, with the given sign. -/
def nan (negative : Bool) : Fp f :=
  ofMagnitude negative (f.infinity + Nat.pow 2 (f.fractionBits - 1))

def shape (x : Fp f) : Shape :=
  let exponent := x.magnitude / Nat.pow 2 f.fractionBits
  let fraction := x.magnitude % Nat.pow 2 f.fractionBits
  if f.infinity < x.magnitude then .nan
  else if x.magnitude = f.infinity then .infinite
  else if exponent = 0 then .finite fraction f.minExponent
  else .finite (Nat.pow 2 f.fractionBits + fraction) (f.minExponent + (exponent - 1 : Nat))

def isNan (x : Fp f) : Bool := f.infinity < x.magnitude

def isFinite (x : Fp f) : Bool := x.magnitude < f.infinity

/-- The place of a number on the real line; both zeros are at zero. -/
def rank (x : Fp f) : Int := if x.negative then -(x.magnitude : Int) else x.magnitude

/-- The order of two numbers; what is no number is not ordered. -/
def compare? (x y : Fp f) : Option Ordering :=
  if x.isNan || y.isNan then none else some (compare x.rank y.rank)

/-- Equality of numbers: the zeros are equal, and what is no number equals nothing. -/
def equal (x y : Fp f) : Bool := x.compare? y == some .eq

/-- A nonnegative `m * 2 ^ q` as a quotient of natural numbers. -/
def quotient (m : Nat) (q : Int) : Nat × Nat :=
  if 0 ≤ q then (m * Nat.pow 2 q.toNat, 1) else (m, Nat.pow 2 (-q).toNat)

end Fp

end Concolic
