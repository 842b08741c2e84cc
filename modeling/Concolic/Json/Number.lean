import Concolic.Json.Basic

/-!
# Reading JSON numbers

A number without fraction and exponent whose digits fit a 64-bit word is whole. With a minus it is
whole if it is negative and fits a word with a sign; the others, minus zero among them, have double
precision. Every other number stays the decimal that is written, so that it is rounded once, in the
precision it is asked for.
-/

namespace Concolic.Json

/-- The parts of a number. -/
structure Numeral where
  negative : Bool
  whole : List Char
  fraction : Option (List Char)
  exponent : Option Int

/-- Digits without a leading zero, unless it is the only one. -/
def isWhole : List Char → Bool
  | ['0'] => true
  | '0' :: _ => false
  | ds => !ds.isEmpty

/-- Splits off the digits of a fraction; after the point at least one stands. -/
def splitFraction : List Char → Option (Option (List Char) × List Char)
  | '.' :: cs =>
    let ds := cs.takeWhile Char.isDigit
    if ds.isEmpty then none else some (some ds, cs.dropWhile Char.isDigit)
  | cs => some (none, cs)

/-- Reads the exponent up to the end. -/
def readExponent : List Char → Option (Option Int)
  | [] => some none
  | cs => (Fp.readExponent? cs).map some

/-- The parts of a numeral. -/
def readNumeral (cs : List Char) : Option Numeral := do
  let (negative, cs) := match cs with
    | '-' :: cs => (true, cs)
    | cs => (false, cs)
  let whole := cs.takeWhile Char.isDigit
  if !isWhole whole then none
  else
    let (fraction, cs) ← splitFraction (cs.dropWhile Char.isDigit)
    let exponent ← readExponent cs
    some { negative, whole, fraction, exponent }

/-- The digits up to the last one that is not zero. -/
def trimZeros (ds : List Char) : List Char := (ds.reverse.dropWhile (· == '0')).reverse

/-- The decimal that a numeral spells, without its sign and without zeros that end a fraction. -/
def Numeral.decimal (n : Numeral) : Fp.Decimal :=
  let fraction := trimZeros (n.fraction.getD [])
  ⟨Fp.ofDigits (n.whole ++ fraction), n.exponent.getD 0 - fraction.length⟩

/-- The value of a numeral. -/
def Numeral.json (n : Numeral) : Json :=
  let k := Fp.ofDigits n.whole
  if n.fraction.isSome || n.exponent.isSome || UInt64.size ≤ k then .decimal n.negative n.decimal
  else if !n.negative then .int k
  else if 0 < k && k ≤ Int64.minValue.toInt.natAbs then .int (-k)
  else .double (Fp.ofRatio .double true k 1)

/-- Reads a number from all of the given characters. -/
def readNumber (cs : List Char) : Option Json := (readNumeral cs).map Numeral.json

end Concolic.Json
