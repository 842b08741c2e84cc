import Concolic.Fp.Round

/-!
# Decimal text of floating-point numbers

A number is written with the fewest digits that read back as it, and of these with the ones nearest
to it. The reals that round to `m * 2 ^ q` form an interval around it; its ends belong to it iff `m`
is even. `shortest` tries one digit, two digits and so on: on the grid of decimals with that many
digits it tests the two neighbours of the number, and the first grid with a neighbour in the
interval wins. `render` then places the digits; a `Layout` says how, and which of two equally near
decimals is taken.

`parse?` reads a decimal, or the name of an infinity or of what is no number, and rounds once.
`nearest?` looks at no more digits than it takes to tell a decimal from a tie between two numbers.
-/

namespace Concolic.Fp

/-- The decimal `digits * 10 ^ exponent`. -/
structure Decimal where
  digits : Nat
  exponent : Int
deriving DecidableEq

/-- The number of decimal digits. -/
def digitCount (n : Nat) : Nat := (Nat.toDigits 10 n).length

/-- Moves trailing zeros of the digits into the exponent, at most `fuel` of them. -/
def Decimal.strip : Nat → Decimal → Decimal
  | 0, x => x
  | fuel + 1, x =>
    if x.digits ≠ 0 ∧ x.digits % 10 = 0 then strip fuel ⟨x.digits / 10, x.exponent + 1⟩ else x

/-- The smallest `k` with `n / d < 10 ^ k`, both positive. -/
def decimalExponent (n d : Nat) : Int :=
  if d ≤ n then digitCount (n / d) else 1 - (digitCount ((d - 1) / n) : Int)

/-- An interval of quotients `n / unit` around a number. -/
structure Interval where
  low : Nat
  value : Nat
  high : Nat
  unit : Nat
  closed : Bool

/-- The reals that round to `m * 2 ^ q`, in quarters of the last place: below a power of two the
numbers are twice as dense, so the lower end is half as far. -/
def Interval.around (f : Format) (m : Nat) (q : Int) : Interval :=
  let (scale, unit) := quotient 1 (q - 2)
  let gap := if m = Nat.pow 2 f.fractionBits ∧ f.minExponent < q then 1 else 2
  { low := (4 * m - gap) * scale, value := 4 * m * scale, high := (4 * m + 2) * scale,
    unit := unit, closed := m % 2 = 0 }

/-- The decimal `c * 10 ^ e` lies in the interval. -/
def Interval.contains (i : Interval) (c : Nat) (e : Int) : Bool :=
  let up := if 0 ≤ e then Nat.pow 10 e.toNat else 1
  let down := if 0 ≤ e then 1 else Nat.pow 10 (-e).toNat
  let x := c * up * i.unit
  if i.closed then i.low * down ≤ x && x ≤ i.high * down
  else i.low * down < x && x < i.high * down

/-- Which of two equally near decimals is taken. -/
inductive Tie where
  | larger
  | even
deriving DecidableEq

/-- The whole number nearest to `n / d`. -/
def Tie.nearest (tie : Tie) (n d : Nat) : Nat :=
  let c := n / d
  if 2 * (n % d) < d ∨ (2 * (n % d) = d ∧ tie = .even ∧ c % 2 = 0) then c else c + 1

/-- The neighbour of the value on the grid `10 ^ e` that lies in the interval; of two the nearer. -/
def Interval.nearest? (tie : Tie) (i : Interval) (e : Int) : Option Decimal :=
  let up := if 0 ≤ e then Nat.pow 10 e.toNat else 1
  let down := if 0 ≤ e then 1 else Nat.pow 10 (-e).toNat
  let n := i.value * down
  let d := i.unit * up
  let c := n / d
  match i.contains c e, i.contains (c + 1) e with
  | true, true => some ⟨tie.nearest n d, e⟩
  | true, false => some ⟨c, e⟩
  | false, true => some ⟨c + 1, e⟩
  | false, false => none

/-- Searches the grids from `count` digits on; `top` is the decimal exponent of the value. -/
def Interval.search (tie : Tie) (i : Interval) (top : Int) : (fuel count : Nat) → Decimal
  | 0, count => ⟨i.value / i.unit, top - count⟩
  | fuel + 1, count =>
    match i.nearest? tie (top - count) with
    | some x => x
    | none => search tie i top fuel (count + 1)

/-- The shortest decimal that rounds to the positive number `m * 2 ^ q`. Seventeen digits tell all
numbers of both formats apart. -/
def shortest (tie : Tie) (f : Format) (m : Nat) (q : Int) : Decimal :=
  let i := Interval.around f m q
  (i.search tie (decimalExponent i.value i.unit) 17 1).strip 20

/-- Which decimal is written, and where positional notation ends: a decimal with one digit before
the point and exponent `e` is written without an exponent iff
`leastPositional ≤ e ≤ mostPositional`. -/
structure Layout where
  tie : Tie
  leastPositional : Int
  mostPositional : Int

/-- Positional from `0.0001` to below `10 ^ 16`, and the larger of two equally near decimals. -/
def Layout.standard : Layout := ⟨.larger, -4, 15⟩

/-- A decimal in a layout; a whole number keeps one zero after the point. -/
def Decimal.render (layout : Layout) (x : Decimal) : String :=
  let ds := Nat.toDigits 10 x.digits
  let e : Int := x.exponent + (ds.length - 1 : Nat)
  let zeros (n : Int) : List Char := List.replicate n.toNat '0'
  String.ofList <|
    if layout.leastPositional ≤ e ∧ e ≤ layout.mostPositional then
      if 0 ≤ x.exponent then ds ++ zeros x.exponent ++ ['.', '0']
      else if 0 ≤ e then ds.take (e.toNat + 1) ++ ['.'] ++ ds.drop (e.toNat + 1)
      else ['0', '.'] ++ zeros (-e - 1) ++ ds
    else
      let tail := ds.drop 1
      ds.take 1 ++ (if tail.isEmpty then [] else '.' :: tail) ++ ['e'] ++ (toString e).toList

/-- A number in a layout. -/
def render {f : Format} (layout : Layout) (x : Fp f) : String :=
  let sign := if x.negative then "-" else ""
  match x.shape with
  | .nan => "NaN"
  | .infinite => sign ++ "inf"
  | .finite m q => sign ++ if m = 0 then "0.0" else (shortest layout.tie f m q).render layout

/-- The text of a number. -/
def text {f : Format} (x : Fp f) : String := x.render .standard

/-- The number of the format nearest to a decimal. Decimals far outside the range of every format
are not computed out. -/
def ofDecimal (f : Format) (negative : Bool) (x : Decimal) : Fp f :=
  let e : Int := x.exponent + digitCount x.digits
  if x.digits = 0 ∨ e < -400 then ofMagnitude negative 0
  else if 400 < e then infinity negative
  else if 0 ≤ x.exponent then ofRatio f negative (x.digits * Nat.pow 10 x.exponent.toNat) 1
  else ofRatio f negative x.digits (Nat.pow 10 (-x.exponent).toNat)

/-- The largest digits of a decimal that lies halfway between two numbers of the format. -/
def Format.tieDigits (f : Format) : Nat :=
  (Nat.pow 2 (f.fractionBits + 2) - 1) * Nat.pow 5 (1 - f.minExponent).toNat

/-- As many digits of a decimal as `digits` has, and a one in place of all that follow, even of
zeros. -/
def Decimal.cut (digits : Nat) (x : Decimal) : Decimal :=
  if x.digits ≤ digits then x
  else
    match digitCount x.digits - digitCount digits with
    | 0 => x
    | surplus + 1 => ⟨x.digits / Nat.pow 10 (surplus + 1) * 10 + 1, x.exponent + surplus⟩

/-- The number nearest to a decimal, unless it is too large for the format. A decimal with more
digits than a tie has counts as larger than its first digits say. -/
def nearest? (f : Format) (negative : Bool) (x : Decimal) : Option (Fp f) :=
  let y := ofDecimal f negative (x.cut f.tieDigits)
  if y.isFinite then some y else none

/-- The number that decimal digits spell. -/
def ofDigits (ds : List Char) : Nat :=
  ds.foldl (fun n c => 10 * n + (c.toNat - '0'.toNat)) 0

/-- Splits off an optional sign. -/
def splitSign : List Char → Bool × List Char
  | '-' :: cs => (true, cs)
  | '+' :: cs => (false, cs)
  | cs => (false, cs)

/-- An exponent mark, an optional sign and digits, or nothing. -/
def readExponent? : List Char → Option Int
  | [] => some 0
  | c :: cs =>
    if c = 'e' ∨ c = 'E' then
      let (negative, ds) := splitSign cs
      if ds.isEmpty || !ds.all Char.isDigit then none
      else some (if negative then -(ofDigits ds : Int) else ofDigits ds)
    else none

/-- Digits with an optional point and an optional exponent; at least one digit stands before or
after the point. -/
def readDecimal? (cs : List Char) : Option Decimal := do
  let (whole, rest) := cs.span Char.isDigit
  let (fraction, rest) :=
    match rest with
    | '.' :: rest => rest.span Char.isDigit
    | rest => ([], rest)
  if whole.isEmpty && fraction.isEmpty then none
  else
    let e ← readExponent? rest
    some ⟨ofDigits (whole ++ fraction), e - fraction.length⟩

/-- Reads a number: an optional sign, then a decimal, `inf`, `infinity` or `nan` in any case. -/
def parse? (f : Format) (s : String) : Option (Fp f) :=
  let (negative, cs) := splitSign s.toList
  match readDecimal? cs with
  | some x => some (ofDecimal f negative x)
  | none =>
    match String.ofList (cs.map Char.toLower) with
    | "inf" | "infinity" => some (infinity negative)
    | "nan" => some (nan negative)
    | _ => none

end Concolic.Fp
