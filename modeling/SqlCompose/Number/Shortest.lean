import SqlCompose.Number.Double
/-!
Decimal texts of doubles. The digits are the fewest that read back as the same double: the coarsest
power-of-ten grid that has a point in the interval of reals rounding to the double is taken, and of two
such neighbours of the exact value the nearer one. Two layouts are given: plain positional notation,
and one that turns to an exponent for very large and very small numbers.
-/

namespace SqlCompose

/-- A decimal number `digits * 10 ^ exponent`. -/
structure Decimal where
  digits : Nat
  exponent : Int

/-- Where an exact half between two equally short decimals goes. -/
inductive Tie
  | up
  | toEven

/-- The reals that round to one double, over a common denominator: the lower end, the value itself and
the upper end, and whether the ends belong to them. -/
structure RoundingInterval where
  low : Nat
  value : Nat
  high : Nat
  den : Nat
  closed : Bool

namespace Double

/-- The interval of a positive finite double. Below a power of two the neighbours are half as far. -/
def interval (x : Double) : RoundingInterval :=
  let m := x.mantissa
  let low := if x.fraction = 0 ∧ 1 < x.exponentField then 4 * m - 1 else 4 * m - 2
  let closed := m % 2 == 0
  match x.exponent - 2 with
  | .ofNat up => ⟨low * Nat.pow 2 up, 4 * m * Nat.pow 2 up, (4 * m + 2) * Nat.pow 2 up, 1, closed⟩
  | .negSucc down => ⟨low, 4 * m, 4 * m + 2, Nat.pow 2 (down + 1), closed⟩

end Double

namespace RoundingInterval

/-- The interval with all its points multiplied by `10 ^ -k`. -/
def scaled (i : RoundingInterval) : Int → RoundingInterval
  | .ofNat k => { i with den := i.den * Nat.pow 10 k }
  | .negSucc k =>
    let f := Nat.pow 10 (k + 1)
    { i with low := i.low * f, value := i.value * f, high := i.high * f }

/-- Whether the whole number `d` lies in the interval. -/
def has (i : RoundingInterval) (d : Nat) : Bool :=
  let point := d * i.den
  decide (i.low < point ∧ point < i.high) || i.closed && (point == i.low || point == i.high)

/-- The whole number next to the value that lies in the interval, the nearer of two. -/
def whole? (i : RoundingInterval) (tie : Tie) : Option Nat :=
  let down := i.value / i.den
  let up := down + 1
  match i.has down, i.has up with
  | true, true =>
    let twice := 2 * (i.value % i.den)
    let nearer := if twice < i.den then down else if i.den < twice then up
      else match tie with
        | .up => up
        | .toEven => down + down % 2
    some nearer
  | true, false => some down
  | false, true => some up
  | false, false => none

/-- The exponent of the first grid that is coarser than the value. -/
def topExponent (i : RoundingInterval) : Int :=
  let whole := i.value / i.den
  if 0 < whole then (Nat.toDigits 10 whole).length
  else 1 - (Nat.toDigits 10 (i.den / i.value)).length

/-- The decimal on the coarsest of `grids` grids from exponent `k` down that has one. -/
def coarsest (i : RoundingInterval) (tie : Tie) : (grids : Nat) → (k : Int) → Option Decimal
  | 0, _ => none
  | grids + 1, k =>
    match (i.scaled k).whole? tie with
    | some d => some ⟨d, k⟩
    | none => i.coarsest tie grids (k - 1)

end RoundingInterval

/-- The shortest decimal of a positive finite double. Seventeen significant digits always suffice, so
the search below the first coarser grid ends within twenty steps. -/
def Double.shortest (x : Double) (tie : Tie) : Decimal :=
  (x.interval.coarsest tie 20 x.interval.topExponent).getD ⟨0, 0⟩

namespace Decimal

/-- The digits of the number, without sign, point or exponent. -/
def digitText (d : Decimal) : List Char := Nat.toDigits 10 d.digits

/-- The digits before the point and the digits after it. -/
def parts (d : Decimal) : List Char × List Char :=
  let ds := d.digitText
  match d.exponent with
  | .ofNat zeros => (ds ++ List.replicate zeros '0', [])
  | .negSucc k =>
    let places := k + 1
    if places < ds.length then (ds.take (ds.length - places), ds.drop (ds.length - places))
    else (['0'], List.replicate (places - ds.length) '0' ++ ds)

/-- Positional notation, with a point only before a fraction. -/
def positional (d : Decimal) : String :=
  match d.parts with
  | (whole, []) => String.ofList whole
  | (whole, fraction) => String.ofList (whole ++ '.' :: fraction)

/-- Positional notation that always has a fraction. -/
def positionalWithFraction (d : Decimal) : String :=
  match d.parts with
  | (whole, []) => String.ofList (whole ++ ['.', '0'])
  | (whole, fraction) => String.ofList (whole ++ '.' :: fraction)

/-- The power of ten of the first digit. -/
def leading (d : Decimal) : Int := d.exponent + d.digitText.length - 1

/-- One digit, the others after a point, and a signed exponent. -/
def scientific (d : Decimal) : String :=
  let significand := match d.digitText with
    | [] => []
    | [c] => [c]
    | c :: rest => c :: '.' :: rest
  let sign := if d.leading < 0 then '-' else '+'
  String.ofList (significand ++ 'e' :: sign :: Nat.toDigits 10 d.leading.natAbs)

end Decimal

namespace Double

/-- A sign in front of the text of the magnitude. -/
def signed (x : Double) (text : String) : String := if x.isNegative then "-" ++ text else text

/-- The text of a number constant: always positional, whole numbers without a point. -/
def plainText (x : Double) : String :=
  if x.isNaN then "NaN"
  else if x.isInfinite then x.signed "inf"
  else if x.isZero then x.signed "0"
  else x.signed (x.shortest .up).positional

/-- The text of a finite number in a message: positional with a fraction from `0.00001` up to below
`10 ^ 16`, with an exponent outside. -/
def messageText (x : Double) : String :=
  if x.isZero then x.signed "0.0"
  else
    let d := x.shortest .toEven
    x.signed (if -5 ≤ d.leading ∧ d.leading < 16 then d.positionalWithFraction else d.scientific)

end Double

end SqlCompose
