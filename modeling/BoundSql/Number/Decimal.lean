import BoundSql.Number.Double
import BoundSql.Text.Basic

/-!
# Decimal texts of binary64 numbers

A decimal is read by rounding its exact value once. A number is written with
the fewest digits that read back, the nearest such digits where several do, and
positionally from 10^-6 up to 10^21.
-/
namespace BoundSql

/-- The value `digits * 10 ^ exponent`. -/
structure Decimal where
  digits : Nat
  exponent : Int
  deriving DecidableEq

namespace Decimal

/-- The power of ten with a natural exponent. -/
def tenPow (n : Nat) : Nat := Nat.pow 10 n

/-- Is the value so large that it has no finite neighbour, whatever its digits? -/
def isHuge (d : Decimal) : Bool := d.digits ≠ 0 && 400 < d.exponent

/-- Is the value so small that it rounds to zero? -/
def isTiny (d : Decimal) : Bool := d.digits = 0 || d.exponent + (d.digits.log2 : Int) < -400

/-- The nearest number. The two bounds only spare the work on large powers of ten. -/
def toDouble (negative : Bool) (d : Decimal) : Double :=
  if d.isHuge then .infinite negative
  else if d.isTiny then .ofUnits negative 0 1
  else .ofUnits negative (d.digits * tenPow d.exponent.toNat * Double.unitsPerOne)
    (tenPow (-d.exponent).toNat)

/-- The same value with no zero as the last digit. -/
def trimZeros (d : Decimal) : Decimal :=
  go d.digits d
where
  go : Nat → Decimal → Decimal
    | 0, d => d
    | fuel + 1, d =>
      if d.digits ≠ 0 && d.digits % 10 = 0 then go fuel ⟨d.digits / 10, d.exponent + 1⟩ else d

/-- How many digits the numeral of a natural number has. -/
def numeralLength (n : Nat) : Nat := (Nat.toDigits 10 n).length

/-- The power of ten just above the value of a rank that is not zero. -/
def magnitude (rank : Nat) : Int :=
  (numeralLength (Double.unitsAt rank * tenPow 324 / Double.unitsPerOne) : Int) - 324

/-- The neighbours of a rank's value among the decimals with a given exponent. -/
def neighbours (rank : Nat) (exponent : Int) : Decimal × Decimal :=
  let below := Double.unitsAt rank * tenPow (-exponent).toNat /
    (Double.unitsPerOne * tenPow exponent.toNat)
  (⟨below, exponent⟩, ⟨below + 1, exponent⟩)

/-- Is the lower neighbour nearer to the value, or equally near and even? -/
def prefersBelow (rank : Nat) (below : Decimal) : Bool :=
  let scaled := Double.unitsAt rank * tenPow (-below.exponent).toNat
  let step := Double.unitsPerOne * tenPow below.exponent.toNat
  let twice := 2 * (scaled % step)
  twice < step || (twice = step && below.digits % 2 = 0)

def readsBack (rank : Fin Double.rankCount) (d : Decimal) : Bool :=
  d.toDouble false = .finite false rank

/-- Of two neighbours the one that reads back; of both the preferred one. -/
def choose? (below above : Decimal) (belowReads aboveReads prefersBelow : Bool) :
    Option Decimal :=
  match belowReads, aboveReads with
  | true, true => some (if prefersBelow then below else above)
  | true, false => some below
  | false, true => some above
  | false, false => none

/-- The nearest decimal of the given number of digits that reads back, if there is one. -/
def ofLength? (rank : Fin Double.rankCount) (length : Nat) : Option Decimal :=
  let pair := neighbours rank (magnitude rank - length)
  choose? pair.1 pair.2 (readsBack rank pair.1) (readsBack rank pair.2)
    (prefersBelow rank pair.1)

/-- All digits of the value. -/
def exact (rank : Nat) : Decimal := ⟨Double.unitsAt rank * Nat.pow 5 1074, -1074⟩

/-- The decimal with the fewest digits that reads back. -/
def shortest (rank : Fin Double.rankCount) : Decimal :=
  (((List.range' 1 17).findSome? (ofLength? rank)).getD (exact rank)).trimZeros

/-- The text of a positive decimal whose last digit is not zero. -/
def toText (d : Decimal) : Text :=
  let digits := Text.ofNat d.digits
  let count := digits.length
  let point := d.exponent + count
  if 0 ≤ d.exponent ∧ point ≤ 21 then
    digits ++ List.replicate d.exponent.toNat (Text.unit '0')
  else if 0 < point ∧ point ≤ 21 then
    digits.take point.toNat ++ Text.unit '.' :: digits.drop point.toNat
  else if -6 < point ∧ point ≤ 0 then
    ("0." : Text) ++ List.replicate (-point).toNat (Text.unit '0') ++ digits
  else
    let scale := point - 1
    let mantissa := match digits with
      | first :: second :: rest => first :: Text.unit '.' :: second :: rest
      | _ => digits
    mantissa ++ Text.unit 'e' :: (if scale < 0 then Text.unit '-' else Text.unit '+') ::
      Text.ofNat scale.natAbs

end Decimal

namespace Double

/-- The text of a finite number that is not negative. An integer up to 2^53 is written
out; no shorter decimal reads back there. -/
def rankText (rank : Fin rankCount) : Text :=
  let units := unitsAt rank
  if units % unitsPerOne = 0 ∧ units / unitsPerOne ≤ safeBound then
    Text.ofNat (units / unitsPerOne)
  else (Decimal.shortest rank).toText

/-- The written form of a number; both zeros give `0`. -/
def toText : Double → Text
  | .nan => "NaN"
  | .infinite negative => if negative then "-Infinity" else "Infinity"
  | .finite negative rank =>
    if negative && rank.val ≠ 0 then Text.unit '-' :: rankText rank else rankText rank

end Double
end BoundSql
