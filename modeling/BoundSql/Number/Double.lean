/-!
# Binary64 numbers

A finite number is a sign and a rank: its place among the non-negative finite
numbers in increasing order, which is also its bit pattern without the sign.
All of them are multiples of 2^-1074, so arithmetic is done on natural numbers
of such units and rounded once, to the nearest number and on a tie to the even
rank.
-/
namespace BoundSql

/-- How many ranks lie between neighbouring powers of two: 2^52. -/
abbrev Double.binadeSize : Nat := 0x10000000000000

/-- How many finite numbers are not negative; as a bit pattern this is infinity. -/
abbrev Double.rankCount : Nat := 2047 * binadeSize

inductive Double where
  | nan
  | infinite (negative : Bool)
  | finite (negative : Bool) (rank : Fin Double.rankCount)
  deriving DecidableEq

namespace Double

/-- How many units make one: 2^1074. -/
abbrev unitsPerOne : Nat := 1 <<< 1074

/-- From 2^53 on integers may round to each other. -/
abbrev safeBound : Nat := 2 * binadeSize

/-- The number of units at a rank: the low 53 bits, shifted by the binade. -/
def unitsAt (rank : Nat) : Nat :=
  let shift := rank / binadeSize - 1
  (rank - shift * binadeSize) <<< shift

/-- The quotient rounded to the nearest integer, a tie to the even one. -/
def roundDiv (n d : Nat) : Nat :=
  let q := n / d
  let twice := 2 * (n % d)
  if twice < d then q else if d < twice then q + 1 else q + q % 2

/-- The rank nearest to `n / d` units; it may lie beyond the finite ones. -/
def rankOf (n d : Nat) : Nat :=
  let shift := (n / d).log2 - 52
  shift * binadeSize + roundDiv n (d <<< shift)

/-- The number nearest to `n / d` units. -/
def ofUnits (negative : Bool) (n d : Nat) : Double :=
  if h : rankOf n d < rankCount then .finite negative ⟨rankOf n d, h⟩
  else .infinite negative

def ofNat (n : Nat) : Double := ofUnits false (n * unitsPerOne) 1

def ofInt (n : Int) : Double := ofUnits (n < 0) (n.natAbs * unitsPerOne) 1

instance {n : Nat} : OfNat Double n := ⟨ofNat n⟩

/-- The exact value in units of a finite number. -/
def units? : Double → Option Int
  | .finite negative rank =>
    some (if negative then -(unitsAt rank : Int) else (unitsAt rank : Int))
  | _ => none

/-- The exact value, if it is an integer. -/
def toInt? (x : Double) : Option Int :=
  x.units?.bind fun u => if u % unitsPerOne = 0 then some (u / unitsPerOne) else none

def isNaN : Double → Bool
  | .nan => true
  | _ => false

def isFinite : Double → Bool
  | .finite .. => true
  | _ => false

def isInteger (x : Double) : Bool := x.toInt?.isSome

/-- The exact value, if it is an integer and no other integer rounds to it. -/
def toSafeInt? (x : Double) : Option Int :=
  x.toInt?.filter fun n => n.natAbs < safeBound

def isSafeInteger (x : Double) : Bool := x.toSafeInt?.isSome

/-- The place in the order of all numbers; the two zeros share one. -/
def place? : Double → Option Int
  | .nan => none
  | .infinite negative => some (if negative then -(rankCount : Int) else (rankCount : Int))
  | .finite negative rank => some (if negative then -(rank.val : Int) else (rank.val : Int))

/-- Numeric order; nothing is below or above NaN. -/
def lt (x y : Double) : Bool :=
  match x.place?, y.place? with
  | some a, some b => a < b
  | _, _ => false

def le (x y : Double) : Bool :=
  match x.place?, y.place? with
  | some a, some b => a ≤ b
  | _, _ => false

/-- The larger number; NaN if either is, and plus zero of the two zeros. -/
def max (x y : Double) : Double :=
  match x.place?, y.place? with
  | some a, some b =>
    if a < b then y else if b < a then x
    else match x with
      | .finite true _ => y
      | _ => x
  | _, _ => .nan

/-- The smaller number; NaN if either is, and minus zero of the two zeros. -/
def min (x y : Double) : Double :=
  match x.place?, y.place? with
  | some a, some b =>
    if a < b then x else if b < a then y
    else match x with
      | .finite false _ => y
      | _ => x
  | _, _ => .nan

def neg : Double → Double
  | .nan => .nan
  | .infinite negative => .infinite !negative
  | .finite negative rank => .finite (!negative) rank

/-- The rounded sum; an exact zero is negative only if both terms are. -/
def add : Double → Double → Double
  | .nan, _ => .nan
  | _, .nan => .nan
  | .infinite s, .infinite t => if s = t then .infinite s else .nan
  | .infinite s, .finite .. => .infinite s
  | .finite .., .infinite t => .infinite t
  | .finite s a, .finite t b =>
    if s = t then ofUnits s (unitsAt a + unitsAt b) 1
    else if unitsAt a = unitsAt b then ofUnits false 0 1
    else if unitsAt b < unitsAt a then ofUnits s (unitsAt a - unitsAt b) 1
    else ofUnits t (unitsAt b - unitsAt a) 1

/-- The rounded product. -/
def mul : Double → Double → Double
  | .nan, _ => .nan
  | _, .nan => .nan
  | .infinite s, .infinite t => .infinite (s != t)
  | .infinite s, .finite t b => if b.val = 0 then .nan else .infinite (s != t)
  | .finite s a, .infinite t => if a.val = 0 then .nan else .infinite (s != t)
  | .finite s a, .finite t b => ofUnits (s != t) (unitsAt a * unitsAt b) unitsPerOne

/-- The integral part, with the sign of the number. -/
def trunc : Double → Double
  | .finite negative rank =>
    ofUnits negative (unitsAt rank / unitsPerOne * unitsPerOne) 1
  | x => x

/-- The greatest integral number that is not above the number. -/
def floor (x : Double) : Double := if x.lt x.trunc then x.trunc.add (ofInt (-1)) else x.trunc

/-- The exact value, if it is an integer of 32 bits without sign. -/
def toUInt32? (x : Double) : Option UInt32 :=
  x.toInt?.bind fun n =>
    if 0 ≤ n ∧ n < UInt32.size then some (UInt32.ofNat n.toNat) else none

/-- An integer brought into the range of 32 bits without sign; the upper bound where
the number is no integer. -/
def saturate32 (x : Double) : UInt32 :=
  match x.toInt? with
  | some n => if n < UInt32.size then UInt32.ofNat n.toNat else 0xFFFFFFFF
  | none => 0xFFFFFFFF

end Double
end BoundSql
