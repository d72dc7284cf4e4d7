import BoundSql.Number.Decimal
import BoundSql.Text.Blank

/-!
# Reading numerals

Two grammars: the JSON number, which is read from the front of a text, and the
looser one of settings, which takes the whole text, allows blanks around it, a
bare point, a plus sign, `Infinity` and the bases two, eight and sixteen.
-/
namespace BoundSql

/-- A decimal numeral split into its parts. -/
structure Numeral where
  negative : Bool
  whole : Text
  /-- The digits after the point, if there is one. -/
  fraction : Option Text
  exponent : Option Int
  deriving DecidableEq

namespace Numeral

/-- Has the numeral neither fraction nor exponent? -/
def isIntegral (n : Numeral) : Bool := n.fraction.isNone && n.exponent.isNone

/-- The value of a numeral whose fraction and exponent do not count. -/
def toInt (n : Numeral) : Int :=
  if n.negative then -(Text.digitsValue n.whole : Int) else (Text.digitsValue n.whole : Int)

def toDouble (n : Numeral) : Double :=
  let fraction := n.fraction.getD []
  Decimal.toDouble n.negative
    ⟨Text.digitsValue (n.whole ++ fraction), n.exponent.getD 0 - (fraction.length : Int)⟩

/-- The digits at the front of a text and the rest. -/
def spanDigits (t : Text) : Text × Text := t.span Text.isDigit

/-- An exponent at the front of a text, if a complete one stands there. -/
def readExponent (t : Text) : Option Int × Text :=
  match t with
  | [] => (none, t)
  | e :: rest =>
    if e = Text.unit 'e' || e = Text.unit 'E' then
      let (negative, unsigned) := match rest with
        | s :: more =>
          if s = Text.unit '-' then (true, more)
          else if s = Text.unit '+' then (false, more)
          else (false, rest)
        | [] => (false, rest)
      match spanDigits unsigned with
      | ([], _) => (none, t)
      | (digits, after) =>
        let n : Int := Text.digitsValue digits
        (some (if negative then -n else n), after)
    else (none, t)

/-- A point with digits after it at the front of a text. -/
def readFraction (t : Text) : Option Text × Text :=
  match t with
  | [] => (none, t)
  | p :: rest =>
    if p = Text.unit '.' then
      match spanDigits rest with
      | ([], _) => (none, t)
      | (digits, after) => (some digits, after)
    else (none, t)

/-- The whole part of a JSON number: a zero alone, or digits that start with none. -/
def readWhole : Text → Option (Text × Text)
  | [] => none
  | c :: rest =>
    if c = Text.unit '0' then some ([c], rest)
    else if Text.isDigit c then some (spanDigits (c :: rest))
    else none

/-- The longest JSON number at the front of a text, and the rest. -/
def read? (t : Text) : Option (Numeral × Text) :=
  let (negative, unsigned) := match t with
    | s :: rest => if s = Text.unit '-' then (true, rest) else (false, t)
    | [] => (false, t)
  (readWhole unsigned).map fun (whole, afterWhole) =>
    let (fraction, afterFraction) := readFraction afterWhole
    let (exponent, rest) := readExponent afterFraction
    (⟨negative, whole, fraction, exponent⟩, rest)

/-- The number that the digits of a base spell; at least one digit is needed. -/
def readBase (base : Nat) (digits : Text) : Option Nat :=
  if digits.isEmpty then none
  else digits.foldlM (fun n c => do
    let d ← Text.hexValue? c
    if d < base then some (base * n + d) else none) 0

/-- An unsigned decimal setting: digits may be missing on one side of a point. -/
def readLoose (negative : Bool) (t : Text) : Option Double :=
  let (whole, afterWhole) := spanDigits t
  let (fraction, afterFraction) := match afterWhole with
    | p :: rest => if p = Text.unit '.' then spanDigits rest else ([], afterWhole)
    | [] => ([], afterWhole)
  if whole.isEmpty && fraction.isEmpty then none
  else
    let (exponent, rest) := readExponent afterFraction
    if rest.isEmpty then some (toDouble ⟨negative, whole, some fraction, exponent⟩) else none

/-- A setting after its sign. -/
def readUnsigned (negative : Bool) (t : Text) : Option Double :=
  if t = Text.ofString "Infinity" then some (.infinite negative) else readLoose negative t

/-- The number that a setting spells; blank is zero, and NaN is no number at all. -/
def readSetting (text : Text) : Double :=
  match Text.trim text with
  | [] => 0
  | c :: rest =>
    let number : Option Double :=
      if c = Text.unit '-' then readUnsigned true rest
      else if c = Text.unit '+' then readUnsigned false rest
      else
        let base : Option Nat := match c, rest with
          | z, b :: _ =>
            if z ≠ Text.unit '0' then none
            else if b = Text.unit 'x' || b = Text.unit 'X' then some 16
            else if b = Text.unit 'o' || b = Text.unit 'O' then some 8
            else if b = Text.unit 'b' || b = Text.unit 'B' then some 2
            else none
          | _, [] => none
        match base with
        | some b => (readBase b (rest.drop 1)).map Double.ofNat
        | none => readUnsigned false (c :: rest)
    number.getD .nan

end Numeral
end BoundSql
