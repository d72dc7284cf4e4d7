import BoundSql.Text.Utf8

/-!
# URL-safe base64

Tokens are unpadded. Reading also accepts the two characters of the standard
alphabet, refuses a length that leaves a single sextet over, and ignores the
low bits that the last sextet does not need.
-/
namespace BoundSql.Text.Base64Url

/-- The digit of a sextet. -/
def digit (n : Nat) : UInt16 :=
  if n < 26 then UInt16.ofNat (65 + n)
  else if n < 52 then UInt16.ofNat (97 + (n - 26))
  else if n < 62 then UInt16.ofNat (48 + (n - 52))
  else if n = 62 then unit '-'
  else unit '_'

/-- The sextet of a digit, in either alphabet. -/
def sextet? (c : UInt16) : Option Nat :=
  if isUpper c then some (c.toNat - 65)
  else if isLower c then some (c.toNat - 97 + 26)
  else if isDigit c then some (c.toNat - 48 + 52)
  else if c = unit '-' || c = unit '+' then some 62
  else if c = unit '_' || c = unit '/' then some 63
  else none

def encodeBytes : List UInt8 → Text
  | [] => []
  | [a] => [digit (a.toNat / 4), digit (a.toNat % 4 * 16)]
  | [a, b] =>
    [digit (a.toNat / 4), digit (a.toNat % 4 * 16 + b.toNat / 16), digit (b.toNat % 16 * 4)]
  | a :: b :: c :: rest =>
    digit (a.toNat / 4) :: digit (a.toNat % 4 * 16 + b.toNat / 16) ::
      digit (b.toNat % 16 * 4 + c.toNat / 64) :: digit (c.toNat % 64) :: encodeBytes rest

/-- The bytes that a list of sextets spells; a single one left over is refused. -/
def bytesOf : List Nat → Option (List UInt8)
  | [] => some []
  | [_] => none
  | [a, b] => some [UInt8.ofNat (a * 4 + b / 16)]
  | [a, b, c] =>
    some [UInt8.ofNat (a * 4 + b / 16), UInt8.ofNat (b % 16 * 16 + c / 4)]
  | a :: b :: c :: d :: rest =>
    (bytesOf rest).map fun bytes =>
      UInt8.ofNat (a * 4 + b / 16) :: UInt8.ofNat (b % 16 * 16 + c / 4) ::
        UInt8.ofNat (c % 4 * 64 + d) :: bytes

def encode (t : Text) : Text := encodeBytes (Utf8.encode t)

/-- The text of a token, if it has one. -/
def decode? (token : Text) : Option Text :=
  ((token.mapM sextet?).bind bytesOf).bind Utf8.decode?

end BoundSql.Text.Base64Url
