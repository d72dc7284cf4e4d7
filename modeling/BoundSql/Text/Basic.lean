/-!
# Texts as UTF-16 code units

Clients may send half of a surrogate pair, and every length limit of the
library counts code units, so a text is a list of units and not a `String`.
This module holds literals, decimal numerals and the splitting and searching
that the rest of the library needs.
-/
namespace BoundSql

/-- A sequence of UTF-16 code units; surrogates need not come in pairs. -/
abbrev Text := List UInt16

namespace Text

/-- The code unit of a character of the basic plane. -/
def unit (c : Char) : UInt16 := UInt16.ofNat c.toNat

/-- A character as one unit, or as a surrogate pair beyond U+FFFF. -/
def ofChar (c : Char) : Text :=
  if c.toNat < 0x10000 then [unit c]
  else
    let n := c.toNat - 0x10000
    [UInt16.ofNat (0xD800 + n / 0x400), UInt16.ofNat (0xDC00 + n % 0x400)]

@[coe] def ofString (s : String) : Text := s.toList.flatMap ofChar

instance : Coe String Text := ⟨ofString⟩

/-- The decimal numeral of a natural number. -/
def ofNat (n : Nat) : Text := (Nat.toDigits 10 n).map unit

/-- The decimal numeral of an integer, with a minus sign where it is negative. -/
def ofInt (n : Int) : Text :=
  if n < 0 then unit '-' :: ofNat n.natAbs else ofNat n.natAbs

/-- The texts of a list with a separator between neighbours. -/
def join (separator : Text) (parts : List Text) : Text := List.intercalate separator parts

def isDigit (c : UInt16) : Bool := unit '0' ≤ c && c ≤ unit '9'

def isLower (c : UInt16) : Bool := unit 'a' ≤ c && c ≤ unit 'z'

def isUpper (c : UInt16) : Bool := unit 'A' ≤ c && c ≤ unit 'Z'

/-- The value of a hexadecimal digit. -/
def hexValue? (c : UInt16) : Option Nat :=
  if isDigit c then some (c.toNat - 48)
  else if unit 'a' ≤ c && c ≤ unit 'f' then some (c.toNat - 97 + 10)
  else if unit 'A' ≤ c && c ≤ unit 'F' then some (c.toNat - 65 + 10)
  else none

/-- The number that a run of decimal digits spells. -/
def digitsValue (digits : Text) : Nat :=
  digits.foldl (fun n c => 10 * n + (c.toNat - 48)) 0

/-- The pieces between the occurrences of a unit; there is always at least one. -/
def splitAt (separator : UInt16) : Text → List Text
  | [] => [[]]
  | c :: rest =>
    if c = separator then [] :: splitAt separator rest
    else match splitAt separator rest with
      | [] => [[c]]
      | piece :: pieces => (c :: piece) :: pieces

/-- What follows a text that stands at the front of another. -/
def dropFront? (front t : Text) : Option Text :=
  if front.isPrefixOf t then some (t.drop front.length) else none

theorem dropFront?_eq_some_iff {front t rest : Text} :
    dropFront? front t = some rest ↔ t = front ++ rest := by
  rw [dropFront?]
  constructor
  · intro h
    split at h
    · next hfront =>
      obtain ⟨u, rfl⟩ := List.isPrefixOf_iff_prefix.mp hfront
      rw [← Option.some.inj h, List.drop_left]
    · cases h
  · rintro rfl
    rw [if_pos (List.isPrefixOf_iff_prefix.mpr (List.prefix_append front rest)), List.drop_left]

/-- Does the first text occur in the second? -/
def occursIn (needle : Text) : Text → Bool
  | [] => needle.isEmpty
  | c :: rest => needle.isPrefixOf (c :: rest) || occursIn needle rest

theorem occursIn_iff {needle t : Text} : needle.occursIn t = true ↔ needle <:+: t := by
  induction t with
  | nil => simp [occursIn]
  | cons c rest ih =>
    rw [occursIn, Bool.or_eq_true, ih, List.isPrefixOf_iff_prefix, List.infix_cons_iff]

def isLowSurrogate (c : UInt16) : Bool := 0xDC00 ≤ c && c ≤ 0xDFFF

def isHighSurrogate (c : UInt16) : Bool := 0xD800 ≤ c && c ≤ 0xDBFF

@[simp] theorem splitAt_nil (s : UInt16) : splitAt s [] = [[]] := rfl

theorem splitAt_ne_nil (s : UInt16) (t : Text) : splitAt s t ≠ [] := by
  induction t with
  | nil => simp
  | cons c rest ih =>
    simp only [splitAt]
    split
    · simp
    · split <;> simp

end Text
end BoundSql
