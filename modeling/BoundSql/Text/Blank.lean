import BoundSql.Text.Basic

/-!
# Blank characters

The units that are trimmed from the ends of settings, numerals and sort parts:
every character with the Unicode property White_Space except U+0085, and the
byte order mark.
-/
namespace BoundSql.Text

def isBlank (c : UInt16) : Bool :=
  (0x0009 ≤ c && c ≤ 0x000D) || c = 0x0020 || c = 0x00A0 || c = 0x1680 ||
  (0x2000 ≤ c && c ≤ 0x200A) || c = 0x2028 || c = 0x2029 || c = 0x202F ||
  c = 0x205F || c = 0x3000 || c = 0xFEFF

/-- The text without the blanks at its two ends. -/
def trim (t : Text) : Text :=
  ((t.dropWhile isBlank).reverse.dropWhile isBlank).reverse

@[simp] theorem trim_nil : trim [] = [] := rfl

end BoundSql.Text
