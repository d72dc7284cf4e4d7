import BoundSql.Text.Basic

/-!
# UTF-8

A text is written as bytes after each surrogate without a partner has been
replaced by U+FFFD. Reading is strict: overlong forms, surrogates and values
above U+10FFFF are refused, and one byte order mark at the start is dropped.
-/
namespace BoundSql.Text

/-- The scalar values of a text; a surrogate without a partner reads as U+FFFD. -/
def scalars : Text → List Nat
  | [] => []
  | [c] => [if isHighSurrogate c || isLowSurrogate c then 0xFFFD else c.toNat]
  | c :: d :: rest =>
    if isHighSurrogate c && isLowSurrogate d then
      (0x10000 + (c.toNat - 0xD800) * 0x400 + (d.toNat - 0xDC00)) :: scalars rest
    else if isHighSurrogate c || isLowSurrogate c then 0xFFFD :: scalars (d :: rest)
    else c.toNat :: scalars (d :: rest)

/-- The units of a scalar value. -/
def ofScalar (n : Nat) : Text :=
  if n < 0x10000 then [UInt16.ofNat n]
  else [UInt16.ofNat (0xD800 + (n - 0x10000) / 0x400),
    UInt16.ofNat (0xDC00 + (n - 0x10000) % 0x400)]

namespace Utf8

/-- The bytes of a scalar value. -/
def encodeScalar (n : Nat) : List UInt8 :=
  if n < 0x80 then [UInt8.ofNat n]
  else if n < 0x800 then
    [UInt8.ofNat (0xC0 + n / 0x40), UInt8.ofNat (0x80 + n % 0x40)]
  else if n < 0x10000 then
    [UInt8.ofNat (0xE0 + n / 0x1000), UInt8.ofNat (0x80 + n / 0x40 % 0x40),
      UInt8.ofNat (0x80 + n % 0x40)]
  else
    [UInt8.ofNat (0xF0 + n / 0x40000), UInt8.ofNat (0x80 + n / 0x1000 % 0x40),
      UInt8.ofNat (0x80 + n / 0x40 % 0x40), UInt8.ofNat (0x80 + n % 0x40)]

def encode (t : Text) : List UInt8 := (scalars t).flatMap encodeScalar

def isTail (b : UInt8) : Bool := 0x80 ≤ b && b ≤ 0xBF

/-- The scalar value that starts a byte sequence, with the bytes after it. -/
def decodeScalar : List UInt8 → Option (Nat × List UInt8)
  | [] => none
  | a :: rest =>
    if a < 0x80 then some (a.toNat, rest)
    else if 0xC2 ≤ a && a ≤ 0xDF then
      match rest with
      | b :: rest =>
        if isTail b then some ((a.toNat - 0xC0) * 0x40 + (b.toNat - 0x80), rest) else none
      | _ => none
    else if 0xE0 ≤ a && a ≤ 0xEF then
      match rest with
      | b :: c :: rest =>
        let n := (a.toNat - 0xE0) * 0x1000 + (b.toNat - 0x80) * 0x40 + (c.toNat - 0x80)
        if isTail b && isTail c && 0x800 ≤ n && !(0xD800 ≤ n && n ≤ 0xDFFF) then
          some (n, rest)
        else none
      | _ => none
    else if 0xF0 ≤ a && a ≤ 0xF4 then
      match rest with
      | b :: c :: d :: rest =>
        let n := (a.toNat - 0xF0) * 0x40000 + (b.toNat - 0x80) * 0x1000 +
          (c.toNat - 0x80) * 0x40 + (d.toNat - 0x80)
        if isTail b && isTail c && isTail d && 0x10000 ≤ n && n ≤ 0x10FFFF then
          some (n, rest)
        else none
      | _ => none
    else none

theorem length_of_decodeScalar {bytes rest : List UInt8} {n : Nat}
    (h : decodeScalar bytes = some (n, rest)) : rest.length < bytes.length := by
  unfold decodeScalar at h
  repeat' split at h
  all_goals simp_all
  all_goals omega

/-- The scalar values of a well-formed byte sequence. -/
def decodeScalars (bytes : List UInt8) : Option (List Nat) :=
  if bytes.isEmpty then some []
  else match h : decodeScalar bytes with
    | none => none
    | some (n, rest) =>
      have := length_of_decodeScalar h
      (decodeScalars rest).map (n :: ·)
termination_by bytes.length

/-- Reads strict UTF-8; one leading byte order mark is no part of the text. -/
def decode? (bytes : List UInt8) : Option Text :=
  (decodeScalars bytes).map fun ns =>
    (match ns with
      | 0xFEFF :: rest => rest
      | _ => ns).flatMap ofScalar

/-- The number of bytes of a text. -/
def size (t : Text) : Nat := (encode t).length

end Utf8
end BoundSql.Text
