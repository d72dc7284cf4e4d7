import BoundSql.Text.Basic

/-!
# Quoted strings

The written form of a text between double quotes. Reading accepts every escape
of JSON; writing uses the short ones, `\u` with four lower-case digits for the
other controls and for surrogates without a partner, and leaves the rest as it
is.
-/
namespace BoundSql.Text.Quoted

def quote : UInt16 := unit '"'

def backslash : UInt16 := unit '\\'

def hexDigit (n : Nat) : UInt16 :=
  if n < 10 then UInt16.ofNat (48 + n) else UInt16.ofNat (97 + (n - 10))

/-- The escape of a unit by its four hexadecimal digits. -/
def hexEscape (c : UInt16) : Text :=
  let n := c.toNat
  [backslash, unit 'u', hexDigit (n / 0x1000), hexDigit (n / 0x100 % 0x10),
    hexDigit (n / 0x10 % 0x10), hexDigit (n % 0x10)]

/-- The unit that four hexadecimal digits spell. -/
def hexUnit? (a b c d : UInt16) : Option UInt16 := do
  let a ← hexValue? a
  let b ← hexValue? b
  let c ← hexValue? c
  let d ← hexValue? d
  some (UInt16.ofNat (a * 0x1000 + b * 0x100 + c * 0x10 + d))

/-- The letter after the backslash of a short escape. -/
def shortEscape? (c : UInt16) : Option UInt16 :=
  if c = quote then some quote
  else if c = backslash then some backslash
  else if c = 0x08 then some (unit 'b')
  else if c = 0x09 then some (unit 't')
  else if c = 0x0A then some (unit 'n')
  else if c = 0x0C then some (unit 'f')
  else if c = 0x0D then some (unit 'r')
  else none

/-- The unit of a short escape; the slash may be escaped too. -/
def unescape? (c : UInt16) : Option UInt16 :=
  if c = quote then some quote
  else if c = backslash then some backslash
  else if c = unit '/' then some (unit '/')
  else if c = unit 'b' then some 0x08
  else if c = unit 't' then some 0x09
  else if c = unit 'n' then some 0x0A
  else if c = unit 'f' then some 0x0C
  else if c = unit 'r' then some 0x0D
  else none

/-- A unit that is not part of a surrogate pair. -/
def writeUnit (c : UInt16) : Text :=
  match shortEscape? c with
  | some e => [backslash, e]
  | none =>
    if c < 0x20 || isHighSurrogate c || isLowSurrogate c then hexEscape c else [c]

def writeBody : Text → Text
  | [] => []
  | [c] => writeUnit c
  | c :: d :: rest =>
    if isHighSurrogate c && isLowSurrogate d then c :: d :: writeBody rest
    else writeUnit c ++ writeBody (d :: rest)

def write (t : Text) : Text := quote :: (writeBody t ++ [quote])

/-- Reads up to the closing quote, with the units read so far in reverse. -/
def readBody (done : Text) : Text → Option (Text × Text)
  | [] => none
  | c :: rest =>
    if c = quote then some (done.reverse, rest)
    else if c = backslash then
      match rest with
      | [] => none
      | e :: rest =>
        if e = unit 'u' then
          match rest with
          | h₁ :: h₂ :: h₃ :: h₄ :: rest =>
            match hexUnit? h₁ h₂ h₃ h₄ with
            | some u => readBody (u :: done) rest
            | none => none
          | _ => none
        else match unescape? e with
          | some u => readBody (u :: done) rest
          | none => none
    else if c < 0x20 then none
    else readBody (c :: done) rest

/-- The quoted string at the front of a text, and the rest. -/
def read? : Text → Option (Text × Text)
  | [] => none
  | c :: rest => if c = quote then readBody [] rest else none

end BoundSql.Text.Quoted
