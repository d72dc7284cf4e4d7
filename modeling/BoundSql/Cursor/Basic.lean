import BoundSql.Filter

/-!
# Cursors

A cursor holds named values of the last row of a page, in order. Names may
repeat; the first value under a name counts. What can be wrong with a token
from a client is listed here as well.
-/
namespace BoundSql

structure Cursor where
  entries : List (Text × Value)
  deriving Inhabited

namespace Cursor

def empty : Cursor := ⟨[]⟩

/-- The cursor with one more entry at its end. -/
def field (c : Cursor) (name : Text) (value : Value) : Cursor := ⟨c.entries ++ [(name, value)]⟩

/-- The first value under a name. -/
def get? (c : Cursor) (name : Text) : Option Value :=
  (c.entries.find? fun e => e.1 = name).map (·.2)

def isEmpty (c : Cursor) : Bool := c.entries.isEmpty

/-- The longest token that is read, in bytes. -/
def maxSize : Nat := 4096

/-- The most entries that a token may hold. -/
def maxFields : Nat := 16

end Cursor

/-- Where a decoded token stops being a flat object of scalars. -/
inductive FormatDefect where
  | notObject
  | noName
  | noColon
  | noScalar
  | numberRange
  | integerRange
  | noSeparator
  | trailing
  deriving DecidableEq

def FormatDefect.detail : FormatDefect → Option Text
  | .notObject => none
  | .noName => some "expected string"
  | .noColon => some "expected \":\""
  | .noScalar => some "expected primitive value"
  | .numberRange => some "number out of range"
  | .integerRange => some "integer out of range"
  | .noSeparator => some "expected \",\" or \"\x7d\""
  | .trailing => some "trailing characters"

inductive CursorError where
  /-- No base64, or bytes that are no UTF-8. -/
  | invalidEncoding
  | invalidFormat (defect : FormatDefect)
  | tooLarge (size : Nat)
  | tooManyFields
  deriving DecidableEq

namespace CursorError

def kind : CursorError → Text
  | .invalidEncoding => "InvalidEncoding"
  | .invalidFormat _ => "InvalidFormat"
  | .tooLarge _ => "TooLarge"
  | .tooManyFields => "TooManyFields"

def message : CursorError → Text
  | .invalidEncoding => "Invalid base64 encoding in cursor"
  | .invalidFormat defect =>
    match defect.detail with
    | none => "Invalid cursor format (expected JSON object)"
    | some detail => "Invalid cursor format (expected JSON object): " ++ detail
  | .tooLarge _ => "Cursor exceeds maximum size (4KB limit)"
  | .tooManyFields => "Cursor has too many fields (max 16)"

/-- Was the token never a cursor? -/
def isFormatError : CursorError → Bool
  | .invalidEncoding => true
  | .invalidFormat _ => true
  | _ => false

/-- Does the token break a limit? -/
def isLimitError : CursorError → Bool
  | .tooLarge _ => true
  | .tooManyFields => true
  | _ => false

end CursorError
end BoundSql
