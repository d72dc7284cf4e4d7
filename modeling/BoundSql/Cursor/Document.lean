import BoundSql.Cursor.Basic
import BoundSql.Json.Basic
import BoundSql.Number.Numeral
import BoundSql.Text.Quoted

/-!
# The JSON form of cursors

A flat object with the entries in order. Integers keep all their digits and
floats always show a point or an exponent, so that each comes back as what it
was. Numbers that are not finite and lists have no form and are left out.
-/
namespace BoundSql.Cursor

/-- Does a numeral look like an integer? -/
def looksIntegral : Text → Bool
  | [] => false
  | c :: rest =>
    if c = Text.unit '-' then !rest.isEmpty && rest.all Text.isDigit
    else (c :: rest).all Text.isDigit

/-- The numeral of a finite float. -/
def floatText (x : Double) : Text :=
  if looksIntegral x.toText then x.toText ++ ".0" else x.toText

def scalarText? : Value → Option Text
  | .null => some "null"
  | .bool b => some (if b then "true" else "false")
  | .int n => some (Text.ofInt n.toInt)
  | .float x => if x.isFinite then some (floatText x) else none
  | .string s => some (Text.Quoted.write s)
  | .array _ => none

/-- The member of one entry, if its value has a form. -/
def memberText? (entry : Text × Value) : Option Text :=
  (scalarText? entry.2).map fun value =>
    Text.Quoted.write entry.1 ++ Text.unit ':' :: value

/-- The document of a list of entries. -/
def write (entries : List (Text × Value)) : Text :=
  Text.unit '{' :: (Text.join "," (entries.filterMap memberText?) ++ [Text.unit '}'])

def fail {α : Type} (defect : FormatDefect) : Except CursorError α :=
  .error (.invalidFormat defect)

/-- The text after a unit that has to come next. -/
def expect (c : UInt16) (defect : FormatDefect) : Text → Except CursorError Text
  | [] => fail defect
  | d :: rest => if d = c then .ok rest else fail defect

def readName (t : Text) : Except CursorError (Text × Text) :=
  match Text.Quoted.read? t with
  | some found => .ok found
  | none => fail .noName

/-- The value of a numeral: an integer without fraction and exponent, else a float. -/
def numeralValue (n : Numeral) : Except CursorError Value :=
  if n.isIntegral then
    match Value.ofInt n.toInt with
    | .ok v => .ok v
    | .error _ => fail .integerRange
  else if n.toDouble.isFinite then .ok (.float n.toDouble)
  else fail .numberRange

def readScalar (t : Text) : Except CursorError (Value × Text) :=
  if t.head? = some Text.Quoted.quote then do
    let (s, rest) ← readName t
    .ok (.string s, rest)
  else match Json.readWord? t with
    | some (some b, rest) => .ok (.bool b, rest)
    | some (none, rest) => .ok (.null, rest)
    | none =>
      match Numeral.read? t with
      | some (n, rest) => do
        let value ← numeralValue n
        .ok (value, rest)
      | none => fail .noScalar

/-- A name, a colon and a scalar, with spaces between them. -/
def readMember (t : Text) : Except CursorError ((Text × Value) × Text) := do
  let (name, t) ← readName (Json.skipSpace t)
  let t ← expect (Text.unit ':') .noColon (Json.skipSpace t)
  let (value, t) ← readScalar (Json.skipSpace t)
  .ok ((name, value), t)

/-- Members up to the closing brace, with room for so many. -/
def readMembers (room : Nat) (t : Text) : Except CursorError (List (Text × Value) × Text) := do
  let (entry, t) ← readMember t
  match room with
  | 0 => .error .tooManyFields
  | room + 1 =>
    match Json.skipSpace t with
    | [] => fail .noSeparator
    | c :: rest =>
      if c = Text.unit '}' then .ok ([entry], rest)
      else if c = Text.unit ',' then do
        let (entries, rest) ← readMembers room rest
        .ok (entry :: entries, rest)
      else fail .noSeparator

/-- An object at the front of a text. -/
def readObject (t : Text) : Except CursorError (List (Text × Value) × Text) := do
  let t ← expect (Text.unit '{') .notObject (Json.skipSpace t)
  match Json.skipSpace t with
  | c :: rest => if c = Text.unit '}' then .ok ([], rest) else readMembers maxFields (c :: rest)
  | [] => readMembers maxFields []

/-- Reads a whole text as a flat object of scalars. -/
def read (t : Text) : Except CursorError (List (Text × Value)) := do
  let (entries, rest) ← readObject t
  if (Json.skipSpace rest).isEmpty then .ok entries else fail .trailing

end BoundSql.Cursor
