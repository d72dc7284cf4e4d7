import BoundSql.Fault
import BoundSql.Json.Writer
import BoundSql.Number.Numeral

/-!
# Message templates

A text with directives that are filled in from left to right: `%s` takes a value
as plain text, `%d`, `%f` and `%i` as a number, `%j`, `%o` and `%O` in its written
form, and `%%` is a percent sign. Every other directive uses up a value and stays
as it is, and so does a number where the value is null.
-/
namespace BoundSql.Template

def percent : UInt16 := Text.unit '%'

/-- A value as a number. -/
def number : Json → Double
  | .null => 0
  | .bool b => if b then 1 else 0
  | .number x => x
  | j => Numeral.readSetting j.plainText

/-- A value in its written form; a string stands between single quotes. -/
def written (write : Json → Text) : Json → Text
  | .string s => Fault.quoted s
  | j => write j

/-- What stands in place of a directive, if it takes the value. -/
def directive? (write : Json → Text) (letter : UInt16) (j : Json) : Option Text :=
  if letter = Text.unit 's' then some j.plainText
  else if letter = Text.unit 'd' || letter = Text.unit 'f' then
    if j.isNull then none else some (number j).toText
  else if letter = Text.unit 'i' then
    if j.isNull then none else some (number j).floor.toText
  else if letter = Text.unit 'j' || letter = Text.unit 'o' || letter = Text.unit 'O' then
    some (written write j)
  else none

/-- A template with its directives filled in as long as there are values. -/
def fill (write : Json → Text) : Text → List Json → Text
  | [], _ => []
  | [c], _ => [c]
  | c :: d :: rest, values =>
    if c ≠ percent then c :: fill write (d :: rest) values
    else if d = percent then percent :: fill write rest values
    else
      match values with
      | [] => c :: fill write (d :: rest) []
      | j :: more =>
        match directive? write d j with
        | some t => t ++ fill write rest more
        | none => c :: fill write (d :: rest) more

/-- The text of a template; without any values it has no directives. -/
def text (write : Json → Text) (template : Text) (values : List Json) : Text :=
  if values.isEmpty then template else fill write template values

end BoundSql.Template
