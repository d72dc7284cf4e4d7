import BoundSql.Json.Basic
import BoundSql.Text.Quoted

/-!
# Writing JSON

The compact form of a value: no spaces, members in their order, and `null` for
a number that is not finite.
-/
namespace BoundSql.Json

def numberText (x : Double) : Text := if x.isFinite then x.toText else "null"

/-- A name and a written value as they stand in an object. -/
def memberText (key value : Text) : Text := Text.Quoted.write key ++ Text.unit ':' :: value

mutual

def write : Json → Text
  | .null => "null"
  | .bool b => if b then "true" else "false"
  | .number x => numberText x
  | .string s => Text.Quoted.write s
  | .array items => Text.unit '[' :: (Text.join "," (writeItems items) ++ [Text.unit ']'])
  | .object members =>
    Text.unit '{' :: (Text.join "," (writeMembers members) ++ [Text.unit '}'])

def writeItems : List Json → List Text
  | [] => []
  | j :: rest => write j :: writeItems rest

def writeMembers : List (Text × Json) → List Text
  | [] => []
  | (key, j) :: rest => memberText key (write j) :: writeMembers rest

end

mutual

/-- A value as plain text: strings as they are, items between commas and without `null`. -/
def plainText : Json → Text
  | .null => "null"
  | .bool b => if b then "true" else "false"
  | .number x => x.toText
  | .string s => s
  | .array items => Text.join "," (plainItems items)
  | .object _ => "[object Object]"

def plainItems : List Json → List Text
  | [] => []
  | .null :: rest => [] :: plainItems rest
  | j :: rest => plainText j :: plainItems rest

end

end BoundSql.Json
