import BoundSql.Json.Writer

/-!
# Built-in names

Names that are taken from the start. A member of an error under such a name is
not shown, and where a level is asked for such a name is accepted, although no
entry ever reaches it. A few of them do not show the values of fields as they are.
-/
namespace BoundSql.BuiltinName

def all : List Text := List.map Text.ofString [
  "constructor", "hasOwnProperty", "isPrototypeOf", "propertyIsEnumerable", "toLocaleString",
  "toString", "valueOf", "__proto__", "__defineGetter__", "__defineSetter__",
  "__lookupGetter__", "__lookupSetter__"]

/-- Names under which a message has no field. -/
def dropped : List Text := List.map Text.ofString ["__lookupGetter__", "__lookupSetter__"]

/-- How the value of a field is written that has one of two names: as plain text, which is
not quoted, or not at all. -/
def valueText? (name : Text) (j : Json) : Option Text :=
  if name = Text.ofString "constructor" then
    some (if j.isNull then (Json.object []).plainText else j.plainText)
  else if name = Text.ofString "isPrototypeOf" then some (Json.bool false).write
  else none

end BoundSql.BuiltinName
