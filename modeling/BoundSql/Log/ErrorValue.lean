import BoundSql.Json.Writer
import BoundSql.Log.BuiltinName

/-!
# Errors in entries

An object whose message is a string is an error, and an entry shows it in a
form of its own: its type, the messages and the stacks of the error and its
causes in one, the errors it collects, and its other members. Members that are
errors themselves are shown likewise, except the cause.
-/
namespace BoundSql.ErrorValue

open Json

/-- The message of an error. -/
def message? : Json → Option Text
  | .object members =>
    match find? "message" members with
    | some (.string s) => some s
    | _ => none
  | _ => none

def isError (j : Json) : Bool := (message? j).isSome

mutual

/-- An error and its causes, the outermost first; nothing for other values. -/
def chain : Json → List Json
  | .object members =>
    if isError (.object members) then .object members :: causes members else []
  | _ => []

/-- The causes among the members of an error. -/
def causes : List (Text × Json) → List Json
  | [] => []
  | (key, j) :: rest => if key = Text.ofString "cause" then chain j else causes rest

end

/-- The messages of an error and its causes. -/
def messageText (error : Json) : Text := Text.join ": " ((chain error).filterMap message?)

/-- The stack of an error alone. -/
def ownStack (error : Json) : Json := ((error.get? "stack").filter isPresent).getD (.string [])

/-- Several stacks as one text, a single one as it is. -/
def joinStacks : List Json → Json
  | [] => .string []
  | [only] => only
  | stack :: rest =>
    .string (stack.plainText ++ "\ncaused by: " ++ (joinStacks rest).plainText)

/-- The stacks of an error and its causes. -/
def stack (error : Json) : Json := joinStacks ((chain error).map ownStack)

/-- The type of an error: its name, if it says how it was made and has one. -/
def type? (members : List (Text × Json)) : Option Json :=
  match find? "constructor" members with
  | some _ => find? "name" members
  | none => some (.string "Object")

/-- Names that other members of an error cannot have. -/
def hiddenNames (hasType collects : Bool) : List Text :=
  List.map Text.ofString (["message", "stack", "raw"] ++ (if hasType then ["type"] else []) ++
    if collects then ["aggregateErrors"] else []) ++ BuiltinName.all

mutual

/-- A value as an entry shows it. -/
def describe : Json → Json
  | .object members =>
    if isError (.object members) then
      let type := type? members
      let collected := (collect members).map Json.array
      .object ((type.map fun t => (Text.ofString "type", t)).toList ++
        [(Text.ofString "message", .string (messageText (.object members))),
          (Text.ofString "stack", stack (.object members))] ++
        (collected.map fun es => (Text.ofString "aggregateErrors", es)).toList ++
        describeMembers (hiddenNames type.isSome collected.isSome) members)
    else .object members
  | j => j

/-- The members that are shown beside those that every error has. -/
def describeMembers (hidden : List Text) : List (Text × Json) → List (Text × Json)
  | [] => []
  | (key, j) :: rest =>
    if hidden.contains key || (key = Text.ofString "cause" && isError j) then
      describeMembers hidden rest
    else (key, describe j) :: describeMembers hidden rest

/-- The errors that an error collects, if it has a list of them. -/
def collect : List (Text × Json) → Option (List Json)
  | [] => none
  | (key, j) :: rest => if key = Text.ofString "errors" then describeList? j else collect rest

def describeList? : Json → Option (List Json)
  | .array items => some (describeAll items)
  | _ => none

def describeAll : List Json → List Json
  | [] => []
  | j :: rest => describe j :: describeAll rest

end

end BoundSql.ErrorValue
