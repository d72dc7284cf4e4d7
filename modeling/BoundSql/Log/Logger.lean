import BoundSql.Fault
import BoundSql.Log.ErrorValue
import BoundSql.Log.RequestValue
import BoundSql.Log.Template

/-!
# Loggers

A logger writes entries at or above its level. An entry is the text of an object
with the level's number, the logger's name and bindings, the fields of the
message and its text; of repeated names the last counts. Names of bindings are
not quoted again, so they have to be fit to stand in a string. Bound parameters
may hold user data, so a top-level field of that name is never shown.
-/
namespace BoundSql

inductive LogLevel where
  | trace
  | debug
  | info
  | warn
  | error
  | fatal
  | silent
  deriving DecidableEq, Inhabited

namespace LogLevel

/-- All levels, the least severe first. -/
def all : List LogLevel := [.trace, .debug, .info, .warn, .error, .fatal, .silent]

def name : LogLevel → Text
  | .trace => "trace"
  | .debug => "debug"
  | .info => "info"
  | .warn => "warn"
  | .error => "error"
  | .fatal => "fatal"
  | .silent => "silent"

/-- The severity; nothing is as severe as silence. -/
def number : LogLevel → Nat
  | .trace => 10
  | .debug => 20
  | .info => 30
  | .warn => 40
  | .error => 50
  | .fatal => 60
  | .silent => 70

def lowerAscii (t : Text) : Text := t.map fun c => if Text.isUpper c then c + 32 else c

/-- The level of a name in this very spelling. -/
def ofExactName? (t : Text) : Option LogLevel := all.find? fun l => l.name = t

/-- The name of a level in lower case, if that makes it one; silence and most built-in
names have only one spelling. -/
def normalName (t : Text) : Text :=
  let lower := lowerAscii t
  let isLevel := lower ≠ silent.name && (ofExactName? lower).isSome
  if isLevel || BuiltinName.all.contains lower then lower else t

/-- The level that a logger is asked for by name, in any case of letters; no level where
the name is built in. -/
def ofName (t : Text) : Except Fault (Option LogLevel) :=
  match ofExactName? (normalName t) with
  | some l => .ok (some l)
  | none =>
    if BuiltinName.all.contains (normalName t) then .ok none else .error (.unknownLogLevel t)

end LogLevel

/-- An entry as it is written: one JSON object. -/
abbrev LogEntry := Text

structure Logger where
  /-- The least severe level that is written; a logger without a level writes nothing. -/
  level : Option LogLevel
  /-- The written members that are repeated in each entry, each after a comma. -/
  bindings : Text
  deriving DecidableEq, Inhabited

namespace Logger

/-- The name of the field that is never shown. -/
def hiddenField : Text := "params"

/-- The name of the field that may hold an error. -/
def errorField : Text := "err"

/-- The name of the field that holds the message. -/
def messageField : Text := "msg"

/-- Names that a child logger's context cannot bind. -/
def reserved : List Text :=
  List.map Text.ofString ["level", "serializers", "formatters", "customLevels"]

/-- A field whose value is hidden where its name asks for it. -/
def redact (field : Text × Json) : Text × Json :=
  if field.1 = hiddenField then (field.1, .string "[Redacted]") else field

/-- The value of a field as it is written. -/
def valueText (field : Text × Json) : Text :=
  if field.1 = errorField then (ErrorValue.describe field.2).write
  else (BuiltinName.valueText? field.1 field.2).getD (redact field).2.write

/-- The written field of a message, after a comma. -/
def fieldText (field : Text × Json) : Text :=
  Text.unit ',' :: Json.memberText field.1 (valueText field)

/-- The written field of a context, after a comma; its name stands there as it is. -/
def bindingText (field : Text × Json) : Text :=
  Text.unit ',' :: Text.Quoted.quote ::
    (field.1 ++ Text.Quoted.quote :: Text.unit ':' :: valueText field)

/-- A logger by the name of its level. -/
def make (name : Text) (level : Text) : Except Fault Logger := do
  let level ← LogLevel.ofName level
  .ok ⟨level, fieldText ("name", .string name)⟩

/-- A logger that adds a context to every entry. -/
def child (l : Logger) (context : List (Text × Json)) : Logger :=
  { l with bindings := l.bindings ++
    (context.filter fun field => !reserved.contains field.1).flatMap bindingText }

/-- A logger with a context that a caller hands in, which has to be there. -/
def childOf (l : Logger) (context : Json) : Except Fault Logger :=
  if context.isPresent then .ok (l.child context.entries) else .error .missingContext

/-- Does the logger write entries of a level? -/
def writes (l : Logger) (level : LogLevel) : Bool :=
  match l.level with
  | some least => least.number ≤ level.number
  | none => false

/-- The text of a message without one: that of the error among its fields, unless a field
is in its place. -/
def errorText? (fields : List (Text × Json)) : Option Json :=
  match Json.find? messageField fields with
  | some _ => none
  | none => (Json.find? errorField fields).bind (Json.get? "message")

/-- The entry of a message. -/
def compose (l : Logger) (level : LogLevel) (fields : List (Text × Json))
    (message : Option Json) : LogEntry :=
  let fields := (RequestValue.fieldsOf fields).filter fun field =>
    !BuiltinName.dropped.contains field.1
  let text := (message.or (errorText? fields)).map fun m =>
    Text.unit ',' :: Json.memberText messageField m.write
  Text.unit '{' :: (Json.memberText "level" (Text.ofNat level.number) ++ l.bindings ++
    fields.flatMap fieldText ++ text.getD [] ++ [Text.unit '}'])

/-- The entries that a message leads to: one, or none where the level is too low. -/
def log (l : Logger) (level : LogLevel) (fields : List (Text × Json))
    (message : Option Json) : List LogEntry :=
  if level ≠ .silent ∧ l.writes level then [l.compose level fields message] else []

/-- A value in the text of a message, its own hidden field left out of sight. -/
def inlineText : Json → Text
  | .object members => (Json.object (members.map redact)).write
  | j => j.write

/-- The entries of whatever a caller hands in: fields, with or without a message, or a
message alone, which may be a template for a value after it. -/
def logAny (l : Logger) (level : LogLevel) (content : Json) (message : Option Json) :
    List LogEntry :=
  match content with
  | .object _ | .array _ => l.log level content.entries message
  | .null => l.log level [] (message.or (some .null))
  | .string template =>
    l.log level [] (some (.string (Template.text inlineText template message.toList)))
  | _ => l.log level [] (some content)

end Logger
end BoundSql
