import BoundSql.Client.FilterPolicy
import BoundSql.Cursor.Token
import BoundSql.Log.Logger
import BoundSql.Sql.Token

/-!
# Events

What the library itself reports: built statements, ignored cursors, rejected
filters and the start of a kit. None of them shows a bound value.
-/
namespace BoundSql

def SeekDirection.name : SeekDirection → Text
  | .after => "after"
  | .before => "before"

namespace PolicyViolation

/-- The fields of a violation beside its kind and message. -/
def details : PolicyViolation → List (Text × Json)
  | .fieldNotAllowed field allowed =>
    [("field", .string field), ("allowed", .array (allowed.map .string))]
  | .operatorDenied op field => [("operator", .string op.name), ("field", .string field)]
  | .tooDeep max actual => [("max", .number max), ("actual", .number (.ofNat actual))]
  | .tooManyNodes max => [("max", .number (.ofNat max))]

def toJson (v : PolicyViolation) : Json :=
  .object (("type", .string v.kind) :: ("message", .string v.message) :: v.details)

end PolicyViolation

inductive Event where
  | built (sql : Text) (paramCount : Nat)
  | tokenIgnored (direction : SeekDirection) (error : CursorError)
  /-- A cursor whose names are no identifiers was to set the sort order. -/
  | namesIgnored (direction : SeekDirection)
  /-- A cursor without a value for some sort field. -/
  | gapIgnored (direction : SeekDirection)
  | filterRejected (violation : PolicyViolation)
  | kitReady (dialect : Dialect) (allowedFields : Nat) (deniedOperators : List Operator)
  deriving DecidableEq

namespace Event

def level : Event → LogLevel
  | .built _ _ => .trace
  | _ => .debug

def fields : Event → List (Text × Json)
  | .built sql paramCount =>
    [("sql", .string sql), ("paramCount", .number (.ofNat paramCount))]
  | .tokenIgnored direction error =>
    [("direction", .string direction.name), ("error", .string error.kind)]
  | .namesIgnored direction => [("direction", .string direction.name)]
  | .gapIgnored direction => [("direction", .string direction.name)]
  | .filterRejected violation => [("error", violation.toJson)]
  | .kitReady dialect allowedFields deniedOperators =>
    [("dialect", .string dialect.name), ("allowedFields", .number (.ofNat allowedFields)),
      ("deniedOperators", .array (deniedOperators.map fun op => .string op.name))]

def message : Event → Text
  | .built _ _ => "Built SQL statement"
  | .tokenIgnored _ _ => "Ignoring undecodable cursor"
  | .namesIgnored _ => "Ignoring cursor with invalid field names"
  | .gapIgnored _ => "Ignoring cursor that does not cover the sort fields"
  | .filterRejected _ => "Filter rejected"
  | .kitReady _ _ _ => "SQL kit initialized"

/-- The entries that a logger writes for an event. -/
def entries (l : Logger) (e : Event) : List LogEntry :=
  l.log e.level e.fields (some (.string e.message))

end Event

namespace Logger

def report (l : Logger) (events : List Event) : List LogEntry := events.flatMap (Event.entries l)

/-- The logger of the builder of one statement. -/
def forStatement (l : Logger) (kind : StatementKind) (table : Text) : Logger :=
  l.child [("builder", .string kind.name), ("table", .string table)]

/-- The logger of a part of the library. -/
def forComponent (l : Logger) (component : Text) : Logger :=
  l.child [("component", .string component)]

end Logger
end BoundSql
