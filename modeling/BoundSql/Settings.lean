import BoundSql.Client.FilterPolicy
import BoundSql.Identifier
import BoundSql.Log.Logger
import BoundSql.Number.Numeral
import BoundSql.PageSize
import BoundSql.Sql.Dialect

/-!
# Settings

Everything that a deployment can set, read from named texts. Each setting has a
default. All problems are reported together, in the order of the settings, and
only settings without a problem are held against each other.
-/
namespace BoundSql

/-- The texts that are set, by name. -/
abbrev Environment := List (Text × Text)

inductive RunMode where
  | development
  | production
  | test
  deriving DecidableEq

namespace RunMode

def all : List RunMode := [.development, .production, .test]

def name : RunMode → Text
  | .development => "development"
  | .production => "production"
  | .test => "test"

end RunMode

structure Settings where
  mode : RunMode
  logLevel : LogLevel
  dialect : Dialect
  maxDepth : Nat
  allowedFields : List Text
  deniedOperators : List Operator
  pageSizes : PageSizes
  deriving DecidableEq

namespace Settings

/-- A path in the settings and what is wrong there. -/
abbrev Problem := Text × Text

/-- A setting, or its problems. -/
abbrev Checked (α : Type) := Except (List Problem) α

def problems {α : Type} : Checked α → List Problem
  | .ok _ => []
  | .error ps => ps

def path (name : Text) : Text := Text.unit '/' :: name

def itemPath (name : Text) (i : Nat) : Text := path name ++ Text.unit '/' :: Text.ofNat i

/-- The text of a setting, if it is set. -/
def text? (env : Environment) (name : Text) : Option Text :=
  (env.find? fun v => v.1 = name).map (·.2)

/-- A setting that names one of a few choices. -/
def choice {α : Type} (env : Environment) (name : Text) (fallback : α)
    (ofName? : Text → Option α) : Checked α :=
  match text? env name with
  | none => .ok fallback
  | some t =>
    match ofName? t with
    | some a => .ok a
    | none => .error [(path name, "Expected union value")]

/-- What a number is held to: no fraction, a lower bound and perhaps an upper one. -/
def integerProblems (least : Nat) (most : Option Nat) (n : Double) : List Text :=
  if !n.isInteger then ["Expected integer"]
  else
    (match most with
      | some m =>
        if n.le (.ofNat m) then []
        else ["Expected integer to be less or equal to " ++ Text.ofNat m]
      | none => []) ++
    (if Double.le (.ofNat least) n then []
      else ["Expected integer to be greater or equal to " ++ Text.ofNat least])

/-- A setting that is an integer in a range; an empty text counts as not set. -/
def integer (env : Environment) (name : Text) (fallback least : Nat) (most : Option Nat) :
    Checked Double :=
  let n := match text? env name with
    | none => .ofNat fallback
    | some t => if t.isEmpty then .ofNat fallback else Numeral.readSetting t
  match integerProblems least most n with
  | [] => .ok n
  | ps => .error (ps.map fun p => (path name, p))

/-- The items between the commas of a list, without blanks around them. -/
def items (t : Text) : List Text :=
  ((Text.splitAt (Text.unit ',') t).map Text.trim).filter fun i => !i.isEmpty

/-- Each item of a list from the given position on, or the problems of all that have one. -/
def readItems {α : Type} (name problem : Text) (read : Text → Option α) :
    Nat → List Text → Checked (List α)
  | _, [] => .ok []
  | i, t :: rest =>
    match read t, readItems name problem read (i + 1) rest with
    | some a, .ok more => .ok (a :: more)
    | some _, .error ps => .error ps
    | none, more => .error ((itemPath name i, problem) :: problems more)

/-- A setting that is a list. -/
def list {α : Type} (env : Environment) (name problem : Text) (fallback : List α)
    (read : Text → Option α) : Checked (List α) :=
  match text? env name with
  | none => .ok fallback
  | some t => readItems name problem read 0 (items t)

def fieldName? (t : Text) : Option Text := if Identifier.isWellFormed t then some t else none

/-- The integer that a number in a small range is. -/
def toNat (n : Double) : Nat := (n.toInt?.getD 0).toNat

/-- The settings of an environment, or all that is wrong with it. -/
def read (env : Environment) : Except Fault Settings :=
  let mode := choice env "NODE_ENV" .development fun t => RunMode.all.find? fun m => m.name = t
  let logLevel := choice env "LOG_LEVEL" .info LogLevel.ofExactName?
  let dialect := choice env "SQL_DIALECT" .postgres Dialect.ofName?
  let maxDepth := integer env "FILTER_MAX_DEPTH" 5 1 (some 32)
  let allowedFields := list env "FILTER_ALLOWED_FIELDS"
    "Expected string to match '^[A-Za-z_][A-Za-z0-9_]*$'" [] fieldName?
  let deniedOperators := list env "FILTER_DENIED_OPERATORS" "Expected union value" [.regex]
    Operator.ofName?
  let pageDefault := integer env "PAGE_SIZE_DEFAULT" 20 1 none
  let pageMax := integer env "PAGE_SIZE_MAX" 100 1 none
  match mode, logLevel, dialect, maxDepth, allowedFields, deniedOperators, pageDefault,
    pageMax with
  | .ok mode, .ok logLevel, .ok dialect, .ok maxDepth, .ok allowedFields, .ok deniedOperators,
    .ok pageDefault, .ok pageMax =>
    if pageMax.lt pageDefault then .error .pageSizesCrossed
    else .ok ⟨mode, logLevel, dialect, toNat maxDepth, allowedFields, deniedOperators,
      ⟨pageDefault, pageMax⟩⟩
  | _, _, _, _, _, _, _, _ =>
    .error (.invalidSettings (problems mode ++ problems logLevel ++ problems dialect ++
      problems maxDepth ++ problems allowedFields ++ problems deniedOperators ++
      problems pageDefault ++ problems pageMax))

/-- Are entries laid out for people to read? -/
def prettyLog (s : Settings) : Bool := s.mode ≠ .production

/-- The policy for client filters. -/
def policy (s : Settings) : FilterPolicy :=
  ⟨s.allowedFields, s.deniedOperators, .ofNat s.maxDepth⟩

end Settings
end BoundSql
