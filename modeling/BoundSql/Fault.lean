import BoundSql.Number.Decimal

/-!
# Faults of the caller

Values out of range, bad identifiers and misused builders are mistakes of the
program that calls the library. Each is a cause of its own; the wording is in
one function.
-/
namespace BoundSql

/-- The four kinds of statement. -/
inductive StatementKind where
  | select
  | insert
  | update
  | delete
  deriving DecidableEq

def StatementKind.name : StatementKind → Text
  | .select => "select"
  | .insert => "insert"
  | .update => "update"
  | .delete => "delete"

inductive Fault where
  | notInteger (n : Double)
  | outsideInt64 (n : Int)
  /-- A name that is no identifier, with what it was to be used for. -/
  | invalidIdentifier (use name : Text)
  | invalidExpression (use expression : Text)
  /-- A call to a builder whose statement has been built. -/
  | alreadyBuilt (kind : StatementKind) (table method : Text)
  | badStartIndex (n : Double)
  | notUInt32 (what : Text)
  | insertIncomplete (table : Text)
  | insertRowWidth (row actual expected : Nat)
  | updateEmpty (table : Text)
  | unknownLogLevel (name : Text)
  /-- A child logger without a context. -/
  | missingContext
  /-- Settings that do not fit, as pairs of a path and what is wrong there. -/
  | invalidSettings (problems : List (Text × Text))
  | pageSizesCrossed
  deriving DecidableEq

namespace Fault

/-- The text between two quotation marks of a message. -/
def quoted (t : Text) : Text := "'" ++ t ++ "'"

def message : Fault → Text
  | .notInteger n => "Integer value expected, got " ++ n.toText
  | .outsideInt64 n =>
    "Integer value " ++ Text.ofInt n ++ " is outside the signed 64-bit range"
  | .invalidIdentifier use name =>
    "Invalid SQL identifier for " ++ use ++ ": " ++ quoted name ++
      " (must match [A-Za-z_][A-Za-z0-9_]* and be at most 63 characters)"
  | .invalidExpression use expression =>
    "Invalid SQL expression for " ++ use ++ ": " ++ quoted expression ++
      " contains denied patterns (comments, statement terminators or SQL keywords)"
  | .alreadyBuilt kind table method =>
    kind.name ++ " builder for " ++ quoted table ++ " was already built; " ++ method ++
      "() is not allowed"
  | .badStartIndex n => "Parameter start index must be a positive integer, got " ++ n.toText
  | .notUInt32 what => what ++ " must be an integer between 0 and 4294967295"
  | .insertIncomplete table =>
    "INSERT into " ++ quoted table ++ " needs at least one column and one row"
  | .insertRowWidth row actual expected =>
    "INSERT row " ++ Text.ofNat row ++ " has " ++ Text.ofNat actual ++ " values for " ++
      Text.ofNat expected ++ " columns"
  | .updateEmpty table => "UPDATE of " ++ quoted table ++ " needs at least one SET column"
  | .missingContext => "missing bindings for child Pino"
  | .unknownLogLevel name => "default level:" ++ name ++ " must be included in custom levels"
  | .invalidSettings problems =>
    "Invalid environment configuration: " ++
      Text.join ", " (problems.map fun p => p.1 ++ ": " ++ p.2)
  | .pageSizesCrossed =>
    "Invalid environment configuration: PAGE_SIZE_DEFAULT must not exceed PAGE_SIZE_MAX"

end Fault
end BoundSql
