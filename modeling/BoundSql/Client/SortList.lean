import BoundSql.Filter
import BoundSql.Identifier
import BoundSql.Text.Blank

/-!
# Sort lists

A client sorts by a list of fields between commas, a dash before those that
descend. Blanks around a part and empty parts do not count.
-/
namespace BoundSql

inductive SortError where
  | notAllowed (field : Text) (allowed : List Text)
  | invalid (field : Text)
  deriving DecidableEq

namespace SortError

def kind : SortError → Text
  | .notAllowed _ _ => "SortFieldNotAllowed"
  | .invalid _ => "InvalidSortField"

def message : SortError → Text
  | .notAllowed field allowed =>
    "Sort field " ++ Fault.quoted field ++ " not allowed. Allowed: " ++ Text.join ", " allowed
  | .invalid field => "Sort field " ++ Fault.quoted field ++ " is not a valid identifier"

end SortError

namespace SortList

/-- A field that is on the list, which allows all when it is empty, and an identifier. -/
def checkField (allowed : List Text) (field : Text) : Except SortError Unit :=
  if !allowed.isEmpty && !allowed.contains field then .error (.notAllowed field allowed)
  else if !Identifier.isValid field then .error (.invalid field)
  else .ok ()

/-- A part without the dash before it, if it has one, and its direction. -/
def splitDash : Text → SortKey
  | [] => ⟨[], .asc⟩
  | c :: rest => if c = Text.unit '-' then ⟨rest, .desc⟩ else ⟨c :: rest, .asc⟩

/-- The sort field of a trimmed part. -/
def readPart (allowed : List Text) (part : Text) : Except SortError SortKey := do
  let s := splitDash part
  checkField allowed s.field
  .ok s

/-- The parts that count. -/
def parts (t : Text) : List Text :=
  ((Text.splitAt (Text.unit ',') t).map Text.trim).filter fun p => !p.isEmpty

/-- The sort fields of a list, or what is wrong with the first bad one. -/
def read (allowed : List Text) (t : Text) : Except SortError (List SortKey) :=
  (parts t).mapM (readPart allowed)

/-- The part of a sort field. -/
def writePart (s : SortKey) : Text :=
  match s.dir with
  | .asc => s.field
  | .desc => Text.unit '-' :: s.field

/-- The written form of a list of sort fields. -/
def write (sorts : List SortKey) : Text := Text.join "," (sorts.map writePart)

end SortList
end BoundSql
