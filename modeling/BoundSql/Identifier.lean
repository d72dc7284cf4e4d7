import BoundSql.Fault

/-!
# Identifiers

Table, column and label names stand unquoted in the statement, so they are
accepted or refused and never escaped: a letter or underscore, then letters,
digits and underscores, at most 63 in all.
-/
namespace BoundSql.Identifier

def maxLength : Nat := 63

def isStart (c : UInt16) : Bool := Text.isUpper c || Text.isLower c || c = Text.unit '_'

def isPart (c : UInt16) : Bool := isStart c || Text.isDigit c

/-- The form of an identifier, whatever its length. -/
def isWellFormed : Text → Bool
  | [] => false
  | c :: rest => isStart c && rest.all isPart

def isValid (name : Text) : Bool := name.length ≤ maxLength && isWellFormed name

/-- Refuses a name that is no identifier; `use` says what it was meant for. -/
def check (use name : Text) : Except Fault Unit :=
  if isValid name then .ok () else .error (.invalidIdentifier use name)

/-- Refuses the first name of a list that is no identifier. -/
def checkAll (use : Text) : List Text → Except Fault Unit
  | [] => .ok ()
  | name :: rest => do
    check use name
    checkAll use rest

@[simp] theorem check_eq_ok_iff {use name : Text} :
    check use name = .ok () ↔ isValid name = true := by
  simp [check]

theorem checkAll_eq_ok_iff {use : Text} {names : List Text} :
    checkAll use names = .ok () ↔ ∀ name ∈ names, isValid name = true := by
  induction names with
  | nil => simp [checkAll]
  | cons name rest ih =>
    simp only [checkAll, check]
    by_cases h : isValid name = true <;> simp [h, bind, Except.bind, ih]

end BoundSql.Identifier
