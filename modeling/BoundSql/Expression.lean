import BoundSql.Fault

/-!
# Computed expressions

A computed field embeds raw SQL. An expression is refused when it is empty or
too long, holds a comment, a terminator or a backquote, names a denied word, or
holds a denied fragment. Words and fragments are found whatever their case.
-/
namespace BoundSql.Expression

def maxLength : Nat := 1000

/-- Statements, clauses, timing, file access, and functions that can spell a word. -/
def deniedWords : List Text := List.map Text.ofString [
  "select", "insert", "update", "delete", "drop", "truncate", "alter", "create", "grant",
  "revoke", "exec", "execute", "union", "into", "from", "where", "having", "group", "order",
  "limit", "offset", "fetch", "returning",
  "sleep", "benchmark", "waitfor", "pg_sleep", "dbms_lock",
  "load_file", "into_outfile", "into_dumpfile",
  "chr", "char", "ascii", "unicode", "hex", "unhex", "convert", "cast", "encode", "decode"]

/-- Comments, the statement terminator and the backquote. -/
def deniedMarks : List Text := ["--", "/*", "*/", ";", "\x60"]

/-- Catalog prefixes and ways to write bytes, denied anywhere. -/
def deniedFragments : List Text := ["pg_", "sqlite_", "information_schema", "sys.", "0x", "\\x"]

/-- A unit in lower case. Besides the ASCII letters only U+0130 and the Kelvin sign
have a lower case with an ASCII letter in it. -/
def lowerUnit (c : UInt16) : Text :=
  if Text.isUpper c then [c + 32]
  else if c = 0x0130 then [Text.unit 'i', 0x0307]
  else if c = 0x212A then [Text.unit 'k']
  else [c]

def lower (t : Text) : Text := t.flatMap lowerUnit

def isWordUnit (c : UInt16) : Bool := Text.isLower c || Text.isDigit c || c = Text.unit '_'

/-- Does a text start with no part of a word? -/
def startsApart : Text → Bool
  | [] => true
  | c :: _ => !isWordUnit c

/-- Does the keyword stand at some place where a word ends after it and, unless the
text goes on from a word, starts before it? -/
def findsWord (keyword : Text) (inWord : Bool) : Text → Bool
  | [] => false
  | c :: rest =>
    (!inWord && keyword.isPrefixOf (c :: rest) &&
      startsApart ((c :: rest).drop keyword.length)) ||
    findsWord keyword (isWordUnit c) rest

/-- Does the keyword occur with no part of a word before or after it? -/
def containsWord (text keyword : Text) : Bool :=
  !keyword.isEmpty && findsWord keyword false text

def isValid (expression : Text) : Bool :=
  !expression.isEmpty && expression.length ≤ maxLength &&
  !deniedMarks.any (fun mark => mark.occursIn expression) &&
  !deniedWords.any (fun word => containsWord (lower expression) word) &&
  !deniedFragments.any fun fragment => fragment.occursIn (lower expression)

def check (use expression : Text) : Except Fault Unit :=
  if isValid expression then .ok () else .error (.invalidExpression use expression)

@[simp] theorem check_eq_ok_iff {use expression : Text} :
    check use expression = .ok () ↔ isValid expression = true := by
  simp [check]

end BoundSql.Expression
