import BoundSql.Cursor.Token

/-!
# Page information

What a client is told about a page: whether there are more rows on either side
and the tokens that lead there.
-/
namespace BoundSql

structure PageLinks where
  hasNext : Bool
  hasPrev : Bool
  nextToken : Option Text
  prevToken : Option Text
  total : Option Double
  deriving DecidableEq

namespace PageLinks

/-- A full page is taken to mean that more rows follow. -/
def ofCount (count limit : Double) : PageLinks :=
  ⟨limit.le count, false, none, none, none⟩

def setHasPrev (info : PageLinks) (hasPrev : Bool) : PageLinks := { info with hasPrev }

/-- Sets the token of the next page, which raises its flag, or takes it away, which
leaves the flag. -/
def setNext (info : PageLinks) (token : Option Text) : PageLinks :=
  { info with nextToken := token, hasNext := info.hasNext || token.isSome }

/-- Sets the token of the page before, which raises its flag, or takes it away, which
leaves the flag. -/
def setPrev (info : PageLinks) (token : Option Text) : PageLinks :=
  { info with prevToken := token, hasPrev := info.hasPrev || token.isSome }

def setTotal (info : PageLinks) (total : Double) : PageLinks := { info with total := some total }

end PageLinks

/-- The token for a row, typically the last of a page. -/
def Cursor.tokenFor {α : Type} (item : Option α) (cursorOf : α → Cursor) : Option Text :=
  item.map fun row => (cursorOf row).encode

end BoundSql
