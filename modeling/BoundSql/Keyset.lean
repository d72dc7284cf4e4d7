import BoundSql.Cursor.Basic

/-!
# Keyset conditions

The rows beyond a cursor in a sort order: equal to it in the sort fields up to
some place, and strictly beyond it there. Each sort field has a direction of
its own.
-/
namespace BoundSql

/-- Sort fields, the cursor's value for each, and the side of the cursor. -/
structure Keyset where
  sorts : List SortKey
  values : List Value
  direction : SeekDirection

namespace Keyset

/-- The cursor's values for the sort fields; there is one for each, and at least one. -/
def ofCursor? (sorts : List SortKey) (cursor : Cursor) (direction : SeekDirection) :
    Option Keyset :=
  if sorts.isEmpty then none
  else (sorts.mapM fun s => cursor.get? s.field).map fun values => ⟨sorts, values, direction⟩

/-- The comparison that leads beyond the cursor. -/
def beyondOperator : SeekDirection → SortDirection → Operator
  | .after, .asc => .gt
  | .after, .desc => .lt
  | .before, .asc => .lt
  | .before, .desc => .gt

/-- One tree as it is, several as a disjunction. -/
def disjoin : List FilterTree → FilterTree
  | [only] => only
  | trees => .disjunction trees

/-- For each sort field, agreement on the ones before it and a value beyond in it. -/
def branches (direction : SeekDirection) (agreed : List FilterTree) :
    List (SortKey × Value) → List FilterTree
  | [] => []
  | (s, v) :: rest =>
    .conjoin (agreed ++ [.compare s.field (beyondOperator direction s.dir) v]) ::
      branches direction (agreed ++ [.compare s.field .eq v]) rest

/-- The condition of the rows beyond the cursor. -/
def toTree (k : Keyset) : FilterTree :=
  disjoin (branches k.direction [] (k.sorts.zip k.values))

end Keyset
end BoundSql
