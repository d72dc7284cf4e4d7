import BoundSql.Statement.Builder

/-!
# INSERT

Rows of values under a list of columns. Values belong to columns by position,
so at the build every row has to be as long as the list.
-/
namespace BoundSql

structure InsertDraft where
  columns : List Text := []
  rows : List (List Value) := []
  returning : List Text := []
  deriving Inhabited

inductive InsertCall where
  | columns (names : List Text)
  | values (row : List Value)
  | valuesMany (rows : List (List Value))
  | returning (names : List Text)

namespace InsertDraft

open Sql

open Method

/-- What a call does. -/
def perform : InsertCall → Method InsertDraft Unit
  | .columns names => do
    assertUsable .insert "columns"
    check (Identifier.checkAll "insert column" names)
    amend fun d => { d with columns := names }
  | .values row => do
    assertUsable .insert "values"
    amend fun d => { d with rows := d.rows ++ [row] }
  | .valuesMany rows => do
    assertUsable .insert "valuesMany"
    rows.forM fun row => amend fun d => { d with rows := d.rows ++ [row] }
  | .returning names => do
    assertUsable .insert "returning"
    check (Identifier.checkAll "returning column" names)
    amend fun d => { d with returning := names }

/-- One value as a placeholder. -/
def cell (d : Dialect) (value : Value) (index : Double) : Condition :=
  ⟨[.placeholder d index], [value], index.add 1⟩

/-- One row as a group of placeholders. -/
def group (d : Dialect) (row : List Value) (index : Double) : Condition :=
  let cells := Series.ofList (cell d) row index
  ⟨paren (commaList cells.parts), cells.params, cells.next⟩

/-- One more row behind the groups of the rows before it, whose values are already among the
parameters. The row has to have the given width. -/
def addRow (dialect : Dialect) (width : Nat) (groups : Series) (row : List Value × Nat) :
    Method InsertDraft Series := do
  ensure (row.1.length = width) (.insertRowWidth row.2 row.1.length width)
  let last := group dialect row.1 groups.next
  return ⟨groups.parts ++ [last.tokens], groups.params ++ last.params, last.next⟩

/-- The statement of a draft whose rows make these groups. -/
def queryOf (table : Text) (d : InsertDraft) (groups : Series) : Query :=
  ⟨.word .insertInto :: space :: .name table :: space :: (paren (names d.columns) ++
    clause .values (commaList groups.parts) ++
    clauseUnlessEmpty .returning (d.returning.map fun n => [.name n])), groups.params⟩

/-- The rows are numbered for the message about one that does not fit. -/
def build (start : Double) : Method InsertDraft Query := do
  beginBuild .insert start
  let b ← current
  let d := b.draft
  ensure (!(d.columns.isEmpty || d.rows.isEmpty)) (.insertIncomplete b.table)
  let groups ← d.rows.zipIdx.foldlM (addRow b.dialect d.columns.length) (.empty start)
  finish (d.queryOf b.table groups)

end InsertDraft

instance : Draft InsertDraft InsertCall where
  kind _ := .insert
  perform := InsertDraft.perform
  build := InsertDraft.build

namespace Builder

/-- A builder of an INSERT statement. -/
def insert (dialect : Dialect) (table : Text) : Except Fault (Builder InsertDraft) :=
  forTable dialect table {}

end Builder
end BoundSql
