import BoundSql.Sql.Condition
import BoundSql.Statement.Builder

/-!
# UPDATE

Assignments come first in the text and take the first parameter numbers, the
conditions follow.
-/
namespace BoundSql

structure UpdateDraft where
  assignments : List (Text × Value) := []
  filters : List Filter := []
  tree : Option FilterTree := none
  returning : List Text := []
  deriving Inhabited

inductive UpdateCall where
  | set (column : Text) (value : Value)
  | setMany (pairs : List (Text × Value))
  | filter (field : Text) (op : Operator) (value : Value)
  /-- Sets the filter tree in place of the one before. -/
  | tree (t : FilterTree)
  | returning (names : List Text)

namespace UpdateDraft

open Sql

open Method

/-- What a call does. -/
def perform : UpdateCall → Method UpdateDraft Unit
  | .set column value => do
    assertUsable .update "set"
    check (Identifier.check "update column" column)
    amend fun d => { d with assignments := d.assignments ++ [(column, value)] }
  | .setMany pairs => do
    assertUsable .update "setMany"
    check (Identifier.checkAll "update column" (pairs.map (·.1)))
    amend fun d => { d with assignments := d.assignments ++ pairs }
  | .filter field op value => do
    assertUsable .update "filter"
    check (Identifier.check "filter field" field)
    amend fun d => { d with filters := d.filters ++ [⟨field, op, value⟩] }
  | .tree t => do
    assertUsable .update "filterExpr"
    check (Identifier.checkAll "filter field" (t.filters.map Filter.field))
    amend fun d => { d with tree := some t }
  | .returning names => do
    assertUsable .update "returning"
    check (Identifier.checkAll "returning column" names)
    amend fun d => { d with returning := names }

/-- A column and the placeholder of its new value. -/
def assignment (d : Dialect) (pair : Text × Value) (index : Double) : Condition :=
  ⟨[.name pair.1, space, .symbol .eq, space, .placeholder d index], [pair.2], index.add 1⟩

/-- All conditions of the WHERE clause: the tree, then the filters. -/
def conditions (d : UpdateDraft) : List FilterTree := d.tree.toList ++ d.filters.map .leaf

/-- The statement of a draft with assignments. -/
def query (dialect : Dialect) (table : Text) (d : UpdateDraft) (start : Double) : Query :=
  let assignments := Series.ofList (assignment dialect) d.assignments start
  let whereClause := Condition.whereClause dialect d.conditions assignments.next
  ⟨.word .update :: space :: .name table :: (clause .assign (commaList assignments.parts) ++
    whereClause.tokens ++ clauseUnlessEmpty .returning (d.returning.map fun n => [.name n])),
    assignments.params ++ whereClause.params⟩

def build (start : Double) : Method UpdateDraft Query := do
  beginBuild .update start
  let b ← current
  ensure (!b.draft.assignments.isEmpty) (.updateEmpty b.table)
  finish (b.draft.query b.dialect b.table start)

end UpdateDraft

instance : Draft UpdateDraft UpdateCall where
  kind _ := .update
  perform := UpdateDraft.perform
  build := UpdateDraft.build

namespace Builder

/-- A builder of an UPDATE statement. -/
def update (dialect : Dialect) (table : Text) : Except Fault (Builder UpdateDraft) :=
  forTable dialect table {}

end Builder
end BoundSql
