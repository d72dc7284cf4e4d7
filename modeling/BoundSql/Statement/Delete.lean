import BoundSql.Sql.Condition
import BoundSql.Statement.Builder

/-!
# DELETE

The conditions of the rows to remove. Without any, all rows are removed.
-/
namespace BoundSql

structure DeleteDraft where
  filters : List Filter := []
  tree : Option FilterTree := none
  returning : List Text := []
  deriving Inhabited

inductive DeleteCall where
  | filter (field : Text) (op : Operator) (value : Value)
  /-- Sets the filter tree in place of the one before. -/
  | tree (t : FilterTree)
  | returning (names : List Text)

namespace DeleteDraft

open Sql

open Method

/-- What a call does. -/
def perform : DeleteCall → Method DeleteDraft Unit
  | .filter field op value => do
    assertUsable .delete "filter"
    check (Identifier.check "filter field" field)
    amend fun d => { d with filters := d.filters ++ [⟨field, op, value⟩] }
  | .tree t => do
    assertUsable .delete "filterExpr"
    check (Identifier.checkAll "filter field" (t.filters.map Filter.field))
    amend fun d => { d with tree := some t }
  | .returning names => do
    assertUsable .delete "returning"
    check (Identifier.checkAll "returning column" names)
    amend fun d => { d with returning := names }

/-- All conditions of the WHERE clause: the tree, then the filters. -/
def conditions (d : DeleteDraft) : List FilterTree := d.tree.toList ++ d.filters.map .leaf

def query (dialect : Dialect) (table : Text) (d : DeleteDraft) (start : Double) : Query :=
  let whereClause := Condition.whereClause dialect d.conditions start
  ⟨.word .deleteFrom :: space :: .name table :: (whereClause.tokens ++
    clauseUnlessEmpty .returning (d.returning.map fun n => [.name n])), whereClause.params⟩

def build (start : Double) : Method DeleteDraft Query := do
  beginBuild .delete start
  let b ← current
  finish (b.draft.query b.dialect b.table start)

end DeleteDraft

instance : Draft DeleteDraft DeleteCall where
  kind _ := .delete
  perform := DeleteDraft.perform
  build := DeleteDraft.build

namespace Builder

/-- A builder of a DELETE statement. -/
def delete (dialect : Dialect) (table : Text) : Except Fault (Builder DeleteDraft) :=
  forTable dialect table {}

end Builder
end BoundSql
