import BoundSql.Keyset
import BoundSql.Sql.Condition
import BoundSql.Sql.SelectList
import BoundSql.Statement.Builder

/-!
# SELECT

Columns, computed fields and aggregates from one table, with conditions,
grouping, order and one of two ways to page: by row counts or by a cursor. A
cursor is turned into a condition when the statement is built, since it follows
the sort fields.
-/
namespace BoundSql

structure SelectDraft where
  fields : List Text := []
  computed : List ComputedColumn := []
  aggregates : List Aggregate := []
  filters : List Filter := []
  tree : Option FilterTree := none
  groupBy : List Text := []
  having : Option FilterTree := none
  sorts : List SortKey := []
  limit : Option UInt32 := none
  offset : Option UInt32 := none
  seek : Option (SeekDirection × Cursor) := none
  deriving Inhabited

inductive SelectCall where
  | fields (names : List Text)
  | computed (label expression : Text)
  | aggregate (a : Aggregate)
  /-- The aggregate of a field, whose name is checked before the builder is asked. -/
  | aggregateOf (func : AggregateFunction) (field : Text)
  | filter (field : Text) (op : Operator) (value : Value)
  /-- Sets the filter tree in place of the one before. -/
  | tree (t : FilterTree)
  | groupBy (names : List Text)
  | having (t : FilterTree)
  | sort (field : Text) (dir : SortDirection)
  | sorts (fields : List SortKey)
  | page (page limit : Double)
  | limitOffset (limit offset : Double)
  | limit (limit : Double)
  | seek (direction : SeekDirection) (input : RequestedCursor)

namespace SelectCall

def count : SelectCall := .aggregate .countRows

/-- Sets a conjunction as the filter tree. -/
def allOf (trees : List FilterTree) : SelectCall := .tree (.conjunction trees)

/-- Sets a disjunction as the filter tree. -/
def anyOf (trees : List FilterTree) : SelectCall := .tree (.disjunction trees)

end SelectCall

namespace SelectDraft

open Sql

/-- A row count, which has to fit 32 bits. -/
def rowCount (what : Text) (n : Double) : Except Fault UInt32 :=
  match n.toUInt32? with
  | some count => .ok count
  | none => .error (.notUInt32 what)

/-- The rows before a page, as many as fit 32 bits; page zero counts as page one. -/
def pageOffset (page limit : UInt32) : UInt32 :=
  ((Double.ofNat (page.toNat - 1)).mul (Double.ofNat limit.toNat)).saturate32

/-- Refuses a tree with a field that is no identifier. -/
def checkFields (use : Text) (t : FilterTree) : Except Fault Unit :=
  Identifier.checkAll use (t.filters.map Filter.field)

open Method

/-- Adds an aggregate, whose names are checked whoever made it. -/
def addAggregate (a : Aggregate) : Method SelectDraft Unit := do
  assertUsable .select "aggregate"
  check a.check
  amend fun d => { d with aggregates := d.aggregates ++ [a] }

/-- The cursor of a request. A token that cannot be read is reported and counts as none. -/
def resolve (direction : SeekDirection) : RequestedCursor → Method SelectDraft (Option Cursor)
  | .missing => return none
  | .cursor c => return c.nonEmpty?
  | .token t =>
    match Cursor.decode t with
    | .ok c => return c.nonEmpty?
    | .error e => do
      report (.tokenIgnored direction e)
      return none

/-- The name of the call that sets a cursor. -/
def seekName : SeekDirection → Text
  | .after => "afterCursor"
  | .before => "beforeCursor"

/-- What a call does. -/
def perform : SelectCall → Method SelectDraft Unit
  | .fields names => do
    assertUsable .select "fields"
    check (Identifier.checkAll "select field" names)
    amend fun d => { d with fields := names }
  | .computed label expression => do
    assertUsable .select "computed"
    let c ← check (ComputedColumn.make label expression)
    amend fun d => { d with computed := d.computed ++ [c] }
  | .aggregate a => addAggregate a
  | .aggregateOf func field => do
    let a ← check (Aggregate.ofField func field)
    addAggregate a
  | .filter field op value => do
    assertUsable .select "filter"
    check (Identifier.check "filter field" field)
    amend fun d => { d with filters := d.filters ++ [⟨field, op, value⟩] }
  | .tree t => do
    assertUsable .select "filterExpr"
    check (checkFields "filter field" t)
    amend fun d => { d with tree := some t }
  | .groupBy names => do
    assertUsable .select "groupBy"
    check (Identifier.checkAll "group by field" names)
    amend fun d => { d with groupBy := names }
  | .having t => do
    assertUsable .select "having"
    check (checkFields "having field" t)
    amend fun d => { d with having := some t }
  | .sort field dir => do
    assertUsable .select "sort"
    check (Identifier.check "sort field" field)
    amend fun d => { d with sorts := d.sorts ++ [⟨field, dir⟩] }
  | .sorts fields => do
    assertUsable .select "sorts"
    check (Identifier.checkAll "sort field" (fields.map SortKey.field))
    amend fun d => { d with sorts := d.sorts ++ fields }
  | .page page limit => do
    assertUsable .select "page"
    let page ← check (rowCount "page" page)
    let limit ← check (rowCount "limit" limit)
    amend fun d => { d with limit := some limit }
    amend fun d => { d with offset := some (pageOffset page limit) }
  | .limitOffset limit offset => do
    assertUsable .select "limitOffset"
    let limit ← check (rowCount "limit" limit)
    let offset ← check (rowCount "offset" offset)
    amend fun d => { d with limit := some limit }
    amend fun d => { d with offset := some offset }
  | .limit limit => do
    assertUsable .select "limit"
    let limit ← check (rowCount "limit" limit)
    amend fun d => { d with limit := some limit }
  | .seek direction input => do
    assertUsable .select (seekName direction)
    match ← resolve direction input with
    | some c => amend fun d => { d with seek := some (direction, c) }
    | none => return ()

/-- The sort order that a cursor is held against: its own names where none is set. -/
def seekSorts (d : SelectDraft) (c : Cursor) : List SortKey :=
  if d.sorts.isEmpty then c.entries.map fun e => ⟨e.1, .asc⟩ else d.sorts

/-- The condition of the cursor, if there is one that fits, and what to report if it
does not. The names of a cursor come from the client. -/
def seekCondition (d : SelectDraft) : Option FilterTree × List Event :=
  match d.seek with
  | none => (none, [])
  | some (direction, cursor) =>
    let sorts := d.seekSorts cursor
    if sorts.all fun s => Identifier.isValid s.field then
      match Keyset.ofCursor? sorts cursor direction with
      | some k => (some k.toTree, [])
      | none => (none, [.gapIgnored direction])
    else (none, [.namesIgnored direction])

/-- All conditions of the WHERE clause: the tree, the filters and the cursor's. -/
def conditions (d : SelectDraft) : List FilterTree :=
  d.tree.toList ++ d.filters.map .leaf ++ d.seekCondition.1.toList

/-- The entries of the select list; all columns where there are none. -/
def selectList (d : SelectDraft) : List Token :=
  let entries := d.fields.map (fun n => [.name n]) ++ d.computed.map ComputedColumn.tokens ++
    d.aggregates.map Aggregate.tokens
  if entries.isEmpty then [.symbol .star] else commaList entries

def sortTokens (s : SortKey) : List Token :=
  [.name s.field, space, .word (match s.dir with | .asc => .asc | .desc => .desc)]

/-- The LIMIT and OFFSET clauses; an offset of zero is left out. -/
def rowClauses (d : SelectDraft) : List Token :=
  (match d.limit with
    | some n => clause .limit [.rows n]
    | none => []) ++
  (match d.offset with
    | some n => if n = 0 then [] else clause .offset [.rows n]
    | none => [])

/-- The statement with these conditions: its clauses in order, parameters numbered through. -/
def queryWhere (dialect : Dialect) (table : Text) (d : SelectDraft) (conditions : List FilterTree)
    (start : Double) : Query :=
  let whereClause := Condition.whereClause dialect conditions start
  let havingClause := Condition.havingClause dialect d.having whereClause.next
  ⟨.word .select :: space :: (d.selectList ++ clause .source [.name table] ++
    whereClause.tokens ++ clauseUnlessEmpty .groupBy (d.groupBy.map fun n => [.name n]) ++
    havingClause.tokens ++ clauseUnlessEmpty .orderBy (d.sorts.map sortTokens) ++
    d.rowClauses), whereClause.params ++ havingClause.params⟩

/-- The statement of a draft. -/
def query (dialect : Dialect) (table : Text) (d : SelectDraft) (start : Double) : Query :=
  d.queryWhere dialect table d.conditions start

def build (start : Double) : Method SelectDraft Query := do
  beginBuild .select start
  let b ← current
  b.draft.seekCondition.2.forM report
  finish (b.draft.query b.dialect b.table start)

end SelectDraft

instance : Draft SelectDraft SelectCall where
  kind _ := .select
  perform := SelectDraft.perform
  build := SelectDraft.build

namespace Builder

/-- A builder of a SELECT statement. -/
def select (dialect : Dialect) (table : Text) : Except Fault (Builder SelectDraft) :=
  forTable dialect table {}

end Builder
end BoundSql
