import BoundSql.Expression
import BoundSql.Identifier
import BoundSql.Sql.Token

/-!
# Aggregates and computed fields

The entries of a select list beside plain columns. The constructors check their
names; writing them out assumes that this was done.
-/
namespace BoundSql

inductive AggregateFunction where
  | count
  | countDistinct
  | sum
  | avg
  | min
  | max
  deriving DecidableEq

def AggregateFunction.name : AggregateFunction → Text
  | .count => "count"
  | .countDistinct => "countDistinct"
  | .sum => "sum"
  | .avg => "avg"
  | .min => "min"
  | .max => "max"

/-- Only a count has no field: it counts rows. -/
structure Aggregate where
  func : AggregateFunction
  field : Option Text
  label : Option Text
  deriving DecidableEq

namespace Aggregate

open Sql

def countRows : Aggregate := ⟨.count, none, some "count"⟩

/-- The aggregate of a field, which has to be an identifier. -/
def ofField (func : AggregateFunction) (field : Text) : Except Fault Aggregate := do
  Identifier.check "aggregate field" field
  .ok ⟨func, some field, none⟩

def withLabel (a : Aggregate) (label : Text) : Except Fault Aggregate := do
  Identifier.check "aggregate alias" label
  .ok { a with label := some label }

/-- Refuses names that are no identifiers, the field first. -/
def check (a : Aggregate) : Except Fault Unit := do
  if let some field := a.field then Identifier.check "aggregate field" field
  if let some label := a.label then Identifier.check "aggregate alias" label

def call (w : Word) (argument : List Token) : List Token := .word w :: paren argument

/-- The function call, without the label. -/
def callTokens (a : Aggregate) : List Token :=
  match a.field, a.func with
  | none, _ => call .count [.symbol .star]
  | some field, .count => call .count [.name field]
  | some field, .countDistinct => call .count [.word .distinct, space, .name field]
  | some field, .sum => call .sum [.name field]
  | some field, .avg => call .avg [.name field]
  | some field, .min => call .min [.name field]
  | some field, .max => call .max [.name field]

/-- The label of a select-list entry. -/
def labelled (label : Text) : List Token := [space, .word .labelled, space, .name label]

def tokens (a : Aggregate) : List Token :=
  match a.label with
  | some label => a.callTokens ++ labelled label
  | none => a.callTokens

end Aggregate

/-- Raw SQL under a label. -/
structure ComputedColumn where
  label : Text
  expression : Text
  deriving DecidableEq

namespace ComputedColumn

/-- A computed field whose label and expression pass their checks, the label first. -/
def make (label expression : Text) : Except Fault ComputedColumn := do
  Identifier.check "computed field alias" label
  Expression.check "computed field" expression
  .ok ⟨label, expression⟩

def tokens (c : ComputedColumn) : List Sql.Token :=
  Sql.paren [.expression c.expression] ++ Aggregate.labelled c.label

end ComputedColumn
end BoundSql
