import BoundSql.Sql.Token
import BoundSql.Value

/-!
# Tokens with parameters

Pieces of a statement together with the values that their placeholders bind, in
the order of the text, and the next free parameter number where later pieces go
on counting.
-/
namespace BoundSql

structure Fragment where
  tokens : List Sql.Token
  params : List Value

/-- A piece of a statement that was given the number of its first parameter. -/
structure Condition where
  tokens : List Sql.Token
  params : List Value
  next : Double

def Condition.sql (c : Condition) : Text := Sql.render c.tokens

/-- Several pieces, numbered through. -/
structure Series where
  parts : List (List Sql.Token)
  params : List Value
  next : Double

namespace Series

def empty (index : Double) : Series := ⟨[], [], index⟩

/-- The series after a piece that comes before it. -/
def cons (first : Condition) (others : Series) : Series :=
  ⟨first.tokens :: others.parts, first.params ++ others.params, others.next⟩

/-- Each item as a piece, numbered from left to right. -/
def ofList {α : Type} (piece : α → Double → Condition) : List α → Double → Series
  | [], index => empty index
  | a :: rest, index =>
    let first := piece a index
    (ofList piece rest first.next).cons first

end Series

/-- A statement with its parameters. -/
structure Query where
  tokens : List Sql.Token
  params : List Value

namespace Query

def sql (q : Query) : Text := Sql.render q.tokens

/-- The parameters as a database driver receives them. -/
def driverParams (q : Query) : List Datum := q.params.map Value.toDatum

end Query
end BoundSql
