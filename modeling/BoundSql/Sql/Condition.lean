import BoundSql.Filter
import BoundSql.Sql.Dialect

/-!
# Conditions

Filter trees as conditions with placeholders. Every step is given the number of
its first parameter and answers the next free one, so clauses can follow one
another in a statement. Field names are taken as they are.
-/
namespace BoundSql.Condition

open Sql

/-- The comparison sign of an operator. Equality also stands in for operators whose
value has not the shape they need. -/
def comparison : Operator → Token
  | .ne => .symbol .ne
  | .gt => .symbol .gt
  | .gte => .symbol .ge
  | .lt => .symbol .lt
  | .lte => .symbol .le
  | .like => .word .like
  | _ => .symbol .eq

/-- A condition that binds the value itself, whatever it is. -/
def single (tokens : List Token) (value : Value) (index : Double) : Condition :=
  ⟨tokens, [value], index.add 1⟩

/-- Field, operator and placeholder. -/
def binary (d : Dialect) (field : Text) (op : Token) (index : Double) : List Token :=
  [.name field, space, op, space, .placeholder d index]

/-- The condition of an operator that treats every value alike. -/
def ofScalar (d : Dialect) (f : Filter) (index : Double) : Condition :=
  match f.op with
  | .regex => single (binary d f.field d.regexToken index) f.value index
  | .ilike => single (binary d f.field d.ilikeToken index) f.value index
  | .startsWith => single (d.startsWith f.field index) f.value index
  | .endsWith => single (d.endsWith f.field index) f.value index
  | .contains => single (d.contains f.field index) f.value index
  | op => single (binary d f.field (comparison op) index) f.value index

/-- A membership test takes as many numbers as it has parameters. -/
def ofFragment (fragment : Fragment) (index : Double) : Condition :=
  ⟨fragment.tokens, fragment.params, index.add (.ofNat fragment.params.length)⟩

/-- A range of two bounds; a list of any other length matches no row. -/
def ofRange (d : Dialect) (field : Text) (bounds : List Value) (index : Double) : Condition :=
  match bounds with
  | [low, high] =>
    ⟨[.name field, space, .word .between, space, .placeholder d index, space, .word .and, space,
      .placeholder d (index.add 1)], [low, high], index.add 2⟩
  | _ => ⟨[.noRange bounds.length], [], index⟩

/-- The condition of one filter. -/
def ofFilter (d : Dialect) (f : Filter) (index : Double) : Condition :=
  match f.op, f.value with
  | .eq, .null => ⟨[.name f.field, space, .word .isNull], [], index⟩
  | .ne, .null => ⟨[.name f.field, space, .word .isNotNull], [], index⟩
  | .isIn, .array items => ofFragment (d.memberOf f.field items index) index
  | .notIn, .array items => ofFragment (d.notMemberOf f.field items index) index
  | .between, .array bounds => ofRange d f.field bounds index
  | _, _ => ofScalar d f index

/-- The parts with a connective between neighbours. -/
def joined (w : Word) (parts : List (List Token)) : List Token :=
  List.intercalate [space, .word w, space] parts

/-- The tokens of a group. A negation shows its first child; a conjunction or
disjunction of one child is that child; all others are in parentheses. -/
def groupTokens (op : Connective) (parts : List (List Token)) : List Token :=
  match op, parts with
  | .not, _ => [.word .not, space] ++ paren (parts.headD [])
  | _, [only] => only
  | .and, _ => paren (joined .and parts)
  | .or, _ => paren (joined .or parts)

mutual

/-- The condition of a tree, its children numbered from left to right. -/
def ofTree (d : Dialect) : FilterTree → Double → Condition
  | .leaf f, index => ofFilter d f index
  | .group op children, index =>
    let series := ofTrees d children index
    ⟨groupTokens op series.parts, series.params, series.next⟩

def ofTrees (d : Dialect) : List FilterTree → Double → Series
  | [], index => .empty index
  | e :: rest, index =>
    let first := ofTree d e index
    (ofTrees d rest first.next).cons first

end

/-- The conditions of a WHERE clause, all of which have to hold; none for an empty list. -/
def ofWhere? (d : Dialect) (trees : List FilterTree) (index : Double) : Option Condition :=
  if trees.isEmpty then none
  else
    let series := ofTrees d trees index
    some ⟨joined .and series.parts, series.params, series.next⟩

/-- The clause of several conditions, all of which have to hold; nothing where there are none. -/
def whereClause (d : Dialect) (trees : List FilterTree) (index : Double) : Condition :=
  match ofWhere? d trees index with
  | some c => ⟨clause .filter c.tokens, c.params, c.next⟩
  | none => ⟨[], [], index⟩

/-- The clause of a condition on groups, if there is one. -/
def havingClause (d : Dialect) (t : Option FilterTree) (index : Double) : Condition :=
  match t with
  | some e =>
    let c := ofTree d e index
    ⟨clause .having c.tokens, c.params, c.next⟩
  | none => ⟨[], [], index⟩

end BoundSql.Condition
