import BoundSql.Sql.Fragment

/-!
# Dialects

Where the two engines differ: the mark of a placeholder, truth literals, the
pattern operators and membership in a list. Postgres binds a whole list as one
parameter; SQLite gets one placeholder per element.
-/
namespace BoundSql.Dialect

open Sql

def ofName? (t : Text) : Option Dialect :=
  [Dialect.postgres, .sqlite].find? fun d => d.name = t

def truthLiteral : Dialect → Bool → Text
  | .postgres, b => if b then "TRUE" else "FALSE"
  | .sqlite, b => if b then "1" else "0"

/-- SQLite knows no regular expressions and falls back to LIKE. -/
def regexToken : Dialect → Token
  | .postgres => .symbol .tilde
  | .sqlite => .word .like

def hasILike : Dialect → Bool
  | .postgres => true
  | .sqlite => false

/-- Matching without regard to case; SQLite's LIKE does so for ASCII letters. -/
def ilikeToken (d : Dialect) : Token := .word (if d.hasILike then .ilike else .like)

/-- One placeholder per element, numbered on from the start. -/
def placeholderList (d : Dialect) (values : List Value) (start : Double) : List Token :=
  commaList (values.mapIdx fun i _ => [.placeholder d (start.add (.ofNat i))])

def memberOf (d : Dialect) (field : Text) (values : List Value) (start : Double) : Fragment :=
  match d with
  | .postgres =>
    ⟨[.name field, space, .symbol .eq, space, .word .anyOf] ++ paren [.placeholder d start],
      [.array values]⟩
  | .sqlite =>
    ⟨[.name field, space, .word .inList, space] ++ paren (d.placeholderList values start), values⟩

def notMemberOf (d : Dialect) (field : Text) (values : List Value) (start : Double) :
    Fragment :=
  match d with
  | .postgres =>
    ⟨[.name field, space, .symbol .ne, space, .word .allOf] ++ paren [.placeholder d start],
      [.array values]⟩
  | .sqlite =>
    ⟨[.name field, space, .word .notInList, space] ++ paren (d.placeholderList values start),
      values⟩

def startsWith (d : Dialect) (field : Text) (index : Double) : List Token :=
  [.name field, space, .word .like, space, .placeholder d index, space, .symbol .concat, space,
    .wildcard]

def endsWith (d : Dialect) (field : Text) (index : Double) : List Token :=
  [.name field, space, .word .like, space, .wildcard, space, .symbol .concat, space,
    .placeholder d index]

def contains (d : Dialect) (field : Text) (index : Double) : List Token :=
  [.name field, space, .word .like, space, .wildcard, space, .symbol .concat, space,
    .placeholder d index, space, .symbol .concat, space, .wildcard]

end BoundSql.Dialect
