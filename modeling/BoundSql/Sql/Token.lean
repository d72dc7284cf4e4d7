import BoundSql.Fault

/-!
# SQL tokens

A statement is a list of tokens until it is written out. Only four kinds of
token carry text or numbers from outside: names, placeholders, row counts and
computed expressions.
-/
namespace BoundSql

inductive Dialect where
  | postgres
  | sqlite
  deriving DecidableEq

def Dialect.name : Dialect → Text
  | .postgres => "postgres"
  | .sqlite => "sqlite"

namespace Sql

/-- The keywords of the statements, some of two or three words. -/
inductive Word where
  | select
  | distinct
  | labelled
  | source
  | filter
  | groupBy
  | having
  | orderBy
  | asc
  | desc
  | limit
  | offset
  | insertInto
  | values
  | update
  | assign
  | deleteFrom
  | returning
  | not
  | and
  | or
  | isNull
  | isNotNull
  | inList
  | notInList
  | anyOf
  | allOf
  | like
  | ilike
  | between
  | count
  | sum
  | avg
  | min
  | max
  deriving DecidableEq

def Word.text : Word → Text
  | .select => "SELECT"
  | .distinct => "DISTINCT"
  | .labelled => "AS"
  | .source => "FROM"
  | .filter => "WHERE"
  | .groupBy => "GROUP BY"
  | .having => "HAVING"
  | .orderBy => "ORDER BY"
  | .asc => "ASC"
  | .desc => "DESC"
  | .limit => "LIMIT"
  | .offset => "OFFSET"
  | .insertInto => "INSERT INTO"
  | .values => "VALUES"
  | .update => "UPDATE"
  | .assign => "SET"
  | .deleteFrom => "DELETE FROM"
  | .returning => "RETURNING"
  | .not => "NOT"
  | .and => "AND"
  | .or => "OR"
  | .isNull => "IS NULL"
  | .isNotNull => "IS NOT NULL"
  | .inList => "IN"
  | .notInList => "NOT IN"
  | .anyOf => "ANY"
  | .allOf => "ALL"
  | .like => "LIKE"
  | .ilike => "ILIKE"
  | .between => "BETWEEN"
  | .count => "COUNT"
  | .sum => "SUM"
  | .avg => "AVG"
  | .min => "MIN"
  | .max => "MAX"

inductive Symbol where
  | space
  | comma
  | openParen
  | closeParen
  | star
  | eq
  | ne
  | gt
  | ge
  | lt
  | le
  | tilde
  | concat
  deriving DecidableEq

def Symbol.text : Symbol → Text
  | .space => " "
  | .comma => ","
  | .openParen => "("
  | .closeParen => ")"
  | .star => "*"
  | .eq => "="
  | .ne => "!="
  | .gt => ">"
  | .ge => ">="
  | .lt => "<"
  | .le => "<="
  | .tilde => "~"
  | .concat => "||"

inductive Token where
  | word (w : Word)
  | symbol (s : Symbol)
  | name (n : Text)
  | placeholder (dialect : Dialect) (index : Double)
  /-- A row count of LIMIT or OFFSET. -/
  | rows (n : UInt32)
  /-- The quoted pattern that matches any text. -/
  | wildcard
  /-- The false condition that stands for a range of the wrong length. -/
  | noRange (length : Nat)
  /-- A computed expression, verbatim. -/
  | expression (text : Text)
  deriving DecidableEq

/-- The placeholder of a parameter: its number after the mark of the dialect. -/
def placeholderText (dialect : Dialect) (index : Double) : Text :=
  match dialect with
  | .postgres => Text.unit '$' :: index.toText
  | .sqlite => Text.unit '?' :: index.toText

def Token.text : Token → Text
  | .word w => w.text
  | .symbol s => s.text
  | .name n => n
  | .placeholder dialect index => placeholderText dialect index
  | .rows n => Text.ofNat n.toNat
  | .wildcard => "'%'"
  | .noRange length =>
    "1=0 /* BETWEEN requires 2 values, got " ++ Text.ofNat length ++ " */"
  | .expression text => text

/-- The written form of a list of tokens. -/
def render (tokens : List Token) : Text := tokens.flatMap Token.text

@[simp] theorem render_nil : render [] = [] := rfl

@[simp] theorem render_cons (t : Token) (ts : List Token) :
    render (t :: ts) = t.text ++ render ts := by simp [render]

@[simp] theorem render_append (ts us : List Token) :
    render (ts ++ us) = render ts ++ render us := by simp [render]

def space : Token := .symbol .space

def openParen : Token := .symbol .openParen

def closeParen : Token := .symbol .closeParen

/-- Tokens between parentheses. -/
def paren (tokens : List Token) : List Token := openParen :: (tokens ++ [closeParen])

/-- Parts with a comma and a space between neighbours. -/
def commaList (parts : List (List Token)) : List Token :=
  List.intercalate [.symbol .comma, space] parts

def names (ns : List Text) : List Token := commaList (ns.map fun n => [.name n])

/-- A clause in the middle of a statement: its keyword and what follows. -/
def clause (w : Word) (body : List Token) : List Token :=
  space :: .word w :: space :: body

/-- A clause that is left out when it has no parts. -/
def clauseUnlessEmpty (w : Word) (parts : List (List Token)) : List Token :=
  if parts.isEmpty then [] else clause w (commaList parts)

end Sql
end BoundSql
