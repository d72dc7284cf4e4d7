import BoundSql.Value

/-!
# Filters

A filter compares a field with a value; a filter tree joins filters by AND, OR
and NOT. Trees are plain data: a negation may hold any number of children, and
no field name has been checked yet.
-/
namespace BoundSql

inductive Operator where
  | eq
  | ne
  | gt
  | gte
  | lt
  | lte
  | isIn
  | notIn
  | like
  | ilike
  | regex
  | startsWith
  | endsWith
  | contains
  | between
  deriving DecidableEq, Inhabited

namespace Operator

def all : List Operator :=
  [.eq, .ne, .gt, .gte, .lt, .lte, .isIn, .notIn, .like, .ilike, .regex, .startsWith,
    .endsWith, .contains, .between]

def name : Operator → Text
  | .eq => "eq"
  | .ne => "ne"
  | .gt => "gt"
  | .gte => "gte"
  | .lt => "lt"
  | .lte => "lte"
  | .isIn => "in"
  | .notIn => "notIn"
  | .like => "like"
  | .ilike => "ilike"
  | .regex => "regex"
  | .startsWith => "startsWith"
  | .endsWith => "endsWith"
  | .contains => "contains"
  | .between => "between"

/-- The operator of a name, in exactly this spelling. -/
def ofName? (t : Text) : Option Operator := all.find? fun op => op.name = t

end Operator

structure Filter where
  field : Text
  op : Operator
  value : Value
  deriving Inhabited

/-- How a group joins its children. -/
inductive Connective where
  | and
  | or
  | not
  deriving DecidableEq, Inhabited

def Connective.name : Connective → Text
  | .and => "and"
  | .or => "or"
  | .not => "not"

inductive FilterTree where
  | leaf (filter : Filter)
  | group (op : Connective) (children : List FilterTree)
  deriving Inhabited

namespace FilterTree

/-- The tree of one comparison. -/
def compare (field : Text) (op : Operator) (value : Value) : FilterTree :=
  .leaf ⟨field, op, value⟩

def conjunction (children : List FilterTree) : FilterTree := .group .and children

def disjunction (children : List FilterTree) : FilterTree := .group .or children

def negation (child : FilterTree) : FilterTree := .group .not [child]

/-- One tree as it is, several as a conjunction. -/
def conjoin : List FilterTree → FilterTree
  | [only] => only
  | trees => conjunction trees

mutual

/-- The filters of a tree from left to right. -/
def filters : FilterTree → List Filter
  | .leaf f => [f]
  | .group _ children => filtersAll children

def filtersAll : List FilterTree → List Filter
  | [] => []
  | e :: rest => e.filters ++ filtersAll rest

end

theorem filtersAll_eq_flatMap (es : List FilterTree) : filtersAll es = es.flatMap filters := by
  induction es with
  | nil => simp [filtersAll]
  | cons e es ih => simp [filtersAll, ih]

@[simp] theorem filters_leaf (f : Filter) : filters (.leaf f) = [f] := by simp [filters]

@[simp] theorem filters_group (op : Connective) (es : List FilterTree) :
    filters (.group op es) = es.flatMap filters := by
  simp [filters, filtersAll_eq_flatMap]

end FilterTree

inductive SortDirection where
  | asc
  | desc
  deriving DecidableEq

structure SortKey where
  field : Text
  dir : SortDirection
  deriving DecidableEq

/-- Does a page lie after the cursor or before it? -/
inductive SeekDirection where
  | after
  | before
  deriving DecidableEq

end BoundSql
