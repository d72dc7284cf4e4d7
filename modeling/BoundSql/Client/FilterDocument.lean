import BoundSql.Filter
import BoundSql.Json.Reader

/-!
# Filters as JSON documents

A client sends a filter as an object: a field with a value or with one operator
and its operand, or a key that joins nested objects. Several keys mean that all
have to hold. Nesting is followed for 64 levels; fields and operators are
checked elsewhere.
-/
namespace BoundSql

/-- What an operator asks of its operand. -/
inductive OperandShape where
  | array
  | arrayOfValues
  | arrayOfTwo
  | arrayOfTwoValues
  deriving DecidableEq

def OperandShape.text : OperandShape → Text
  | .array => "array"
  | .arrayOfValues => "array of values"
  | .arrayOfTwo => "array of exactly 2 values"
  | .arrayOfTwoValues => "array of 2 values"

inductive FilterError where
  | notJson
  | tooDeep
  | unknownOperator (key : Text)
  | expectedObject
  | expectedArray
  | expectedValue
  | emptyField
  | emptyFilter
  | operand (key : Text) (expected : OperandShape)
  | notArity
  deriving DecidableEq

namespace FilterError

def kind : FilterError → Text
  | .notJson => "InvalidSource"
  | .tooDeep => "InvalidSource"
  | .unknownOperator _ => "UnknownOperator"
  | .expectedObject => "ExpectedObject"
  | .expectedArray => "ExpectedArray"
  | .expectedValue => "ExpectedValue"
  | .emptyField => "EmptyFieldName"
  | .emptyFilter => "EmptyFilter"
  | .operand _ _ => "InvalidOperatorValue"
  | .notArity => "NotRequiresOneCondition"

def message : FilterError → Text
  | .notJson => "Invalid JSON: "
  | .tooDeep => "Filter nesting exceeds 64 levels"
  | .unknownOperator key => "Unknown operator " ++ Fault.quoted key
  | .expectedObject => "Expected JSON object"
  | .expectedArray => "Expected JSON array"
  | .expectedValue => "Expected a value"
  | .emptyField => "Field name cannot be empty"
  | .emptyFilter => "Filter object cannot be empty"
  | .operand key expected =>
    "Operator " ++ Fault.quoted key ++ " expects " ++ expected.text
  | .notArity => "$not requires exactly one condition"

end FilterError

namespace Operator

/-- The operators by the keys of documents; three have two spellings or another name. -/
def keys : List (Text × Operator) :=
  List.map (fun k => (Text.ofString k.1, k.2)) [
    ("eq", .eq), ("ne", .ne), ("gt", .gt), ("gte", .gte), ("lt", .lt), ("lte", .lte),
    ("in", .isIn), ("nin", .notIn), ("like", .like), ("ilike", .ilike), ("regex", .regex),
    ("startsWith", .startsWith), ("starts_with", .startsWith),
    ("endsWith", .endsWith), ("ends_with", .endsWith),
    ("contains", .contains), ("between", .between)]

/-- A key without the dollar sign at its front, if it has one. -/
def bareKey (key : Text) : Text := (Text.dropFront? "$" key).getD key

/-- The operator of a key, with or without the dollar sign. -/
def ofKey? (key : Text) : Option Operator :=
  (keys.find? fun k => k.1 = bareKey key).map (·.2)

end Operator

namespace FilterDocument

/-- How many levels of objects and arrays are followed. -/
def maxLevels : Nat := 64

/-- Why a document is no value. -/
inductive NoValue where
  | notValue
  | tooDeep
  deriving DecidableEq

/-- The error of a failed value, nesting apart. -/
def NoValue.toError (otherwise : FilterError) : NoValue → FilterError
  | .notValue => otherwise
  | .tooDeep => .tooDeep

/-- The value of a scalar or an array of values, with so many levels left. -/
def toValue : Nat → Json → Except NoValue Value
  | 0, _ => .error .tooDeep
  | _ + 1, .null => .ok .null
  | _ + 1, .bool b => .ok (.bool b)
  | _ + 1, .number x => if x.isFinite then .ok (Value.ofNumber x) else .error .notValue
  | _ + 1, .string s => .ok (.string s)
  | levels + 1, .array items => (items.mapM (toValue levels)).map .array
  | _ + 1, .object _ => .error .notValue

def valueOr (otherwise : FilterError) (levels : Nat) (j : Json) : Except FilterError Value :=
  (toValue levels j).mapError (NoValue.toError otherwise)

def isArray : Json → Bool
  | .array _ => true
  | _ => false

def isPair : Json → Bool
  | .array [_, _] => true
  | _ => false

/-- The operand of an operator, in the shape that the operator needs. -/
def operand (key : Text) (op : Operator) (levels : Nat) (j : Json) :
    Except FilterError Value :=
  match op with
  | .isIn | .notIn =>
    if isArray j then valueOr (.operand key .arrayOfValues) levels j
    else .error (.operand key .array)
  | .between =>
    if isPair j then valueOr (.operand key .arrayOfTwoValues) levels j
    else .error (.operand key .arrayOfTwo)
  | _ => valueOr .expectedValue levels j

def isOperatorKey (key : Text) : Bool := key.head? = some (Text.unit '$')

/-- A field with a value, or with an object of one operator and its operand. -/
def fieldFilter (field : Text) (levels : Nat) : Json → Except FilterError FilterTree
  | .object [(key, j)] =>
    if isOperatorKey key then
      match Operator.ofKey? key with
      | some op => (operand key op (levels - 1) j).map (.compare field op)
      | none => .error (.unknownOperator key)
    else .error .expectedValue
  | .object _ => .error .expectedValue
  | j => (valueOr .expectedValue levels j).map (.compare field .eq)

/-- The children of a group, each read by the given reader. -/
def children (read : Json → Except FilterError FilterTree) :
    Json → Except FilterError (List FilterTree)
  | .array items => items.mapM read
  | _ => .error .expectedArray

/-- The child of a negation: an object, or an array of exactly one. -/
def onlyChild (read : Json → Except FilterError FilterTree) :
    Json → Except FilterError FilterTree
  | .array [only] => read only
  | .array _ => .error .notArity
  | j => read j

/-- One member of a document; nested objects are read by the given reader. -/
def member (read : Json → Except FilterError FilterTree) (levels : Nat) (key : Text)
    (j : Json) : Except FilterError FilterTree :=
  if key.isEmpty then .error .emptyField
  else if !isOperatorKey key then fieldFilter key levels j
  else if key = Text.ofString "$and" then (children read j).map .conjunction
  else if key = Text.ofString "$or" then (children read j).map .disjunction
  else if key = Text.ofString "$not" then (onlyChild read j).map .negation
  else .error (.unknownOperator key)

/-- The tree of a document, with so many levels left. -/
def toTree : Nat → Json → Except FilterError FilterTree
  | 0, _ => .error .tooDeep
  | levels + 1, .object members =>
    if members.isEmpty then .error .emptyFilter
    else (members.mapM fun m => member (toTree levels) levels m.1 m.2).map .conjoin
  | _ + 1, _ => .error .expectedObject

/-- The tree of a client's document. -/
def read (j : Json) : Except FilterError FilterTree := toTree (maxLevels + 1) j

/-- The tree of a document in its written form. -/
def readText (t : Text) : Except FilterError FilterTree :=
  match Json.read? t with
  | some j => read j
  | none => .error .notJson

end FilterDocument
end BoundSql
