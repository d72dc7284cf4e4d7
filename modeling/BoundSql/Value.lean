import BoundSql.Fault

/-!
# Bound values

What a statement binds to its placeholders. Integers cover the signed 64-bit
range exactly. `Datum` is the plain data on the outside: what callers hand in
and what a database driver receives.
-/
namespace BoundSql

inductive Value where
  | null
  | bool (b : Bool)
  | int (n : Int64)
  | float (x : Double)
  | string (s : Text)
  | array (items : List Value)
  deriving Inhabited

/-- Plain data; an integer is exact and of any size. -/
inductive Datum where
  | null
  | bool (b : Bool)
  | integer (n : Int)
  | number (x : Double)
  | string (s : Text)
  | list (items : List Datum)
  deriving Inhabited

namespace Value

/-- Has a cursor room for the value? -/
def isScalar : Value → Bool
  | .array _ => false
  | _ => true

def isNull : Value → Bool
  | .null => true
  | _ => false

/-- An integer value, if it fits. -/
def ofInt (n : Int) : Except Fault Value :=
  if Int64.minValue.toInt ≤ n ∧ n ≤ Int64.maxValue.toInt then .ok (.int (Int64.ofInt n))
  else .error (.outsideInt64 n)

/-- The integer value of a number without a fractional part. -/
def ofWhole (x : Double) : Except Fault Value :=
  match x.toInt? with
  | some n => ofInt n
  | none => .error (.notInteger x)

/-- A number as an integer value where it is a safe integer, as a float elsewhere. -/
def ofNumber (x : Double) : Value :=
  match x.toSafeInt? with
  | some n => .int (Int64.ofInt n)
  | none => .float x

mutual

/-- The value of plain data. -/
def ofDatum : Datum → Except Fault Value
  | .null => .ok .null
  | .bool b => .ok (.bool b)
  | .integer n => ofInt n
  | .number x => .ok (ofNumber x)
  | .string s => .ok (.string s)
  | .list items => (ofData items).map .array

def ofData : List Datum → Except Fault (List Value)
  | [] => .ok []
  | d :: rest => do
    let v ← ofDatum d
    let vs ← ofData rest
    .ok (v :: vs)

end

mutual

/-- What the driver receives for a value. -/
def toDatum : Value → Datum
  | .null => .null
  | .bool b => .bool b
  | .int n => .integer n.toInt
  | .float x => .number x
  | .string s => .string s
  | .array items => .list (toData items)

def toData : List Value → List Datum
  | [] => []
  | v :: rest => v.toDatum :: toData rest

end

@[simp] theorem toData_eq_map (vs : List Value) : toData vs = vs.map toDatum := by
  induction vs with
  | nil => simp [toData]
  | cons v vs ih => simp [toData, ih]

end Value
end BoundSql
