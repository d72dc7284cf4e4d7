import BoundSql.Number.Decimal

/-!
# JSON documents

Numbers are binary64 and may overflow to infinity. The members of an object
stand in the order in which they are visited: first the keys that are array
indices, in ascending order, then the others by first appearance. A repeated
key keeps its place and takes the last value.
-/
namespace BoundSql

inductive Json where
  | null
  | bool (b : Bool)
  | number (n : Double)
  | string (s : Text)
  | array (items : List Json)
  | object (members : List (Text × Json))
  deriving Inhabited

namespace Json

/-- The only blanks of JSON: space, tab, line feed and carriage return. -/
def isSpace (c : UInt16) : Bool := c = 0x20 || c = 0x09 || c = 0x0A || c = 0x0D

def skipSpace (t : Text) : Text := t.dropWhile isSpace

/-- One of the words `true`, `false` and `null` at the front of a text. -/
def readWord? (t : Text) : Option (Option Bool × Text) :=
  match Text.dropFront? "true" t, Text.dropFront? "false" t, Text.dropFront? "null" t with
  | some rest, _, _ => some (some true, rest)
  | _, some rest, _ => some (some false, rest)
  | _, _, some rest => some (none, rest)
  | none, none, none => none

/-- A list of members in which the key has the value, in its old place if it had one. -/
def put (key : Text) (value : Json) : List (Text × Json) → List (Text × Json)
  | [] => [(key, value)]
  | (k, v) :: rest => if k = key then (k, value) :: rest else (k, v) :: put key value rest

/-- The value of a key in a list of members. -/
def find? (key : Text) (members : List (Text × Json)) : Option Json :=
  (members.find? fun m => m.1 = key).map (·.2)

/-- The number of a key that is the canonical numeral of an array index. -/
def arrayIndex? (key : Text) : Option Nat :=
  if key.isEmpty || 10 < key.length || !key.all Text.isDigit then none
  else
    let n := Text.digitsValue key
    if key = Text.ofNat n ∧ n < UInt32.size - 1 then some n else none

/-- The members in visiting order. -/
def order (members : List (Text × Json)) : List (Text × Json) :=
  let indexed := members.filterMap fun m => (arrayIndex? m.1).map fun n => (n, m)
  ((indexed.mergeSort fun a b => a.1 ≤ b.1).map (·.2)) ++
    members.filter fun m => (arrayIndex? m.1).isNone

/-- An object from its members as they were written. -/
def ofMembers (written : List (Text × Json)) : Json :=
  .object (order (written.foldl (fun members m => put m.1 m.2 members) []))

def isNull : Json → Bool
  | .null => true
  | _ => false

/-- Does the value say anything? Null, false, zero, NaN and the empty string do not. -/
def isPresent : Json → Bool
  | .null => false
  | .bool b => b
  | .number x => !x.isNaN && x.place? ≠ some 0
  | .string s => !s.isEmpty
  | _ => true

/-- The members of an object, or the items of an array or the units of a string under
their indices. -/
def entries : Json → List (Text × Json)
  | .object members => members
  | .array items => items.mapIdx fun i j => (Text.ofNat i, j)
  | .string s => s.mapIdx fun i c => (Text.ofNat i, .string [c])
  | _ => []

/-- The member of an object under a key. -/
def get? (key : Text) : Json → Option Json
  | .object members => find? key members
  | _ => none

end Json
end BoundSql
