import BoundSql.Filter

/-!
# Policies for client filters

Which fields and operators a client may use, how deep a filter may nest and how
large it may be. Compound nodes, conditions and array elements are nodes; they
are visited in the order of the text, and the first violation is reported.
-/
namespace BoundSql

structure FilterPolicy where
  /-- An empty list allows every field. -/
  allowedFields : List Text
  deniedOperators : List Operator
  maxDepth : Double
  deriving DecidableEq

inductive PolicyViolation where
  | fieldNotAllowed (field : Text) (allowed : List Text)
  | operatorDenied (op : Operator) (field : Text)
  | tooDeep (max : Double) (actual : Nat)
  | tooManyNodes (max : Nat)
  deriving DecidableEq

namespace PolicyViolation

def kind : PolicyViolation → Text
  | .fieldNotAllowed _ _ => "FieldNotAllowed"
  | .operatorDenied _ _ => "OperatorDenied"
  | .tooDeep _ _ => "NestingTooDeep"
  | .tooManyNodes _ => "TooManyNodes"

def message : PolicyViolation → Text
  | .fieldNotAllowed field allowed =>
    "Field " ++ Fault.quoted field ++ " is not allowed, allowed fields: " ++
      Text.join ", " allowed
  | .operatorDenied op field =>
    "Operator " ++ Fault.quoted op.name ++ " is denied for field " ++ Fault.quoted field
  | .tooDeep max actual =>
    "Filter nesting depth " ++ Text.ofNat actual ++ " exceeds maximum " ++ max.toText
  | .tooManyNodes max => "Filter contains too many nodes (max " ++ Text.ofNat max ++ ")"

end PolicyViolation

/-- All of the trusted trees and the user's, which has to pass a check. -/
def FilterTree.joinChecked {ε : Type} (check : FilterTree → Except ε Unit)
    (trusted : List FilterTree) (user : Option FilterTree) : Except ε (Option FilterTree) := do
  if let some e := user then check e
  match trusted ++ user.toList with
  | [] => .ok none
  | parts => .ok (some (.conjoin parts))

namespace FilterPolicy

/-- The most nodes of a filter. -/
def maxNodes : Nat := 10000

/-- What holds where nothing else is said: regular expressions are denied. -/
def standard : FilterPolicy := ⟨[], [.regex], 5⟩

/-- A policy that denies no operator and no field. -/
def permissive : FilterPolicy := { standard with deniedOperators := [] }

def allowsField (p : FilterPolicy) (field : Text) : Bool :=
  p.allowedFields.isEmpty || p.allowedFields.contains field

/-- Visits a node: the number of nodes so far, and then the depth, must be in range. -/
def enter (p : FilterPolicy) (depth count : Nat) : Except PolicyViolation Nat :=
  if maxNodes < count + 1 then .error (.tooManyNodes maxNodes)
  else if p.maxDepth.lt (.ofNat depth) then .error (.tooDeep p.maxDepth depth)
  else .ok (count + 1)

mutual

/-- Visits an array element with all it holds; answers the number of nodes visited. -/
def visitValue (p : FilterPolicy) (depth : Nat) : Value → Nat → Except PolicyViolation Nat
  | .array items, count => do
    let count ← p.enter depth count
    visitValues p (depth + 1) items count
  | _, count => p.enter depth count

def visitValues (p : FilterPolicy) (depth : Nat) :
    List Value → Nat → Except PolicyViolation Nat
  | [], count => .ok count
  | v :: rest, count => do
    let count ← visitValue p depth v count
    visitValues p depth rest count

end

/-- The elements of a filter's value, which is itself no node. -/
def visitOperand (p : FilterPolicy) (depth : Nat) (v : Value) (count : Nat) :
    Except PolicyViolation Nat :=
  match v with
  | .array items => visitValues p depth items count
  | _ => .ok count

/-- Visits a condition: its place, its field, its operator and then its elements. -/
def visitFilter (p : FilterPolicy) (depth : Nat) (f : Filter) (count : Nat) :
    Except PolicyViolation Nat := do
  let count ← p.enter depth count
  if !p.allowsField f.field then .error (.fieldNotAllowed f.field p.allowedFields)
  else if p.deniedOperators.contains f.op then .error (.operatorDenied f.op f.field)
  else p.visitOperand (depth + 1) f.value count

mutual

/-- Visits a tree; answers the number of nodes visited. -/
def visitTree (p : FilterPolicy) (depth : Nat) : FilterTree → Nat → Except PolicyViolation Nat
  | .leaf f, count => p.visitFilter depth f count
  | .group _ children, count => do
    let count ← p.enter depth count
    visitTrees p (depth + 1) children count

def visitTrees (p : FilterPolicy) (depth : Nat) :
    List FilterTree → Nat → Except PolicyViolation Nat
  | [], count => .ok count
  | e :: rest, count => do
    let count ← visitTree p depth e count
    visitTrees p depth rest count

end

/-- Does a single filter keep to the policy? -/
def check (p : FilterPolicy) (f : Filter) : Except PolicyViolation Unit :=
  (p.visitFilter 0 f 0).map fun _ => ()

/-- Does a tree keep to the policy? -/
def checkTree (p : FilterPolicy) (e : FilterTree) : Except PolicyViolation Unit :=
  (p.visitTree 0 e 0).map fun _ => ()

/-- Refuses the first filter of a list that does not keep to the policy. -/
def checkAll (p : FilterPolicy) : List Filter → Except PolicyViolation Unit
  | [] => .ok ()
  | f :: rest => do
    p.check f
    p.checkAll rest

/-- The trusted filters and then the user's, which have to keep to the policy. -/
def joinFilters (p : FilterPolicy) (trusted user : List Filter) :
    Except PolicyViolation (List Filter) := do
  p.checkAll user
  .ok (trusted ++ user)

/-- All of the trusted trees and the user's, which has to keep to the policy. -/
def joinTrees (p : FilterPolicy) (trusted : List FilterTree) (user : Option FilterTree) :
    Except PolicyViolation (Option FilterTree) := FilterTree.joinChecked p.checkTree trusted user

end FilterPolicy
end BoundSql
