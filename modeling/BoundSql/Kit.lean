import BoundSql.Client.FilterDocument
import BoundSql.Log.Event
import BoundSql.PageSize
import BoundSql.Settings
import BoundSql.Statement.Delete
import BoundSql.Statement.Insert
import BoundSql.Statement.Select
import BoundSql.Statement.Update

/-!
# The kit

Settings put to work: builders of one dialect, client filters read and held
against the policy, and page requests brought into the configured sizes.
-/
namespace BoundSql

/-- What can be wrong with a filter from a client. -/
inductive ClientFilterError where
  | unreadable (error : FilterError)
  | refused (violation : PolicyViolation)
  deriving DecidableEq

structure Kit where
  dialect : Dialect
  policy : FilterPolicy
  pageSizes : PageSizes
  deriving DecidableEq

namespace FilterPolicy

/-- What the verdict of a policy has to report. -/
def reports : Except PolicyViolation Unit → List Event
  | .ok () => []
  | .error v => [.filterRejected v]

/-- The name under which verdicts are reported. -/
def component : Text := "FilterValidator"

end FilterPolicy

namespace Kit

/-- The name under which a kit reports. -/
def component : Text := "SqlKit"

def ofSettings (s : Settings) : Kit := ⟨s.dialect, s.policy, s.pageSizes⟩

/-- What a new kit reports. -/
def ready (k : Kit) : Event :=
  .kitReady k.dialect k.policy.allowedFields.length k.policy.deniedOperators

/-- The tree of a client's document, if it keeps to the policy. -/
def accept (k : Kit) (document : Except FilterError FilterTree) :
    Except ClientFilterError FilterTree :=
  match document with
  | .error e => .error (.unreadable e)
  | .ok e =>
    match k.policy.checkTree e with
    | .ok () => .ok e
    | .error v => .error (.refused v)

def readFilter (k : Kit) (j : Json) : Except ClientFilterError FilterTree :=
  k.accept (FilterDocument.read j)

def readFilterText (k : Kit) (t : Text) : Except ClientFilterError FilterTree :=
  k.accept (FilterDocument.readText t)

/-- What an acceptance has to report. -/
def reports : Except ClientFilterError FilterTree → List Event
  | .error (.refused v) => [.filterRejected v]
  | _ => []

def select (k : Kit) (table : Text) : Except Fault (Builder SelectDraft) :=
  Builder.select k.dialect table

def insert (k : Kit) (table : Text) : Except Fault (Builder InsertDraft) :=
  Builder.insert k.dialect table

def update (k : Kit) (table : Text) : Except Fault (Builder UpdateDraft) :=
  Builder.update k.dialect table

def delete (k : Kit) (table : Text) : Except Fault (Builder DeleteDraft) :=
  Builder.delete k.dialect table

/-- The call that pages as a request asks, within the configured sizes. -/
def pageCall (k : Kit) (r : PageRequest) : SelectCall :=
  let (page, limit) := r.normalize k.pageSizes
  .page page limit

/-- A builder after paging as a request asks. -/
def turnTo (k : Kit) (b : Builder SelectDraft) (r : PageRequest) :
    Except Fault (Builder SelectDraft × List Event) :=
  b.configure (k.pageCall r)

end Kit
end BoundSql
