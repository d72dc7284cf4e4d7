import BoundSql.Filter
import BoundSql.Identifier
import BoundSql.Log.Event
import BoundSql.Sql.Fragment

/-!
# Statement builders

A builder is a table, a dialect and a draft that calls fill in. It is built
once: after a build that succeeds every further call is refused. Calls work on
the builder in place, so whatever a call has changed before it fails stays
changed.
-/
namespace BoundSql

structure Builder (δ : Type) where
  dialect : Dialect
  table : Text
  draft : δ
  built : Bool

/-- Refuses a start that is no safe integer from one on. -/
def Builder.checkStart (start : Double) : Except Fault Unit :=
  if start.isSafeInteger && Double.le 1 start then .ok () else .error (.badStartIndex start)

/-- What a call works on: the builder and what has been reported so far. -/
structure Workspace (δ : Type) where
  builder : Builder δ
  events : List Event

/-- A call while it runs. The state is below the failures: none of them undoes a change. -/
abbrev Method (δ α : Type) := ExceptT Fault (StateM (Workspace δ)) α

namespace Method

variable {δ α : Type}

/-- How a call ends, and what it leaves whether it fails or not. -/
def runOn (m : Method δ α) (w : Workspace δ) : Except Fault α × Workspace δ := m.run.run w

/-- The builder as it is now. -/
def current : Method δ (Builder δ) := return (← get).builder

/-- Goes on with what a check returns. -/
def check (c : Except Fault α) : Method δ α := ExceptT.mk (pure c)

/-- Fails unless the condition holds. -/
def ensure (condition : Bool) (fault : Fault) : Method δ Unit :=
  check (if condition then .ok () else .error fault)

/-- Changes the draft. -/
def amend (f : δ → δ) : Method δ Unit :=
  modify fun w => { w with builder.draft := f w.builder.draft }

def report (event : Event) : Method δ Unit :=
  modify fun w => { w with events := w.events ++ [event] }

/-- Refuses a call to a builder whose statement has been built. -/
def assertUsable (kind : StatementKind) (method : Text) : Method δ Unit := do
  let b ← current
  ensure (!b.built) (.alreadyBuilt kind b.table method)

/-- What comes first in every build. -/
def beginBuild (kind : StatementKind) (start : Double) : Method δ Unit := do
  assertUsable kind "build"
  check (Builder.checkStart start)

/-- What comes last in every build. -/
def finish (q : Query) : Method δ Query := do
  modify fun w => { w with builder.built := true }
  report (.built q.sql q.params.length)
  return q

end Method

/-- What the drafts of the four kinds of statement have in common. -/
class Draft (δ : Type) (κ : outParam Type) where
  kind : δ → StatementKind
  /-- A call that fills in the draft. -/
  perform : κ → Method δ Unit
  /-- The build, parameters numbered from a start. -/
  build : Double → Method δ Query

/-- A call to a builder: one that fills in the draft, or a build. -/
inductive Action (κ : Type) where
  | configure (call : κ)
  | build (start : Double)

/-- What a call answers, and what is reported while it runs. -/
structure Reply where
  outcome : Except Fault (Option Query)
  events : List Event

namespace Builder

variable {δ κ : Type} [Draft δ κ]

/-- A builder for a table, whose name has to be an identifier. -/
def forTable (dialect : Dialect) (table : Text) (draft : δ) : Except Fault (Builder δ) := do
  Identifier.check "table" table
  .ok ⟨dialect, table, draft, false⟩

/-- The builder after a call that fills in its draft, if the call succeeds. -/
def configure (b : Builder δ) (call : κ) : Except Fault (Builder δ × List Event) :=
  let (outcome, after) := (Draft.perform call).runOn ⟨b, []⟩
  outcome.map fun _ => (after.builder, after.events)

/-- The statement, its parameters numbered from the start, if the build succeeds. -/
def build (b : Builder δ) (start : Double) : Except Fault (Query × List Event) :=
  let (outcome, after) := (Draft.build start).runOn ⟨b, []⟩
  outcome.map fun q => (q, after.events)

/-- A call and the builder after it. -/
def act (b : Builder δ) : Action κ → Builder δ × Reply
  | .configure call =>
    let (outcome, after) := (Draft.perform call).runOn ⟨b, []⟩
    (after.builder, ⟨outcome.map fun _ => none, after.events⟩)
  | .build start =>
    let (outcome, after) := (Draft.build start).runOn ⟨b, []⟩
    (after.builder, ⟨outcome.map some, after.events⟩)

/-- A sequence of calls to one builder. -/
def run (b : Builder δ) : List (Action κ) → Builder δ × List Reply
  | [] => (b, [])
  | a :: rest =>
    let (b, reply) := b.act a
    let (b, replies) := b.run rest
    (b, reply :: replies)

end Builder
end BoundSql
