import BoundSql.Proofs.Outcomes
import BoundSql.Proofs.Statement.Methods

/-!
# Calls as functions

What a method leaves where it succeeds is a function of the draft: the checks of the
arguments, the guard, and then the draft that the call makes of the one before. A
build that succeeds makes the statement of the draft. Together with what is known of
failed calls this is all that a call does.
-/
namespace BoundSql

/-- Refuses a call to a builder whose statement has been built. -/
def Builder.checkUsable {δ : Type} (b : Builder δ) (kind : StatementKind) (method : Text) :
    Except Fault Unit :=
  if b.built then .error (.alreadyBuilt kind b.table method) else .ok ()

namespace Method

variable {δ α β : Type}

/-- What a method returns and leaves where it succeeds. -/
def result (m : Method δ α) (w : Workspace δ) : Except Fault (α × Workspace δ) :=
  (m.runOn w).1.map fun a => (a, (m.runOn w).2)

section

variable (f : α → Method δ β) (w : Workspace δ)

theorem result_pure (a : α) : (pure a : Method δ α).result w = .ok (a, w) := rfl

theorem result_bind (m : Method δ α) :
    (m >>= f).result w = m.result w >>= fun out => (f out.1).result out.2 := by
  unfold result
  rw [runOn_bind]
  rcases m.runOn w with ⟨_ | a, w'⟩ <;> rfl

theorem result_check (c : Except Fault α) :
    (check c >>= f).result w = c >>= fun a => (f a).result w := by
  rw [result_bind]
  cases c <;> rfl

theorem result_ensure (f : Unit → Method δ β) (condition : Bool) (fault : Fault) :
    (ensure condition fault >>= f).result w =
      if condition then (f ()).result w else .error fault := by
  rw [ensure, result_check]
  cases condition <;> rfl

theorem result_current (f : Builder δ → Method δ β) :
    (current >>= f).result w = (f w.builder).result w := by
  rw [result_bind]
  rfl

theorem result_assertUsable (f : Unit → Method δ β) (kind : StatementKind) (method : Text) :
    (assertUsable kind method >>= f).result w =
      w.builder.checkUsable kind method >>= fun _ => (f ()).result w := by
  rw [assertUsable, bind_assoc, result_current, result_ensure, Builder.checkUsable]
  cases w.builder.built <;> rfl

end

end Method

/-- The calls of a draft as functions, and that this is what its methods do. -/
class DraftSpec (δ : Type) (κ : outParam Type) [Draft δ κ] where
  /-- The name of a call, for the message that refuses it. -/
  method : κ → Text
  /-- What is wrong with the arguments of a call, whatever the builder. -/
  checkArguments : κ → Except Fault Unit
  /-- The draft after a call, and what there is to report. -/
  configure : κ → δ → Except Fault (δ × List Event)
  /-- The statement of a draft, its parameters numbered from a start. -/
  assemble : Dialect → Text → δ → Double → Except Fault (Query × List Event)
  result_perform (call : κ) (b : Builder δ) : (Draft.perform call).result ⟨b, []⟩ = (do
    checkArguments call
    b.checkUsable (Draft.kind b.draft) (method call)
    let (draft, events) ← configure call b.draft
    .ok ((), ⟨{ b with draft }, events⟩))
  result_build (start : Double) (b : Builder δ) : (Draft.build start).result ⟨b, []⟩ = (do
    b.checkUsable (Draft.kind b.draft) "build"
    Builder.checkStart start
    let (q, events) ← assemble b.dialect b.table b.draft start
    .ok (q, ⟨{ b with built := true }, events ++ [.built q.sql q.params.length]⟩))
  atomic_perform (call : κ) : (Draft.perform call : Method δ Unit).Atomic
  atomic_build (start : Double) : (Draft.build start : Method δ Query).Atomic

namespace Builder

variable {δ κ : Type} [Draft δ κ] [DraftSpec δ κ]

theorem configure_eq (b : Builder δ) (call : κ) : b.configure call = (do
    DraftSpec.checkArguments δ call
    b.checkUsable (Draft.kind b.draft) (DraftSpec.method δ call)
    let (draft, events) ← DraftSpec.configure call b.draft
    .ok ({ b with draft }, events)) := by
  have hresult : b.configure call = ((Draft.perform call).result ⟨b, []⟩).map fun out =>
      (out.2.builder, out.2.events) := by
    unfold configure Method.result
    rcases (Draft.perform call).runOn ⟨b, []⟩ with ⟨_ | _, w⟩ <;> rfl
  rw [hresult, DraftSpec.result_perform]
  cases DraftSpec.checkArguments δ call with
  | error fault => rfl
  | ok _ =>
    cases b.checkUsable (Draft.kind b.draft) (DraftSpec.method δ call) with
    | error fault => rfl
    | ok _ => cases DraftSpec.configure call b.draft <;> rfl

theorem build_eq (b : Builder δ) (start : Double) : b.build start = (do
    b.checkUsable (Draft.kind b.draft) "build"
    checkStart start
    let (q, events) ← DraftSpec.assemble b.dialect b.table b.draft start
    .ok (q, events ++ [.built q.sql q.params.length])) := by
  have hresult : b.build start = ((Draft.build start).result ⟨b, []⟩).map fun out =>
      (out.1, out.2.events) := by
    unfold build Method.result
    rcases (Draft.build start).runOn ⟨b, []⟩ with ⟨_ | _, w⟩ <;> rfl
  rw [hresult, DraftSpec.result_build]
  cases b.checkUsable (Draft.kind b.draft) "build" with
  | error fault => rfl
  | ok _ =>
    cases checkStart start with
    | error fault => rfl
    | ok _ => cases DraftSpec.assemble b.dialect b.table b.draft start <;> rfl

/-- A call that fills in the draft and fails gives back the builder as it was. -/
theorem act_configure (b : Builder δ) (call : κ) : b.act (.configure call) =
    match b.configure call with
    | .ok (b, events) => (b, ⟨.ok none, events⟩)
    | .error fault => (b, ⟨.error fault, []⟩) := by
  have hatomic := DraftSpec.atomic_perform call ⟨b, []⟩
  dsimp only [act, configure]
  rcases hrun : (Draft.perform call).runOn ⟨b, []⟩ with ⟨fault | _, w⟩
  · rw [hrun] at hatomic
    obtain rfl : w = ⟨b, []⟩ := hatomic fault rfl
    rfl
  · rfl

/-- A build that fails gives back the builder as it was; one that succeeds only marks it. -/
theorem act_build (b : Builder δ) (start : Double) : b.act (.build start) =
    match b.build start with
    | .ok (q, events) => ({ b with built := true }, ⟨.ok (some q), events⟩)
    | .error fault => (b, ⟨.error fault, []⟩) := by
  have hatomic := DraftSpec.atomic_build start ⟨b, []⟩
  have hresult := DraftSpec.result_build start b
  dsimp only [act, build]
  unfold Method.result at hresult
  rcases hrun : (Draft.build start).runOn ⟨b, []⟩ with ⟨fault | q, w⟩
  · rw [hrun] at hatomic
    obtain rfl : w = ⟨b, []⟩ := hatomic fault rfl
    rfl
  · rw [hrun] at hresult
    obtain ⟨⟨⟩, -, hresult⟩ := bind_eq_ok_iff.mp hresult.symm
    obtain ⟨⟨⟩, -, hresult⟩ := bind_eq_ok_iff.mp hresult
    obtain ⟨out, -, ⟨⟩⟩ := bind_eq_ok_iff.mp hresult
    rfl

end Builder

namespace SelectCall

def name : SelectCall → Text
  | .fields _ => "fields"
  | .computed _ _ => "computed"
  | .aggregate _ => "aggregate"
  | .aggregateOf _ _ => "aggregate"
  | .filter _ _ _ => "filter"
  | .tree _ => "filterExpr"
  | .groupBy _ => "groupBy"
  | .having _ => "having"
  | .sort _ _ => "sort"
  | .sorts _ => "sorts"
  | .page _ _ => "page"
  | .limitOffset _ _ => "limitOffset"
  | .limit _ => "limit"
  | .seek direction _ => SelectDraft.seekName direction

def checkArguments : SelectCall → Except Fault Unit
  | .aggregateOf _ field => Identifier.check "aggregate field" field
  | _ => .ok ()

end SelectCall

namespace SelectDraft

/-- The draft with the cursor of a request; without one it stays as it is. -/
def setSeek (d : SelectDraft) (direction : SeekDirection) :
    RequestedCursor → SelectDraft × List Event
  | .missing => (d, [])
  | .cursor c => if c.isEmpty then (d, []) else ({ d with seek := some (direction, c) }, [])
  | .token t =>
    match Cursor.decode t with
    | .ok c => if c.isEmpty then (d, []) else ({ d with seek := some (direction, c) }, [])
    | .error e => (d, [.tokenIgnored direction e])

/-- A draft takes the cursor that a request resolves to, if there is one. -/
theorem setSeek_eq (d : SelectDraft) (direction : SeekDirection) (r : RequestedCursor) :
    (d.setSeek direction r).1 =
      match Cursor.ofRequest? r with
      | none => d
      | some c => { d with seek := some (direction, c) } := by
  have htake : ∀ c : Cursor, (d.setSeek direction (.cursor c)).1 =
      match c.nonEmpty? with
      | none => d
      | some c => { d with seek := some (direction, c) } := by
    intro c
    rw [setSeek, Cursor.nonEmpty?]
    cases c.isEmpty <;> rfl
  cases r with
  | missing => rfl
  | cursor c => exact htake c
  | token t =>
    rw [Cursor.ofRequest?_token]
    cases ht : Cursor.decode t with
    | error e => simp only [setSeek, ht]; rfl
    | ok c =>
      have hsame : d.setSeek direction (.token t) = d.setSeek direction (.cursor c) := by
        simp only [setSeek, ht]
      rw [hsame]
      exact htake c

/-- The draft after a call that reports nothing. -/
def fill (d : SelectDraft) : SelectCall → Except Fault SelectDraft
  | .fields names => do
    Identifier.checkAll "select field" names
    .ok { d with fields := names }
  | .computed label expression => do
    let c ← ComputedColumn.make label expression
    .ok { d with computed := d.computed ++ [c] }
  | .aggregate a => do
    a.check
    .ok { d with aggregates := d.aggregates ++ [a] }
  | .aggregateOf func field => do
    let a ← Aggregate.ofField func field
    .ok { d with aggregates := d.aggregates ++ [a] }
  | .filter field op value => do
    Identifier.check "filter field" field
    .ok { d with filters := d.filters ++ [⟨field, op, value⟩] }
  | .tree t => do
    checkFields "filter field" t
    .ok { d with tree := some t }
  | .groupBy names => do
    Identifier.checkAll "group by field" names
    .ok { d with groupBy := names }
  | .having t => do
    checkFields "having field" t
    .ok { d with having := some t }
  | .sort field dir => do
    Identifier.check "sort field" field
    .ok { d with sorts := d.sorts ++ [⟨field, dir⟩] }
  | .sorts fields => do
    Identifier.checkAll "sort field" (fields.map SortKey.field)
    .ok { d with sorts := d.sorts ++ fields }
  | .page page limit => do
    let page ← rowCount "page" page
    let limit ← rowCount "limit" limit
    .ok { d with limit := some limit, offset := some (pageOffset page limit) }
  | .limitOffset limit offset => do
    let limit ← rowCount "limit" limit
    let offset ← rowCount "offset" offset
    .ok { d with limit := some limit, offset := some offset }
  | .limit limit => do
    let limit ← rowCount "limit" limit
    .ok { d with limit := some limit }
  | .seek direction input => .ok (d.setSeek direction input).1

/-- What a call reports. -/
def reports (d : SelectDraft) : SelectCall → List Event
  | .seek direction input => (d.setSeek direction input).2
  | _ => []

end SelectDraft

namespace Method

variable {δ α : Type} {b : Builder δ}

/-- Behind the guard it is left to the draft whether a call succeeds. -/
lemma result_guarded (kind : StatementKind) (method : Text) {m : Method δ Unit}
    {filled : Except Fault (δ × List Event)}
    (h : m.result ⟨b, []⟩ = filled.map fun out => ((), ⟨{ b with draft := out.1 }, out.2⟩)) :
    (do assertUsable kind method; m : Method δ Unit).result ⟨b, []⟩ = (do
      b.checkUsable kind method
      let (draft, events) ← filled
      .ok ((), ⟨{ b with draft }, events⟩)) := by
  rw [result_assertUsable, h]
  cases b.checkUsable kind method with
  | error fault => rfl
  | ok _ => cases filled <;> rfl

/-- The shape of most calls: the guard, one check, and a change. -/
lemma result_checked (kind : StatementKind) (method : Text) (c : Except Fault α)
    (after : α → δ → δ) {filled : Except Fault δ}
    (h : filled = c >>= fun a => .ok (after a b.draft)) :
    (do assertUsable kind method; let a ← check c; amend (after a) : Method δ Unit).result ⟨b, []⟩ =
      (do
        b.checkUsable kind method
        let (draft, events) ← filled.map fun d => (d, [])
        .ok ((), ⟨{ b with draft }, events⟩)) := by
  refine result_guarded kind method ?_
  rw [result_check, h]
  cases c <;> rfl

/-- Behind the guards it is left to the draft whether a build succeeds. -/
lemma result_built (kind : StatementKind) (start : Double) {m : Builder δ → Method δ Query}
    {assembled : Except Fault (Query × List Event)}
    (h : (m b).result ⟨b, []⟩ = assembled.map fun out =>
      (out.1, ⟨{ b with built := true }, out.2 ++ [.built out.1.sql out.1.params.length]⟩)) :
    (do beginBuild kind start; let b ← current; m b : Method δ Query).result ⟨b, []⟩ = (do
      b.checkUsable kind "build"
      Builder.checkStart start
      let (q, events) ← assembled
      .ok (q, ⟨{ b with built := true }, events ++ [.built q.sql q.params.length]⟩)) := by
  have hbegin : ∀ f : Unit → Method δ Query, (beginBuild kind start >>= f).result ⟨b, []⟩ =
      b.checkUsable kind "build" >>= fun _ => Builder.checkStart start >>= fun _ =>
        (f ()).result ⟨b, []⟩ := by
    intro f
    rw [result_bind, beginBuild, result_assertUsable]
    cases b.checkUsable kind "build" with
    | error fault => rfl
    | ok _ => cases Builder.checkStart start <;> rfl
  rw [hbegin, result_current, h]
  cases assembled <;> rfl

lemma result_forM_report (events : List Event) (w : Workspace δ) :
    (events.forM report : Method δ Unit).result w =
      .ok ((), { w with events := w.events ++ events }) := by
  induction events generalizing w with
  | nil => rw [List.append_nil]; rfl
  | cons event events ih =>
    have hsplit : w.events ++ event :: events = w.events ++ [event] ++ events := by simp
    rw [hsplit]
    exact (result_bind _ _ _).trans (ih _)

end Method

namespace SelectDraft

open Method

lemma result_resolve (direction : SeekDirection) (r : RequestedCursor) (b : Builder SelectDraft) :
    (do
      match ← resolve direction r with
      | some c => amend fun d => { d with seek := some (direction, c) }
      | none => return () : Method SelectDraft Unit).result ⟨b, []⟩ =
      .ok ((), ⟨{ b with draft := (b.draft.setSeek direction r).1 },
        (b.draft.setSeek direction r).2⟩) := by
  rw [result_bind]
  cases r with
  | missing => rfl
  | cursor c =>
    simp only [resolve, setSeek, Cursor.nonEmpty?]
    cases c.isEmpty <;> rfl
  | token t =>
    simp only [resolve, setSeek, Cursor.nonEmpty?]
    cases Cursor.decode t with
    | error e => rfl
    | ok c =>
      dsimp only
      cases c.isEmpty <;> rfl

theorem result_perform (call : SelectCall) (b : Builder SelectDraft) :
    (perform call).result ⟨b, []⟩ = (do
      call.checkArguments
      b.checkUsable .select call.name
      let (draft, events) ← (b.draft.fill call).map fun d => (d, b.draft.reports call)
      .ok ((), ⟨{ b with draft }, events⟩)) := by
  cases call with
  | fields names => exact result_checked .select _ _ _ rfl
  | computed label expression => exact result_checked .select _ _ _ rfl
  | aggregate a => exact result_checked .select _ _ _ rfl
  | aggregateOf func field =>
    rw [perform, result_check, fill, SelectCall.checkArguments, Aggregate.ofField]
    by_cases hfield : Identifier.isValid field = true
    · have hcheck : Aggregate.check ⟨func, some field, none⟩ = .ok () := by
        simp [Aggregate.check, Identifier.check, hfield]
      have hfirst : Identifier.check "aggregate field" field = .ok () :=
        Identifier.check_eq_ok_iff.mpr hfield
      rw [hfirst]
      exact result_checked .select _ _ _ (by rw [hcheck]; rfl)
    · have hfirst : Identifier.check "aggregate field" field =
          .error (.invalidIdentifier "aggregate field" field) := if_neg hfield
      rw [hfirst]
      rfl
  | filter field op value => exact result_checked .select _ _ _ rfl
  | tree t => exact result_checked .select _ _ _ rfl
  | groupBy names => exact result_checked .select _ _ _ rfl
  | having t => exact result_checked .select _ _ _ rfl
  | sort field dir => exact result_checked .select _ _ _ rfl
  | sorts fields => exact result_checked .select _ _ _ rfl
  | page page limit =>
    refine result_guarded .select "page" ?_
    simp only [fill, result_check]
    cases rowCount "page" page <;> cases rowCount "limit" limit <;> rfl
  | limitOffset limit offset =>
    refine result_guarded .select "limitOffset" ?_
    simp only [fill, result_check]
    cases rowCount "limit" limit <;> cases rowCount "offset" offset <;> rfl
  | limit limit => exact result_checked .select _ _ _ rfl
  | seek direction input => exact result_guarded .select _ (result_resolve direction input b)

/-- A build reports the cursor that it ignores before the statement. -/
theorem result_build (start : Double) (b : Builder SelectDraft) :
    (build start).result ⟨b, []⟩ = (do
      b.checkUsable .select "build"
      Builder.checkStart start
      let (q, events) ← .ok (b.draft.query b.dialect b.table start, b.draft.seekCondition.2)
      .ok (q, ⟨{ b with built := true }, events ++ [.built q.sql q.params.length]⟩)) := by
  refine Method.result_built .select start ?_
  rw [result_bind, result_forM_report]
  rfl

end SelectDraft

instance : DraftSpec SelectDraft SelectCall where
  method := SelectCall.name
  checkArguments := SelectCall.checkArguments
  configure call d := (d.fill call).map fun after => (after, d.reports call)
  assemble dialect table d start := .ok (d.query dialect table start, d.seekCondition.2)
  result_perform := SelectDraft.result_perform
  result_build := SelectDraft.result_build
  atomic_perform := SelectDraft.atomic_perform
  atomic_build := SelectDraft.atomic_build

def InsertCall.name : InsertCall → Text
  | .columns _ => "columns"
  | .values _ => "values"
  | .valuesMany _ => "valuesMany"
  | .returning _ => "returning"

namespace InsertDraft

open Sql

/-- The draft after a call. -/
def fill (d : InsertDraft) : InsertCall → Except Fault InsertDraft
  | .columns names => do
    Identifier.checkAll "insert column" names
    .ok { d with columns := names }
  | .values row => .ok { d with rows := d.rows ++ [row] }
  | .valuesMany rows => .ok { d with rows := d.rows ++ rows }
  | .returning names => do
    Identifier.checkAll "returning column" names
    .ok { d with returning := names }

/-- Refuses the first row that has not the given width; rows count from the given one. -/
def checkWidths (width : Nat) : Nat → List (List Value) → Except Fault Unit
  | _, [] => .ok ()
  | i, row :: rest =>
    if row.length = width then checkWidths width (i + 1) rest
    else .error (.insertRowWidth i row.length width)

/-- The statement of a draft whose rows have the right width. -/
def query (dialect : Dialect) (table : Text) (d : InsertDraft) (start : Double) : Query :=
  d.queryOf table (Series.ofList (group dialect) d.rows start)

/-- The statement, if there is a column and a row and all rows fit. -/
def assemble (dialect : Dialect) (table : Text) (d : InsertDraft) (start : Double) :
    Except Fault Query :=
  if d.columns.isEmpty || d.rows.isEmpty then .error (.insertIncomplete table)
  else do
    checkWidths d.columns.length 0 d.rows
    .ok (d.query dialect table start)

open Method

lemma result_forM_push (rows : List (List Value)) (b : Builder InsertDraft) :
    (rows.forM fun row => amend fun d => { d with rows := d.rows ++ [row] } :
        Method InsertDraft Unit).result ⟨b, []⟩ =
      .ok ((), ⟨{ b with draft.rows := b.draft.rows ++ rows }, []⟩) := by
  induction rows generalizing b with
  | nil => rw [List.append_nil]; rfl
  | cons row rows ih =>
    have hsplit : b.draft.rows ++ row :: rows = b.draft.rows ++ [row] ++ rows := by simp
    rw [hsplit]
    exact (result_bind _ _ _).trans (ih _)

theorem result_perform (call : InsertCall) (b : Builder InsertDraft) :
    (perform call).result ⟨b, []⟩ = (do
      b.checkUsable .insert call.name
      let (draft, events) ← (b.draft.fill call).map fun d => (d, [])
      .ok ((), ⟨{ b with draft }, events⟩)) := by
  cases call with
  | columns names => exact result_checked .insert _ _ _ rfl
  | values row => exact result_guarded .insert _ rfl
  | valuesMany rows => exact result_guarded .insert _ (result_forM_push rows b)
  | returning names => exact result_checked .insert _ _ _ rfl

/-- The loop over the rows stops at the first that does not fit. -/
lemma result_foldlM_addRow (d : Dialect) (width : ℕ) (rows : List (List Value)) (k : ℕ)
    (groups : Series) (w : Workspace InsertDraft) :
    ((rows.zipIdx k).foldlM (addRow d width) groups).result w =
      (checkWidths width k rows).map fun _ =>
        (let rest := Series.ofList (group d) rows groups.next
        ⟨groups.parts ++ rest.parts, groups.params ++ rest.params, rest.next⟩, w) := by
  induction rows generalizing k groups with
  | nil => simp [Series.ofList, Series.empty, checkWidths, result_pure, Except.map]
  | cons row rows ih =>
    rw [List.zipIdx_cons, List.foldlM_cons, addRow, bind_assoc, result_ensure, checkWidths]
    by_cases hrow : row.length = width
    · simp only [hrow, decide_true, if_true, pure_bind]
      exact (ih _ _).trans (by simp [Series.ofList, Series.cons])
    · simp only [hrow, decide_false, Bool.false_eq_true, if_false]
      rfl

theorem result_build (start : Double) (b : Builder InsertDraft) :
    (build start).result ⟨b, []⟩ = (do
      b.checkUsable .insert "build"
      Builder.checkStart start
      let (q, events) ← (b.draft.assemble b.dialect b.table start).map fun q => (q, [])
      .ok (q, ⟨{ b with built := true }, events ++ [.built q.sql q.params.length]⟩)) := by
  refine Method.result_built .insert start ((result_ensure _ _ _ _).trans ?_)
  rw [assemble]
  cases b.draft.columns.isEmpty || b.draft.rows.isEmpty with
  | true => rfl
  | false =>
    refine (result_bind _ _ _).trans ?_
    rw [result_foldlM_addRow]
    cases checkWidths b.draft.columns.length 0 b.draft.rows <;> rfl

end InsertDraft

instance : DraftSpec InsertDraft InsertCall where
  method := InsertCall.name
  checkArguments _ := .ok ()
  configure call d := (d.fill call).map fun after => (after, [])
  assemble dialect table d start := (d.assemble dialect table start).map fun q => (q, [])
  result_perform := InsertDraft.result_perform
  result_build := InsertDraft.result_build
  atomic_perform := InsertDraft.atomic_perform
  atomic_build := InsertDraft.atomic_build

def UpdateCall.name : UpdateCall → Text
  | .set _ _ => "set"
  | .setMany _ => "setMany"
  | .filter _ _ _ => "filter"
  | .tree _ => "filterExpr"
  | .returning _ => "returning"

namespace UpdateDraft

/-- The draft after a call. -/
def fill (d : UpdateDraft) : UpdateCall → Except Fault UpdateDraft
  | .set column value => do
    Identifier.check "update column" column
    .ok { d with assignments := d.assignments ++ [(column, value)] }
  | .setMany pairs => do
    Identifier.checkAll "update column" (pairs.map (·.1))
    .ok { d with assignments := d.assignments ++ pairs }
  | .filter field op value => do
    Identifier.check "filter field" field
    .ok { d with filters := d.filters ++ [⟨field, op, value⟩] }
  | .tree t => do
    Identifier.checkAll "filter field" (t.filters.map Filter.field)
    .ok { d with tree := some t }
  | .returning names => do
    Identifier.checkAll "returning column" names
    .ok { d with returning := names }

/-- The statement, if there is anything to assign. -/
def assemble (dialect : Dialect) (table : Text) (d : UpdateDraft) (start : Double) :
    Except Fault Query :=
  if d.assignments.isEmpty then .error (.updateEmpty table)
  else .ok (d.query dialect table start)

open Method

theorem result_perform (call : UpdateCall) (b : Builder UpdateDraft) :
    (perform call).result ⟨b, []⟩ = (do
      b.checkUsable .update call.name
      let (draft, events) ← (b.draft.fill call).map fun d => (d, [])
      .ok ((), ⟨{ b with draft }, events⟩)) := by
  cases call with
  | set column value => exact result_checked .update _ _ _ rfl
  | setMany pairs => exact result_checked .update _ _ _ rfl
  | filter field op value => exact result_checked .update _ _ _ rfl
  | tree t => exact result_checked .update _ _ _ rfl
  | returning names => exact result_checked .update _ _ _ rfl

theorem result_build (start : Double) (b : Builder UpdateDraft) :
    (build start).result ⟨b, []⟩ = (do
      b.checkUsable .update "build"
      Builder.checkStart start
      let (q, events) ← (b.draft.assemble b.dialect b.table start).map fun q => (q, [])
      .ok (q, ⟨{ b with built := true }, events ++ [.built q.sql q.params.length]⟩)) := by
  refine Method.result_built .update start ((result_ensure _ _ _ _).trans ?_)
  rw [assemble]
  cases b.draft.assignments.isEmpty <;> rfl

end UpdateDraft

instance : DraftSpec UpdateDraft UpdateCall where
  method := UpdateCall.name
  checkArguments _ := .ok ()
  configure call d := (d.fill call).map fun after => (after, [])
  assemble dialect table d start := (d.assemble dialect table start).map fun q => (q, [])
  result_perform := UpdateDraft.result_perform
  result_build := UpdateDraft.result_build
  atomic_perform := UpdateDraft.atomic_perform
  atomic_build := UpdateDraft.atomic_build

def DeleteCall.name : DeleteCall → Text
  | .filter _ _ _ => "filter"
  | .tree _ => "filterExpr"
  | .returning _ => "returning"

namespace DeleteDraft

/-- The draft after a call. -/
def fill (d : DeleteDraft) : DeleteCall → Except Fault DeleteDraft
  | .filter field op value => do
    Identifier.check "filter field" field
    .ok { d with filters := d.filters ++ [⟨field, op, value⟩] }
  | .tree t => do
    Identifier.checkAll "filter field" (t.filters.map Filter.field)
    .ok { d with tree := some t }
  | .returning names => do
    Identifier.checkAll "returning column" names
    .ok { d with returning := names }

open Method

theorem result_perform (call : DeleteCall) (b : Builder DeleteDraft) :
    (perform call).result ⟨b, []⟩ = (do
      b.checkUsable .delete call.name
      let (draft, events) ← (b.draft.fill call).map fun d => (d, [])
      .ok ((), ⟨{ b with draft }, events⟩)) := by
  cases call with
  | filter field op value => exact result_checked .delete _ _ _ rfl
  | tree t => exact result_checked .delete _ _ _ rfl
  | returning names => exact result_checked .delete _ _ _ rfl

theorem result_build (start : Double) (b : Builder DeleteDraft) :
    (build start).result ⟨b, []⟩ = (do
      b.checkUsable .delete "build"
      Builder.checkStart start
      let (q, events) ← .ok (b.draft.query b.dialect b.table start, [])
      .ok (q, ⟨{ b with built := true }, events ++ [.built q.sql q.params.length]⟩)) :=
  Method.result_built .delete start rfl

end DeleteDraft

instance : DraftSpec DeleteDraft DeleteCall where
  method := DeleteCall.name
  checkArguments _ := .ok ()
  configure call d := (d.fill call).map fun after => (after, [])
  assemble dialect table d start := .ok (d.query dialect table start, [])
  result_perform := DeleteDraft.result_perform
  result_build := DeleteDraft.result_build
  atomic_perform := DeleteDraft.atomic_perform
  atomic_build := DeleteDraft.atomic_build

end BoundSql
