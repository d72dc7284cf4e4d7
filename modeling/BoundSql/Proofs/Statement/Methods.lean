import Mathlib.Tactic.Lemma
import BoundSql.Statement.Delete
import BoundSql.Statement.Insert
import BoundSql.Statement.Select
import BoundSql.Statement.Update

/-!
# Methods that fail before they change anything

A method of a builder works in place, so a failure after a change would leave half
of a call behind. None does: every method first looks at the builder and at its
arguments, which changes nothing, and then makes its changes, which cannot fail.
Whether a method is of this shape is found from its steps.
-/
namespace BoundSql

namespace Method

variable {δ α β : Type}

@[simp] theorem runOn_pure (a : α) (w : Workspace δ) : (pure a : Method δ α).runOn w = (.ok a, w) :=
  rfl

/-- After a failure nothing more is done and nothing is undone. -/
theorem runOn_bind (m : Method δ α) (f : α → Method δ β) (w : Workspace δ) :
    (m >>= f).runOn w = match m.runOn w with
      | (.ok a, w') => (f a).runOn w'
      | (.error fault, w') => (.error fault, w') := by
  simp only [runOn, bind, ExceptT.run, ExceptT.bind, ExceptT.mk, ExceptT.bindCont, StateT.run,
    StateT.bind]
  rcases m w with ⟨_ | a, w'⟩ <;> rfl

/-- A method that changes nothing, whether it fails or not. -/
def Reads (m : Method δ α) : Prop := ∀ w, (m.runOn w).2 = w

/-- A method that cannot fail. -/
def Succeeds (m : Method δ α) : Prop := ∀ w, ∃ a, (m.runOn w).1 = .ok a

/-- A method that leaves everything as it was where it fails. -/
def Atomic (m : Method δ α) : Prop := ∀ w fault, (m.runOn w).1 = .error fault → (m.runOn w).2 = w

namespace Reads

variable {m : Method δ α} {f : α → Method δ β}

theorem pure (a : α) : Reads (Pure.pure a : Method δ α) := fun _ => rfl

theorem current : Reads (Method.current : Method δ (Builder δ)) := fun _ => rfl

theorem check (c : Except Fault α) : Reads (Method.check c : Method δ α) := fun _ => rfl

theorem bind (hm : m.Reads) (hf : ∀ a, (f a).Reads) : (m >>= f).Reads := by
  intro w
  have hw := hm w
  rw [runOn_bind]
  rcases hrun : m.runOn w with ⟨fault | a, w'⟩ <;> rw [hrun] at hw
  · exact hw
  · exact (hf a w').trans hw

theorem assertUsable (kind : StatementKind) (method : Text) :
    Reads (Method.assertUsable kind method : Method δ Unit) :=
  current.bind fun _ => check _

theorem beginBuild (kind : StatementKind) (start : Double) :
    Reads (Method.beginBuild kind start : Method δ Unit) :=
  (assertUsable kind _).bind fun _ => check _

theorem foldlM {σ : Type} {step : σ → α → Method δ σ} (h : ∀ s a, (step s a).Reads) (as : List α)
    (s : σ) : (as.foldlM step s).Reads := by
  induction as generalizing s with
  | nil => exact pure s
  | cons a as ih => exact (h s a).bind fun s' => ih s'

/-- Whatever is found out first, only what comes after it has to keep the builder as it was. -/
theorem bind_atomic (hm : m.Reads) (hf : ∀ a, (f a).Atomic) : (m >>= f).Atomic := by
  intro w fault
  have hw := hm w
  rw [runOn_bind]
  rcases hrun : m.runOn w with ⟨fault | a, w'⟩ <;> rw [hrun] at hw
  · exact fun _ => hw
  · obtain rfl : w' = w := hw
    exact hf a w' fault

end Reads

namespace Succeeds

variable {m : Method δ α} {f : α → Method δ β}

theorem pure (a : α) : Succeeds (Pure.pure a : Method δ α) := fun _ => ⟨a, rfl⟩

theorem amend (change : δ → δ) : Succeeds (Method.amend change) := fun _ => ⟨(), rfl⟩

theorem report (event : Event) : Succeeds (Method.report event : Method δ Unit) :=
  fun _ => ⟨(), rfl⟩

theorem bind (hm : m.Succeeds) (hf : ∀ a, (f a).Succeeds) : (m >>= f).Succeeds := by
  intro w
  obtain ⟨a, ha⟩ := hm w
  rw [runOn_bind]
  rcases hrun : m.runOn w with ⟨fault | a', w'⟩ <;> rw [hrun] at ha
  · cases ha
  · exact hf a' w'

theorem forM {step : α → Method δ Unit} (h : ∀ a, (step a).Succeeds) (as : List α) :
    Succeeds (as.forM step) := by
  induction as with
  | nil => exact pure ()
  | cons a as ih => exact (h a).bind fun _ => ih

theorem finish (q : Query) : Succeeds (Method.finish q : Method δ Query) := fun _ => ⟨q, rfl⟩

theorem atomic (hm : m.Succeeds) : m.Atomic := by
  intro w fault hfault
  obtain ⟨a, ha⟩ := hm w
  rw [ha] at hfault
  cases hfault

end Succeeds

/-- The shape of most calls: the guard, one check, and a change. -/
theorem atomic_checked (kind : StatementKind) (method : Text) (c : Except Fault α)
    {change : α → Method δ β} (h : ∀ a, (change a).Succeeds) :
    Atomic (do assertUsable kind method; let a ← check c; change a) :=
  (Reads.assertUsable kind method).bind_atomic fun _ =>
    (Reads.check c).bind_atomic fun a => (h a).atomic

end Method

open Method

namespace SelectDraft

lemma atomic_addAggregate (a : Aggregate) : (addAggregate a).Atomic :=
  atomic_checked .select _ _ fun _ => .amend _

/-- Of the two ways to ignore a cursor neither fails. -/
lemma succeeds_resolve (direction : SeekDirection) (r : RequestedCursor) :
    (resolve direction r).Succeeds := by
  cases r with
  | missing => exact .pure _
  | cursor c => exact .pure _
  | token t =>
    rw [resolve]
    cases Cursor.decode t with
    | ok c => exact .pure _
    | error e => exact (Succeeds.report _).bind fun _ => .pure _

/-- A call to a SELECT that fails leaves the builder as it was. -/
theorem atomic_perform (call : SelectCall) : (perform call).Atomic := by
  cases call with
  | fields names => exact atomic_checked .select _ _ fun _ => .amend _
  | computed label expression => exact atomic_checked .select _ _ fun _ => .amend _
  | aggregate a => exact atomic_addAggregate a
  | aggregateOf func field => exact (Reads.check _).bind_atomic fun a => atomic_addAggregate a
  | filter field op value => exact atomic_checked .select _ _ fun _ => .amend _
  | tree t => exact atomic_checked .select _ _ fun _ => .amend _
  | groupBy names => exact atomic_checked .select _ _ fun _ => .amend _
  | having t => exact atomic_checked .select _ _ fun _ => .amend _
  | sort field dir => exact atomic_checked .select _ _ fun _ => .amend _
  | sorts fields => exact atomic_checked .select _ _ fun _ => .amend _
  | page page limit =>
    -- both numbers are checked before the first of the two changes
    exact (Reads.assertUsable _ _).bind_atomic fun _ => (Reads.check _).bind_atomic fun _ =>
      (Reads.check _).bind_atomic fun _ => ((Succeeds.amend _).bind fun _ => .amend _).atomic
  | limitOffset limit offset =>
    exact (Reads.assertUsable _ _).bind_atomic fun _ => (Reads.check _).bind_atomic fun _ =>
      (Reads.check _).bind_atomic fun _ => ((Succeeds.amend _).bind fun _ => .amend _).atomic
  | limit limit => exact atomic_checked .select _ _ fun _ => .amend _
  | seek direction input =>
    refine (Reads.assertUsable _ _).bind_atomic fun _ =>
      ((succeeds_resolve direction input).bind fun c => ?_).atomic
    cases c with
    | none => exact .pure _
    | some c => exact .amend _

theorem atomic_build (start : Double) : (build start).Atomic :=
  (Reads.beginBuild _ _).bind_atomic fun _ => Reads.current.bind_atomic fun _ =>
    ((Succeeds.forM (fun event => .report event) _).bind fun _ => .finish _).atomic

end SelectDraft

namespace InsertDraft

/-- A call to an INSERT that fails leaves the builder as it was. -/
theorem atomic_perform (call : InsertCall) : (perform call).Atomic := by
  cases call with
  | columns names => exact atomic_checked .insert _ _ fun _ => .amend _
  | values row =>
    exact (Reads.assertUsable _ _).bind_atomic fun _ => (Succeeds.amend _).atomic
  | valuesMany rows =>
    exact (Reads.assertUsable _ _).bind_atomic fun _ =>
      (Succeeds.forM (fun _ => .amend _) rows).atomic
  | returning names => exact atomic_checked .insert _ _ fun _ => .amend _

/-- What the rows before a row that does not fit have collected is no part of the builder. -/
lemma reads_addRow (d : Dialect) (width : Nat) (groups : Series) (row : List Value × Nat) :
    (addRow d width groups row).Reads :=
  (Reads.check _).bind fun _ => .pure _

theorem atomic_build (start : Double) : (build start).Atomic :=
  (Reads.beginBuild _ _).bind_atomic fun _ => Reads.current.bind_atomic fun b =>
    (Reads.check _).bind_atomic fun _ =>
      (Reads.foldlM (reads_addRow b.dialect b.draft.columns.length) _ _).bind_atomic fun _ =>
        (Succeeds.finish _).atomic

end InsertDraft

namespace UpdateDraft

/-- A call to an UPDATE that fails leaves the builder as it was. -/
theorem atomic_perform (call : UpdateCall) : (perform call).Atomic := by
  cases call with
  | set column value => exact atomic_checked .update _ _ fun _ => .amend _
  | setMany pairs => exact atomic_checked .update _ _ fun _ => .amend _
  | filter field op value => exact atomic_checked .update _ _ fun _ => .amend _
  | tree t => exact atomic_checked .update _ _ fun _ => .amend _
  | returning names => exact atomic_checked .update _ _ fun _ => .amend _

theorem atomic_build (start : Double) : (build start).Atomic :=
  (Reads.beginBuild _ _).bind_atomic fun _ => Reads.current.bind_atomic fun _ =>
    (Reads.check _).bind_atomic fun _ => (Succeeds.finish _).atomic

end UpdateDraft

namespace DeleteDraft

/-- A call to a DELETE that fails leaves the builder as it was. -/
theorem atomic_perform (call : DeleteCall) : (perform call).Atomic := by
  cases call with
  | filter field op value => exact atomic_checked .delete _ _ fun _ => .amend _
  | tree t => exact atomic_checked .delete _ _ fun _ => .amend _
  | returning names => exact atomic_checked .delete _ _ fun _ => .amend _

theorem atomic_build (start : Double) : (build start).Atomic :=
  (Reads.beginBuild _ _).bind_atomic fun _ => Reads.current.bind_atomic fun _ =>
    (Succeeds.finish _).atomic

end DeleteDraft

end BoundSql
