import BoundSql.Proofs.Statement.Calls
import BoundSql.Proofs.Sql.Conditions

/-!
# Runs of builders

The four kinds of statement as one family, what a single call can do to a
builder, and the induction from one call to any sequence of them. A builder is
reached when some sequence of calls, failed ones included, leads to it from a
new one.
-/
namespace BoundSql

namespace StatementKind

/-- What calls fill in, by the kind of statement. -/
abbrev DraftOf : StatementKind → Type
  | .select => SelectDraft
  | .insert => InsertDraft
  | .update => UpdateDraft
  | .delete => DeleteDraft

abbrev CallOf : StatementKind → Type
  | .select => SelectCall
  | .insert => InsertCall
  | .update => UpdateCall
  | .delete => DeleteCall

instance (k : StatementKind) : Draft k.DraftOf k.CallOf :=
  match k with
  | .select => inferInstanceAs (Draft SelectDraft SelectCall)
  | .insert => inferInstanceAs (Draft InsertDraft InsertCall)
  | .update => inferInstanceAs (Draft UpdateDraft UpdateCall)
  | .delete => inferInstanceAs (Draft DeleteDraft DeleteCall)

instance (k : StatementKind) : DraftSpec k.DraftOf k.CallOf :=
  match k with
  | .select => inferInstanceAs (DraftSpec SelectDraft SelectCall)
  | .insert => inferInstanceAs (DraftSpec InsertDraft InsertCall)
  | .update => inferInstanceAs (DraftSpec UpdateDraft UpdateCall)
  | .delete => inferInstanceAs (DraftSpec DeleteDraft DeleteCall)

end StatementKind

namespace Builder

/-- A new builder for a statement of any kind. -/
def fresh (d : Dialect) (table : Text) :
    (k : StatementKind) → Except Fault (Builder k.DraftOf)
  | .select => Builder.select d table
  | .insert => Builder.insert d table
  | .update => Builder.update d table
  | .delete => Builder.delete d table

variable {δ κ : Type} [Draft δ κ]

/-- Some calls lead from one builder to another. -/
def Leads (b₀ b : Builder δ) : Prop := ∃ actions : List (Action κ), (b₀.run actions).1 = b

/-- Some calls lead from a new builder to this one. -/
def Reached {k : StatementKind} (d : Dialect) (table : Text) (b : Builder k.DraftOf) : Prop :=
  ∃ b₀, fresh d table k = .ok b₀ ∧ Leads b₀ b

theorem run_append (b : Builder δ) (before after : List (Action κ)) :
    (b.run (before ++ after)).1 = ((b.run before).1.run after).1 := by
  induction before generalizing b with
  | nil => rfl
  | cons a before ih => exact ih (b.act a).1

/-- What more calls lead to is reached as well. -/
theorem Reached.run {k : StatementKind} {d : Dialect} {table : Text} {b : Builder k.DraftOf}
    (h : Reached d table b) (actions : List (Action k.CallOf)) :
    Reached d table (b.run actions).1 := by
  obtain ⟨b₀, hfresh, before, rfl⟩ := h
  exact ⟨b₀, hfresh, before ++ actions, run_append b₀ before actions⟩

variable [DraftSpec δ κ]

theorem configure_eq_ok_iff {b b' : Builder δ} {call : κ} {events : List Event} :
    b.configure call = .ok (b', events) ↔ DraftSpec.checkArguments δ call = .ok () ∧
      b.built = false ∧ ∃ draft, DraftSpec.configure call b.draft = .ok (draft, events) ∧
        b' = { b with draft } := by
  simp only [configure_eq, checkUsable, bind_eq_ok_iff, Except.ok.injEq, Prod.exists,
    Prod.mk.injEq]
  constructor
  · rintro ⟨⟨⟩, hargs, ⟨⟩, husable, draft, ev, hconf, rfl, rfl⟩
    refine ⟨hargs, ?_, draft, hconf, rfl⟩
    by_contra hb
    simp [hb] at husable
  · rintro ⟨hargs, hb, draft, hconf, rfl⟩
    exact ⟨(), hargs, (), by simp [hb], draft, events, hconf, rfl, rfl⟩

/-- Before it is built a builder leaves it to the draft whether a call succeeds. -/
theorem configure_of_unbuilt {b : Builder δ} (hb : b.built = false) {call : κ}
    (hargs : DraftSpec.checkArguments δ call = .ok ()) :
    b.configure call =
      (DraftSpec.configure call b.draft).map fun out => ({ b with draft := out.1 }, out.2) := by
  rw [configure_eq, hargs, checkUsable, hb]
  cases DraftSpec.configure call b.draft <;> rfl

theorem checkStart_eq_ok_iff {start : Double} :
    checkStart start = .ok () ↔ start.isSafeInteger = true ∧ Double.le 1 start = true := by
  simp [checkStart]

theorem build_eq_ok_iff {b : Builder δ} {start : Double} {q : Query} {events : List Event} :
    b.build start = .ok (q, events) ↔ b.built = false ∧
      start.isSafeInteger = true ∧ Double.le 1 start = true ∧
      ∃ ev, DraftSpec.assemble b.dialect b.table b.draft start = .ok (q, ev) ∧
        events = ev ++ [.built q.sql q.params.length] := by
  simp only [build_eq, checkUsable, bind_eq_ok_iff, Except.ok.injEq, Prod.exists, Prod.mk.injEq]
  constructor
  · rintro ⟨⟨⟩, husable, ⟨⟩, hstart, q, ev, hasm, rfl, rfl⟩
    obtain ⟨hsafe, hone⟩ := checkStart_eq_ok_iff.mp hstart
    refine ⟨?_, hsafe, hone, ev, hasm, rfl⟩
    by_contra hb
    simp [hb] at husable
  · rintro ⟨hb, hsafe, hone, ev, hasm, rfl⟩
    exact ⟨(), by simp [hb], (), checkStart_eq_ok_iff.mpr ⟨hsafe, hone⟩, q, ev, hasm, rfl, rfl⟩

/-- What one call can do: nothing, fill in the draft, or mark the builder as built. -/
theorem act_cases (b : Builder δ) (a : Action κ) :
    (b.act a).1 = b ∨ (b.act a).1 = { b with built := true } ∨
      ∃ call draft events, a = .configure call ∧
        DraftSpec.configure call b.draft = .ok (draft, events) ∧
        (b.act a).1 = { b with draft } := by
  cases a with
  | configure call =>
    cases hc : b.configure call with
    | error fault => exact .inl (by rw [act_configure, hc])
    | ok out =>
      obtain ⟨b', events⟩ := out
      obtain ⟨-, -, draft, hconf, rfl⟩ := configure_eq_ok_iff.mp hc
      exact .inr (.inr ⟨call, draft, events, rfl, hconf, by rw [act_configure, hc]⟩)
  | build start =>
    cases hb : b.build start with
    | error fault => exact .inl (by rw [act_build, hb])
    | ok out => exact .inr (.inl (by rw [act_build, hb]))

/-- What the accepted calls of a sequence keep of a draft holds after it. No call changes table
or dialect. -/
theorem run_induction_of {P : δ → Prop} {actions : List (Action κ)}
    (step : ∀ {call : κ} {draft draft' events}, .configure call ∈ actions →
      DraftSpec.configure call draft = .ok (draft', events) → P draft → P draft')
    {b : Builder δ} (h : P b.draft) :
    P (b.run actions).1.draft ∧ (b.run actions).1.table = b.table ∧
      (b.run actions).1.dialect = b.dialect := by
  induction actions generalizing b with
  | nil => exact ⟨h, rfl, rfl⟩
  | cons a actions ih =>
    have hone : P (b.act a).1.draft ∧ (b.act a).1.table = b.table ∧
        (b.act a).1.dialect = b.dialect := by
      rcases act_cases b a with hb | hb | ⟨call, draft, events, rfl, hconf, hb⟩
      · rw [hb]; exact ⟨h, rfl, rfl⟩
      · rw [hb]; exact ⟨h, rfl, rfl⟩
      · rw [hb]; exact ⟨step List.mem_cons_self hconf h, rfl, rfl⟩
    obtain ⟨hdraft, htable, hdialect⟩ := ih (fun hmem => step (List.mem_cons_of_mem a hmem)) hone.1
    exact ⟨hdraft, htable.trans hone.2.1, hdialect.trans hone.2.2⟩

/-- What every accepted call keeps of a draft holds after any sequence of calls, which
change neither table nor dialect. -/
theorem run_induction {P : δ → Prop}
    (step : ∀ {call : κ} {draft draft' events},
      DraftSpec.configure call draft = .ok (draft', events) → P draft → P draft')
    {b : Builder δ} (h : P b.draft) (actions : List (Action κ)) :
    P (b.run actions).1.draft ∧ (b.run actions).1.table = b.table ∧
      (b.run actions).1.dialect = b.dialect :=
  run_induction_of (fun _ => step) h

end Builder
end BoundSql
