import BoundSql.Proofs.Statement.Runs

/-!
# Failed calls

A failure undoes nothing, but no method of a builder has changed anything by the time
it fails: the builder is the one before the call and nothing is reported, so the rest
of a run goes on as if the call had not been made. The first build that succeeds ends
the life of a builder: every call after it fails. Both are shown for one call, then for
any run by induction.
-/
namespace BoundSql

namespace Reply

def failed (r : Reply) : Bool :=
  match r.outcome with
  | .ok _ => false
  | .error _ => true

def hasStatement (r : Reply) : Bool :=
  match r.outcome with
  | .ok (some _) => true
  | _ => false

end Reply

namespace Builder

variable {δ κ : Type} [Draft δ κ]

/-- The calls of a run, each with its reply. -/
def transcript (b : Builder δ) (actions : List (Action κ)) : List (Action κ × Reply) :=
  actions.zip (b.run actions).2

/-- The second transcript is the first without some of its failed calls. -/
inductive Omits : List (Action κ × Reply) → List (Action κ × Reply) → Prop
  | nil : Omits [] []
  | keep (entry : Action κ × Reply) {all kept : List (Action κ × Reply)} (rest : Omits all kept) :
      Omits (entry :: all) (entry :: kept)
  | leave {entry : Action κ × Reply} {all kept : List (Action κ × Reply)}
      (failed : entry.2.failed = true) (rest : Omits all kept) : Omits (entry :: all) kept

/-- All failed calls may be left out at once. -/
theorem omits_failed (all : List (Action κ × Reply)) :
    Omits all (all.filter fun entry => !entry.2.failed) := by
  induction all with
  | nil => exact .nil
  | cons entry all ih =>
    by_cases h : entry.2.failed = true
    · rw [List.filter_cons_of_neg (by simp [h])]
      exact .leave h ih
    · rw [List.filter_cons_of_pos (by simpa using h)]
      exact .keep entry ih

theorem run_cons (b : Builder δ) (a : Action κ) (actions : List (Action κ)) :
    b.run (a :: actions) = (((b.act a).1.run actions).1,
      (b.act a).2 :: ((b.act a).1.run actions).2) := rfl

theorem transcript_cons (b : Builder δ) (a : Action κ) (actions : List (Action κ)) :
    b.transcript (a :: actions) = (a, (b.act a).2) :: (b.act a).1.transcript actions := rfl

variable [DraftSpec δ κ]

/-- A failed call changes nothing and reports nothing. -/
theorem act_of_failed {b : Builder δ} {a : Action κ} (h : (b.act a).2.failed = true) :
    (b.act a).1 = b ∧ (b.act a).2.events = [] := by
  cases a with
  | configure call =>
    rw [act_configure] at h ⊢
    cases hc : b.configure call with
    | error fault => exact ⟨rfl, rfl⟩
    | ok out => simp [hc, Reply.failed] at h
  | build start =>
    rw [act_build] at h ⊢
    cases hb : b.build start with
    | error fault => exact ⟨rfl, rfl⟩
    | ok out => simp [hb, Reply.failed] at h

/-- A statement comes from a build, which marks the builder. -/
theorem built_of_statement {b : Builder δ} {a : Action κ}
    (h : (b.act a).2.hasStatement = true) : (b.act a).1.built = true := by
  cases a with
  | configure call =>
    rw [act_configure] at h
    cases hc : b.configure call <;> simp [hc, Reply.hasStatement] at h
  | build start =>
    rw [act_build] at h ⊢
    cases hb : b.build start with
    | error fault => simp [hb, Reply.hasStatement] at h
    | ok out => rfl

/-- A builder whose statement has been built refuses every call. -/
theorem act_of_built {b : Builder δ} (h : b.built = true) (a : Action κ) :
    (b.act a).2.failed = true := by
  cases a with
  | configure call =>
    rw [act_configure]
    cases hc : b.configure call with
    | error fault => rfl
    | ok out =>
      obtain ⟨-, hbuilt, -⟩ := configure_eq_ok_iff.mp hc
      rw [h] at hbuilt
      exact absurd hbuilt (by simp)
  | build start =>
    rw [act_build]
    cases hb : b.build start with
    | error fault => rfl
    | ok out =>
      obtain ⟨hbuilt, -⟩ := build_eq_ok_iff.mp hb
      rw [h] at hbuilt
      exact absurd hbuilt (by simp)

theorem run_of_built {b : Builder δ} (h : b.built = true) (actions : List (Action κ)) :
    ∀ r ∈ (b.run actions).2, r.failed = true := by
  induction actions with
  | nil => simp [run]
  | cons a actions ih =>
    have hfailed := act_of_built h a
    rw [run_cons, (act_of_failed hfailed).1]
    exact List.forall_mem_cons.mpr ⟨hfailed, ih⟩

/-- After a statement has been built every call fails. -/
theorem pairwise_run (b : Builder δ) (actions : List (Action κ)) :
    (b.run actions).2.Pairwise fun r later => r.hasStatement = true → later.failed = true := by
  induction actions generalizing b with
  | nil => exact List.Pairwise.nil
  | cons a actions ih =>
    rw [run_cons]
    refine List.Pairwise.cons (fun later hlater hstatement => ?_) (ih _)
    exact run_of_built (built_of_statement hstatement) actions later hlater

/-- The calls that are kept have the same replies and lead to the same builder. -/
theorem run_of_omits {b : Builder δ} {actions : List (Action κ)} {kept : List (Action κ × Reply)}
    (h : Omits (b.transcript actions) kept) :
    b.run (kept.map Prod.fst) = ((b.run actions).1, kept.map Prod.snd) := by
  induction actions generalizing b kept with
  | nil =>
    cases h
    rfl
  | cons a actions ih =>
    rw [transcript_cons] at h
    cases h with
    | keep _ rest =>
      rw [List.map_cons, run_cons, ih rest]
      rfl
    | leave failed rest =>
      have hsame := (act_of_failed failed).1
      rw [hsame] at rest
      rw [ih rest, run_cons, hsame]

/-- Failed calls can be left out of a run, all of them or some: the other calls get the same
replies, statements, parameters and reports included, and the builder ends up the same. A call
that fails, a build among them, gives back the builder as it was and reports nothing. After a
build that succeeds every call fails. -/
theorem run_without_failed {k : StatementKind} (b : Builder k.DraftOf)
    (actions : List (Action k.CallOf)) :
    (∀ kept, Omits (b.transcript actions) kept →
      b.run (kept.map Prod.fst) = ((b.run actions).1, kept.map Prod.snd)) ∧
    (∀ a, (b.act a).2.failed = true → (b.act a).1 = b ∧ (b.act a).2.events = []) ∧
    (b.run actions).2.Pairwise fun r later => r.hasStatement = true → later.failed = true :=
  ⟨fun _ h => run_of_omits h, fun _ h => act_of_failed h, pairwise_run b actions⟩

/-- A row that does not fit, a name that is none, a start below one and a call that comes too
late: four of eight calls fail. -/
theorem run_without_failed_of_insert :
    let b : Builder (StatementKind.DraftOf .insert) := ⟨.sqlite, "t", {}, false⟩
    let actions : List (Action (StatementKind.CallOf .insert)) :=
      [.configure (.columns ["a"]), .configure (.values [.null, .null]), .build 1,
        .configure (.columns ["a", "b;"]), .configure (.columns ["a", "b"]), .build 0, .build 1,
        .configure (.values [])]
    let kept := (b.transcript actions).filter fun entry => !entry.2.failed
    kept.length = 4 ∧ (kept.map Prod.snd).any Reply.hasStatement = true ∧
      b.run (kept.map Prod.fst) = ((b.run actions).1, kept.map Prod.snd) ∧
      (b.act (.build 1)).2.failed = true ∧ (b.act (.build 1)).1 = b := by
  intro b actions kept
  obtain ⟨hkept, hfailed, -⟩ := run_without_failed b actions
  have hincomplete : (b.act (.build 1)).2.failed = true := by decide +kernel
  exact ⟨by decide +kernel, by decide +kernel, hkept kept (omits_failed _), hincomplete,
    (hfailed _ hincomplete).1⟩

end Builder
end BoundSql
