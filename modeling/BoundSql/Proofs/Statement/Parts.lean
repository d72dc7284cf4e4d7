import BoundSql.Proofs.Statement.Failures
import BoundSql.Proofs.Statement.Shapes

/-!
# The parts of a draft

Each call writes one part of a draft and reads no other part, so two sequences
of calls that agree part by part lead to the same builder, however the calls for
different parts are mixed. This is shown for one call, then for any sequence by
induction with one part at a time in view. A call with a list does what the
calls for its members do one after another.
-/
namespace BoundSql

/-- What a call can write. No kind of statement has all of these parts. -/
inductive DraftPart where
  | fields
  | computed
  | aggregates
  | filters
  | tree
  | groupBy
  | having
  | sorts
  /-- Limit and offset. -/
  | rowCounts
  | seek
  | columns
  | rows
  | assignments
  | returning
  deriving DecidableEq

namespace Draft

open DraftSpec (checkArguments configure)

variable {δ κ : Type} [Draft δ κ] [DraftSpec δ κ]

/-- The draft after a call, which leaves it as it was where it fails. -/
def after (s : δ) (c : κ) : δ :=
  match checkArguments δ c, configure c s with
  | .ok _, .ok (s', _) => s'
  | _, _ => s

/-- Each call writes one part of a draft, and that part alone tells how. -/
structure Parts (part : κ → DraftPart) (only : DraftPart → δ → δ) : Prop where
  ext {s s' : δ} : (∀ p, only p s = only p s') → s = s'
  own (s : δ) (c : κ) :
    Agree (fun a b => only (part c) a.1 = only (part c) b.1) (configure c s)
      (configure c (only (part c) s))
  frame {s s' : δ} {c : κ} {events : List Event} {p : DraftPart} :
    configure c s = .ok (s', events) → p ≠ part c → only p s' = only p s

namespace Parts

variable {part : κ → DraftPart} {only : DraftPart → δ → δ}

/-- What a call reports has no say in what it writes. -/
theorem of_fill {fill : δ → κ → Except Fault δ} {reports : δ → κ → List Event}
    (hconf : ∀ c s, configure c s = (fill s c).map fun s' => (s', reports s c))
    (hext : ∀ {s s' : δ}, (∀ p, only p s = only p s') → s = s')
    (hown : ∀ s c, Agree (fun a b => only (part c) a = only (part c) b) (fill s c)
      (fill (only (part c) s) c))
    (hframe : ∀ {s s' : δ} {c : κ} {p : DraftPart}, fill s c = .ok s' → p ≠ part c →
      only p s' = only p s) : Parts part only where
  ext := hext
  own s c := by
    rw [hconf, hconf]
    exact (hown s c).map fun _ _ h => h
  frame h hp := by
    rw [hconf] at h
    obtain ⟨s', hfill, hpair⟩ := map_eq_ok_iff.mp h
    obtain ⟨rfl, -⟩ := Prod.mk.inj hpair
    exact hframe hfill hp

lemma only_after_of_ne (h : Parts part only) {p : DraftPart} {c : κ} (hp : p ≠ part c) (s : δ) :
    only p (after s c) = only p s := by
  rw [after]
  split
  · next s' events _ hconf => exact h.frame hconf hp
  · rfl

lemma only_after_congr (h : Parts part only) (c : κ) {s s' : δ}
    (hs : only (part c) s = only (part c) s') :
    only (part c) (after s c) = only (part c) (after s' c) := by
  have hown := h.own s c
  have hown' := h.own s' c
  rw [← hs] at hown'
  simp only [after]
  cases checkArguments δ c with
  | error fault => exact hs
  | ok _ =>
    generalize configure c (only (part c) s) = out at hown hown'
    generalize configure c s = out₁ at hown
    generalize configure c s' = out₂ at hown'
    cases hown with
    | ok h₁ =>
      cases hown' with
      | ok h₂ => exact h₁.trans h₂.symm
    | error fault =>
      cases hown' with
      | error => exact hs

/-- In a part the calls that write it can be seen, and no others. -/
theorem only_foldl (h : Parts part only) (p : DraftPart) (calls : List κ) {s s' : δ}
    (hs : only p s = only p s') :
    only p (calls.foldl after s) = only p ((calls.filter fun c => part c = p).foldl after s') := by
  induction calls generalizing s s' with
  | nil => exact hs
  | cons c calls ih =>
    by_cases hc : part c = p
    · subst hc
      rw [List.filter_cons_of_pos (by simp)]
      exact ih (h.only_after_congr c hs)
    · rw [List.filter_cons_of_neg (by simpa using hc)]
      exact ih ((h.only_after_of_ne (Ne.symm hc) s).trans hs)

theorem foldl_congr (h : Parts part only) {calls calls' : List κ}
    (hcalls : ∀ p, (calls.filter fun c => part c = p) = calls'.filter fun c => part c = p)
    (s : δ) : calls.foldl after s = calls'.foldl after s := by
  refine h.ext fun p => ?_
  rw [h.only_foldl p calls rfl, h.only_foldl p calls' rfl, hcalls p]

end Parts
end Draft

namespace Builder

variable {δ κ : Type} [Draft δ κ] [DraftSpec δ κ]

theorem act_eq_after (b : Builder δ) (c : κ) :
    (b.act (.configure c)).1 =
      if b.built then b else { b with draft := Draft.after b.draft c } := by
  by_cases hb : b.built = true
  · rw [if_pos hb, (act_of_failed (act_of_built hb _)).1]
  · rw [if_neg hb, act_configure, Draft.after]
    cases hargs : DraftSpec.checkArguments δ c with
    | error fault => simp [configure_eq, hargs, bind, Except.bind]
    | ok _ =>
      rw [configure_of_unbuilt (by simpa using hb) hargs]
      cases DraftSpec.configure c b.draft <;> rfl

theorem run_configure (b : Builder δ) (calls : List κ) :
    (b.run (calls.map .configure)).1 =
      if b.built then b else { b with draft := calls.foldl Draft.after b.draft } := by
  induction calls generalizing b with
  | nil => simp [run]
  | cons c calls ih =>
    rw [List.map_cons, run_cons, ih, act_eq_after]
    split_ifs <;> rfl

/-- A call whose arguments are right and that reports nothing. -/
lemma act_of_configure {b : Builder δ} (hb : b.built = false) {c : κ} {s : δ}
    (hargs : DraftSpec.checkArguments δ c = .ok ())
    (hconf : DraftSpec.configure c b.draft = .ok (s, [])) :
    b.act (.configure c) = ({ b with draft := s }, ⟨.ok none, []⟩) := by
  have h : b.configure c = .ok ({ b with draft := s }, []) := by
    rw [configure_of_unbuilt hb hargs, hconf]
    rfl
  rw [act_configure, h]

/-- Calls for the members of a list extend a draft as the call with the list does at once. -/
theorem act_eq_run_singles {α : Type} (single : α → κ) (extend : List α → δ → δ) {batch : κ}
    {as : List α} (hnil : ∀ s, extend [] s = s)
    (hcons : ∀ a as s, extend as (extend [a] s) = extend (a :: as) s)
    (hsingle : ∀ a ∈ as, DraftSpec.checkArguments δ (single a) = .ok () ∧
      ∀ s, DraftSpec.configure (single a) s = .ok (extend [a] s, []))
    (hbatch : DraftSpec.checkArguments δ batch = .ok () ∧
      ∀ s, DraftSpec.configure batch s = .ok (extend as s, []))
    {b : Builder δ} (hb : b.built = false) :
    b.act (.configure batch) = ((b.run ((as.map single).map .configure)).1, ⟨.ok none, []⟩) ∧
      (b.run ((as.map single).map .configure)).2 =
        (as.map single).map fun _ => ⟨.ok none, []⟩ := by
  have hrun : b.run ((as.map single).map .configure) =
      ({ b with draft := extend as b.draft }, (as.map single).map fun _ => ⟨.ok none, []⟩) := by
    clear hbatch
    induction as generalizing b with
    | nil =>
      rw [hnil]
      rfl
    | cons a as ih =>
      obtain ⟨hargs, hconf⟩ := hsingle a List.mem_cons_self
      have hact := act_of_configure hb hargs (hconf b.draft)
      have hrest := ih (b := { b with draft := extend [a] b.draft })
        (fun c hc => hsingle c (List.mem_cons_of_mem a hc)) hb
      rw [hcons] at hrest
      rw [List.map_cons, List.map_cons, run_cons, hact]
      simp only [hrest, List.map_cons]
  rw [hrun, act_of_configure hb hbatch.1 (hbatch.2 b.draft)]
  exact ⟨rfl, rfl⟩

end Builder

namespace SelectDraft

/-- One part of a draft, all others as in a new one. -/
def only : DraftPart → SelectDraft → SelectDraft
  | .fields, d => { fields := d.fields }
  | .computed, d => { computed := d.computed }
  | .aggregates, d => { aggregates := d.aggregates }
  | .filters, d => { filters := d.filters }
  | .tree, d => { tree := d.tree }
  | .groupBy, d => { groupBy := d.groupBy }
  | .having, d => { having := d.having }
  | .sorts, d => { sorts := d.sorts }
  | .rowCounts, d => { limit := d.limit, offset := d.offset }
  | .seek, d => { seek := d.seek }
  | _, _ => {}

end SelectDraft

/-- The part that a call writes. -/
def SelectCall.part : SelectCall → DraftPart
  | .fields _ => .fields
  | .computed _ _ => .computed
  | .aggregate _ => .aggregates
  | .aggregateOf _ _ => .aggregates
  | .filter _ _ _ => .filters
  | .tree _ => .tree
  | .groupBy _ => .groupBy
  | .having _ => .having
  | .sort _ _ => .sorts
  | .sorts _ => .sorts
  | .page _ _ => .rowCounts
  | .limitOffset _ _ => .rowCounts
  | .limit _ => .rowCounts
  | .seek _ _ => .seek

namespace SelectDraft

lemma only_ext {s s' : SelectDraft} (h : ∀ p, only p s = only p s') : s = s' := by
  cases s
  cases s'
  rw [mk.injEq]
  exact ⟨congrArg fields (h .fields), congrArg computed (h .computed),
    congrArg aggregates (h .aggregates), congrArg filters (h .filters), congrArg tree (h .tree),
    congrArg groupBy (h .groupBy), congrArg having (h .having), congrArg sorts (h .sorts),
    congrArg limit (h .rowCounts), congrArg offset (h .rowCounts), congrArg seek (h .seek)⟩

/-- Whatever the draft is, the cursor of a request takes the place of the one before, or nothing
happens. -/
lemma setSeek_cases (direction : SeekDirection) (r : RequestedCursor) :
    (∀ s : SelectDraft, (s.setSeek direction r).1 = s) ∨
      ∃ c, ∀ s : SelectDraft,
        (s.setSeek direction r).1 = { s with seek := some (direction, c) } := by
  simp only [setSeek_eq]
  cases Cursor.ofRequest? r with
  | none => exact .inl fun _ => rfl
  | some c => exact .inr ⟨c, fun _ => rfl⟩

lemma only_setSeek (s : SelectDraft) (direction : SeekDirection) (r : RequestedCursor) :
    only .seek (s.setSeek direction r).1 = only .seek ((only .seek s).setSeek direction r).1 := by
  rcases setSeek_cases direction r with h | ⟨c, h⟩ <;> simp only [h] <;> rfl

lemma only_setSeek_of_ne {p : DraftPart} (hp : p ≠ .seek) (s : SelectDraft)
    (direction : SeekDirection) (r : RequestedCursor) :
    only p (s.setSeek direction r).1 = only p s := by
  rcases setSeek_cases direction r with h | ⟨c, h⟩ <;> rw [h]
  cases p <;> first | rfl | exact absurd rfl hp

lemma agree_only (s : SelectDraft) (c : SelectCall) :
    Agree (fun a b => only c.part a = only c.part b) (s.fill c) ((only c.part s).fill c) := by
  cases c with
  | seek direction r => exact .ok (only_setSeek s direction r)
  | page page limit => exact .after _ fun _ => .after _ fun _ => .ok rfl
  | limitOffset limit offset => exact .after _ fun _ => .after _ fun _ => .ok rfl
  | _ => exact .after _ fun _ => .ok rfl

lemma only_fill_of_ne {s s' : SelectDraft} {c : SelectCall} {p : DraftPart} (h : s.fill c = .ok s')
    (hp : p ≠ c.part) : only p s' = only p s := by
  cases c with
  | seek direction r =>
    cases h
    exact only_setSeek_of_ne hp s direction r
  | page page limit =>
    obtain ⟨_, -, hrest⟩ := bind_eq_ok_iff.mp h
    obtain ⟨_, -, ⟨⟩⟩ := bind_eq_ok_iff.mp hrest
    cases p <;> first | rfl | exact absurd rfl hp
  | limitOffset limit offset =>
    obtain ⟨_, -, hrest⟩ := bind_eq_ok_iff.mp h
    obtain ⟨_, -, ⟨⟩⟩ := bind_eq_ok_iff.mp hrest
    cases p <;> first | rfl | exact absurd rfl hp
  | _ =>
    obtain ⟨_, -, ⟨⟩⟩ := bind_eq_ok_iff.mp h
    cases p <;> first | rfl | exact absurd rfl hp

lemma fill_sort {key : SortKey} (h : Identifier.isValid key.field = true) (s : SelectDraft) :
    s.fill (.sort key.field key.dir) = .ok { s with sorts := s.sorts ++ [key] } := by
  have hcheck : Identifier.check "sort field" key.field = .ok () :=
    Identifier.check_eq_ok_iff.mpr h
  rw [fill, hcheck]
  rfl

lemma fill_sorts {keys : List SortKey} (h : ∀ s ∈ keys, Identifier.isValid s.field = true)
    (s : SelectDraft) : s.fill (.sorts keys) = .ok { s with sorts := s.sorts ++ keys } := by
  have hcheck : Identifier.checkAll "sort field" (keys.map SortKey.field) = .ok () :=
    Identifier.checkAll_eq_ok_iff.mpr (List.forall_mem_map.mpr h)
  rw [fill, hcheck]
  rfl

/-- Calls for different parts of a SELECT do not see each other. -/
theorem parts : Draft.Parts SelectCall.part only :=
  .of_fill (fun _ _ => rfl) only_ext agree_only only_fill_of_ne

end SelectDraft

namespace InsertDraft

/-- One part of a draft, all others as in a new one. -/
def only : DraftPart → InsertDraft → InsertDraft
  | .columns, d => { columns := d.columns }
  | .rows, d => { rows := d.rows }
  | .returning, d => { returning := d.returning }
  | _, _ => {}

end InsertDraft

/-- The part that a call writes. -/
def InsertCall.part : InsertCall → DraftPart
  | .columns _ => .columns
  | .values _ => .rows
  | .valuesMany _ => .rows
  | .returning _ => .returning

namespace InsertDraft

lemma only_ext {s s' : InsertDraft} (h : ∀ p, only p s = only p s') : s = s' := by
  cases s
  cases s'
  rw [mk.injEq]
  exact ⟨congrArg columns (h .columns), congrArg rows (h .rows),
    congrArg returning (h .returning)⟩

lemma agree_only (s : InsertDraft) (c : InsertCall) :
    Agree (fun a b => only c.part a = only c.part b) (s.fill c) ((only c.part s).fill c) := by
  cases c with
  | columns names => exact .after _ fun _ => .ok rfl
  | values row => exact .ok rfl
  | valuesMany rows => exact .ok rfl
  | returning names => exact .after _ fun _ => .ok rfl

lemma only_fill_of_ne {s s' : InsertDraft} {c : InsertCall} {p : DraftPart} (h : s.fill c = .ok s')
    (hp : p ≠ c.part) : only p s' = only p s := by
  cases c with
  | columns names =>
    obtain ⟨_, -, ⟨⟩⟩ := bind_eq_ok_iff.mp h
    cases p <;> first | rfl | exact absurd rfl hp
  | values row =>
    cases h
    cases p <;> first | rfl | exact absurd rfl hp
  | valuesMany rows =>
    cases h
    cases p <;> first | rfl | exact absurd rfl hp
  | returning names =>
    obtain ⟨_, -, ⟨⟩⟩ := bind_eq_ok_iff.mp h
    cases p <;> first | rfl | exact absurd rfl hp

theorem parts : Draft.Parts InsertCall.part only :=
  .of_fill (fun _ _ => rfl) only_ext agree_only only_fill_of_ne

end InsertDraft

namespace UpdateDraft

/-- One part of a draft, all others as in a new one. -/
def only : DraftPart → UpdateDraft → UpdateDraft
  | .assignments, d => { assignments := d.assignments }
  | .filters, d => { filters := d.filters }
  | .tree, d => { tree := d.tree }
  | .returning, d => { returning := d.returning }
  | _, _ => {}

end UpdateDraft

/-- The part that a call writes. -/
def UpdateCall.part : UpdateCall → DraftPart
  | .set _ _ => .assignments
  | .setMany _ => .assignments
  | .filter _ _ _ => .filters
  | .tree _ => .tree
  | .returning _ => .returning

namespace UpdateDraft

lemma only_ext {s s' : UpdateDraft} (h : ∀ p, only p s = only p s') : s = s' := by
  cases s
  cases s'
  rw [mk.injEq]
  exact ⟨congrArg assignments (h .assignments), congrArg filters (h .filters),
    congrArg tree (h .tree), congrArg returning (h .returning)⟩

lemma agree_only (s : UpdateDraft) (c : UpdateCall) :
    Agree (fun a b => only c.part a = only c.part b) (s.fill c) ((only c.part s).fill c) := by
  cases c <;> exact .after _ fun _ => .ok rfl

lemma only_fill_of_ne {s s' : UpdateDraft} {c : UpdateCall} {p : DraftPart} (h : s.fill c = .ok s')
    (hp : p ≠ c.part) : only p s' = only p s := by
  cases c <;> obtain ⟨_, -, ⟨⟩⟩ := bind_eq_ok_iff.mp h <;> cases p <;>
    first | rfl | exact absurd rfl hp

lemma fill_set {p : Text × Value} (h : Identifier.isValid p.1 = true) (s : UpdateDraft) :
    s.fill (.set p.1 p.2) = .ok { s with assignments := s.assignments ++ [p] } := by
  have hcheck : Identifier.check "update column" p.1 = .ok () := Identifier.check_eq_ok_iff.mpr h
  rw [fill, hcheck]
  rfl

lemma fill_setMany {pairs : List (Text × Value)}
    (h : ∀ p ∈ pairs, Identifier.isValid p.1 = true) (s : UpdateDraft) :
    s.fill (.setMany pairs) = .ok { s with assignments := s.assignments ++ pairs } := by
  have hcheck : Identifier.checkAll "update column" (pairs.map (·.1)) = .ok () :=
    Identifier.checkAll_eq_ok_iff.mpr (List.forall_mem_map.mpr h)
  rw [fill, hcheck]
  rfl

theorem parts : Draft.Parts UpdateCall.part only :=
  .of_fill (fun _ _ => rfl) only_ext agree_only only_fill_of_ne

end UpdateDraft

namespace DeleteDraft

/-- One part of a draft, all others as in a new one. -/
def only : DraftPart → DeleteDraft → DeleteDraft
  | .filters, d => { filters := d.filters }
  | .tree, d => { tree := d.tree }
  | .returning, d => { returning := d.returning }
  | _, _ => {}

end DeleteDraft

/-- The part that a call writes. -/
def DeleteCall.part : DeleteCall → DraftPart
  | .filter _ _ _ => .filters
  | .tree _ => .tree
  | .returning _ => .returning

namespace DeleteDraft

lemma only_ext {s s' : DeleteDraft} (h : ∀ p, only p s = only p s') : s = s' := by
  cases s
  cases s'
  rw [mk.injEq]
  exact ⟨congrArg filters (h .filters), congrArg tree (h .tree),
    congrArg returning (h .returning)⟩

lemma agree_only (s : DeleteDraft) (c : DeleteCall) :
    Agree (fun a b => only c.part a = only c.part b) (s.fill c) ((only c.part s).fill c) := by
  cases c <;> exact .after _ fun _ => .ok rfl

lemma only_fill_of_ne {s s' : DeleteDraft} {c : DeleteCall} {p : DraftPart} (h : s.fill c = .ok s')
    (hp : p ≠ c.part) : only p s' = only p s := by
  cases c <;> obtain ⟨_, -, ⟨⟩⟩ := bind_eq_ok_iff.mp h <;> cases p <;>
    first | rfl | exact absurd rfl hp

theorem parts : Draft.Parts DeleteCall.part only :=
  .of_fill (fun _ _ => rfl) only_ext agree_only only_fill_of_ne

end DeleteDraft

namespace StatementKind

/-- The part that a call writes, by the kind of statement. -/
def part : (k : StatementKind) → k.CallOf → DraftPart
  | .select => SelectCall.part
  | .insert => InsertCall.part
  | .update => UpdateCall.part
  | .delete => DeleteCall.part

theorem exists_parts (k : StatementKind) :
    ∃ only : DraftPart → k.DraftOf → k.DraftOf, Draft.Parts k.part only := by
  cases k with
  | select => exact ⟨_, SelectDraft.parts⟩
  | insert => exact ⟨_, InsertDraft.parts⟩
  | update => exact ⟨_, UpdateDraft.parts⟩
  | delete => exact ⟨_, DeleteDraft.parts⟩

/-- The same calls for each part, in the same order. -/
def SameParts (k : StatementKind) (calls calls' : List k.CallOf) : Prop :=
  ∀ p, (calls.filter fun c => k.part c = p) = calls'.filter fun c => k.part c = p

/-- A call with a list that is valid, and the calls for its members. -/
inductive Batch : (k : StatementKind) → k.CallOf → List k.CallOf → Prop
  | sorts {keys : List SortKey} (valid : ∀ s ∈ keys, Identifier.isValid s.field = true) :
    Batch .select (.sorts keys) (keys.map fun s => .sort s.field s.dir)
  | setMany {pairs : List (Text × Value)} (valid : ∀ p ∈ pairs, Identifier.isValid p.1 = true) :
    Batch .update (.setMany pairs) (pairs.map fun p => .set p.1 p.2)
  | valuesMany (rows : List (List Value)) : Batch .insert (.valuesMany rows) (rows.map .values)

end StatementKind

namespace Builder

/-- A call with a valid list succeeds, and so does each of the calls for its members; they lead
to the same builder. -/
theorem run_batch {k : StatementKind} {batch : k.CallOf} {singles : List k.CallOf}
    (h : k.Batch batch singles) {b : Builder k.DraftOf} (hb : b.built = false) :
    b.act (.configure batch) = ((b.run (singles.map .configure)).1, ⟨.ok none, []⟩) ∧
      (b.run (singles.map .configure)).2 = singles.map fun _ => ⟨.ok none, []⟩ := by
  cases h with
  | @sorts keys valid =>
    refine act_eq_run_singles (fun s : SortKey => SelectCall.sort s.field s.dir)
      (fun keys s => { s with sorts := s.sorts ++ keys }) (by simp) (by simp)
      (fun s hs => ⟨rfl, fun draft => ?_⟩) ⟨rfl, fun draft => ?_⟩ hb
    · exact congrArg (Except.map _) (SelectDraft.fill_sort (valid s hs) draft)
    · exact congrArg (Except.map _) (SelectDraft.fill_sorts valid draft)
  | @setMany pairs valid =>
    refine act_eq_run_singles (fun p : Text × Value => UpdateCall.set p.1 p.2)
      (fun pairs s => { s with assignments := s.assignments ++ pairs }) (by simp) (by simp)
      (fun p hp => ⟨rfl, fun draft => ?_⟩) ⟨rfl, fun draft => ?_⟩ hb
    · exact congrArg (Except.map _) (UpdateDraft.fill_set (valid p hp) draft)
    · exact congrArg (Except.map _) (UpdateDraft.fill_setMany valid draft)
  | valuesMany rows =>
    exact act_eq_run_singles InsertCall.values
      (fun rows s => { s with rows := s.rows ++ rows }) (by simp) (by simp)
      (fun row _ => ⟨rfl, fun _ => rfl⟩) ⟨rfl, fun _ => rfl⟩ hb

/-- Only the order of calls for the same part counts: sequences of calls that agree part by part,
failed calls included, lead to the same builder, so every build gives the same statement and
parameters or the same fault. Calls for the members of a valid list do what the call with the list
does, and all of them succeed. -/
theorem run_of_sameParts {k : StatementKind} (b : Builder k.DraftOf) {calls calls' : List k.CallOf}
    (h : k.SameParts calls calls') :
    (b.run (calls.map .configure)).1 = (b.run (calls'.map .configure)).1 ∧
    (∀ start, (b.run (calls.map .configure)).1.build start =
      (b.run (calls'.map .configure)).1.build start) ∧
    (b.built = false → ∀ batch singles, k.Batch batch singles →
      b.act (.configure batch) = ((b.run (singles.map .configure)).1, ⟨.ok none, []⟩) ∧
      (b.run (singles.map .configure)).2 = singles.map fun _ => ⟨.ok none, []⟩) := by
  obtain ⟨only, hparts⟩ := k.exists_parts
  have hsame : (b.run (calls.map .configure)).1 = (b.run (calls'.map .configure)).1 := by
    rw [run_configure, run_configure, hparts.foldl_congr h]
  exact ⟨hsame, fun start => by rw [hsame], fun hb _ _ hbatch => run_batch hbatch hb⟩

/-- A cursor set before the sort fields that it is held against, and after them. -/
theorem run_of_sameParts_of_seek :
    let b : Builder (StatementKind.DraftOf .select) := ⟨.postgres, "t", {}, false⟩
    let seek : SelectCall := .seek .after (.cursor ⟨[("a", .int 1), ("b", .int 2)]⟩)
    let keys : List SortKey := [⟨"a", .asc⟩, ⟨"b", .desc⟩]
    let singles : List SelectCall := [.sort "a" .asc, .sort "b" .desc]
    StatementKind.SameParts .select (seek :: singles) (singles ++ [seek]) ∧
      (b.run ((seek :: singles).map .configure)).1 =
        (b.run ((singles ++ [seek]).map .configure)).1 ∧
      b.act (.configure (.sorts keys)) =
        ((b.run (singles.map .configure)).1, ⟨.ok none, []⟩) := by
  intro b seek keys singles
  have hparts : StatementKind.SameParts .select (seek :: singles) (singles ++ [seek]) := by
    intro p
    cases p <;> rfl
  have hvalid : ∀ s ∈ keys, Identifier.isValid s.field = true := by decide
  obtain ⟨hsame, -, hbatch⟩ := run_of_sameParts (k := .select) b hparts
  exact ⟨hparts, hsame, (hbatch rfl _ _ (.sorts hvalid)).1⟩

end Builder
end BoundSql
