import BoundSql.Proofs.Statement.SeekTokens

/-!
# Cursors of requests

A builder takes from a request the cursor that the request resolves to, and a
request without one leaves it as it was. The call and the calls that set other
parts may come in any order. Whether the statement then seeks is found when it is
built: the cursor has to have a value for each field of the sort order, all of them
identifiers, or else the statement is that of the builder without the cursor.
-/
namespace BoundSql

namespace Cursor

/-- The names of the fields are identifiers, and the cursor has a value for each. -/
def Covers (c : Cursor) (sorts : List SortKey) : Prop :=
  ∀ s ∈ sorts, Identifier.isValid s.field = true ∧ c.get? s.field ≠ none

lemma isEmpty_of_ofRequest? {r : RequestedCursor} {c : Cursor} (h : ofRequest? r = some c) :
    c.isEmpty = false := by
  cases r with
  | missing => cases h
  | cursor c' =>
    obtain ⟨hempty, rfl⟩ := nonEmpty?_eq_some_iff.mp h
    exact hempty
  | token t =>
    rw [ofRequest?_token] at h
    obtain ⟨c', -, hc'⟩ := Option.bind_eq_some_iff.mp h
    obtain ⟨hempty, rfl⟩ := nonEmpty?_eq_some_iff.mp hc'
    exact hempty

/-- A cursor that a request resolves to resolves to itself. -/
lemma ofRequest?_cursor {c : Cursor} (h : c.isEmpty = false) :
    ofRequest? (.cursor c) = some c := nonEmpty?_eq_some_iff.mpr ⟨h, rfl⟩

end Cursor

namespace SelectDraft

variable {s : SelectDraft} {direction : SeekDirection} {c : Cursor}

/-- A cursor that a draft has is not empty. -/
def HoldsEntries (s : SelectDraft) : Prop :=
  ∀ direction c, s.seek = some (direction, c) → c.isEmpty = false

lemma holdsEntries_fill {s s' : SelectDraft} {call : SelectCall} (h : s.fill call = .ok s')
    (hs : s.HoldsEntries) : s'.HoldsEntries := by
  by_cases hpart : call.part = .seek
  · cases call with
    | seek direction r =>
      obtain rfl := Except.ok.inj h
      intro direction' c hseek
      rw [setSeek_eq] at hseek
      cases hr : Cursor.ofRequest? r with
      | none =>
        rw [hr] at hseek
        exact hs direction' c hseek
      | some c' =>
        rw [hr] at hseek
        obtain ⟨rfl, rfl⟩ := Prod.mk.inj (Option.some_inj.mp hseek)
        exact Cursor.isEmpty_of_ofRequest? hr
    | _ => cases hpart
  · have hsame : (only .seek s').seek = (only .seek s).seek :=
      congrArg seek (only_fill_of_ne h (Ne.symm hpart))
    intro direction c hseek
    exact hs direction c (hsame.symm.trans hseek)

/-- The cursor's own fields stand in for a sort order that is not there. -/
lemma seekSorts_eq (s : SelectDraft) (c : Cursor) :
    s.seekSorts c = if s.sorts = [] then c.entries.map fun e => ⟨e.1, .asc⟩ else s.sorts := by
  rw [seekSorts]
  simp only [List.isEmpty_iff]

lemma seekSorts_ne_nil (s : SelectDraft) (hc : c.isEmpty = false) : s.seekSorts c ≠ [] := by
  rw [seekSorts_eq]
  split_ifs with hsorts
  · rw [Cursor.isEmpty, List.isEmpty_eq_false_iff] at hc
    simpa using hc
  · exact hsorts

/-- A cursor with a value for each sort field has a condition. -/
theorem seekCondition_of_covers (hseek : s.seek = some (direction, c)) (hc : c.isEmpty = false)
    (hcovers : c.Covers (s.seekSorts c)) :
    ∃ values, List.Forall₂ (fun k v => c.get? k.field = some v) (s.seekSorts c) values ∧
      s.seekCondition.1 = some (Keyset.toTree ⟨s.seekSorts c, values, direction⟩) := by
  obtain ⟨values, hall⟩ := Cursor.exists_values fun k hk => (hcovers k hk).2
  have hvalues := hall c fun _ _ => rfl
  have hnames : ((s.seekSorts c).all fun k => Identifier.isValid k.field) = true :=
    List.all_eq_true.mpr fun k hk => (hcovers k hk).1
  refine ⟨values, hvalues, ?_⟩
  simp only [seekCondition, hseek, hnames, if_true,
    Keyset.ofCursor?_eq_of_values (s.seekSorts_ne_nil hc) hvalues]

/-- A cursor without a value for a sort field, or with a name that is no identifier, has none. -/
theorem seekCondition_of_not_covers (hseek : s.seek = some (direction, c))
    (hcovers : ¬c.Covers (s.seekSorts c)) : s.seekCondition.1 = none := by
  simp only [seekCondition, hseek]
  split_ifs with hnames
  · have hgap : ∃ k ∈ s.seekSorts c, c.get? k.field = none := by
      by_contra hfull
      push Not at hfull
      exact hcovers fun k hk => ⟨List.all_eq_true.mp hnames k hk, hfull k hk⟩
    rw [Keyset.ofCursor?_eq_none.mpr (.inr hgap)]
  · rfl

/-- The conditions that calls have set, without that of a cursor. -/
def ownConditions (s : SelectDraft) : List FilterTree := s.tree.toList ++ s.filters.map .leaf

lemma query_eq_queryWhere (d : Dialect) (table : Text) (s : SelectDraft) (start : Double) :
    s.query d table start =
      s.queryWhere d table (s.ownConditions ++ s.seekCondition.1.toList) start := rfl

/-- Without a cursor only the draft's own conditions are left. -/
lemma query_unseeked (d : Dialect) (table : Text) (s : SelectDraft) (start : Double) :
    query d table { s with seek := none } start = s.queryWhere d table s.ownConditions start := by
  have hnone : ({ s with seek := none } : SelectDraft).seekCondition.1 = none := rfl
  rw [query_eq_queryWhere, hnone, Option.toList_none, List.append_nil]
  rfl

/-- A condition that binds values can be told from none. -/
lemma length_params_queryWhere_lt {d : Dialect} {e : FilterTree} (he : e.bound d ≠ [])
    (table : Text) (s : SelectDraft) (es : List FilterTree) (start : Double) :
    (s.queryWhere d table es start).params.length <
      (s.queryWhere d table (es ++ [e]) start).params.length := by
  have hpos := List.length_pos_iff.mpr he
  simp only [params_queryWhere, List.flatMap_append, List.flatMap_singleton, List.length_append]
  omega

end SelectDraft

namespace Builder

variable {d : Dialect} {table : Text} {b : Builder SelectDraft}

/-- The builder without its cursor. -/
def unseeked (b : Builder SelectDraft) : Builder SelectDraft :=
  { b with draft := { b.draft with seek := none } }

/-- A cursor that a builder has was not empty when it was set. -/
lemma holdsEntries_of_reached (h : Reached (k := .select) d table b) : b.draft.HoldsEntries := by
  obtain ⟨b₀, hfresh, actions, rfl⟩ := h
  obtain ⟨⟨⟩, -, ⟨⟩⟩ := bind_eq_ok_iff.mp hfresh
  refine (run_induction (fun hconf hs => ?_) ?_ actions).1
  · exact SelectDraft.holdsEntries_fill (eq_ok_of_map_pair hconf) hs
  · intro direction c hseek
    cases hseek

/-- Before the statement is built no cursor is refused. -/
lemma act_seek_of_unbuilt (hb : b.built = false) (direction : SeekDirection)
    (r : RequestedCursor) :
    ∃ events, b.act (.configure (SelectCall.seek direction r)) =
      (b.seekBy direction r, ⟨.ok none, events⟩) := by
  have hconf : b.configure (SelectCall.seek direction r) =
      .ok (b.seekBy direction r, (b.draft.setSeek direction r).2) := by
    rw [configure_of_unbuilt hb rfl, seekBy_of_unbuilt hb]
    rfl
  exact ⟨(b.draft.setSeek direction r).2, by rw [act_configure, hconf]⟩

/-- A request without a cursor leaves the builder as it was. -/
theorem seekBy_of_none {r : RequestedCursor} (hr : Cursor.ofRequest? r = none)
    (b : Builder SelectDraft) (direction : SeekDirection) : b.seekBy direction r = b := by
  rw [seekBy_eq, SelectDraft.setSeek_eq, hr]
  exact ite_self b

/-- A request does what the cursor does that it resolves to. -/
theorem seekBy_of_some {r : RequestedCursor} {c : Cursor} (hr : Cursor.ofRequest? r = some c)
    (b : Builder SelectDraft) (direction : SeekDirection) :
    b.seekBy direction r = b.seekBy direction (.cursor c) := by
  have hc := Cursor.ofRequest?_cursor (Cursor.isEmpty_of_ofRequest? hr)
  rw [seekBy_eq, seekBy_eq, SelectDraft.setSeek_eq, SelectDraft.setSeek_eq, hr, hc]

lemma seek_seekBy {r : RequestedCursor} {c : Cursor} (hr : Cursor.ofRequest? r = some c)
    (hb : b.built = false) (direction : SeekDirection) :
    (b.seekBy direction r).draft.seek = some (direction, c) := by
  rw [seekBy_of_unbuilt hb, SelectDraft.setSeek_eq, hr]

/-- Calls that set other parts may come before or after the cursor. -/
theorem run_seekBy (b : Builder SelectDraft) (direction : SeekDirection) (r : RequestedCursor)
    {calls : List SelectCall} (h : ∀ call ∈ calls, call.part ≠ .seek) :
    ((b.seekBy direction r).run (calls.map .configure)).1 =
      (b.run (calls.map .configure)).1.seekBy direction r := by
  let call : SelectCall := .seek direction r
  have hcall : call.part = .seek := rfl
  have hparts : ∀ p, ((call :: calls).filter fun c => c.part = p) =
      (calls ++ [call]).filter fun c => c.part = p := by
    intro p
    rw [List.filter_append]
    by_cases hp : p = .seek
    · have hnone : (calls.filter fun c => c.part = p) = [] :=
        List.filter_eq_nil_iff.mpr fun c hc => by simpa [hp] using h c hc
      rw [List.filter_cons_of_pos (by simp [hcall, hp]), hnone,
        List.filter_cons_of_pos (by simp [hcall, hp])]
      rfl
    · have hother : ¬call.part = p := fun heq => hp (heq.symm.trans hcall)
      rw [List.filter_cons_of_neg (by simpa using hother),
        List.filter_cons_of_neg (by simpa using hother), List.filter_nil, List.append_nil]
  calc ((b.seekBy direction r).run (calls.map .configure)).1
      = (b.run ((call :: calls).map .configure)).1 := rfl
    _ = (b.run ((calls ++ [call]).map .configure)).1 := by
        rw [run_configure, run_configure, SelectDraft.parts.foldl_congr hparts]
    _ = (b.run (calls.map .configure)).1.seekBy direction r := by
        rw [List.map_append, run_append]
        rfl

/-- What a build makes of a cursor: a condition after all others, if the cursor covers the sort
order or, where there is none, its own fields; nothing, if it does not. -/
def Resolves (b : Builder SelectDraft) (direction : SeekDirection) (c : Cursor) (q q₀ : Query)
    (start : Double) : Prop :=
  let sorts := if b.draft.sorts = [] then c.entries.map fun e => ⟨e.1, .asc⟩ else b.draft.sorts
  (c.Covers sorts → q₀.params.length < q.params.length ∧
    ∃ values, List.Forall₂ (fun k v => c.get? k.field = some v) sorts values ∧
      q = b.draft.queryWhere b.dialect b.table
        (b.draft.ownConditions ++ [Keyset.toTree ⟨sorts, values, direction⟩]) start) ∧
  (¬c.Covers sorts → q = q₀)

/-- The statement of a builder with a cursor, held against that of the builder without it. -/
theorem build_of_seek (h : Reached (k := .select) d table b) (hb : b.built = false)
    {direction : SeekDirection} {c : Cursor} (hseek : b.draft.seek = some (direction, c))
    {start : Double} (hstart : checkStart start = .ok ()) :
    ∃ q events q₀ events₀, b.build start = .ok (q, events) ∧
      b.unseeked.build start = .ok (q₀, events₀) ∧ b.Resolves direction c q q₀ start := by
  obtain ⟨hsafe, hone⟩ := checkStart_eq_ok_iff.mp hstart
  refine ⟨_, _, _, _, build_eq_ok_iff.mpr ⟨hb, hsafe, hone, _, rfl, rfl⟩,
    build_eq_ok_iff.mpr ⟨hb, hsafe, hone, _, rfl, rfl⟩, ?_⟩
  have hbase : b.unseeked.draft.query b.unseeked.dialect b.unseeked.table start =
      b.draft.queryWhere b.dialect b.table b.draft.ownConditions start :=
    SelectDraft.query_unseeked b.dialect b.table b.draft start
  have hempty := holdsEntries_of_reached h direction c hseek
  rw [hbase, SelectDraft.query_eq_queryWhere, Resolves, ← SelectDraft.seekSorts_eq]
  refine ⟨fun hcovers => ?_, fun hcovers => ?_⟩
  · obtain ⟨values, hvalues, htree⟩ := SelectDraft.seekCondition_of_covers hseek hempty hcovers
    have hbound : (Keyset.toTree ⟨b.draft.seekSorts c, values, direction⟩).bound b.dialect ≠ [] :=
      Keyset.bound_toTree_ne_nil (b.draft.seekSorts_ne_nil hempty) hvalues.length_eq
    rw [htree, Option.toList_some]
    exact ⟨SelectDraft.length_params_queryWhere_lt hbound _ _ _ _, values, hvalues, rfl⟩
  · rw [SelectDraft.seekCondition_of_not_covers hseek hcovers, Option.toList_none, List.append_nil]

/-- On a builder whose statement has not been built a cursor of any form is accepted. If it resolves
to no cursor the builder stays as it was, the cursor before it included; if it resolves to one the
builder is that after a call with it. Calls that set other parts may come before or after. When the
statement is built the cursor adds a condition exactly if it covers the sort order, or its own
fields where there is none; if it does not, the statement is the one without any cursor. -/
theorem seekBy_resolved (h : Reached (k := .select) d table b) :
    (∀ direction r,
      (b.built = false → ∃ events, b.act (.configure (SelectCall.seek direction r)) =
        (b.seekBy direction r, ⟨.ok none, events⟩)) ∧
      (match Cursor.ofRequest? r with
        | none => b.seekBy direction r = b
        | some c => b.seekBy direction r = b.seekBy direction (.cursor c) ∧
            (b.built = false → (b.seekBy direction r).draft.seek = some (direction, c))) ∧
      ∀ calls : List SelectCall, (∀ call ∈ calls, call.part ≠ .seek) →
        ((b.seekBy direction r).run (calls.map .configure)).1 =
          (b.run (calls.map .configure)).1.seekBy direction r) ∧
    (b.built = false → ∀ direction c, b.draft.seek = some (direction, c) → ∀ start,
      checkStart start = .ok () → ∃ q events q₀ events₀, b.build start = .ok (q, events) ∧
        b.unseeked.build start = .ok (q₀, events₀) ∧ b.Resolves direction c q q₀ start) := by
  refine ⟨fun direction r => ⟨fun hb => act_seek_of_unbuilt hb direction r, ?_,
    fun calls hcalls => run_seekBy b direction r hcalls⟩, fun hb direction c hseek start hstart =>
    build_of_seek h hb hseek hstart⟩
  split
  · next hr => exact seekBy_of_none hr b direction
  · next hr => exact ⟨seekBy_of_some hr b direction, fun hb => seek_seekBy hr hb direction⟩

/-- An empty token leaves a cursor in force, and that cursor adds a condition for the sort field
that it has a value for. -/
theorem seekBy_resolved_of_integer :
    let c : Cursor := ⟨[("id", .int 42)]⟩
    let b : Builder SelectDraft :=
      ⟨.postgres, "t", { sorts := [⟨"id", .asc⟩], seek := some (.after, c) }, false⟩
    Reached (k := .select) .postgres "t" b ∧ b.seekBy .before (.token []) = b ∧
      checkStart 1 = .ok () ∧ c.Covers b.draft.sorts ∧
      ∃ q events, b.build 1 = .ok (q, events) ∧ q.params ≠ [] := by
  intro c b
  have hreached : Reached (k := .select) .postgres "t" b :=
    ⟨⟨.postgres, "t", {}, false⟩, rfl,
      [.configure (.sort "id" .asc), .configure (.seek .after (.cursor c))], rfl⟩
  have hstart : checkStart 1 = .ok () := by decide +kernel
  have hcovers : c.Covers b.draft.sorts :=
    List.forall_mem_singleton.mpr ⟨by decide +kernel, Option.some_ne_none _⟩
  obtain ⟨hcalls, hbuild⟩ := seekBy_resolved hreached
  obtain ⟨q, events, q₀, _, hq, -, hresolves⟩ := hbuild rfl .after c rfl 1 hstart
  have hlonger := (hresolves.1 hcovers).1
  refine ⟨hreached, (hcalls .before (.token [])).2.1, hstart, hcovers, q, events, hq, ?_⟩
  exact List.ne_nil_of_length_pos (Nat.zero_lt_of_lt hlonger)

end Builder

end BoundSql
