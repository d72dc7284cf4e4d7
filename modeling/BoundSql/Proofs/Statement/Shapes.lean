import BoundSql.Proofs.Filter.Shapes
import BoundSql.Proofs.Statement.Runs

/-!
# Values stay out of sight

Two sequences of calls that differ only in values of the same shape, held
against one builder: they fail at the same places with the same messages, build
the same texts with equally many parameters and log the same entries. Drafts of
the same shape are what such calls keep.
-/
namespace BoundSql

/-- Both fail in the same way, or both succeed with related results. -/
inductive Agree {α β : Type} (R : α → β → Prop) : Except Fault α → Except Fault β → Prop
  | ok {a : α} {b : β} (h : R a b) : Agree R (.ok a) (.ok b)
  | error (f : Fault) : Agree R (.error f) (.error f)

namespace Agree

variable {α β γ δ : Type} {R : α → β → Prop} {S : γ → δ → Prop}

theorem bind {x : Except Fault α} {y : Except Fault β} {f : α → Except Fault γ}
    {g : β → Except Fault δ} (h : Agree R x y) (hf : ∀ a b, R a b → Agree S (f a) (g b)) :
    Agree S (x >>= f) (y >>= g) := by
  cases h with
  | ok hab => exact hf _ _ hab
  | error f => exact .error f

theorem map {x : Except Fault α} {y : Except Fault β} {f : α → γ} {g : β → δ}
    (h : Agree R x y) (hf : ∀ a b, R a b → S (f a) (g b)) : Agree S (x.map f) (y.map g) := by
  cases h with
  | ok hab => exact .ok (hf _ _ hab)
  | error f => exact .error f

theorem mono {R' : α → β → Prop} {x : Except Fault α} {y : Except Fault β} (h : Agree R x y)
    (hR : ∀ a b, R a b → R' a b) : Agree R' x y := by
  cases h with
  | ok hab => exact .ok (hR _ _ hab)
  | error f => exact .error f

/-- The same check in front of both. -/
theorem after {ε : Type} (x : Except Fault ε) {f : ε → Except Fault γ} {g : ε → Except Fault δ}
    (hf : ∀ a, Agree S (f a) (g a)) : Agree S (x >>= f) (x >>= g) := by
  cases x with
  | ok a => exact hf a
  | error f => exact .error f

end Agree

/-- The same text and equally many parameters. -/
structure Query.Alike (q q' : Query) : Prop where
  tokens : q.tokens = q'.tokens
  count : q.params.length = q'.params.length

/-- Related calls do the same to related drafts, as far as one can see. -/
structure Draft.Blind {δ κ : Type} [Draft δ κ] [DraftSpec δ κ] (R : δ → δ → Prop)
    (C : κ → κ → Prop) : Prop where
  kind {s s' : δ} : R s s' → Draft.kind s = Draft.kind s'
  method {c c' : κ} : C c c' → DraftSpec.method δ c = DraftSpec.method δ c'
  arguments {c c' : κ} : C c c' → DraftSpec.checkArguments δ c = DraftSpec.checkArguments δ c'
  configure {s s' : δ} {c c' : κ} : R s s' → C c c' →
    Agree (fun a b => R a.1 b.1 ∧ a.2 = b.2) (DraftSpec.configure c s) (DraftSpec.configure c' s')
  assemble {s s' : δ} (d : Dialect) (table : Text) (start : Double) : R s s' →
    Agree (fun a b => Query.Alike a.1 b.1 ∧ a.2 = b.2) (DraftSpec.assemble d table s start)
      (DraftSpec.assemble d table s' start)

/-- The same kind of call: related calls that fill in the draft, or builds from one start. -/
inductive Action.Related {κ : Type} (C : κ → κ → Prop) : Action κ → Action κ → Prop
  | configure {c c' : κ} (h : C c c') : Related C (.configure c) (.configure c')
  | build (start : Double) : Related C (.build start) (.build start)

/-- What one can see of a reply: the message of a fault or the statement's text and its number
of parameters, and the entries that a logger writes meanwhile. -/
def Reply.view (l : Logger) (r : Reply) :
    Except Text (Option (Text × ℕ)) × List LogEntry :=
  ((r.outcome.map (Option.map fun q => (q.sql, q.params.length))).mapError Fault.message,
    l.report r.events)

namespace Builder

variable {δ κ : Type} [Draft δ κ] [DraftSpec δ κ] {R : δ → δ → Prop} {C : κ → κ → Prop}

/-- Builders that differ in related drafts only. -/
structure Related (R : δ → δ → Prop) (b b' : Builder δ) : Prop where
  dialect : b.dialect = b'.dialect
  table : b.table = b'.table
  built : b.built = b'.built
  draft : R b.draft b'.draft

lemma checkUsable_congr (hblind : Draft.Blind R C) {b b' : Builder δ} (hb : Related R b b')
    (method : Text) : b.checkUsable (Draft.kind b.draft) method =
      b'.checkUsable (Draft.kind b'.draft) method := by
  simp only [checkUsable, hb.built, hb.table, hblind.kind hb.draft]

theorem agree_configure (hblind : Draft.Blind R C) {b b' : Builder δ} {c c' : κ}
    (hb : Related R b b') (hc : C c c') :
    Agree (fun x y => Related R x.1 y.1 ∧ x.2 = y.2) (b.configure c) (b'.configure c') := by
  rw [configure_eq, configure_eq, hblind.arguments hc, hblind.method hc,
    checkUsable_congr hblind hb]
  refine .after _ fun _ => .after _ fun _ => ?_
  refine (hblind.configure hb.draft hc).bind fun x y hxy => ?_
  exact .ok ⟨{ hb with draft := hxy.1 }, hxy.2⟩

theorem agree_build (hblind : Draft.Blind R C) {b b' : Builder δ} (hb : Related R b b')
    (start : Double) :
    Agree (fun x y => Query.Alike x.1 y.1 ∧ x.2 = y.2) (b.build start) (b'.build start) := by
  rw [build_eq, build_eq, checkUsable_congr hblind hb, hb.dialect, hb.table]
  refine .after _ fun _ => .after _ fun _ => ?_
  refine (hblind.assemble b'.dialect b'.table start hb.draft).bind fun x y hxy => ?_
  obtain ⟨q, events⟩ := x
  obtain ⟨q', events'⟩ := y
  obtain ⟨hq, rfl⟩ := hxy
  have htokens : q.tokens = q'.tokens := hq.tokens
  have hcount : q.params.length = q'.params.length := hq.count
  exact .ok ⟨hq, by simp only [Query.sql, htokens, hcount]⟩

/-- One call keeps builders related and shows the same. -/
theorem act_view (hblind : Draft.Blind R C) {b b' : Builder δ} {a a' : Action κ}
    (hb : Related R b b') (ha : Action.Related C a a') (l : Logger) :
    Related R (b.act a).1 (b'.act a').1 ∧ (b.act a).2.view l = (b'.act a').2.view l := by
  cases ha with
  | @configure c c' hc =>
    have hagree := agree_configure hblind hb hc
    rw [act_configure, act_configure]
    generalize b.configure c = x at hagree ⊢
    generalize b'.configure c' = y at hagree ⊢
    cases hagree with
    | ok hxy => exact ⟨hxy.1, by simp only [Reply.view, hxy.2]⟩
    | error f => exact ⟨hb, rfl⟩
  | build start =>
    have hagree := agree_build hblind hb start
    rw [act_build, act_build]
    generalize b.build start = x at hagree ⊢
    generalize b'.build start = y at hagree ⊢
    cases hagree with
    | @ok x y hxy =>
      refine ⟨{ hb with built := rfl }, ?_⟩
      simp only [Reply.view, Except.map, Option.map, Query.sql, hxy.1.tokens, hxy.1.count, hxy.2]
    | error f => exact ⟨hb, rfl⟩

theorem run_view_of_related (hblind : Draft.Blind R C) {b b' : Builder δ}
    {actions actions' : List (Action κ)} (hb : Related R b b')
    (h : List.Forall₂ (Action.Related C) actions actions') (l : Logger) :
    (b.run actions).2.map (Reply.view l) = (b'.run actions').2.map (Reply.view l) := by
  induction h generalizing b b' with
  | nil => rfl
  | cons ha _ ih =>
    obtain ⟨hnext, hview⟩ := act_view hblind hb ha l
    simp only [run, List.map_cons, hview, ih hnext]

end Builder

lemma fields_of_sameShape {e g : FilterTree} (h : e.SameShape g) :
    e.filters.map Filter.field = g.filters.map Filter.field := by
  induction e generalizing g with
  | leaf f =>
    cases h with
    | leaf hf => simp [hf.field]
  | group op es ih =>
    cases h with
    | @group _ _ gs hes =>
      simp only [FilterTree.filters_group, List.map_flatMap]
      induction hes with
      | nil => rfl
      | @cons e g es gs heg _ ih' =>
        simp only [List.flatMap_cons, ih e (by simp) heg,
          ih' fun e he => ih e (List.mem_cons_of_mem _ he)]

/-- One more filter at the end of lists of filters. -/
lemma sameShape_filters {fs gs : List Filter} (h : List.Forall₂ Filter.SameShape fs gs)
    (field : Text) (op : Operator) {v w : Value} (hvw : v.SameShape w) :
    List.Forall₂ Filter.SameShape (fs ++ [⟨field, op, v⟩]) (gs ++ [⟨field, op, w⟩]) :=
  List.rel_append h (.cons ⟨rfl, rfl, hvw⟩ .nil)

lemma sameShape_conditions {t u : Option FilterTree} {fs gs : List Filter}
    (ht : Option.Rel FilterTree.SameShape t u) (hf : List.Forall₂ Filter.SameShape fs gs) :
    List.Forall₂ FilterTree.SameShape (t.toList ++ fs.map .leaf) (u.toList ++ gs.map .leaf) := by
  refine List.rel_append ?_ (List.rel_map (fun f g hfg => .leaf hfg) hf)
  cases ht with
  | none => exact .nil
  | some h => exact .cons h .nil

namespace DeleteDraft

structure SameShape (s s' : DeleteDraft) : Prop where
  filters : List.Forall₂ Filter.SameShape s.filters s'.filters
  tree : Option.Rel FilterTree.SameShape s.tree s'.tree
  returning : s.returning = s'.returning

end DeleteDraft

/-- Equal but for the values. -/
inductive DeleteCall.SameShape : DeleteCall → DeleteCall → Prop
  | filter (field : Text) (op : Operator) {v w : Value} (h : v.SameShape w) :
    SameShape (.filter field op v) (.filter field op w)
  | tree {t u : FilterTree} (h : t.SameShape u) : SameShape (.tree t) (.tree u)
  | returning (names : List Text) : SameShape (.returning names) (.returning names)

namespace DeleteDraft

lemma agree_fill {s s' : DeleteDraft} {c c' : DeleteCall} (hs : s.SameShape s')
    (hc : c.SameShape c') : Agree SameShape (s.fill c) (s'.fill c') := by
  cases hc with
  | filter field op h =>
    exact .after _ fun _ => .ok { hs with filters := sameShape_filters hs.filters field op h }
  | tree h =>
    rw [fill, fill, fields_of_sameShape h]
    exact .after _ fun _ => .ok { hs with tree := .some h }
  | returning names => exact .after _ fun _ => .ok { hs with returning := rfl }

theorem blind : Draft.Blind SameShape DeleteCall.SameShape where
  kind _ := rfl
  method h := by cases h <;> rfl
  arguments _ := rfl
  configure hs hc := (agree_fill hs hc).map fun _ _ h => ⟨h, rfl⟩
  assemble {s s'} d table start hs := by
    have hwhere := Condition.alike_whereClause d (sameShape_conditions hs.tree hs.filters) start
    refine .ok ⟨⟨?_, hwhere.count⟩, rfl⟩
    simp only [query, conditions, hwhere.tokens, hs.returning]

end DeleteDraft

namespace InsertDraft

structure SameShape (s s' : InsertDraft) : Prop where
  columns : s.columns = s'.columns
  rows : List.Forall₂ (List.Forall₂ Value.SameShape) s.rows s'.rows
  returning : s.returning = s'.returning

end InsertDraft

/-- Equal but for the values. -/
inductive InsertCall.SameShape : InsertCall → InsertCall → Prop
  | columns (names : List Text) : SameShape (.columns names) (.columns names)
  | values {row row' : List Value} (h : List.Forall₂ Value.SameShape row row') :
    SameShape (.values row) (.values row')
  | valuesMany {rows rows' : List (List Value)}
    (h : List.Forall₂ (List.Forall₂ Value.SameShape) rows rows') :
    SameShape (.valuesMany rows) (.valuesMany rows')
  | returning (names : List Text) : SameShape (.returning names) (.returning names)

namespace InsertDraft

lemma agree_fill {s s' : InsertDraft} {c c' : InsertCall} (hs : s.SameShape s')
    (hc : c.SameShape c') : Agree SameShape (s.fill c) (s'.fill c') := by
  cases hc with
  | columns names => exact .after _ fun _ => .ok { hs with columns := rfl }
  | values h => exact .ok { hs with rows := List.rel_append hs.rows (.cons h .nil) }
  | valuesMany h => exact .ok { hs with rows := List.rel_append hs.rows h }
  | returning names => exact .after _ fun _ => .ok { hs with returning := rfl }

lemma checkWidths_congr {rows rows' : List (List Value)}
    (h : List.Forall₂ (List.Forall₂ Value.SameShape) rows rows') (width i : ℕ) :
    checkWidths width i rows = checkWidths width i rows' := by
  induction h generalizing i with
  | nil => rfl
  | cons hrow _ ih => simp only [checkWidths, hrow.length_eq, ih]

lemma alike_group (d : Dialect) {row row' : List Value}
    (h : List.Forall₂ Value.SameShape row row') (index : Double) :
    (group d row index).Alike (group d row' index) := by
  have hcells : (Series.ofList (cell d) row index).Alike (Series.ofList (cell d) row' index) :=
    Series.alike_ofList h (fun _ _ _ _ _ => ⟨rfl, rfl, rfl⟩) index
  exact ⟨by simp only [group, hcells.parts], hcells.count, hcells.next⟩

lemma agree_assemble {s s' : InsertDraft} (hs : s.SameShape s') (d : Dialect) (table : Text)
    (start : Double) :
    Agree Query.Alike (s.assemble d table start) (s'.assemble d table start) := by
  have hempty : s.rows.isEmpty = s'.rows.isEmpty := by
    have hrows := hs.rows
    revert hrows
    cases s.rows <;> cases s'.rows <;> intro hrows <;> first | rfl | cases hrows
  have hgroups := Series.alike_ofList hs.rows (fun _ _ _ hrow i => alike_group d hrow i) start
  rw [assemble, assemble, hs.columns, hempty, checkWidths_congr hs.rows]
  split_ifs
  · exact .error _
  · refine .after _ fun _ => .ok ⟨?_, hgroups.count⟩
    simp only [query, queryOf, hs.columns, hgroups.parts, hs.returning]

theorem blind : Draft.Blind SameShape InsertCall.SameShape where
  kind _ := rfl
  method h := by cases h <;> rfl
  arguments _ := rfl
  configure hs hc := (agree_fill hs hc).map fun _ _ h => ⟨h, rfl⟩
  assemble d table start hs := (agree_assemble hs d table start).map fun _ _ h => ⟨h, rfl⟩

end InsertDraft

namespace UpdateDraft

structure SameShape (s s' : UpdateDraft) : Prop where
  assignments : List.Forall₂ SamePair s.assignments s'.assignments
  filters : List.Forall₂ Filter.SameShape s.filters s'.filters
  tree : Option.Rel FilterTree.SameShape s.tree s'.tree
  returning : s.returning = s'.returning

end UpdateDraft

/-- Equal but for the values. -/
inductive UpdateCall.SameShape : UpdateCall → UpdateCall → Prop
  | set (column : Text) {v w : Value} (h : v.SameShape w) :
    SameShape (.set column v) (.set column w)
  | setMany {ps qs : List (Text × Value)} (h : List.Forall₂ SamePair ps qs) :
    SameShape (.setMany ps) (.setMany qs)
  | filter (field : Text) (op : Operator) {v w : Value} (h : v.SameShape w) :
    SameShape (.filter field op v) (.filter field op w)
  | tree {t u : FilterTree} (h : t.SameShape u) : SameShape (.tree t) (.tree u)
  | returning (names : List Text) : SameShape (.returning names) (.returning names)

namespace UpdateDraft

lemma names_of_samePair {ps qs : List (Text × Value)} (h : List.Forall₂ SamePair ps qs) :
    ps.map (·.1) = qs.map (·.1) := by
  induction h with
  | nil => rfl
  | cons hpq _ ih => simp only [List.map_cons, hpq.1, ih]

lemma agree_fill {s s' : UpdateDraft} {c c' : UpdateCall} (hs : s.SameShape s')
    (hc : c.SameShape c') : Agree SameShape (s.fill c) (s'.fill c') := by
  cases hc with
  | set column h =>
    exact .after _ fun _ =>
      .ok { hs with assignments := List.rel_append hs.assignments (.cons ⟨rfl, h⟩ .nil) }
  | setMany h =>
    rw [fill, fill, names_of_samePair h]
    exact .after _ fun _ => .ok { hs with assignments := List.rel_append hs.assignments h }
  | filter field op h =>
    exact .after _ fun _ => .ok { hs with filters := sameShape_filters hs.filters field op h }
  | tree h =>
    rw [fill, fill, fields_of_sameShape h]
    exact .after _ fun _ => .ok { hs with tree := .some h }
  | returning names => exact .after _ fun _ => .ok { hs with returning := rfl }

lemma agree_assemble {s s' : UpdateDraft} (hs : s.SameShape s') (d : Dialect) (table : Text)
    (start : Double) :
    Agree Query.Alike (s.assemble d table start) (s'.assemble d table start) := by
  have hempty : s.assignments.isEmpty = s'.assignments.isEmpty := by
    have hnames := congrArg List.isEmpty (names_of_samePair hs.assignments)
    simpa using hnames
  have hpair : ∀ p ∈ s.assignments, ∀ q, SamePair p q → ∀ i,
      (assignment d p i).Alike (assignment d q i) := fun p _ q hpq i =>
    ⟨by simp only [assignment, hpq.1], rfl, rfl⟩
  have hset := Series.alike_ofList hs.assignments hpair start
  have hwhere := Condition.alike_whereClause d (sameShape_conditions hs.tree hs.filters)
    (Series.ofList (assignment d) s'.assignments start).next
  rw [assemble, assemble, hempty]
  split_ifs
  · exact .error _
  · refine .ok ⟨?_, ?_⟩
    · simp only [query, conditions, hset.parts, hset.next, hwhere.tokens, hs.returning]
    · simp only [query, conditions, hset.next, List.length_append, hset.count, hwhere.count]

theorem blind : Draft.Blind SameShape UpdateCall.SameShape where
  kind _ := rfl
  method h := by cases h <;> rfl
  arguments _ := rfl
  configure hs hc := (agree_fill hs hc).map fun _ _ h => ⟨h, rfl⟩
  assemble d table start hs := (agree_assemble hs d table start).map fun _ _ h => ⟨h, rfl⟩

end UpdateDraft

namespace SelectDraft

structure SameShape (s s' : SelectDraft) : Prop where
  fields : s.fields = s'.fields
  computed : s.computed = s'.computed
  aggregates : s.aggregates = s'.aggregates
  filters : List.Forall₂ Filter.SameShape s.filters s'.filters
  tree : Option.Rel FilterTree.SameShape s.tree s'.tree
  groupBy : s.groupBy = s'.groupBy
  having : Option.Rel FilterTree.SameShape s.having s'.having
  sorts : s.sorts = s'.sorts
  limit : s.limit = s'.limit
  offset : s.offset = s'.offset
  seek : Option.Rel (fun p q => p.1 = q.1 ∧ p.2.SameShape q.2) s.seek s'.seek

end SelectDraft

/-- Equal, or equal but for the values. -/
inductive SelectCall.SameShape : SelectCall → SelectCall → Prop
  | refl (c : SelectCall) : SameShape c c
  | filter (field : Text) (op : Operator) {v w : Value} (h : v.SameShape w) :
    SameShape (.filter field op v) (.filter field op w)
  | tree {t u : FilterTree} (h : t.SameShape u) : SameShape (.tree t) (.tree u)
  | having {t u : FilterTree} (h : t.SameShape u) : SameShape (.having t) (.having u)
  | seek (direction : SeekDirection) {r r' : RequestedCursor} (h : r.SameShape r') :
    SameShape (.seek direction r) (.seek direction r')

namespace SelectDraft

/-- An empty cursor changes nothing, any other takes the place of the one before. -/
lemma sameShape_setCursor {s s' : SelectDraft} (hs : s.SameShape s')
    (direction : SeekDirection) {c c' : Cursor} (hc : c.SameShape c') :
    SameShape (s.setSeek direction (.cursor c)).1 (s'.setSeek direction (.cursor c')).1 ∧
      (s.setSeek direction (.cursor c)).2 = (s'.setSeek direction (.cursor c')).2 := by
  have hempty : c.isEmpty = c'.isEmpty := by
    obtain ⟨entries⟩ := c
    obtain ⟨entries'⟩ := c'
    cases hc <;> rfl
  simp only [setSeek, hempty]
  split_ifs
  · exact ⟨hs, rfl⟩
  · exact ⟨{ hs with seek := .some ⟨rfl, hc⟩ }, rfl⟩

lemma setSeek_of_decode (s : SelectDraft) (direction : SeekDirection) {t : Text} {c : Cursor}
    (h : Cursor.decode t = .ok c) :
    s.setSeek direction (.token t) = s.setSeek direction (.cursor c) := by
  simp only [setSeek, h]

lemma sameShape_setSeek {s s' : SelectDraft} (hs : s.SameShape s') (direction : SeekDirection)
    {r r' : RequestedCursor} (hr : r.SameShape r') :
    SameShape (s.setSeek direction r).1 (s'.setSeek direction r').1 ∧
      (s.setSeek direction r).2 = (s'.setSeek direction r').2 := by
  have hsame : ∀ c : Cursor, c.SameShape c := fun c => by
    rw [Cursor.SameShape, List.forall₂_same]
    exact fun p _ => .refl p
  cases hr with
  | refl r =>
    cases r with
    | missing => exact ⟨hs, rfl⟩
    | cursor c => exact sameShape_setCursor hs direction (hsame c)
    | token t =>
      cases ht : Cursor.decode t with
      | ok c =>
        rw [setSeek_of_decode s direction ht, setSeek_of_decode s' direction ht]
        exact sameShape_setCursor hs direction (hsame c)
      | error e =>
        simp only [setSeek, ht]
        exact ⟨hs, trivial⟩
  | cursor hc => exact sameShape_setCursor hs direction hc
  | token ht ht' hc =>
    rw [setSeek_of_decode s direction ht, setSeek_of_decode s' direction ht']
    exact sameShape_setCursor hs direction hc

lemma agree_fill {s s' : SelectDraft} {c c' : SelectCall} (hs : s.SameShape s')
    (hc : c.SameShape c') : Agree SameShape (s.fill c) (s'.fill c') := by
  have hfilter : ∀ (field : Text) (op : Operator) {v w : Value}, v.SameShape w →
      Agree SameShape (s.fill (.filter field op v)) (s'.fill (.filter field op w)) :=
    fun field op v w h => .after _ fun _ =>
      .ok { hs with filters := sameShape_filters hs.filters field op h }
  have htree : ∀ {t u : FilterTree}, t.SameShape u →
      Agree SameShape (s.fill (.tree t)) (s'.fill (.tree u)) := fun h => by
    rw [fill, fill, checkFields, checkFields, fields_of_sameShape h]
    exact .after _ fun _ => .ok { hs with tree := .some h }
  have hhaving : ∀ {t u : FilterTree}, t.SameShape u →
      Agree SameShape (s.fill (.having t)) (s'.fill (.having u)) := fun h => by
    rw [fill, fill, checkFields, checkFields, fields_of_sameShape h]
    exact .after _ fun _ => .ok { hs with having := .some h }
  cases hc with
  | filter field op h => exact hfilter field op h
  | tree h => exact htree h
  | having h => exact hhaving h
  | seek direction h => exact .ok (sameShape_setSeek hs direction h).1
  | refl c =>
    cases c with
    | fields names => exact .after _ fun _ => .ok { hs with fields := rfl }
    | computed label expression =>
      exact .after _ fun c => .ok { hs with computed := congrArg (· ++ [c]) hs.computed }
    | aggregate a =>
      exact .after _ fun _ => .ok { hs with aggregates := congrArg (· ++ [a]) hs.aggregates }
    | aggregateOf func field =>
      exact .after _ fun a => .ok { hs with aggregates := congrArg (· ++ [a]) hs.aggregates }
    | filter field op v => exact hfilter field op (.refl v)
    | tree t => exact htree (.refl t)
    | groupBy names => exact .after _ fun _ => .ok { hs with groupBy := rfl }
    | having t => exact hhaving (.refl t)
    | sort field dir =>
      exact .after _ fun _ => .ok { hs with sorts := congrArg (· ++ [⟨field, dir⟩]) hs.sorts }
    | sorts fields =>
      exact .after _ fun _ => .ok { hs with sorts := congrArg (· ++ fields) hs.sorts }
    | page page limit =>
      exact .after _ fun _ => .after _ fun _ => .ok { hs with limit := rfl, offset := rfl }
    | limitOffset limit offset =>
      exact .after _ fun _ => .after _ fun _ => .ok { hs with limit := rfl, offset := rfl }
    | limit limit => exact .after _ fun _ => .ok { hs with limit := rfl }
    | seek direction r => exact .ok (sameShape_setSeek hs direction (.refl r)).1

lemma reports_congr {s s' : SelectDraft} {c c' : SelectCall} (hs : s.SameShape s')
    (hc : c.SameShape c') : s.reports c = s'.reports c' := by
  cases hc with
  | seek direction h => exact (sameShape_setSeek hs direction h).2
  | refl c =>
    cases c with
    | seek direction r => exact (sameShape_setSeek hs direction (.refl r)).2
    | _ => rfl
  | _ => rfl

lemma names_of_cursor {c c' : Cursor} (h : c.SameShape c') :
    (c.entries.map fun e => SortKey.mk e.1 .asc) = c'.entries.map fun e => ⟨e.1, .asc⟩ := by
  obtain ⟨entries⟩ := c
  obtain ⟨entries'⟩ := c'
  simp only [Cursor.SameShape] at h
  induction h with
  | nil => rfl
  | cons hpq _ ih =>
    simp only at ih
    simp only [List.map_cons, hpq.1, ih]

lemma sameShape_seekCondition {s s' : SelectDraft} (hs : s.SameShape s') :
    Option.Rel FilterTree.SameShape s.seekCondition.1 s'.seekCondition.1 ∧
      s.seekCondition.2 = s'.seekCondition.2 := by
  have hseek := hs.seek
  have hsorts := hs.sorts
  obtain ⟨seek, hseek'⟩ : ∃ o, s.seek = o := ⟨_, rfl⟩
  obtain ⟨seek', hseek''⟩ : ∃ o, s'.seek = o := ⟨_, rfl⟩
  rw [hseek', hseek''] at hseek
  simp only [seekCondition, hseek', hseek'']
  cases hseek with
  | none => exact ⟨.none, rfl⟩
  | @some p q hpq =>
    obtain ⟨direction, c⟩ := p
    obtain ⟨direction', c'⟩ := q
    obtain ⟨rfl, hc⟩ := hpq
    simp only at hc
    have hkeys : s.seekSorts c = s'.seekSorts c' := by
      simp only [seekSorts, hsorts, names_of_cursor hc]
    have hcondition := Keyset.sameShape_ofCursor hc (s'.seekSorts c') direction
    simp only [hkeys]
    split_ifs
    · cases hk : Keyset.ofCursor? (s'.seekSorts c') c direction <;>
        cases hk' : Keyset.ofCursor? (s'.seekSorts c') c' direction <;>
        rw [hk, hk'] at hcondition
      · exact ⟨.none, rfl⟩
      · cases hcondition
      · cases hcondition
      · exact ⟨hcondition, rfl⟩
    · exact ⟨.none, rfl⟩

lemma alike_query {s s' : SelectDraft} (hs : s.SameShape s') (d : Dialect) (table : Text)
    (start : Double) : (s.query d table start).Alike (s'.query d table start) := by
  have hconditions : List.Forall₂ FilterTree.SameShape s.conditions s'.conditions := by
    refine List.rel_append (sameShape_conditions hs.tree hs.filters) ?_
    have hseek := (sameShape_seekCondition hs).1
    generalize s.seekCondition.1 = t at hseek
    generalize s'.seekCondition.1 = u at hseek
    cases hseek with
    | none => exact .nil
    | some h => exact .cons h .nil
  have hwhere := Condition.alike_whereClause d hconditions start
  have hhaving := Condition.alike_havingClause d hs.having
    (Condition.whereClause d s'.conditions start).next
  have hlist : s.selectList = s'.selectList := by
    simp only [selectList, hs.fields, hs.computed, hs.aggregates]
  have hrows : s.rowClauses = s'.rowClauses := by simp only [rowClauses, hs.limit, hs.offset]
  refine ⟨?_, ?_⟩
  · simp only [query, queryWhere, hlist, hwhere.tokens, hwhere.next, hhaving.tokens, hs.groupBy,
      hs.sorts, hrows]
  · simp only [query, queryWhere, List.length_append, hwhere.count, hwhere.next, hhaving.count]

theorem blind : Draft.Blind SameShape SelectCall.SameShape where
  kind _ := rfl
  method h := by
    cases h with
    | seek direction _ => cases direction <;> rfl
    | _ => rfl
  arguments h := by cases h <;> rfl
  configure hs hc := by
    refine (agree_fill hs hc).map fun _ _ h => ⟨h, ?_⟩
    exact reports_congr hs hc
  assemble d table start hs :=
    .ok ⟨alike_query hs d table start, (sameShape_seekCondition hs).2⟩

end SelectDraft

namespace StatementKind

/-- Calls that are equal but for values of the same shape, by the kind of statement. -/
def SameCall : (k : StatementKind) → k.CallOf → k.CallOf → Prop
  | .select => SelectCall.SameShape
  | .insert => InsertCall.SameShape
  | .update => UpdateCall.SameShape
  | .delete => DeleteCall.SameShape

def SameDraft : (k : StatementKind) → k.DraftOf → k.DraftOf → Prop
  | .select => SelectDraft.SameShape
  | .insert => InsertDraft.SameShape
  | .update => UpdateDraft.SameShape
  | .delete => DeleteDraft.SameShape

theorem blind (k : StatementKind) : Draft.Blind k.SameDraft k.SameCall := by
  cases k with
  | select => exact SelectDraft.blind
  | insert => exact InsertDraft.blind
  | update => exact UpdateDraft.blind
  | delete => exact DeleteDraft.blind

lemma sameDraft_refl (k : StatementKind) (s : k.DraftOf) : k.SameDraft s s := by
  have htree : ∀ t : Option FilterTree, Option.Rel FilterTree.SameShape t t := fun t => by
    cases t with
    | none => exact .none
    | some e => exact .some (.refl e)
  have hfilters : ∀ fs : List Filter, List.Forall₂ Filter.SameShape fs fs := fun fs =>
    List.forall₂_same.mpr fun f _ => .refl f
  have hpairs : ∀ ps : List (Text × Value), List.Forall₂ SamePair ps ps := fun ps =>
    List.forall₂_same.mpr fun p _ => .refl p
  cases k with
  | select =>
    refine ⟨rfl, rfl, rfl, hfilters _, htree _, rfl, htree _, rfl, rfl, rfl, ?_⟩
    cases SelectDraft.seek s with
    | none => exact .none
    | some p => exact .some ⟨rfl, hpairs _⟩
  | insert =>
    refine ⟨rfl, List.forall₂_same.mpr fun row _ => ?_, rfl⟩
    exact List.forall₂_same.mpr fun v _ => .refl v
  | update => exact ⟨hpairs _, hfilters _, htree _, rfl⟩
  | delete => exact ⟨hfilters _, htree _, rfl⟩

end StatementKind

namespace Builder

/-- Calls that differ only in values of the same shape cannot be told apart: each fails with
the same message or succeeds, each build has the same text and equally many parameters, and
the logger of the builder writes the same entries. -/
theorem run_view {k : StatementKind} (b : Builder k.DraftOf)
    {actions actions' : List (Action k.CallOf)}
    (h : List.Forall₂ (Action.Related k.SameCall) actions actions') (l : Logger) :
    (b.run actions).2.map (Reply.view (l.forStatement k b.table)) =
      (b.run actions').2.map (Reply.view (l.forStatement k b.table)) :=
  run_view_of_related k.blind ⟨rfl, rfl, rfl, k.sameDraft_refl b.draft⟩ h _

/-- A password and a number in its place. -/
theorem run_view_of_password :
    let b : Builder (StatementKind.DraftOf .update) := ⟨.postgres, "users", {}, false⟩
    let l : Logger := ⟨some .trace, []⟩
    (b.run [.configure (.set "password" (.string "secret")), .build 1]).2.map
        (Reply.view (l.forStatement .update "users")) =
      (b.run [.configure (.set "password" (.int 0)), .build 1]).2.map
        (Reply.view (l.forStatement .update "users")) :=
  run_view (k := .update) ⟨.postgres, "users", {}, false⟩
    (.cons (.configure (.set "password" (.scalar rfl rfl rfl rfl))) (.cons (.build 1) .nil))
    ⟨some .trace, []⟩

end Builder
end BoundSql
