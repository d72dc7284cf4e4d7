import BoundSql.Proofs.Filter.Layouts
import BoundSql.Proofs.Sql.Numerals
import BoundSql.Proofs.Statement.Safety

/-!
# Placeholders and parameters of statements

Each kind of statement with its values in place. Its parameters are these values
in this order, and its text has them numbered through from the start: the number
that one clause hands on is the one at which the next clause begins.
-/
namespace BoundSql
open Sql

/-- A statement that binds the values of a layout and has its text. -/
structure LaysQuery (d : Dialect) (query : Double → Query) (l : Layout) : Prop where
  params (x : Double) : (query x).params = l.values
  numbered {x : Double} {n : ℕ} : IsCount x n → Numbered d n l (query x).tokens

theorem LaysQuery.tokens {d : Dialect} {query : Double → Query} {l : Layout}
    (h : LaysQuery d query l) {x : Double} {n : ℕ} (hx : IsNumber x n)
    (hn : n + l.values.length ≤ Double.safeBound + 1) : (query x).tokens = l.number d n :=
  tokens_of_numbered h.numbered hx hn

lemma hidesNothing_conditions {t : Option FilterTree} {fs : List Filter}
    (h : ∀ e ∈ t.toList, e.hidesNothing = true) :
    ∀ e ∈ t.toList ++ fs.map .leaf, e.hidesNothing = true := by
  intro e he
  rcases List.mem_append.mp he with he | he
  · exact h e he
  · obtain ⟨f, -, rfl⟩ := List.mem_map.mp he
    exact FilterTree.hidesNothing_leaf f

/-- The condition of a keyset has no negation. -/
theorem Keyset.hidesNothing_toTree (k : Keyset) : k.toTree.hidesNothing = true := by
  have hjoins : KeptByJoins fun e => e.hidesNothing = true := fun op hop es hes =>
    FilterTree.hidesNothing_group.mpr ⟨fun h => absurd h hop, hes⟩
  exact k.toTree_induction hjoins fun s _ op v => FilterTree.hidesNothing_leaf _

namespace DeleteDraft

def layout (d : Dialect) (table : Text) (s : DeleteDraft) : Layout :=
  Layout.fixed [.word .deleteFrom, space, .name table] ++
    (FilterTree.whereLayout d s.conditions ++
      Layout.fixed (clauseUnlessEmpty .returning (s.returning.map fun n => [.name n])))

theorem lays_query {d : Dialect} {table : Text} {s : DeleteDraft}
    (h : ∀ e ∈ s.tree.toList, e.hidesNothing = true) :
    LaysQuery d (s.query d table) (s.layout d table) := by
  have hwhere : Lays d (Condition.whereClause d s.conditions)
      (FilterTree.whereLayout d s.conditions) :=
    Condition.lays_whereClause (hidesNothing_conditions h)
  have hvalues : (s.layout d table).values = (FilterTree.whereLayout d s.conditions).values := by
    simp [layout]
  refine ⟨fun x => ?_, fun {x n} hx => ?_⟩
  · rw [hvalues]
    exact hwhere.params x
  · exact .fixed_append _ ((hwhere.numbered hx).append_fixed _)

theorem vetted_layout {d : Dialect} {table : Text} {s : DeleteDraft} {xs : List Text}
    (hs : s.Vetted) (ht : Identifier.isValid table = true) : (s.layout d table).Vetted xs := by
  simp [layout, ht, FilterTree.vetted_whereLayout (named_conditions hs),
    allVetted_nameClause hs.returning]

end DeleteDraft

namespace UpdateDraft

/-- A column and its new value. -/
def assignmentLayout (pair : Text × Value) : Layout :=
  Layout.fixed [.name pair.1, space, .symbol .eq, space] ++ [.value pair.2]

def layout (d : Dialect) (table : Text) (s : UpdateDraft) : Layout :=
  Layout.fixed ([.word .update, space, .name table] ++ [space, .word .assign, space]) ++
    (Layout.commaList (s.assignments.map assignmentLayout) ++
      (FilterTree.whereLayout d s.conditions ++
        Layout.fixed (clauseUnlessEmpty .returning (s.returning.map fun n => [.name n]))))

lemma lays_assignment (d : Dialect) (p : Text × Value) :
    Lays d (assignment d p) (assignmentLayout p) :=
  ⟨fun _ => rfl, fun hx => .fixed_append _ (.value p.2 hx (.nil _)), fun hx => hx.add 1⟩

theorem lays_query {d : Dialect} {table : Text} {s : UpdateDraft}
    (h : ∀ e ∈ s.tree.toList, e.hidesNothing = true) :
    LaysQuery d (s.query d table) (s.layout d table) := by
  have hset := laysAll_ofList fun p (_ : p ∈ s.assignments) => lays_assignment d p
  have hwhere : Lays d (Condition.whereClause d s.conditions)
      (FilterTree.whereLayout d s.conditions) :=
    Condition.lays_whereClause (hidesNothing_conditions h)
  have hvalues : (s.layout d table).values =
      (s.assignments.map assignmentLayout).flatMap Layout.values ++
        (FilterTree.whereLayout d s.conditions).values := by
    simp [layout]
  refine ⟨fun x => ?_, fun {x n} hx => ?_⟩
  · rw [hvalues, query, hset.params]
    exact congrArg _ (hwhere.params _)
  · have hend := (hwhere.numbered (hset.counts hx)).append_fixed
      (clauseUnlessEmpty .returning (s.returning.map fun n => [.name n]))
    rw [← Layout.values_commaList] at hend
    have hclauses := (Numbered.commaList (hset.numbered hx)).append hend
    simpa [query, layout, clause] using hclauses.fixed_append
      ([.word .update, space, .name table] ++ [space, .word .assign, space])

theorem vetted_layout {d : Dialect} {table : Text} {s : UpdateDraft} {xs : List Text}
    (hs : s.Vetted) (ht : Identifier.isValid table = true) : (s.layout d table).Vetted xs := by
  have hset : (Layout.commaList (s.assignments.map assignmentLayout)).Vetted xs := by
    refine Layout.vetted_commaList fun l hl => ?_
    obtain ⟨p, hp, rfl⟩ := List.mem_map.mp hl
    simp [assignmentLayout, hs.assignments p hp]
  simp [layout, ht, hset, FilterTree.vetted_whereLayout (named_conditions hs),
    allVetted_nameClause hs.returning]

end UpdateDraft

namespace InsertDraft

/-- A row with its values between parentheses. -/
def rowLayout (row : List Value) : Layout :=
  Layout.paren (Layout.commaList (row.map fun v => [.value v]))

def layout (table : Text) (s : InsertDraft) : Layout :=
  Layout.fixed ([.word .insertInto, space, .name table, space] ++ paren (names s.columns) ++
    [space, .word .values, space]) ++
    (Layout.commaList (s.rows.map rowLayout) ++
      Layout.fixed (clauseUnlessEmpty .returning (s.returning.map fun n => [.name n])))

lemma lays_group (d : Dialect) (row : List Value) : Lays d (group d row) (rowLayout row) := by
  have hcell : ∀ v ∈ row, Lays d (cell d v) [.value v] := fun v _ =>
    ⟨fun _ => rfl, fun hx => .value v hx (.nil _), fun hx => hx.add 1⟩
  have hcells := laysAll_ofList hcell
  have hvalues : (rowLayout row).values =
      (row.map fun v => [Slot.value v]).flatMap Layout.values := by simp [rowLayout]
  refine ⟨fun x => ?_, fun {x n} hx => ?_, fun {x n} hx => ?_⟩
  · rw [hvalues]
    exact hcells.params x
  · exact (Numbered.commaList (hcells.numbered hx)).paren
  · rw [hvalues]
    exact hcells.counts hx

theorem lays_query (d : Dialect) (table : Text) (s : InsertDraft) :
    LaysQuery d (s.query d table) (s.layout table) := by
  have hrows := laysAll_ofList fun row (_ : row ∈ s.rows) => lays_group d row
  have hvalues : (s.layout table).values = (s.rows.map rowLayout).flatMap Layout.values := by
    simp [layout]
  refine ⟨fun x => ?_, fun {x n} hx => ?_⟩
  · rw [hvalues]
    exact hrows.params x
  · have hlist := (Numbered.commaList (hrows.numbered hx)).append_fixed
      (clauseUnlessEmpty .returning (s.returning.map fun n => [.name n]))
    simpa [query, queryOf, layout, clause] using hlist.fixed_append ([.word .insertInto, space,
      .name table, space] ++ paren (names s.columns) ++ [space, .word .values, space])

lemma vetted_rowLayout {xs : List Text} (row : List Value) : (rowLayout row).Vetted xs := by
  rw [rowLayout, Layout.vetted_paren]
  refine Layout.vetted_commaList fun l hl => ?_
  obtain ⟨v, -, rfl⟩ := List.mem_map.mp hl
  simp

theorem vetted_layout {table : Text} {s : InsertDraft} {xs : List Text}
    (hs : s.Vetted) (ht : Identifier.isValid table = true) : (s.layout table).Vetted xs := by
  have hrows : (Layout.commaList (s.rows.map rowLayout)).Vetted xs :=
    Layout.vetted_commaList (List.forall_mem_map.mpr fun row _ => vetted_rowLayout row)
  have hcolumns : ∀ d, AllVetted d xs Double.AtLeastOne (names s.columns) := fun d =>
    allVetted_commaList (allVetted_nameParts hs.columns)
  simp [layout, ht, hrows, hcolumns, allVetted_nameClause hs.returning]

end InsertDraft

namespace SelectDraft

def layout (d : Dialect) (table : Text) (s : SelectDraft) : Layout :=
  Layout.fixed (.word .select :: space :: (s.selectList ++ clause .source [.name table])) ++
    (FilterTree.whereLayout d s.conditions ++
      (Layout.fixed (clauseUnlessEmpty .groupBy (s.groupBy.map fun n => [.name n])) ++
        (FilterTree.havingLayout d s.having ++
          Layout.fixed (clauseUnlessEmpty .orderBy (s.sorts.map sortTokens) ++ s.rowClauses))))

/-- The trees that calls put into a draft. -/
def trees (s : SelectDraft) : List FilterTree := s.tree.toList ++ s.having.toList

lemma hidesNothing_seekCondition (s : SelectDraft) :
    ∀ e ∈ s.seekCondition.1, e.hidesNothing = true := by
  unfold seekCondition
  split
  · simp
  · rename_i direction cursor _
    simp only
    split_ifs
    · cases Keyset.ofCursor? (s.seekSorts cursor) cursor direction with
      | none => simp
      | some k =>
        intro e he
        obtain rfl : k.toTree = e := by simpa using he
        exact k.hidesNothing_toTree
    · simp

theorem lays_query {d : Dialect} {table : Text} {s : SelectDraft}
    (h : ∀ e ∈ s.trees, e.hidesNothing = true) :
    LaysQuery d (s.query d table) (s.layout d table) := by
  have hconditions : ∀ e ∈ s.conditions, e.hidesNothing = true := by
    intro e he
    rcases List.mem_append.mp he with he | he
    · exact hidesNothing_conditions (fun e he => h e (List.mem_append_left _ he)) e he
    · exact hidesNothing_seekCondition s e (Option.mem_toList.mp he)
  have hwhere := Condition.lays_whereClause (d := d) hconditions
  have hhaving := Condition.lays_havingClause (d := d) (t := s.having) fun e he =>
    h e (List.mem_append_right _ (Option.mem_toList.mpr he))
  have hvalues : (s.layout d table).values = (FilterTree.whereLayout d s.conditions).values ++
      (FilterTree.havingLayout d s.having).values := by
    simp [layout]
  refine ⟨fun x => ?_, fun {x n} hx => ?_⟩
  · rw [hvalues, query, queryWhere, hwhere.params, hhaving.params]
  · have hend := (hhaving.numbered (hwhere.counts hx)).append_fixed
      (clauseUnlessEmpty .orderBy (s.sorts.map sortTokens) ++ s.rowClauses)
    have hclauses := (hwhere.numbered hx).append
      (hend.fixed_append (clauseUnlessEmpty .groupBy (s.groupBy.map fun n => [.name n])))
    simpa [query, queryWhere, layout] using hclauses.fixed_append
      (.word .select :: space :: (s.selectList ++ clause .source [.name table]))

theorem vetted_layout {d : Dialect} {table : Text} {s : SelectDraft}
    (hs : s.Vetted) (ht : Identifier.isValid table = true) :
    (s.layout d table).Vetted s.expressions := by
  have hlist : ∀ d', AllVetted d' s.expressions Double.AtLeastOne s.selectList := fun _ =>
    vetted_selectList hs
  have hrows : ∀ d', AllVetted d' s.expressions Double.AtLeastOne s.rowClauses := fun d' =>
    (rowClauses_spec d' s.expressions s).2.2
  simp [layout, ht, hlist, hrows, FilterTree.vetted_whereLayout (named_conditions hs),
    FilterTree.vetted_havingLayout hs.having, allVetted_nameClause hs.groupBy,
    allVetted_clauseUnlessEmpty (vetted_sortParts hs)]

end SelectDraft

namespace StatementKind

/-- The trees in a draft. -/
def trees : (k : StatementKind) → k.DraftOf → List FilterTree
  | .select => SelectDraft.trees
  | .insert => fun _ => []
  | .update => fun s => (UpdateDraft.tree s).toList
  | .delete => fun s => (DeleteDraft.tree s).toList

/-- The statement of a draft with its values in place. -/
def layout (d : Dialect) (table : Text) : (k : StatementKind) → k.DraftOf → Layout
  | .select => SelectDraft.layout d table
  | .insert => InsertDraft.layout table
  | .update => UpdateDraft.layout d table
  | .delete => DeleteDraft.layout d table

variable {k : StatementKind} {d : Dialect} {table : Text} {s : k.DraftOf}

theorem lays_query (h : ∀ e ∈ k.trees s, e.hidesNothing = true) :
    LaysQuery d (query d table k s) (layout d table k s) := by
  cases k with
  | select => exact SelectDraft.lays_query h
  | insert => exact InsertDraft.lays_query d table s
  | update => exact UpdateDraft.lays_query h
  | delete => exact DeleteDraft.lays_query h

theorem vetted_layout (hs : k.Vetted s) (ht : Identifier.isValid table = true) :
    (layout d table k s).Vetted (k.expressions s) := by
  cases k with
  | select => exact SelectDraft.vetted_layout hs ht
  | insert => exact InsertDraft.vetted_layout hs ht
  | update => exact UpdateDraft.vetted_layout hs ht
  | delete => exact DeleteDraft.vetted_layout hs ht

end StatementKind

namespace Builder

/-- Placeholders and parameters belong together one by one: the numerals after the marks of a
statement count from the start without a gap, the parameters are the values of the layout, and
each value of the layout has its placeholder where it stands. -/
theorem build_placeholders {k : StatementKind} {d : Dialect} {table : Text}
    {b : Builder k.DraftOf} {start : Double} {q : Query} {events : List Event}
    (hb : Reached d table b) (h : b.build start = .ok (q, events))
    (htrees : ∀ e ∈ k.trees b.draft, e.hidesNothing = true)
    (hexpr : ∀ e ∈ k.expressions b.draft, Text.unit '$' ∉ e ∧ Text.unit '?' ∉ e) :
    ∃ n : ℕ, start.toInt? = some (n : ℤ) ∧ 1 ≤ n ∧ (n + q.params.length - 1 ≤ 2 ^ 53 →
      numeralsAfter d.mark q.sql =
        (List.range q.params.length).map (fun i => Text.ofNat (n + i)) ∧
      q.params = (k.layout d table b.draft).values ∧
      q.sql = render ((k.layout d table b.draft).number d n) ∧
      ∀ front v back, k.layout d table b.draft = front ++ .value v :: back →
        q.params[front.values.length]? = some v ∧
        q.sql = render (Layout.number d n front) ++
          (d.mark :: Text.ofNat (n + front.values.length)) ++
            render (Layout.number d (n + front.values.length + 1) back)) := by
  obtain ⟨rfl, hsafe, hone⟩ := build_eq_query hb h
  obtain ⟨ht, -, -, hdraft⟩ := vetted_of_reached hb
  obtain ⟨n, hn, hlt, rfl⟩ := Double.exists_ofNat_of_start hsafe hone
  have hlays : LaysQuery d (StatementKind.query d table k b.draft) (k.layout d table b.draft) :=
    StatementKind.lays_query htrees
  have hparams := hlays.params (Double.ofNat n)
  refine ⟨n, Double.toInt?_ofNat hlt.le, hn, fun hbound => ?_⟩
  rw [hparams] at hbound ⊢
  have hfits : n + (k.layout d table b.draft).values.length ≤ Double.safeBound + 1 := by
    have hsafeBound : Double.safeBound = 2 ^ 53 := by norm_num
    omega
  have htokens := hlays.tokens (fun _ => rfl) hfits
  have hspaced := StatementKind.spaced_query d table b.draft (Double.ofNat n)
  rw [htokens] at hspaced
  have hmark : ∀ e ∈ k.expressions b.draft, d.mark ∉ e := fun e he =>
    Dialect.mark_not_mem (hexpr e he)
  rw [Query.sql, htokens]
  refine ⟨numeralsAfter_number hmark (StatementKind.vetted_layout hdraft ht) hspaced hfits, rfl,
    rfl, ?_⟩
  intro front v back hlayout
  rw [hlayout] at hfits ⊢
  simp only [Layout.values_append, Layout.values_value, List.length_append,
    List.length_cons] at hfits
  have hplace : n + front.values.length ≤ Double.safeBound := by omega
  refine ⟨by simp, ?_⟩
  rw [Layout.number_append, Layout.number_value, render_append, render_cons, Token.text,
    placeholderText_ofNat d hplace, List.append_assoc]

/-- An UPDATE on SQLite that starts at five and binds a new value and a list of two. -/
theorem build_placeholders_of_update :
    ∃ (b : Builder (StatementKind.DraftOf .update)) (q : Query) (events : List Event),
      Reached .sqlite "t" b ∧ b.build (Double.ofNat 5) = .ok (q, events) ∧
      q.params.length = 3 ∧
      numeralsAfter (Text.unit '?') q.sql = [Text.ofNat 5, Text.ofNat 6, Text.ofNat 7] := by
  let list : FilterTree := .negation (.compare "b" .isIn (.array [.bool true, .null]))
  let b : Builder UpdateDraft :=
    ⟨.sqlite, "t", { assignments := [("a", .bool false)], tree := some list }, false⟩
  have hreached : Reached (k := .update) .sqlite "t" b :=
    ⟨⟨.sqlite, "t", {}, false⟩, rfl, [.configure (.set "a" (.bool false)),
      .configure (.tree list)], rfl⟩
  have hbuild : ∃ q events, b.build (Double.ofNat 5) = .ok (q, events) ∧ q.params.length = 3 :=
    ⟨_, _, build_eq_ok_iff.mpr ⟨rfl, by decide +kernel, by decide +kernel, _, rfl, rfl⟩, rfl⟩
  obtain ⟨q, events, hq, hlength⟩ := hbuild
  have htrees : ∀ e ∈ StatementKind.trees .update b.draft, e.hidesNothing = true := by
    intro e he
    obtain rfl : e = list := List.mem_singleton.mp he
    simp [list, FilterTree.negation, FilterTree.compare]
  obtain ⟨n, hn, -, hplaces⟩ := build_placeholders hreached hq htrees
    (fun e he => absurd he List.not_mem_nil)
  obtain rfl := Double.eq_of_toInt?_ofNat (by norm_num) hn
  rw [hlength] at hplaces
  exact ⟨b, q, events, hreached, hq, hlength, (hplaces (by norm_num)).1⟩

end Builder
end BoundSql
