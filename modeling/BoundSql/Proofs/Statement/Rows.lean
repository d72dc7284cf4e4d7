import BoundSql.Proofs.Statement.Layouts
import BoundSql.Proofs.Statement.Parts

/-!
# Rows of an INSERT

The values of an INSERT form a table: one row for each group of placeholders, one
column for each name. Rows are stored one after another, so the place of a cell
among the parameters and the number of its placeholder follow from its row, its
column and the width of the table. What the calls leave as table, and when it is
one, is told from the calls alone.
-/
namespace BoundSql
open Sql

namespace InsertCall

/-- The columns that a call sets, if their names are identifiers. -/
def columns? : InsertCall → Option (List Text)
  | .columns names => if names.all Identifier.isValid then some names else none
  | _ => none

/-- The columns to return that a call sets, if their names are identifiers. -/
def returning? : InsertCall → Option (List Text)
  | .returning names => if names.all Identifier.isValid then some names else none
  | _ => none

/-- The rows that a call adds. -/
def rows : InsertCall → List (List Value)
  | .values row => [row]
  | .valuesMany rows => rows
  | _ => []

end InsertCall

namespace InsertDraft

/-- What calls leave of a draft: the columns set last and all rows in the order of the calls. -/
def afterAll (s : InsertDraft) (calls : List InsertCall) : InsertDraft where
  columns := (calls.filterMap InsertCall.columns?).getLastD s.columns
  rows := s.rows ++ calls.flatMap InsertCall.rows
  returning := (calls.filterMap InsertCall.returning?).getLastD s.returning

lemma after_eq (s : InsertDraft) (c : InsertCall) :
    Draft.after s c = (s.fill c).toOption.getD s := by
  have hconf : DraftSpec.configure c s = (s.fill c).map fun s' => (s', []) := rfl
  have hargs : DraftSpec.checkArguments InsertDraft c = .ok () := rfl
  rw [Draft.after, hargs, hconf]
  cases s.fill c <;> rfl

lemma fill_names {use : Text} {names : List Text} {s s' : InsertDraft} :
    (do Identifier.checkAll use names; .ok s' : Except Fault InsertDraft).toOption.getD s =
      if names.all Identifier.isValid then s' else s := by
  have hall : Identifier.checkAll use names = .ok () ↔ names.all Identifier.isValid = true := by
    rw [Identifier.checkAll_eq_ok_iff, List.all_eq_true]
  by_cases hnames : names.all Identifier.isValid = true
  · rw [if_pos hnames, hall.mpr hnames]
    rfl
  · rw [if_neg hnames]
    cases hcheck : Identifier.checkAll use names with
    | error fault => rfl
    | ok _ => exact absurd (hall.mp hcheck) hnames

/-- What one call leaves. -/
lemma after_eq_afterAll (s : InsertDraft) (c : InsertCall) : Draft.after s c = s.afterAll [c] := by
  rw [after_eq]
  cases c with
  | columns names =>
    rw [fill, fill_names]
    by_cases hnames : names.all Identifier.isValid = true <;>
      simp [afterAll, InsertCall.columns?, InsertCall.rows, InsertCall.returning?, hnames]
  | values row =>
    simp [fill, afterAll, InsertCall.columns?, InsertCall.rows, InsertCall.returning?,
      Except.toOption]
  | valuesMany rows =>
    simp [fill, afterAll, InsertCall.columns?, InsertCall.rows, InsertCall.returning?,
      Except.toOption]
  | returning names =>
    rw [fill, fill_names]
    by_cases hnames : names.all Identifier.isValid = true <;>
      simp [afterAll, InsertCall.columns?, InsertCall.rows, InsertCall.returning?, hnames]

/-- Calls one after another: each column list replaces the one before, each row is added. -/
lemma afterAll_append (s : InsertDraft) (before after : List InsertCall) :
    s.afterAll (before ++ after) = (s.afterAll before).afterAll after := by
  simp [afterAll, List.getLastD_eq_getLast?, List.getLast?_append, Option.getD_or]

theorem foldl_after (s : InsertDraft) (calls : List InsertCall) :
    calls.foldl Draft.after s = s.afterAll calls := by
  induction calls generalizing s with
  | nil => simp [afterAll]
  | cons c calls ih =>
    rw [List.foldl_cons, ih, after_eq_afterAll, ← afterAll_append, List.singleton_append]

/-- All rows have as many values as there are columns. -/
theorem checkWidths_eq_ok_iff {width i : ℕ} {rows : List (List Value)} :
    checkWidths width i rows = .ok () ↔ ∀ row ∈ rows, row.length = width := by
  induction rows generalizing i with
  | nil => simp [checkWidths]
  | cons row rows ih =>
    rw [checkWidths, List.forall_mem_cons]
    split_ifs with hrow
    · simp [hrow, ih]
    · simp [hrow]

/-- The row that is named is the first of the wrong length. -/
theorem checkWidths_eq_error {width i : ℕ} {rows : List (List Value)}
    (h : ∃ row ∈ rows, row.length ≠ width) :
    ∃ j row, rows[j]? = some row ∧ row.length ≠ width ∧
      (∀ r ∈ rows.take j, r.length = width) ∧
      checkWidths width i rows = .error (.insertRowWidth (i + j) row.length width) := by
  induction rows generalizing i with
  | nil => simp at h
  | cons row rows ih =>
    by_cases hrow : row.length = width
    · have hlater : ∃ r ∈ rows, r.length ≠ width := by simpa [hrow] using h
      obtain ⟨j, r, hr, hwrong, hbefore, herror⟩ := ih (i := i + 1) hlater
      refine ⟨j + 1, r, hr, hwrong, ?_, ?_⟩
      · simpa [hrow] using hbefore
      · rw [checkWidths, if_pos hrow, herror, Nat.add_assoc, Nat.add_comm 1]
    · exact ⟨0, row, rfl, hrow, by simp, by rw [checkWidths, if_neg hrow]; rfl⟩

theorem assemble_of_rows {d : Dialect} {table : Text} {s : InsertDraft} {start : Double}
    (hcolumns : 1 ≤ s.columns.length) (hrows : 1 ≤ s.rows.length) :
    s.assemble d table start =
      (checkWidths s.columns.length 0 s.rows).map fun _ => s.query d table start := by
  have hc : s.columns.isEmpty = false := by
    rw [← Bool.not_eq_true, List.isEmpty_iff_length_eq_zero]
    omega
  have hr : s.rows.isEmpty = false := by
    rw [← Bool.not_eq_true, List.isEmpty_iff_length_eq_zero]
    omega
  rw [assemble, hc, hr]
  cases checkWidths s.columns.length 0 s.rows <;> rfl

theorem assemble_of_none {d : Dialect} {table : Text} {s : InsertDraft} {start : Double}
    (h : s.columns.length = 0 ∨ s.rows.length = 0) :
    s.assemble d table start = .error (.insertIncomplete table) := by
  have hempty : (s.columns.isEmpty || s.rows.isEmpty) = true := by
    simpa [List.isEmpty_iff_length_eq_zero] using h
  rw [assemble, if_pos hempty]

/-- The placeholders of one row between parentheses, numbered from the given one. -/
def marks (d : Dialect) (width n : ℕ) : List Token :=
  paren (commaList ((List.range width).map fun j => [.placeholder d (.ofNat (n + j))]))

lemma number_rowLayout (d : Dialect) (n : ℕ) (row : List Value) :
    (rowLayout row).number d n = marks d row.length n := by
  rw [rowLayout, Layout.number_paren, Layout.number_commaList, Layout.numberAll_singletons, marks]

lemma values_rowLayout (row : List Value) : (rowLayout row).values = row := by
  rw [rowLayout, Layout.values_paren, Layout.values_commaList, Condition.values_singletons]

/-- Rows of one width take their numbers one row after another. -/
theorem numberAll_rows (d : Dialect) {width : ℕ} {rows : List (List Value)}
    (h : ∀ row ∈ rows, row.length = width) (n : ℕ) :
    Layout.numberAll d n (rows.map rowLayout) =
      (List.range rows.length).map fun i => marks d width (n + i * width) := by
  induction rows generalizing n with
  | nil => rfl
  | cons row rows ih =>
    obtain ⟨hrow, hrows⟩ := List.forall_mem_cons.mp h
    have hshift : ∀ i, n + width + i * width = n + (i + 1) * width := fun i => by
      rw [Nat.add_mul, Nat.one_mul, Nat.add_assoc, Nat.add_comm width]
    rw [List.map_cons, Layout.numberAll, number_rowLayout, values_rowLayout, ih hrows, hrow]
    simp [List.range_succ_eq_map, hshift, Function.comp_def]

lemma values_layout (table : Text) (s : InsertDraft) :
    (s.layout table).values = s.rows.flatten := by
  have hrows : Layout.values ∘ rowLayout = id := funext values_rowLayout
  simp [layout, List.flatMap_def, hrows]

lemma length_flatten {α : Type} {width : ℕ} {rows : List (List α)}
    (h : ∀ row ∈ rows, row.length = width) : rows.flatten.length = rows.length * width := by
  rw [List.length_flatten, List.map_congr_left h, List.map_const', List.sum_replicate_nat]

/-- Where a cell is when rows of one width follow each other. -/
theorem getElem?_flatten {α : Type} {width : ℕ} {rows : List (List α)}
    (h : ∀ row ∈ rows, row.length = width) {i j : ℕ} {row : List α} {a : α}
    (hi : rows[i]? = some row) (hj : row[j]? = some a) :
    rows.flatten[i * width + j]? = some a := by
  induction rows generalizing i with
  | nil => simp at hi
  | cons first rows ih =>
    obtain ⟨hfirst, hrows⟩ := List.forall_mem_cons.mp h
    rw [List.flatten_cons]
    cases i with
    | zero =>
      obtain rfl : first = row := by simpa using hi
      rw [Nat.zero_mul, Nat.zero_add, List.getElem?_append_left (List.getElem?_eq_some_iff.mp hj).1]
      exact hj
    | succ i =>
      have hplace : (i + 1) * width + j - first.length = i * width + j := by
        rw [hfirst, Nat.add_mul, Nat.one_mul]
        omega
      rw [List.getElem?_append_right (by rw [hfirst, Nat.add_mul, Nat.one_mul]; omega), hplace]
      exact ih hrows (by simpa using hi)

/-- The placeholders of a row as text; rows of the width count on from each other. -/
def groupText (d : Dialect) (n width i : ℕ) : Text :=
  "(" ++ Text.join ", " ((List.range width).map fun j => d.mark :: Text.ofNat (n + i * width + j))
    ++ ")"

/-- The columns to return, if there are any. -/
def returningText (s : InsertDraft) : Text :=
  if s.returning.isEmpty then [] else " RETURNING " ++ Text.join ", " s.returning

/-- The text of an INSERT whose rows have one width. -/
def text (d : Dialect) (table : Text) (s : InsertDraft) (n : ℕ) : Text :=
  "INSERT INTO " ++ table ++ " (" ++ Text.join ", " s.columns ++ ") VALUES " ++
    Text.join ", " ((List.range s.rows.length).map (groupText d n s.columns.length)) ++
    s.returningText

lemma render_marks (d : Dialect) {n width i rows : ℕ} (hi : i < rows)
    (hfits : n + rows * width ≤ Double.safeBound + 1) :
    render (marks d width (n + i * width)) = groupText d n width i := by
  have hcells : ∀ j ∈ List.range width,
      render [.placeholder d (.ofNat (n + i * width + j))] =
        d.mark :: Text.ofNat (n + i * width + j) := by
    intro j hj
    have hj : j < width := List.mem_range.mp hj
    have hrow : (i + 1) * width ≤ rows * width := Nat.mul_le_mul_right width hi
    rw [Nat.add_mul, Nat.one_mul] at hrow
    rw [render_cons, Token.text, placeholderText_ofNat d (by omega), render_nil, List.append_nil]
  rw [marks, render_paren, render_commaList, List.map_map, groupText]
  congr 3
  exact List.map_congr_left hcells

lemma render_returning (s : InsertDraft) :
    render (clauseUnlessEmpty .returning (s.returning.map fun n => [.name n])) =
      s.returningText := by
  have hword : render [space, .word .returning, space] = " RETURNING " := by decide
  rw [clauseUnlessEmpty, returningText, List.isEmpty_map, clause]
  split_ifs
  · rfl
  · rw [← hword, ← render_names, ← render_append]
    rfl

/-- Each row of an INSERT has its group of placeholders, and the numbers of each go on after
those of the row before. -/
theorem sql_query {d : Dialect} {table : Text} {s : InsertDraft} {n : ℕ}
    (h : ∀ row ∈ s.rows, row.length = s.columns.length)
    (hfits : n + s.rows.length * s.columns.length ≤ Double.safeBound + 1) :
    (s.query d table (.ofNat n)).sql = s.text d table n := by
  have hvalues : (s.layout table).values.length = s.rows.length * s.columns.length := by
    rw [values_layout, length_flatten h]
  have htokens := (lays_query d table s).tokens (x := .ofNat n) (fun _ => rfl) (hvalues ▸ hfits)
  have hgroups : ((List.range s.rows.length).map fun i => marks d s.columns.length
      (n + i * s.columns.length)).map render =
        (List.range s.rows.length).map (groupText d n s.columns.length) := by
    rw [List.map_map]
    exact List.map_congr_left fun i hi => render_marks d (List.mem_range.mp hi) hfits
  have hinto : ("INSERT INTO " : Text) = render [.word .insertInto, space] := by decide
  have hopen : (" (" : Text) = render [space] ++ "(" := by decide
  have hclose : (") VALUES " : Text) = ")" ++ render [space, .word .values, space] := by decide
  have hfront : render [.word .insertInto, space, .name table, space] =
      render [.word .insertInto, space] ++ table ++ render [space] := by
    simp [Token.text]
  rw [Query.sql, htokens, layout, Layout.number_append, Layout.number_append, Layout.number_fixed,
    Layout.number_fixed, Layout.number_commaList, Layout.values_fixed, List.length_nil,
    Nat.add_zero, numberAll_rows d h]
  simp only [render_append, render_commaList, hgroups, render_returning, render_paren,
    render_names, hfront, text, hinto, hopen, hclose, List.append_assoc]

end InsertDraft

namespace Builder

/-- A start that is right leaves the outcome of a build to the draft. -/
lemma build_insert {d : Dialect} {table : Text} {s : InsertDraft} {start : Double}
    (hstart : checkStart start = .ok ()) :
    (⟨d, table, s, false⟩ : Builder InsertDraft).build start =
      (s.assemble d table start).map fun q => (q, [.built q.sql q.params.length]) := by
  have hasm : DraftSpec.assemble d table s start =
      (s.assemble d table start).map fun q => (q, []) := rfl
  rw [build_eq, checkUsable, hstart, hasm]
  cases s.assemble d table start <;> rfl

lemma act_of_build_error {δ κ : Type} [Draft δ κ] [DraftSpec δ κ] {b : Builder δ} {start : Double}
    {fault : Fault} (h : b.build start = .error fault) :
    b.act (.build start) = (b, ⟨.error fault, []⟩) := by
  rw [act_build, h]

theorem run_insert {d : Dialect} {table : Text} {b₀ : Builder InsertDraft}
    (hnew : Builder.insert d table = .ok b₀) (calls : List InsertCall) :
    (b₀.run (calls.map .configure)).1 = ⟨d, table, InsertDraft.afterAll {} calls, false⟩ := by
  obtain ⟨⟨⟩, -, ⟨⟩⟩ := bind_eq_ok_iff.mp hnew
  rw [run_configure, InsertDraft.foldl_after]
  rfl

/-- What is built has columns and rows that fit them. -/
theorem build_insert_eq_ok {d : Dialect} {table : Text} {s : InsertDraft} {start : Double}
    (hstart : checkStart start = .ok ()) {q : Query} {events : List Event}
    (h : (⟨d, table, s, false⟩ : Builder InsertDraft).build start = .ok (q, events)) :
    1 ≤ s.columns.length ∧ 1 ≤ s.rows.length ∧
      (∀ row ∈ s.rows, row.length = s.columns.length) ∧ q = s.query d table start := by
  rw [build_insert hstart] at h
  have hq := eq_ok_of_map_pair h
  by_cases hnone : s.columns.length = 0 ∨ s.rows.length = 0
  · rw [InsertDraft.assemble_of_none hnone] at hq
    cases hq
  · obtain ⟨hcolumns, hrows⟩ := not_or.mp hnone
    rw [InsertDraft.assemble_of_rows (by omega) (by omega)] at hq
    obtain ⟨⟨⟩, hcheck, rfl⟩ := map_eq_ok_iff.mp hq
    exact ⟨by omega, by omega, InsertDraft.checkWidths_eq_ok_iff.mp hcheck, rfl⟩

/-- An INSERT binds every cell of the table that the calls leave. It is built exactly when there
are columns and rows and each row has as many values as there are columns; otherwise the fault
names the first row of the wrong length, if there is a table at all, and the builder stays as it
was. What is built has a group of placeholders for each row, and the cell in column `j` of row `i`
is the parameter at `i * width + j`, whose number is that far from the start. -/
theorem build_cells {d : Dialect} {table : Text} {b₀ : Builder InsertDraft}
    (hnew : Builder.insert d table = .ok b₀) (calls : List InsertCall) {start : Double}
    (hstart : checkStart start = .ok ()) :
    let b := (b₀.run (calls.map .configure)).1
    let s := InsertDraft.afterAll {} calls
    let width := s.columns.length
    ((∃ q events, b.build start = .ok (q, events)) ↔
      1 ≤ width ∧ 1 ≤ s.rows.length ∧ ∀ row ∈ s.rows, row.length = width) ∧
    (width = 0 ∨ s.rows.length = 0 →
      b.act (.build start) = (b, ⟨.error (.insertIncomplete table), []⟩)) ∧
    (1 ≤ width → 1 ≤ s.rows.length → (∃ row ∈ s.rows, row.length ≠ width) →
      ∃ i row, s.rows[i]? = some row ∧ row.length ≠ width ∧
        (∀ r ∈ s.rows.take i, r.length = width) ∧
        b.act (.build start) = (b, ⟨.error (.insertRowWidth i row.length width), []⟩)) ∧
    ∃ n : ℕ, start.toInt? = some (n : ℤ) ∧ 1 ≤ n ∧
      ∀ q events, b.build start = .ok (q, events) → n + s.rows.length * width - 1 ≤ 2 ^ 53 →
        q.sql = s.text d table n ∧ q.params.length = s.rows.length * width ∧
        ∀ i j row v, s.rows[i]? = some row → row[j]? = some v →
          q.params[i * width + j]? = some v := by
  intro b s width
  have hb : b = ⟨d, table, s, false⟩ := run_insert hnew calls
  rw [hb]
  refine ⟨⟨?_, ?_⟩, fun hnone => act_of_build_error ?_, ?_, ?_⟩
  · rintro ⟨q, events, hq⟩
    obtain ⟨hcolumns, hrows, hall, -⟩ := build_insert_eq_ok hstart hq
    exact ⟨hcolumns, hrows, hall⟩
  · rintro ⟨hcolumns, hrows, hall⟩
    rw [build_insert hstart, InsertDraft.assemble_of_rows hcolumns hrows,
      InsertDraft.checkWidths_eq_ok_iff.mpr hall]
    exact ⟨_, _, rfl⟩
  · rw [build_insert hstart, InsertDraft.assemble_of_none hnone]
    rfl
  · intro hcolumns hrows hwrong
    obtain ⟨i, row, hi, hlength, hbefore, herror⟩ :=
      InsertDraft.checkWidths_eq_error (i := 0) hwrong
    refine ⟨i, row, hi, hlength, hbefore, act_of_build_error ?_⟩
    rw [build_insert hstart, InsertDraft.assemble_of_rows hcolumns hrows, herror, Nat.zero_add]
    rfl
  · obtain ⟨hsafe, hone⟩ := checkStart_eq_ok_iff.mp hstart
    obtain ⟨n, hn, hlt, rfl⟩ := Double.exists_ofNat_of_start hsafe hone
    refine ⟨n, Double.toInt?_ofNat hlt.le, hn, fun q events hq hbound => ?_⟩
    obtain ⟨-, -, hall, rfl⟩ := build_insert_eq_ok hstart hq
    have hfits : n + s.rows.length * width ≤ Double.safeBound + 1 := by
      have hsafeBound : Double.safeBound = 2 ^ 53 := by norm_num
      omega
    have hparams : (s.query d table (.ofNat n)).params = s.rows.flatten := by
      rw [(InsertDraft.lays_query d table s).params, InsertDraft.values_layout]
    rw [hparams]
    exact ⟨InsertDraft.sql_query hall hfits, InsertDraft.length_flatten hall,
      fun i j row v hi hj => InsertDraft.getElem?_flatten hall hi hj⟩

/-- A column list that replaces another after the first row, and three rows that fit the new
one. -/
theorem build_cells_of_replaced :
    let calls : List InsertCall := [.columns ["a"], .values [.null, .bool true],
      .columns ["a", "b;"], .columns ["a", "b"], .valuesMany [[.bool false, .null],
        [.null, .null]], .returning ["id"]]
    let b := ((⟨.postgres, "t", {}, false⟩ : Builder InsertDraft).run (calls.map .configure)).1
    ∃ q events, b.build 4 = .ok (q, events) ∧
      q.sql = "INSERT INTO t (a, b) VALUES ($4, $5), ($6, $7), ($8, $9) RETURNING id" ∧
      q.params[1]? = some (.bool true) ∧ q.params[2]? = some (.bool false) := by
  intro calls b
  have hnew : Builder.insert .postgres "t" = .ok ⟨.postgres, "t", {}, false⟩ := rfl
  have hstart : checkStart 4 = .ok () := by decide +kernel
  obtain ⟨hbuilds, -, -, n, hn, -, hplaces⟩ := build_cells hnew calls hstart
  obtain ⟨q, events, hq⟩ := hbuilds.mpr (by decide)
  obtain rfl := Double.eq_of_toInt?_ofNat (k := 4) (by norm_num) hn
  obtain ⟨hsql, -, hcells⟩ := hplaces q events hq (by decide)
  refine ⟨q, events, hq, hsql.trans (by decide), ?_, ?_⟩
  · exact hcells 0 1 _ _ rfl rfl
  · exact hcells 1 0 _ _ rfl rfl

end Builder
end BoundSql
