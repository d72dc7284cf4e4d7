import BoundSql.Proofs.Number.Numerals
import BoundSql.Proofs.Statement.SelectLists
import BoundSql.Proofs.Table.Seek

/-!
# What a SELECT statement returns

The text of a plain SELECT is read from its first lexeme to its last: the columns,
the table, the condition with its parameters, the sort order and the row counts. It
returns the rows of which the condition is true, in an order that agrees with ORDER
BY, from the offset on and at most as many as the limit. A statement that a draft
makes is read as what the draft asks for.
-/
namespace BoundSql

open Sql
open Double (AtLeastOne)

namespace Sql

/-- A number of rows. -/
def readCount : Front ℕ
  | [] => none
  | x :: rest => if !x.isEmpty && x.all Text.isDigit then some (Text.digitsValue x, rest) else none

/-- A field with the direction to sort it in. -/
def readSortKey : Front SortKey := fun ls => do
  let (field, ls) ← readName ls
  match ls with
  | [] => none
  | x :: rest =>
    if isKeyword "ASC" x then some (⟨field, .asc⟩, rest)
    else if isKeyword "DESC" x then some (⟨field, .desc⟩, rest)
    else none

/-- The fields of an ORDER BY clause, none where there is no such clause. -/
def readOrder : Front (List SortKey) := fun ls =>
  match expect "ORDER" ls with
  | none => some ([], ls)
  | some ls => do
    let ls ← expect "BY" ls
    readList readSortKey ls

/-- The number in a clause of one keyword, if there is such a clause. -/
def readRows (keyword : Text) : Front (Option ℕ) := fun ls =>
  match expect keyword ls with
  | none => some (none, ls)
  | some ls => (readCount ls).map fun out => (some out.1, out.2)

/-- The sort order, the limit and the offset behind the condition of a SELECT, where no other
clause stands there. -/
def readOrdering (ls : List Text) : Option (List SortKey × Option ℕ × Option ℕ) := do
  let (sorts, ls) ← readOrder ls
  let (limit, ls) ← readRows "LIMIT" ls
  let (offset, ls) ← readRows "OFFSET" ls
  if ls.isEmpty then some (sorts, limit, offset) else none

end Sql

/-- What a plain SELECT asks for. -/
structure Selection where
  source : Text
  condition : Option (Formula × List Value)
  sorts : List SortKey
  limit : Option ℕ
  offset : ℕ

/-- What the text of a statement asks for, if it is a SELECT of plain columns without grouping. -/
def Query.selection? (q : Query) : Option Selection := do
  let st ← readStatement [] q.sql
  let source ← st.head.plainSource?
  let (sorts, limit, offset) ← readOrdering st.rest
  some ⟨source, st.condition q.params, sorts, limit, offset.getD 0⟩

namespace Selection

variable {ρ : Type}

/-- Is the condition true of a row? -/
def holds (s : Selection) (T : Table ρ) (r : ρ) : Bool :=
  match s.condition with
  | none => true
  | some (formula, params) => decide (T.truth r formula params = some true)

/-- May these rows be the answer of a database, whose tables have the given rows? -/
def Returns (s : Selection) (T : Table ρ) (d : Dialect) (db : Text → List ρ) (rows : List ρ) :
    Prop :=
  ∃ ordered : List ρ, ordered.Perm ((db s.source).filter (s.holds T)) ∧
    ordered.Pairwise (fun a b => T.compareKeys d s.sorts (T.cell a) (T.cell b) ≠ .gt) ∧
    rows = match s.limit with
      | some n => (ordered.drop s.offset).take n
      | none => ordered.drop s.offset

end Selection

/-- May these rows be the answer to a statement? -/
def Query.Returns {ρ : Type} (q : Query) (T : Table ρ) (d : Dialect) (db : Text → List ρ)
    (rows : List ρ) : Prop :=
  ∃ s, q.selection? = some s ∧ s.Returns T d db rows

namespace Sql

lemma readCount_ofNat (n : ℕ) (rest : List Text) :
    readCount (Text.ofNat n :: rest) = some (n, rest) := by
  have hdigits : (Text.ofNat n).all Text.isDigit = true :=
    List.all_eq_true.mpr fun _ => Text.isDigit_of_mem_ofNat
  have hne : (Text.ofNat n).isEmpty = false := by simpa using Text.ofNat_ne_nil n
  rw [readCount, hdigits, hne, Text.digitsValue_ofNat]
  rfl

/-- The lexemes of a clause with a number of rows. -/
def countLexemes (keyword : Text) : Option ℕ → List Text
  | none => []
  | some n => [keyword, Text.ofNat n]

lemma readRows_countLexemes {keyword : Text} (hkeyword : isKeyword keyword keyword = true)
    (n : Option ℕ) {rest : List Text} (hrest : expect keyword rest = none) :
    readRows keyword (countLexemes keyword n ++ rest) = some (n, rest) := by
  rw [readRows]
  cases n with
  | none => rw [countLexemes, List.nil_append, hrest]
  | some n =>
    have hread : expect keyword (countLexemes keyword (some n) ++ rest) =
        some (Text.ofNat n :: rest) := expect_cons hkeyword _
    rw [hread]
    exact congrArg (Option.map _) (readCount_ofNat n rest)

lemma readSortKey_cons {n : Text} (h : Identifier.isValid n = true) (x : Text)
    (rest : List Text) : readSortKey (n :: x :: rest) =
      if isKeyword "ASC" x then some (⟨n, .asc⟩, rest)
      else if isKeyword "DESC" x then some (⟨n, .desc⟩, rest)
      else none := by
  rw [readSortKey, readName_cons h]
  rfl

/-- A direction behind a name makes it a sort key, whatever the name is. -/
lemma takes_sortKey {k : SortKey} (h : Identifier.isValid k.field = true) (tail : List Text) :
    Takes readSortKey tail (bareLexemes (SelectDraft.sortTokens k)) k := by
  obtain ⟨field, dir⟩ := k
  have hasc : (Token.word .asc).lexemes = [Text.ofString "ASC"] := by decide
  have hdesc : (Token.word .desc).lexemes = [Text.ofString "DESC"] := by decide
  have hlexemes : bareLexemes (SelectDraft.sortTokens ⟨field, dir⟩) =
      [field, match dir with | .asc => Text.ofString "ASC" | .desc => Text.ofString "DESC"] := by
    cases dir <;> simp [SelectDraft.sortTokens, Token.lexemes_name h, hasc, hdesc]
  intro rest _
  rw [hlexemes, List.cons_append, List.singleton_append, readSortKey_cons h]
  cases dir <;> rfl

end Sql

namespace SelectDraft

/-- Does a draft select plain columns, without grouping? -/
structure IsPlain (s : SelectDraft) : Prop where
  computed : s.computed = []
  aggregates : s.aggregates = []
  groupBy : s.groupBy = []
  having : s.having = none

variable {s : SelectDraft} {d : Dialect} {table : Text} {start : Double}

/-- The offset that is written, since zero is left out. -/
def shift (s : SelectDraft) : Option ℕ := (s.offset.map UInt32.toNat).filter fun n => n ≠ 0

lemma lexemes_rowClauses (s : SelectDraft) : lexemesOf s.rowClauses =
    countLexemes "LIMIT" (s.limit.map UInt32.toNat) ++ countLexemes "OFFSET" s.shift := by
  have hlimit : (Token.word .limit).lexemes = [Text.ofString "LIMIT"] := by decide
  have hoffset : (Token.word .offset).lexemes = [Text.ofString "OFFSET"] := by decide
  rw [rowClauses, lexemesOf_append, shift]
  congr 1
  · cases s.limit <;> simp [lexemesOf_clause, hlimit, Token.lexemes_rows, countLexemes]
  · cases s.offset with
    | none => rfl
    | some n =>
      by_cases hn : n = 0
      · simp [hn, countLexemes, Option.filter]
      · have hzero : n.toNat ≠ 0 := by simpa [← UInt32.toNat_inj] using hn
        simp [hn, hzero, lexemesOf_clause, hoffset, Token.lexemes_rows, countLexemes,
          Option.filter]

/-- The sort fields of a draft are read up to the row counts. -/
lemma readOrder_sorts (hs : s.Vetted) :
    readOrder (lexemesOf (clauseUnlessEmpty .orderBy (s.sorts.map sortTokens)) ++
      lexemesOf s.rowClauses) = some (s.sorts, lexemesOf s.rowClauses) := by
  by_cases hempty : s.sorts = []
  · have hexpect : expect "ORDER" (lexemesOf s.rowClauses) = none := by
      rw [lexemes_rowClauses]
      cases s.limit <;> cases s.shift <;> rfl
    rw [hempty, readOrder]
    simp [clauseUnlessEmpty, hexpect]
  · have horder : (Token.word .orderBy).lexemes = [Text.ofString "ORDER", Text.ofString "BY"] := by
      decide
    have hnone : ∀ t ∈ commaList (s.sorts.map sortTokens), t.expression? = none :=
      expression?_of_vetted (d := .sqlite) (allVetted_commaList (vetted_sortParts hs))
    have hkeys : List.Forall₂ (Takes readSortKey (lexemesOf s.rowClauses))
        ((s.sorts.map sortTokens).map bareLexemes) s.sorts := by
      rw [List.map_map, List.forall₂_map_left_iff, List.forall₂_same]
      exact fun k hk => takes_sortKey (hs.sorts k hk) _
    have hlist := readList_intercalate hkeys (by simpa using hempty)
      (endsCondition_rowClauses s).head_ne_comma
    have hread : ∀ ls, readOrder ((Token.word .orderBy).lexemes ++ ls) =
        readList readSortKey ls := by
      intro ls
      rw [horder, readOrder]
      rfl
    rw [clauseUnlessEmpty, if_neg (by simpa using hempty), lexemesOf_clause, List.append_assoc,
      hread, ← bareLexemes_of_none hnone, bareLexemes_commaList, hlist]

/-- The clauses after the condition of a plain statement are read as its sort order and its
row counts. -/
theorem readOrdering_lastClauses (h : s.IsPlain) (hs : s.Vetted) (index : Double) :
    readOrdering (lexemesOf (s.lastClauses d index)) =
      some (s.sorts, s.limit.map UInt32.toNat, s.shift) := by
  have hlast : lexemesOf (s.lastClauses d index) =
      lexemesOf (clauseUnlessEmpty .orderBy (s.sorts.map sortTokens)) ++
        lexemesOf s.rowClauses := by
    simp [lastClauses, h.groupBy, h.having, Condition.havingClause, clauseUnlessEmpty]
  have hlimit : readRows "LIMIT" (lexemesOf s.rowClauses) =
      some (s.limit.map UInt32.toNat, countLexemes "OFFSET" s.shift) := by
    rw [lexemes_rowClauses]
    exact readRows_countLexemes (by decide) _ (by cases s.shift <;> rfl)
  have hoffset : readRows "OFFSET" (countLexemes "OFFSET" s.shift) = some (s.shift, []) := by
    rw [← List.append_nil (countLexemes _ _)]
    exact readRows_countLexemes (by decide) _ rfl
  rw [hlast, readOrdering, readOrder_sorts hs]
  simp only [hlimit, hoffset, Option.bind_eq_bind, Option.bind_some]
  rfl

/-- The select list of a plain draft names columns and nothing else. -/
lemma plainSource?_head (h : s.IsPlain) :
    (Head.select s.entries table).plainSource? = some table := by
  refine if_pos ?_
  rw [entries, h.computed, h.aggregates]
  simp only [List.map_nil, List.append_nil]
  split_ifs
  · rfl
  · simp [List.all_map, Function.comp_def, Entry.isColumn]

/-- What a plain draft asks for. -/
structure AsksFor (s : SelectDraft) (d : Dialect) (table : Text) (sel : Selection) : Prop where
  source : sel.source = table
  sorts : sel.sorts = s.sorts
  limit : sel.limit = s.limit.map UInt32.toNat
  offset : sel.offset = (s.offset.map UInt32.toNat).getD 0
  holds {ρ : Type} (T : Table ρ) (r : ρ) : sel.holds T r = true ↔
    ∀ e ∈ s.conditions, e.value (T.filterTruth d r) = some true

/-- A plain statement is read as what its draft asks for. -/
theorem selection_query (h : s.IsPlain) (hs : s.Vetted) (ht : Identifier.isValid table = true)
    (hi : AtLeastOne start) (hproper : ∀ e ∈ s.conditions, e.isProper = true) :
    ∃ sel, (s.query d table start).selection? = some sel ∧ s.AsksFor d table sel := by
  have hvetted := vetted_query (d := d) hs ht hi
  obtain ⟨formula, hstatement, hstands⟩ :=
    (parts_query (d := d) hs ht hi hproper).statement? (spaced_query d table s start) hvetted
  have hnone : (s.query d table start).expressions = [] := by
    rw [expressions, h.computed, List.map_nil] at hvetted
    exact List.filterMap_eq_nil_iff.mpr (expression?_of_vetted hvetted)
  rw [Query.statement?, hnone] at hstatement
  obtain ⟨more, hparams⟩ : ∃ more, (s.query d table start).params =
      (Condition.whereClause d s.conditions start).params ++ more := ⟨_, rfl⟩
  refine ⟨⟨table, formula.map fun f => (f, (s.query d table start).params), s.sorts,
    s.limit.map UInt32.toNat, s.shift.getD 0⟩, ?_, ⟨rfl, rfl, rfl, ?_, fun T r => ?_⟩⟩
  · rw [Query.selection?, hstatement]
    simp only [Option.bind_eq_bind, Option.bind_some, plainSource?_head h,
      readOrdering_lastClauses h hs]
    rfl
  · rw [shift]
    cases s.offset with
    | none => rfl
    | some n => by_cases hn : n.toNat = 0 <;> simp [Option.filter, hn]
  · cases formula with
    | none => simp [Selection.holds, show s.conditions = [] from hstands]
    | some f =>
      rw [Selection.holds, Option.map_some, decide_eq_true_iff, Table.truth_eq, hparams, hstands,
        FilterTree.conjunction_eq_true]
      rfl

end SelectDraft

end BoundSql
