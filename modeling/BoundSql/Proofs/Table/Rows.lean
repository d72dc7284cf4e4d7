import BoundSql.Proofs.Filter.Truth

/-!
# Conditions on the rows of a table

What a database makes of a condition: its text is read by the precedence of SQL,
parameters are put in the places of placeholders, and the comparisons are held
against the cells of a row, in three-valued logic. The columns of a table are
any totally ordered types. The truth of a condition is that of its tree, whose
filters are the comparisons they are compiled to.
-/
namespace BoundSql
open Sql

/-- What is asked of the place of two values that are compared by a sign. -/
def Sql.signTest (x : Text) : Option (Ordering → Bool) :=
  if x = Text.ofString "=" then some Ordering.isEq
  else if x = Text.ofString "!=" then some Ordering.isNe
  else if x = Text.ofString ">" then some Ordering.isGT
  else if x = Text.ofString ">=" then some Ordering.isGE
  else if x = Text.ofString "<" then some Ordering.isLT
  else if x = Text.ofString "<=" then some Ordering.isLE
  else none

/-- The columns of a table and the cells of its rows; a missing cell is NULL. A parameter is a
cell of the column it is compared with. What any other comparison is worth is left open. -/
structure Table (ρ : Type) where
  Cell : Text → Type
  order (column : Text) : LinearOrder (Cell column)
  cell : ρ → (column : Text) → Option (Cell column)
  ofValue : (column : Text) → Value → Option (Cell column)
  ofValue_eq_none {column : Text} {v : Value} : ofValue column v = none ↔ v = .null
  other : ρ → List Item → Truth

namespace Table

/-- Columns of integers. A parameter of any other type counts as zero there. -/
def integers : Table (Text → Option ℤ) where
  Cell _ := ℤ
  order _ := inferInstance
  cell r := r
  ofValue _
    | .null => none
    | .int n => some n.toInt
    | _ => some 0
  ofValue_eq_none {_ v} := by cases v <;> simp
  other _ _ := none

variable {ρ : Type}

instance (T : Table ρ) (column : Text) : LinearOrder (T.Cell column) := T.order column

/-- The truth of a comparison, its parameters in place, on a row. -/
def test (T : Table ρ) (r : ρ) (items : List Item) : Truth :=
  match items with
  | [.lexeme column, .lexeme sign, .param v] =>
    match signTest sign with
    | some p => (T.cell r column).bind fun a => (T.ofValue column v).map fun b => p (compare a b)
    | none => T.other r items
  | [.lexeme x, .lexeme y, .lexeme z] =>
    if y = Text.ofString "IS" ∧ z = Text.ofString "NULL" then some (T.cell r x).isNone
    else if x = Text.ofString "1" ∧ y = Text.ofString "=" ∧ z = Text.ofString "0" then some false
    else T.other r items
  | [.lexeme column, .lexeme x, .lexeme y, .lexeme z] =>
    if x = Text.ofString "IS" ∧ y = Text.ofString "NOT" ∧ z = Text.ofString "NULL" then
      some (T.cell r column).isSome
    else T.other r items
  | _ => T.other r items

/-- The truth of a filter on a row, by the comparison that it is compiled to. -/
def filterTruth (T : Table ρ) (d : Dialect) (r : ρ) (f : Filter) : Truth :=
  T.test r (Condition.ofFilter d f 1).items

/-- The truth on a row of a formula that was read and of the parameters that came with it. -/
def truth (T : Table ρ) (r : ρ) (formula : Formula) (params : List Value) : Truth :=
  formula.eval (fun k => (bindAll formula.atoms params)[k]?.bind (T.test r)) 0

variable {T : Table ρ} {d : Dialect} {r : ρ}

theorem filterTruth_eq_test (f : Filter) : T.filterTruth d r f = T.test r (f.layout d).items := by
  rw [filterTruth, Condition.items_ofFilter]

section Comparisons

variable {column : Text} {v : Value}

lemma items_plainLayout {op : Token} {sign : Text} (hop : op.items = [.lexeme sign]) :
    (Filter.plainLayout column op v).items = [.lexeme column, .lexeme sign, .param v] := by
  simp [Filter.plainLayout, Layout.fixed, Layout.items, hop]

lemma items_symbol {s : Symbol} {sign : Text} (h : (Token.symbol s).lexemes = [sign]) :
    (Token.symbol s).items = [.lexeme sign] := by
  have hitems : (Token.symbol s).items = (Token.symbol s).lexemes.map .lexeme := rfl
  rw [hitems, h, List.map_singleton]

/-- A comparison by a sign is unknown if the cell or the parameter is NULL. -/
lemma filterTruth_of_sign {f : Filter} {s : Symbol} {sign : Text} {p : Ordering → Bool}
    (hlayout : f.layout d = Filter.plainLayout f.field (.symbol s) f.value)
    (hsign : (Token.symbol s).lexemes = [sign]) (hp : signTest sign = some p) :
    T.filterTruth d r f = some true ↔
      ∃ x ∈ T.ofValue f.field f.value, ∃ y ∈ T.cell r f.field, p (compare y x) = true := by
  rw [filterTruth_eq_test, hlayout, items_plainLayout (items_symbol hsign), test, hp]
  cases T.cell r f.field <;> cases T.ofValue f.field f.value <;> simp

theorem filterTruth_gt : T.filterTruth d r ⟨column, .gt, v⟩ = some true ↔
    ∃ x ∈ T.ofValue column v, ∃ y ∈ T.cell r column, x < y := by
  have hlayout : Filter.layout d ⟨column, .gt, v⟩ = Filter.plainLayout column (.symbol .gt) v := by
    cases v <;> rfl
  have hp : signTest (Text.ofString ">") = some Ordering.isGT := by decide
  refine (filterTruth_of_sign hlayout (by decide) hp).trans ?_
  simp [Ordering.isGT_iff_eq_gt, compare_gt_iff_gt]

theorem filterTruth_lt : T.filterTruth d r ⟨column, .lt, v⟩ = some true ↔
    ∃ x ∈ T.ofValue column v, ∃ y ∈ T.cell r column, y < x := by
  have hlayout : Filter.layout d ⟨column, .lt, v⟩ = Filter.plainLayout column (.symbol .lt) v := by
    cases v <;> rfl
  have hp : signTest (Text.ofString "<") = some Ordering.isLT := by decide
  refine (filterTruth_of_sign hlayout (by decide) hp).trans ?_
  simp [Ordering.isLT_iff_eq_lt, compare_lt_iff_lt]

/-- Equality with NULL is compiled to a test for NULL. -/
theorem filterTruth_eq : T.filterTruth d r ⟨column, .eq, v⟩ = some true ↔
    T.ofValue column v = T.cell r column := by
  by_cases hv : v = .null
  · subst hv
    have hnone : T.ofValue column .null = none := T.ofValue_eq_none.mpr rfl
    have hitems : (Filter.layout d ⟨column, .eq, .null⟩).items =
        [.lexeme column, .lexeme "IS", .lexeme "NULL"] := by
      have hword : (Token.word .isNull).lexemes = ["IS", "NULL"] := by decide
      have hwordItems : (Token.word .isNull).items =
          (Token.word .isNull).lexemes.map .lexeme := rfl
      simp [Filter.layout, Layout.fixed, Layout.items, hwordItems, hword]
    have htest : T.test r [.lexeme column, .lexeme "IS", .lexeme "NULL"] =
        some (T.cell r column).isNone := by
      rw [test]
      exact if_pos ⟨rfl, rfl⟩
    rw [filterTruth_eq_test, hitems, hnone, htest, Option.some_inj, Option.isNone_iff_eq_none,
      eq_comm]
  · have hlayout : Filter.layout d ⟨column, .eq, v⟩ =
        Filter.plainLayout column (.symbol .eq) v := by
      cases v <;> first | rfl | exact absurd rfl hv
    have hp : signTest (Text.ofString "=") = some Ordering.isEq := by decide
    obtain ⟨x, hx⟩ := Option.ne_none_iff_exists'.mp (mt T.ofValue_eq_none.mp hv)
    rw [filterTruth_of_sign hlayout (by decide) hp, hx]
    simp only [Option.mem_def, Option.some_inj, exists_eq_left', Ordering.isEq_iff_eq_eq,
      compare_eq_iff_eq]
    constructor
    · rintro ⟨y, hy, rfl⟩
      exact hy.symm
    · exact fun heq => ⟨x, heq.symm, rfl⟩

end Comparisons

/-- The truth of what was read is its truth under the test of a row. -/
theorem truth_eq (formula : Formula) (params : List Value) :
    T.truth r formula params = formula.truth (T.test r) params := rfl

/-- The text of a tree is read as a formula that, with the parameters of the tree, is worth on
each row what the tree is worth. -/
theorem exists_truth_ofTree {e : FilterTree} (hproper : e.isProper = true) (hnamed : e.Named)
    (d : Dialect) (index : Double) :
    ∃ formula, readCondition (Condition.ofTree d e index).sql = some formula ∧
      ∀ {ρ : Type} (T : Table ρ) (r : ρ),
        T.truth r formula (Condition.ofTree d e index).params = e.value (T.filterTruth d r) := by
  obtain ⟨formula, hread, -, htruth⟩ := Condition.exists_truth_ofTree hproper hnamed d index
  refine ⟨formula, hread, fun T r => ?_⟩
  rw [truth_eq, ← List.append_nil (Condition.ofTree d e index).params, htruth]
  rfl

end Table
end BoundSql
