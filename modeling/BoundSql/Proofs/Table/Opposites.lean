import BoundSql.Proofs.Table.Rows

/-!
# Opposite comparisons

Membership in a list is given its meaning in SQL: it is an equality with some
element, its negation a difference from each, in three-valued logic. With it the
conditions of opposite operators are opposite on every row: one is true where
the other is false, and both are unknown together. This takes a value that fits
the operators; membership in a scalar is compiled to an equality, whether it is
asked for or its negation is.
-/
namespace BoundSql
open Sql

/-- Operators whose conditions are opposite for a value. Membership is asked of lists and NULL. -/
inductive Operator.Opposite (v : Value) : Operator → Operator → Prop
  | eq : Opposite v .eq .ne
  | gt : Opposite v .gt .lte
  | lt : Opposite v .lt .gte
  | isIn (h : v.isScalar = true → v = .null) : Opposite v .isIn .notIn

namespace Sql

/-- The parameters of a list after the first of them, up to the closing parenthesis. -/
def moreElements? : List Item → Option (List Value)
  | [.lexeme x] => if x = Text.ofString ")" then some [] else none
  | .lexeme x :: .param v :: rest =>
    if x = Text.ofString "," then (moreElements? rest).map (v :: ·) else none
  | _ => none

/-- The parameters of a list in parentheses, which may be empty. -/
def elements? : List Item → Option (List Value)
  | .lexeme x :: .param v :: rest =>
    if x = Text.ofString "(" then (moreElements? rest).map (v :: ·) else none
  | [.lexeme x, .lexeme y] =>
    if x = Text.ofString "(" ∧ y = Text.ofString ")" then some [] else none
  | _ => none

/-- The elements of a list that is one parameter in parentheses. -/
def boundList? : List Item → Option (List Value)
  | [.lexeme x, .param (.array vs), .lexeme y] =>
    if x = Text.ofString "(" ∧ y = Text.ofString ")" then some vs else none
  | _ => none

/-- A column and a list, and whether the column has to be a member. -/
structure Membership where
  column : Text
  isMember : Bool
  elements : List Value

/-- The membership tests of both dialects. -/
def membership? : List Item → Option Membership
  | .lexeme column :: .lexeme x :: .lexeme y :: rest =>
    if x = Text.ofString "IN" then (elements? (.lexeme y :: rest)).map (⟨column, true, ·⟩)
    else if x = Text.ofString "NOT" ∧ y = Text.ofString "IN" then
      (elements? rest).map (⟨column, false, ·⟩)
    else if x = Text.ofString "=" ∧ y = Text.ofString "ANY" then
      (boundList? rest).map (⟨column, true, ·⟩)
    else if x = Text.ofString "!=" ∧ y = Text.ofString "ALL" then
      (boundList? rest).map (⟨column, false, ·⟩)
    else none
  | _ => none

end Sql

namespace Table

variable {ρ : Type}

/-- The truth of a membership test: equality with some element, or a difference from each. -/
def membershipTruth (T : Table ρ) (r : ρ) (m : Membership) : Truth :=
  let compared := fun sign : Text =>
    m.elements.map fun v => T.test r [.lexeme m.column, .lexeme sign, .param v]
  if m.isMember then (compared "=").foldr Truth.or (some false)
  else (compared "!=").foldr Truth.and (some true)

/-- The table with the meaning of lists fixed. -/
def withLists (T : Table ρ) : Table ρ :=
  { T with
    other := fun r items =>
      match membership? items with
      | some m => T.membershipTruth r m
      | none => T.other r items }

end Table

/-- A conjunction of negations is the negation of a disjunction. -/
lemma Truth.foldr_and_not (ts : List Truth) :
    (ts.map Truth.not).foldr Truth.and (some true) = (ts.foldr Truth.or (some false)).not := by
  have hstep : ∀ a b : Truth, a.not.and b.not = (a.or b).not := by decide
  induction ts with
  | nil => rfl
  | cons t ts ih => rw [List.map_cons, List.foldr_cons, List.foldr_cons, ih, hstep]

namespace Sql

lemma Layout.items_append (l l' : Layout) : (l ++ l').items = l.items ++ l'.items := by
  induction l with
  | nil => rfl
  | cons s l ih => cases s <;> simp [Layout.items, ih]

lemma Layout.items_paren (l : Layout) :
    (Layout.paren l).items = .lexeme "(" :: (l.items ++ [.lexeme ")"]) := by
  have hopen : openParen.items = [.lexeme "("] := rfl
  have hclose : closeParen.items = [.lexeme ")"] := rfl
  rw [Layout.paren, Layout.items, hopen, Layout.items_append, Layout.items, Layout.items, hclose]
  rfl

/-- The elements after the first are found behind their commas. -/
lemma exists_items_commaList (v : Value) (vs : List Value) :
    ∃ rest, (Layout.commaList ((v :: vs).map fun v => [.value v])).items ++ [.lexeme ")"] =
      .param v :: rest ∧ moreElements? rest = some vs := by
  induction vs generalizing v with
  | nil => exact ⟨[.lexeme ")"], rfl, if_pos rfl⟩
  | cons w ws ih =>
    obtain ⟨rest, hitems, hmore⟩ := ih w
    have hcomma : (Layout.fixed [.symbol .comma, space]).items = [.lexeme ","] := rfl
    refine ⟨.lexeme "," :: .param w :: rest, ?_, ?_⟩
    · rw [List.map_cons, List.map_cons, Layout.commaList, List.intercalate_cons_cons,
        Layout.items_append, Layout.items_append, hcomma, List.append_assoc]
      exact congrArg (fun items => Item.param v :: .lexeme "," :: items) hitems
    · rw [moreElements?, hmore]
      rfl

theorem elements?_list (vs : List Value) :
    elements? (Layout.paren (Layout.commaList (vs.map fun v => [.value v]))).items = some vs := by
  rw [Layout.items_paren]
  cases vs with
  | nil => rfl
  | cons v vs =>
    obtain ⟨rest, hitems, hmore⟩ := exists_items_commaList v vs
    rw [hitems, elements?, hmore]
    rfl

/-- The membership tests of both dialects are read as what they ask. -/
theorem membership?_layout (d : Dialect) (column : Text) (vs : List Value) :
    membership? (Filter.memberLayout column vs d).items = some ⟨column, true, vs⟩ ∧
      membership? (Filter.nonMemberLayout column vs d).items = some ⟨column, false, vs⟩ := by
  cases d with
  | postgres => exact ⟨rfl, rfl⟩
  | sqlite =>
    have helements := elements?_list vs
    have hmember : (Filter.memberLayout column vs .sqlite).items =
        .lexeme column :: .lexeme "IN" ::
          (Layout.paren (Layout.commaList (vs.map fun v => [.value v]))).items := rfl
    have hother : (Filter.nonMemberLayout column vs .sqlite).items =
        .lexeme column :: .lexeme "NOT" :: .lexeme "IN" ::
          (Layout.paren (Layout.commaList (vs.map fun v => [.value v]))).items := rfl
    have hnot : Text.ofString "NOT" ≠ Text.ofString "IN" := by decide
    rw [hmember, hother]
    rw [Layout.items_paren] at helements ⊢
    constructor
    · rw [membership?, if_pos rfl, helements]
      rfl
    · rw [membership?, if_neg hnot, if_pos ⟨rfl, rfl⟩, helements]
      rfl

end Sql

namespace Table

variable {ρ : Type} {T : Table ρ} {r : ρ}

/-- A membership test is worth what it asks. -/
theorem test_of_membership {items : List Item} {m : Membership} (h : membership? items = some m) :
    T.withLists.test r items = T.membershipTruth r m := by
  have hother : T.withLists.other r items = T.membershipTruth r m := by
    simp only [withLists, h]
  unfold test
  split
  · cases h
  · exfalso
    simp [membership?, elements?, boundList?] at h
  · split_ifs with hnull
    · obtain ⟨rfl, rfl, -⟩ := hnull
      cases h
    · exact hother
  · exact hother

/-- A sign in a text and what it asks of the place of two values. -/
structure Asks (s : Symbol) (sign : Text) (p : Ordering → Bool) : Prop where
  lexemes : (Token.symbol s).lexemes = [sign]
  test : signTest sign = some p

lemma asks_eq : Asks .eq "=" Ordering.isEq := ⟨by decide, by decide⟩

lemma asks_ne : Asks .ne "!=" Ordering.isNe := ⟨by decide, by decide⟩

lemma asks_gt : Asks .gt ">" Ordering.isGT := ⟨by decide, by decide⟩

lemma asks_ge : Asks .ge ">=" Ordering.isGE := ⟨by decide, by decide⟩

lemma asks_lt : Asks .lt "<" Ordering.isLT := ⟨by decide, by decide⟩

lemma asks_le : Asks .le "<=" Ordering.isLE := ⟨by decide, by decide⟩

section Signs

variable {s s' : Symbol} {sign sign' : Text} {p p' : Ordering → Bool}

/-- Opposite questions about the place of two values. -/
lemma test_of_signs (hs : Asks s sign p) (hs' : Asks s' sign' p') (hnot : ∀ o, p' o = !p o)
    (T : Table ρ) (r : ρ) (column : Text) (v : Value) :
    T.test r [.lexeme column, .lexeme sign', .param v] =
      (T.test r [.lexeme column, .lexeme sign, .param v]).not := by
  rw [test, test, hs.test, hs'.test]
  cases T.cell r column <;> cases T.ofValue column v <;> simp [Truth.not, hnot]

/-- Filters with opposite signs between their column and their value. -/
lemma test_of_plain {d : Dialect} {f f' : Filter} (hs : Asks s sign p) (hs' : Asks s' sign' p')
    (hnot : ∀ o, p' o = !p o) (hf : f.layout d = Filter.plainLayout f.field (.symbol s) f.value)
    (hf' : f'.layout d = Filter.plainLayout f.field (.symbol s') f.value) (T : Table ρ) (r : ρ) :
    T.test r (f'.layout d).items = (T.test r (f.layout d).items).not := by
  rw [hf, hf', items_plainLayout (items_symbol hs.lexemes),
    items_plainLayout (items_symbol hs'.lexemes)]
  exact test_of_signs hs hs' hnot T r f.field f.value

end Signs

/-- A value is in none of the elements when it is not in some element. -/
lemma membershipTruth_not (T : Table ρ) (r : ρ) (column : Text) (vs : List Value) :
    T.membershipTruth r ⟨column, false, vs⟩ = (T.membershipTruth r ⟨column, true, vs⟩).not := by
  have hsigns : (vs.map fun v => T.test r [.lexeme column, .lexeme "!=", .param v]) =
      (vs.map fun v => T.test r [.lexeme column, .lexeme "=", .param v]).map Truth.not := by
    rw [List.map_map]
    exact List.map_congr_left fun v _ => test_of_signs asks_eq asks_ne (by decide) T r column v
  simp only [membershipTruth, Bool.false_eq_true, if_false, if_true, hsigns]
  exact Truth.foldr_and_not _

/-- The tests for NULL are opposite, and never unknown. -/
lemma test_null (T : Table ρ) (r : ρ) (d : Dialect) (column : Text) :
    T.test r (Filter.layout d ⟨column, .ne, .null⟩).items =
      (T.test r (Filter.layout d ⟨column, .eq, .null⟩).items).not := by
  have hne : (Filter.layout d ⟨column, .ne, .null⟩).items =
      [.lexeme column, .lexeme "IS", .lexeme "NOT", .lexeme "NULL"] := rfl
  have heq : (Filter.layout d ⟨column, .eq, .null⟩).items =
      [.lexeme column, .lexeme "IS", .lexeme "NULL"] := rfl
  rw [hne, heq, test, test, if_pos ⟨rfl, rfl, rfl⟩, if_pos ⟨rfl, rfl⟩]
  cases T.cell r column <;> rfl

/-- Nothing is known of a comparison with NULL. -/
lemma test_plain_null (T : Table ρ) (r : ρ) (column : Text) :
    T.test r (Filter.plainLayout column (.symbol .eq) .null).items = none := by
  have hnull : T.ofValue column .null = none := T.ofValue_eq_none.mpr rfl
  rw [items_plainLayout (items_symbol asks_eq.lexemes), test, asks_eq.test, hnull]
  cases T.cell r column <;> rfl

/-- The comparisons that opposite operators are compiled to are opposite on every row. -/
theorem test_opposite {v : Value} {op op' : Operator} (h : Operator.Opposite v op op')
    (T : Table ρ) (r : ρ) (d : Dialect) (column : Text) :
    T.withLists.test r (Filter.layout d ⟨column, op', v⟩).items =
      (T.withLists.test r (Filter.layout d ⟨column, op, v⟩).items).not := by
  cases h with
  | eq =>
    by_cases hv : v = .null
    · subst hv
      exact test_null T.withLists r d column
    · have heq : Filter.layout d ⟨column, .eq, v⟩ = Filter.plainLayout column (.symbol .eq) v := by
        cases v <;> first | rfl | exact absurd rfl hv
      have hne : Filter.layout d ⟨column, .ne, v⟩ = Filter.plainLayout column (.symbol .ne) v := by
        cases v <;> first | rfl | exact absurd rfl hv
      exact test_of_plain asks_eq asks_ne (by decide) heq hne T.withLists r
  | gt =>
    have hgt : Filter.layout d ⟨column, .gt, v⟩ = Filter.plainLayout column (.symbol .gt) v := by
      cases v <;> rfl
    have hle : Filter.layout d ⟨column, .lte, v⟩ = Filter.plainLayout column (.symbol .le) v := by
      cases v <;> rfl
    exact test_of_plain asks_gt asks_le (by decide) hgt hle T.withLists r
  | lt =>
    have hlt : Filter.layout d ⟨column, .lt, v⟩ = Filter.plainLayout column (.symbol .lt) v := by
      cases v <;> rfl
    have hge : Filter.layout d ⟨column, .gte, v⟩ = Filter.plainLayout column (.symbol .ge) v := by
      cases v <;> rfl
    exact test_of_plain asks_lt asks_ge (by decide) hlt hge T.withLists r
  | isIn hv =>
    cases v with
    | array vs =>
      obtain ⟨hmember, hother⟩ := membership?_layout d column vs
      have hin : Filter.layout d ⟨column, .isIn, .array vs⟩ = Filter.memberLayout column vs d := rfl
      have hnotIn : Filter.layout d ⟨column, .notIn, .array vs⟩ =
          Filter.nonMemberLayout column vs d := rfl
      rw [hin, hnotIn, test_of_membership hmember, test_of_membership hother]
      exact membershipTruth_not T r column vs
    | null =>
      have hin : Filter.layout d ⟨column, .isIn, .null⟩ =
          Filter.plainLayout column (.symbol .eq) .null := rfl
      have hnotIn : Filter.layout d ⟨column, .notIn, .null⟩ =
          Filter.plainLayout column (.symbol .eq) .null := rfl
      rw [hin, hnotIn, test_plain_null]
      rfl
    | _ => cases hv rfl

/-- Membership in a scalar is compiled to an equality, and so is its negation. -/
lemma ofFilter_membership_of_scalar {v : Value} (hv : v.isScalar = true) (hnull : v ≠ .null)
    (d : Dialect) (column : Text) (index : Double) :
    Condition.ofFilter d ⟨column, .isIn, v⟩ index = Condition.ofFilter d ⟨column, .eq, v⟩ index ∧
      Condition.ofFilter d ⟨column, .notIn, v⟩ index =
        Condition.ofFilter d ⟨column, .eq, v⟩ index := by
  cases v with
  | null => exact absurd rfl hnull
  | array vs => cases hv
  | _ => exact ⟨rfl, rfl⟩

/-- The text of a filter is read as the comparison it is compiled to. -/
lemma exists_truth_ofFilter {f : Filter} (hf : Identifier.isValid f.field = true) (T : Table ρ)
    (r : ρ) (d : Dialect) (index : Double) :
    ∃ formula, readCondition (Condition.ofFilter d f index).sql = some formula ∧
      T.truth r formula (Condition.ofFilter d f index).params =
        T.test r (Condition.ofFilter d f index).items := by
  have hnamed : FilterTree.Named (.leaf f) := by
    intro g hg
    rw [FilterTree.filters_leaf, List.mem_singleton] at hg
    rwa [hg]
  obtain ⟨formula, hread, htruth⟩ := exists_truth_ofTree (FilterTree.isProper_leaf f) hnamed d index
  rw [Condition.ofTree_leaf] at hread htruth
  refine ⟨formula, hread, ?_⟩
  rw [htruth T r, FilterTree.value_leaf, filterTruth_eq_test, Condition.items_ofFilter]

/-- On every row the conditions of opposite operators with one value are opposite in three-valued
logic: the parameters are put in the places of the placeholders, and for columns that are
identifiers both texts are read first. The operators are those for equality and order with any
value, and membership in a list of any length or in NULL. Membership in any other value and its
negation are both compiled to the equality with it. -/
theorem test_opposite_conditions (T : Table ρ) (r : ρ) (d : Dialect) (column : Text) (v : Value)
    (index : Double) :
    (∀ op op', Operator.Opposite v op op' →
      let c := Condition.ofFilter d ⟨column, op, v⟩ index
      let c' := Condition.ofFilter d ⟨column, op', v⟩ index
      T.withLists.test r c'.items = (T.withLists.test r c.items).not ∧
      (Identifier.isValid column = true → ∃ formula formula',
        readCondition c.sql = some formula ∧ readCondition c'.sql = some formula' ∧
        T.withLists.truth r formula' c'.params = (T.withLists.truth r formula c.params).not)) ∧
    (v.isScalar = true → v ≠ .null →
      Condition.ofFilter d ⟨column, .isIn, v⟩ index = Condition.ofFilter d ⟨column, .eq, v⟩ index ∧
      Condition.ofFilter d ⟨column, .notIn, v⟩ index =
        Condition.ofFilter d ⟨column, .eq, v⟩ index) := by
  refine ⟨fun op op' h => ?_, fun hv hnull =>
    ofFilter_membership_of_scalar hv hnull d column index⟩
  intro c c'
  have htest : T.withLists.test r c'.items = (T.withLists.test r c.items).not := by
    rw [Condition.items_ofFilter, Condition.items_ofFilter]
    exact test_opposite h T r d column
  refine ⟨htest, fun hcolumn => ?_⟩
  obtain ⟨formula, hread, htruth⟩ := exists_truth_ofFilter (f := ⟨column, op, v⟩) hcolumn
    T.withLists r d index
  obtain ⟨formula', hread', htruth'⟩ := exists_truth_ofFilter (f := ⟨column, op', v⟩) hcolumn
    T.withLists r d index
  exact ⟨formula, formula', hread, hread', by rw [htruth', htest, htruth]⟩

/-- A list with a NULL and a row that is not in it: nothing is known of either test. -/
theorem test_opposite_conditions_of_null :
    let T := Table.integers
    let r : Text → Option ℤ := fun _ => some 5
    let v : Value := .array [.int 1, .null]
    let c := fun op => Condition.ofFilter .sqlite ⟨"a", op, v⟩ 1
    Operator.Opposite v .isIn .notIn ∧ T.withLists.test r (c .isIn).items = none ∧
      T.withLists.test r (c .notIn).items = none := by
  intro T r v c
  have hlist : Operator.Opposite v .isIn .notIn := .isIn fun h => by cases h
  have hmember : T.withLists.test r (c .isIn).items = none := by decide +kernel
  obtain ⟨hopposite, -⟩ := test_opposite_conditions T r .sqlite "a" v 1
  refine ⟨hlist, hmember, ?_⟩
  rw [(hopposite _ _ hlist).1, hmember]
  rfl

/-- A row with five is in five and not in five. -/
theorem test_membership_of_five :
    let T := Table.integers
    let r : Text → Option ℤ := fun _ => some 5
    let c := fun op => Condition.ofFilter .postgres ⟨"a", op, .int 5⟩ 1
    (c .notIn).sql = Text.ofString "a = $1" ∧ T.withLists.test r (c .isIn).items = some true ∧
      T.withLists.test r (c .notIn).items = some true := by
  decide +kernel

end Table
end BoundSql
