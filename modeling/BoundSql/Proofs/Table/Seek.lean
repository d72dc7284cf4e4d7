import BoundSql.Proofs.Table.Rows

/-!
# Seeking is lexicographic order

The condition of a keyset holds of the rows that lie beyond the cursor in the
order of its sort fields. NULL agrees with NULL and lies beyond nothing. Where
no value is NULL this is the order in which ORDER BY returns the rows.
-/
namespace BoundSql
open Sql

/-- Does the first value come strictly before the second in a direction? -/
def SortDirection.Before {α : Type} [LT α] : SortDirection → α → α → Prop
  | .asc, x, y => x < y
  | .desc, x, y => y < x

namespace Table

variable {ρ : Type}

/-- A cell for each column, those of a row or those that a cursor holds. -/
abbrev Key (T : Table ρ) : Type := (column : Text) → Option (T.Cell column)

/-- The values of a cursor as cells. -/
def keyOf (T : Table ρ) (c : Cursor) : T.Key := fun column =>
  (c.get? column).bind (T.ofValue column)

/-- Is the first key strictly before the second in one sort field? Neither is NULL there. -/
def Before (T : Table ρ) (s : SortKey) (a b : T.Key) : Prop :=
  ∃ x ∈ a s.field, ∃ y ∈ b s.field, s.dir.Before x y

/-- Strict lexicographic order: the keys agree in the sort fields up to some place, by equal
values or by NULL on both sides, and the first is strictly before the second there. -/
def Precedes (T : Table ρ) (sorts : List SortKey) (a b : T.Key) : Prop :=
  ∃ i, ∃ h : i < sorts.length, (∀ s ∈ sorts.take i, a s.field = b s.field) ∧ T.Before sorts[i] a b

/-- Is a key strictly on the given side of a cursor's? -/
def Beyond (T : Table ρ) (direction : SeekDirection) (sorts : List SortKey) (cursor key : T.Key) :
    Prop :=
  match direction with
  | .after => T.Precedes sorts cursor key
  | .before => T.Precedes sorts key cursor

/-- How ORDER BY places two cells in ascending order. NULL is the greatest value on Postgres and
the least on SQLite. -/
def compareCells (T : Table ρ) (d : Dialect) {column : Text} :
    Option (T.Cell column) → Option (T.Cell column) → Ordering
  | some x, some y => compare x y
  | none, none => .eq
  | none, some _ => if d = .postgres then .gt else .lt
  | some _, none => if d = .postgres then .lt else .gt

/-- How ORDER BY places two keys in one sort field. -/
def compareIn (T : Table ρ) (d : Dialect) (s : SortKey) (a b : T.Key) : Ordering :=
  match s.dir with
  | .asc => T.compareCells d (a s.field) (b s.field)
  | .desc => T.compareCells d (b s.field) (a s.field)

/-- How ORDER BY places two keys: by the first sort field in which they differ. -/
def compareKeys (T : Table ρ) (d : Dialect) : List SortKey → T.Key → T.Key → Ordering
  | [], _, _ => .eq
  | s :: sorts, a, b => (T.compareIn d s a b).then (T.compareKeys d sorts a b)

variable {T : Table ρ} {a b : T.Key}

@[simp] theorem precedes_nil : ¬ T.Precedes [] a b := by
  rintro ⟨i, hi, -⟩
  simp at hi

theorem precedes_cons {s : SortKey} {sorts : List SortKey} :
    T.Precedes (s :: sorts) a b ↔
      T.Before s a b ∨ a s.field = b s.field ∧ T.Precedes sorts a b := by
  constructor
  · rintro ⟨i, hi, hagree, hbefore⟩
    cases i with
    | zero => exact .inl hbefore
    | succ i =>
      rw [List.take_succ_cons, List.forall_mem_cons] at hagree
      exact .inr ⟨hagree.1, i, Nat.lt_of_succ_lt_succ hi, hagree.2, hbefore⟩
  · rintro (hbefore | ⟨heq, i, hi, hagree, hbefore⟩)
    · exact ⟨0, by simp, by simp, hbefore⟩
    · refine ⟨i + 1, Nat.succ_lt_succ hi, ?_, hbefore⟩
      rw [List.take_succ_cons, List.forall_mem_cons]
      exact ⟨heq, hagree⟩

lemma compareCells_swap (d : Dialect) {column : Text} (x y : Option (T.Cell column)) :
    (T.compareCells d x y).swap = T.compareCells d y x := by
  match x, y with
  | some x, some y =>
    have hswap : compare y x = (compare x y).swap := Std.OrientedCmp.eq_swap
    exact hswap.symm
  | none, none => rfl
  | none, some _ => cases d <;> rfl
  | some _, none => cases d <;> rfl

theorem compareKeys_swap (d : Dialect) (sorts : List SortKey) (a b : T.Key) :
    (T.compareKeys d sorts a b).swap = T.compareKeys d sorts b a := by
  induction sorts with
  | nil => rfl
  | cons s sorts ih =>
    rw [compareKeys, Ordering.swap_then, ih, compareKeys, compareIn, compareIn]
    cases s.dir <;> rw [compareCells_swap]

lemma compareIn_of_some (d : Dialect) {s : SortKey} {x y : T.Cell s.field}
    (hx : a s.field = some x) (hy : b s.field = some y) :
    (T.compareIn d s a b = .lt ↔ s.dir.Before x y) ∧ (T.compareIn d s a b = .eq ↔ x = y) := by
  rw [compareIn, hx, hy]
  cases s.dir with
  | asc => exact ⟨compare_lt_iff_lt, compare_eq_iff_eq⟩
  | desc => exact ⟨compare_lt_iff_lt, compare_eq_iff_eq.trans eq_comm⟩

/-- Without NULL the first of two keys is the one that precedes the other. -/
theorem compareKeys_eq_lt_iff (d : Dialect) {sorts : List SortKey}
    (ha : ∀ s ∈ sorts, a s.field ≠ none) (hb : ∀ s ∈ sorts, b s.field ≠ none) :
    T.compareKeys d sorts a b = .lt ↔ T.Precedes sorts a b := by
  induction sorts with
  | nil => simp [compareKeys]
  | cons s sorts ih =>
    rw [List.forall_mem_cons] at ha hb
    obtain ⟨x, hx⟩ := Option.ne_none_iff_exists'.mp ha.1
    obtain ⟨y, hy⟩ := Option.ne_none_iff_exists'.mp hb.1
    obtain ⟨hlt, heq⟩ := compareIn_of_some d hx hy
    have hbefore : T.Before s a b ↔ s.dir.Before x y := by simp [Before, hx, hy]
    rw [compareKeys, Ordering.then_eq_lt, hlt, heq, ih ha.2 hb.2, precedes_cons, hbefore, hx, hy,
      Option.some_inj]

theorem compareKeys_eq_gt_iff (d : Dialect) {sorts : List SortKey}
    (ha : ∀ s ∈ sorts, a s.field ≠ none) (hb : ∀ s ∈ sorts, b s.field ≠ none) :
    T.compareKeys d sorts a b = .gt ↔ T.Precedes sorts b a := by
  rw [← compareKeys_eq_lt_iff d hb ha, ← compareKeys_swap, Ordering.swap_eq_gt]

/-- How a cursor's key compares with one on the given side of it. -/
def sideOf : SeekDirection → Ordering
  | .after => .lt
  | .before => .gt

theorem compareKeys_eq_sideOf_iff (d : Dialect) {sorts : List SortKey}
    (ha : ∀ s ∈ sorts, a s.field ≠ none) (hb : ∀ s ∈ sorts, b s.field ≠ none)
    (direction : SeekDirection) :
    T.compareKeys d sorts a b = sideOf direction ↔ T.Beyond direction sorts a b := by
  cases direction with
  | after => exact compareKeys_eq_lt_iff d ha hb
  | before => exact compareKeys_eq_gt_iff d ha hb

theorem compareKeys_eq_eq_iff (d : Dialect) {sorts : List SortKey}
    (ha : ∀ s ∈ sorts, a s.field ≠ none) (hb : ∀ s ∈ sorts, b s.field ≠ none) :
    T.compareKeys d sorts a b = .eq ↔ ∀ s ∈ sorts, a s.field = b s.field := by
  induction sorts with
  | nil => simp [compareKeys]
  | cons s sorts ih =>
    rw [List.forall_mem_cons] at ha hb ⊢
    obtain ⟨x, hx⟩ := Option.ne_none_iff_exists'.mp ha.1
    obtain ⟨y, hy⟩ := Option.ne_none_iff_exists'.mp hb.1
    rw [compareKeys, Ordering.then_eq_eq, (compareIn_of_some d hx hy).2, ih ha.2 hb.2, hx, hy,
      Option.some_inj]

theorem beyond_cons {direction : SeekDirection} {s : SortKey} {sorts : List SortKey}
    {cursor key : T.Key} : T.Beyond direction (s :: sorts) cursor key ↔
      T.Beyond direction [s] cursor key ∨
        cursor s.field = key s.field ∧ T.Beyond direction sorts cursor key := by
  cases direction with
  | after => simp [Beyond, precedes_cons]
  | before => simp [Beyond, precedes_cons, eq_comm]

end Table

namespace Keyset

section Trees

variable {t : Filter → Truth} {es : List FilterTree}

lemma conjoin_eq_true :
    (FilterTree.conjoin es).value t = some true ↔ ∀ e ∈ es, e.value t = some true := by
  unfold FilterTree.conjoin
  split
  · simp
  · exact FilterTree.conjunction_eq_true

lemma disjoin_eq_true :
    (disjoin es).value t = some true ↔ ∃ e ∈ es, e.value t = some true := by
  unfold disjoin
  split
  · simp
  · exact FilterTree.disjunction_eq_true

end Trees

/-- Values for all names, or none as soon as one is missing. -/
lemma mapM_get_eq_some {sorts : List SortKey} {cursor : Cursor} {values : List Value} :
    sorts.mapM (fun s => cursor.get? s.field) = some values ↔
      List.Forall₂ (fun s v => cursor.get? s.field = some v) sorts values := by
  induction sorts generalizing values with
  | nil =>
    rw [List.mapM_nil, List.forall₂_nil_left_iff]
    exact Option.some_inj.trans eq_comm
  | cons s sorts ih =>
    rw [List.mapM_cons, List.forall₂_cons_left_iff]
    constructor
    · intro h
      obtain ⟨v, hv, hrest⟩ := Option.bind_eq_some_iff.mp h
      obtain ⟨vs, hvs, hcons⟩ := Option.bind_eq_some_iff.mp hrest
      exact ⟨v, vs, hv, ih.mp hvs, (Option.some_inj.mp hcons).symm⟩
    · rintro ⟨v, vs, hv, hvs, rfl⟩
      rw [hv, ih.mpr hvs]
      rfl

lemma mapM_get_eq_none {sorts : List SortKey} {cursor : Cursor} :
    sorts.mapM (fun s => cursor.get? s.field) = none ↔
      ∃ s ∈ sorts, cursor.get? s.field = none := by
  induction sorts with
  | nil => simp
  | cons s sorts ih =>
    rw [List.mapM_cons, List.exists_mem_cons_iff, ← ih]
    cases cursor.get? s.field with
    | none => simp
    | some v => cases sorts.mapM fun s => cursor.get? s.field <;> simp

/-- A keyset has the value of the cursor for each sort field. -/
theorem ofCursor?_eq_some {sorts : List SortKey} {cursor : Cursor} {direction : SeekDirection}
    {k : Keyset} (h : ofCursor? sorts cursor direction = some k) :
    k.sorts = sorts ∧ k.direction = direction ∧
      List.Forall₂ (fun s v => cursor.get? s.field = some v) sorts k.values := by
  unfold ofCursor? at h
  split_ifs at h
  obtain ⟨values, hvalues, rfl⟩ := Option.map_eq_some_iff.mp h
  exact ⟨rfl, rfl, mapM_get_eq_some.mp hvalues⟩

theorem ofCursor?_eq_none {sorts : List SortKey} {cursor : Cursor} {direction : SeekDirection} :
    ofCursor? sorts cursor direction = none ↔
      sorts = [] ∨ ∃ s ∈ sorts, cursor.get? s.field = none := by
  unfold ofCursor?
  split_ifs with hempty
  · simp [List.isEmpty_iff.mp hempty]
  · rw [List.isEmpty_iff] at hempty
    rw [Option.map_eq_none_iff, mapM_get_eq_none]
    simp [hempty]

variable {ρ : Type} {T : Table ρ} {d : Dialect} {r : ρ} {cursor : Cursor}

/-- The comparison that leads beyond the cursor in one sort field. -/
lemma beyondOperator_eq_true {direction : SeekDirection} {s : SortKey} {v : Value}
    (hv : cursor.get? s.field = some v) :
    T.filterTruth d r ⟨s.field, beyondOperator direction s.dir, v⟩ = some true ↔
      T.Beyond direction [s] (T.keyOf cursor) (T.cell r) := by
  have hkey : T.keyOf cursor s.field = T.ofValue s.field v := by simp [Table.keyOf, hv]
  have hswap : ∀ {p : T.Cell s.field → T.Cell s.field → Prop} {o o' : Option (T.Cell s.field)},
      (∃ x ∈ o, ∃ y ∈ o', p y x) ↔ ∃ x ∈ o', ∃ y ∈ o, p x y := by
    intro p o o'
    constructor
    · exact fun ⟨x, hx, y, hy, h⟩ => ⟨y, hy, x, hx, h⟩
    · exact fun ⟨x, hx, y, hy, h⟩ => ⟨y, hy, x, hx, h⟩
  cases direction with
  | after =>
    rw [Table.Beyond, Table.precedes_cons, Table.Before, hkey]
    cases s.dir with
    | asc => simp [beyondOperator, Table.filterTruth_gt, SortDirection.Before]
    | desc => simp [beyondOperator, Table.filterTruth_lt, SortDirection.Before]
  | before =>
    rw [Table.Beyond, Table.precedes_cons, Table.Before, hkey]
    cases s.dir with
    | asc => simpa [beyondOperator, Table.filterTruth_lt, SortDirection.Before] using hswap
    | desc => simpa [beyondOperator, Table.filterTruth_gt, SortDirection.Before] using hswap

/-- One branch of the condition holds, given that the cursor's values agreed so far, if the row
lies beyond the cursor in the remaining sort fields. -/
lemma branches_eq_true {direction : SeekDirection} {sorts : List SortKey} {values : List Value}
    (h : List.Forall₂ (fun s v => cursor.get? s.field = some v) sorts values)
    (agreed : List FilterTree) :
    (∃ e ∈ branches direction agreed (sorts.zip values),
        e.value (T.filterTruth d r) = some true) ↔
      (∀ e ∈ agreed, e.value (T.filterTruth d r) = some true) ∧
        T.Beyond direction sorts (T.keyOf cursor) (T.cell r) := by
  induction h generalizing agreed with
  | nil => cases direction <;> simp [branches, Table.Beyond]
  | @cons s v sorts values hv _ ih =>
    have hkey : T.keyOf cursor s.field = T.ofValue s.field v := by simp [Table.keyOf, hv]
    have hbeyond : T.filterTruth d r ⟨s.field, beyondOperator direction s.dir, v⟩ = some true ↔
        T.Beyond direction [s] (T.keyOf cursor) (T.cell r) := beyondOperator_eq_true hv
    have hequal : T.filterTruth d r ⟨s.field, .eq, v⟩ = some true ↔
        T.keyOf cursor s.field = T.cell r s.field := by rw [Table.filterTruth_eq, hkey]
    rw [List.zip_cons_cons, branches, List.exists_mem_cons_iff, ih, conjoin_eq_true,
      Table.beyond_cons, ← hbeyond, ← hequal]
    simp only [List.forall_mem_append, List.forall_mem_singleton, FilterTree.compare,
      FilterTree.value_leaf]
    rw [and_assoc, ← and_or_left]

lemma isProper_conjoin {es : List FilterTree} (hne : es ≠ [])
    (h : ∀ e ∈ es, e.isProper = true) : (FilterTree.conjoin es).isProper = true := by
  unfold FilterTree.conjoin
  split
  · exact h _ (by simp)
  · exact FilterTree.isProper_group.mpr ⟨List.length_pos_iff.mpr hne, h⟩

lemma isProper_disjoin {es : List FilterTree} (hne : es ≠ [])
    (h : ∀ e ∈ es, e.isProper = true) : (disjoin es).isProper = true := by
  unfold disjoin
  split
  · exact h _ (by simp)
  · exact FilterTree.isProper_group.mpr ⟨List.length_pos_iff.mpr hne, h⟩

lemma isProper_branches {direction : SeekDirection} {agreed : List FilterTree}
    {pairs : List (SortKey × Value)} (h : ∀ e ∈ agreed, e.isProper = true) :
    ∀ e ∈ branches direction agreed pairs, e.isProper = true := by
  induction pairs generalizing agreed with
  | nil => simp [branches]
  | cons p pairs ih =>
    have hlast : ∀ op, ∀ e ∈ agreed ++ [.compare p.1.field op p.2], e.isProper = true := fun op =>
      List.forall_mem_append.mpr
        ⟨h, List.forall_mem_singleton.mpr (FilterTree.isProper_leaf _)⟩
    rw [branches, List.forall_mem_cons]
    exact ⟨isProper_conjoin (by simp) (hlast _), ih (hlast .eq)⟩

/-- The condition of a keyset has no empty group. -/
theorem isProper_toTree {sorts : List SortKey} {direction : SeekDirection} {k : Keyset}
    (h : ofCursor? sorts cursor direction = some k) : k.toTree.isProper = true := by
  obtain ⟨hsorts, -, hvalues⟩ := ofCursor?_eq_some h
  have hsome : sorts ≠ [] := by
    rintro rfl
    simp [ofCursor?] at h
  obtain ⟨s, sorts, rfl⟩ := List.exists_cons_of_ne_nil hsome
  obtain ⟨v, values, -, -, hk⟩ := List.forall₂_cons_left_iff.mp hvalues
  refine isProper_disjoin ?_ (isProper_branches (by simp))
  rw [hsorts, hk, List.zip_cons_cons, branches]
  exact List.cons_ne_nil _ _

theorem toTree_eq_true {sorts : List SortKey} {direction : SeekDirection} {k : Keyset}
    (h : ofCursor? sorts cursor direction = some k) :
    k.toTree.value (T.filterTruth d r) = some true ↔
      T.Beyond direction sorts (T.keyOf cursor) (T.cell r) := by
  obtain ⟨hsorts, hdirection, hvalues⟩ := ofCursor?_eq_some h
  rw [toTree, disjoin_eq_true, hsorts, hdirection, branches_eq_true hvalues]
  simp

/-- There is a keyset if there are sort fields and the cursor has a value for each. Its condition
then holds of the rows strictly beyond the cursor: for any column names by the comparisons that
its filters are compiled to, and over identifiers as the text that it is compiled to. Without
NULL these are the rows that ORDER BY returns strictly after the cursor, or strictly before. -/
theorem toTree_seeks (sorts : List SortKey) (cursor : Cursor) (direction : SeekDirection) :
    (ofCursor? sorts cursor direction = none ↔
      sorts = [] ∨ ∃ s ∈ sorts, cursor.get? s.field = none) ∧
    ∀ k, ofCursor? sorts cursor direction = some k →
      ∀ (d : Dialect) (index : Double) {ρ : Type} (T : Table ρ) (r : ρ),
        (k.toTree.value (fun f => T.test r (Condition.ofFilter d f index).items) = some true ↔
          T.Beyond direction sorts (T.keyOf cursor) (T.cell r)) ∧
        ((∀ s ∈ sorts, Identifier.isValid s.field = true) →
          ∃ formula, readCondition (Condition.ofTree d k.toTree index).sql = some formula ∧
            (T.truth r formula (Condition.ofTree d k.toTree index).params = some true ↔
              T.Beyond direction sorts (T.keyOf cursor) (T.cell r))) ∧
        ((∀ s ∈ sorts, T.keyOf cursor s.field ≠ none ∧ T.cell r s.field ≠ none) →
          (T.Beyond direction sorts (T.keyOf cursor) (T.cell r) ↔
            T.compareKeys d sorts (T.keyOf cursor) (T.cell r) =
              match direction with
              | .after => .lt
              | .before => .gt)) := by
  refine ⟨ofCursor?_eq_none, fun k hk d index ρ T r => ⟨?_, fun hnames => ?_, fun hnulls => ?_⟩⟩
  · have hleaf : (fun f => T.test r (Condition.ofFilter d f index).items) = T.filterTruth d r :=
      funext fun f => by rw [Condition.items_ofFilter, Table.filterTruth_eq_test]
    rw [hleaf]
    exact toTree_eq_true hk
  · have hnamed : k.toTree.Named := named_toTree (by rwa [sorts_of_ofCursor hk])
    obtain ⟨formula, hread, htruth⟩ :=
      Table.exists_truth_ofTree (isProper_toTree hk) hnamed d index
    exact ⟨formula, hread, by rw [htruth, toTree_eq_true hk]⟩
  · have hcursor : ∀ s ∈ sorts, T.keyOf cursor s.field ≠ none := fun s hs => (hnulls s hs).1
    have hrow : ∀ s ∈ sorts, T.cell r s.field ≠ none := fun s hs => (hnulls s hs).2
    cases direction with
    | after => exact (Table.compareKeys_eq_lt_iff d hcursor hrow).symm
    | before => exact (Table.compareKeys_eq_gt_iff d hcursor hrow).symm

/-- After a cursor with NULL come the rows with NULL there and a value beyond in the next field. -/
theorem toTree_seeks_of_null :
    let sorts : List SortKey := [⟨"a", .asc⟩, ⟨"b", .desc⟩]
    let cursor : Cursor := ⟨[("a", .null), ("b", .int 2)]⟩
    let row : Text → Option ℤ := fun column => if column = "a" then none else some 1
    ∃ k formula, ofCursor? sorts cursor .after = some k ∧
      readCondition (Condition.ofTree .postgres k.toTree 1).sql = some formula ∧
      Table.integers.truth row formula (Condition.ofTree .postgres k.toTree 1).params = some true ∧
      Table.integers.compareKeys .sqlite [⟨"b", .desc⟩] (Table.integers.keyOf cursor) row = .lt := by
  intro sorts cursor row
  have hbefore : Table.integers.Before ⟨"b", .desc⟩ (Table.integers.keyOf cursor) row :=
    ⟨(2 : ℤ), rfl, (1 : ℤ), rfl, (by decide : (1 : ℤ) < 2)⟩
  have hnames : ∀ s ∈ sorts, Identifier.isValid s.field = true := by decide
  obtain ⟨formula, hread, htruth⟩ :=
    ((toTree_seeks sorts cursor .after).2 _ rfl .postgres 1 Table.integers row).2.1 hnames
  have horder := ((toTree_seeks [⟨"b", .desc⟩] cursor .after).2 _ rfl .sqlite 1 Table.integers
    row).2.2 (by simp [Table.keyOf, cursor, row]; decide)
  refine ⟨_, formula, rfl, hread, htruth.mpr ?_, horder.mp ?_⟩
  · exact Table.precedes_cons.mpr (.inr ⟨rfl, Table.precedes_cons.mpr (.inl hbefore)⟩)
  · exact Table.precedes_cons.mpr (.inl hbefore)

end Keyset
end BoundSql
