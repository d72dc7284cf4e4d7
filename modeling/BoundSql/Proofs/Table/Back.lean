import BoundSql.Proofs.Table.Walk

/-!
# Seeking back from a row

A cursor that leads back changes the condition of a statement and leaves its sort
order: the rows before the cursor are still returned from the first one on. So an
answer begins with the first rows of the table, and it is the page just before
the cursor only where no more rows precede it than the limit allows.
-/
namespace BoundSql.Pager

variable {ρ : Type} {p : Pager ρ}

/-- The last rows before a place of the sorted rows, as many as the limit allows. -/
def lastBefore (p : Pager ρ) (sorted : List ρ) (n : ℕ) : List ρ :=
  (sorted.take n).drop (n - p.limit.toNat)

/-- The rows that precede a row are returned in sort order from the first one on. -/
theorem answer_before_iff (h : p.Sound) {sorted : List ρ} (hs : p.Sorting sorted) {r : ρ}
    (hr : r ∈ p.rows) {n : ℕ}
    (hbefore : ∀ y ∈ sorted.take n, p.table.Precedes p.sorts (p.table.cell y) (p.table.cell r))
    (hrest : ∀ y ∈ sorted.drop n, ¬p.table.Precedes p.sorts (p.table.cell y) (p.table.cell r))
    (page : List ρ) :
    p.Answer .before (p.cursorOf r) page ↔ page = sorted.take (min p.limit.toNat n) := by
  have hside : ∀ y ∈ sorted, p.table.compareKeys p.dialect p.sorts (p.table.cell r)
      (p.table.cell y) = Table.sideOf .before ↔
        p.table.Precedes p.sorts (p.table.cell y) (p.table.cell r) := fun y hy =>
    Table.compareKeys_eq_sideOf_iff p.dialect (h.filled r hr) (hs.filled y hy) .before
  rw [← List.take_take]
  refine answer_iff_take h hs hr .before ?_
  conv_lhs => rw [← List.take_append_drop n sorted]
  rw [List.filter_append, List.filter_eq_self.mpr, List.filter_eq_nil_iff.mpr, List.append_nil]
  · intro y hy
    rw [decide_eq_true_iff, hside y (List.mem_of_mem_drop hy)]
    exact hrest y hy
  · intro y hy
    rw [decide_eq_true_iff, hside y (List.mem_of_mem_take hy)]
    exact hbefore y hy

/-- The first rows are the last ones before a place where the limit reaches back to the first. -/
lemma take_eq_lastBefore_iff {sorted : List ρ}
    (h : sorted.Pairwise fun x y => p.table.Precedes p.sorts (p.table.cell x) (p.table.cell y))
    (hpositive : 1 ≤ p.limit.toNat) {n : ℕ} (hn : n ≤ sorted.length) :
    sorted.take (min p.limit.toNat n) = p.lastBefore sorted n ↔ n ≤ p.limit.toNat := by
  constructor
  · intro heq
    by_contra hlong
    -- the first row would stand again further on
    have hfirst : 0 < sorted.length := by omega
    have hlater : n - p.limit.toNat < sorted.length := by omega
    have hheads := congrArg (fun l => l[0]?) heq
    rw [lastBefore, List.getElem?_drop, List.getElem?_take_of_lt (by omega),
      List.getElem?_take_of_lt (by omega), Nat.add_zero, List.getElem?_eq_getElem hfirst,
      List.getElem?_eq_getElem hlater, Option.some_inj] at hheads
    have hstrict := List.pairwise_iff_getElem.mp h 0 _ hfirst hlater (by omega)
    rw [hheads] at hstrict
    exact Table.not_precedes_self hstrict
  · intro hle
    rw [lastBefore, Nat.min_eq_right hle, Nat.sub_eq_zero_of_le hle, List.drop_zero]

/-- With the cursor of a row that leads back, a statement returns the first of the rows before it
in sort order, as many as the limit allows. They are the page just before the row exactly where no
more rows precede it than that. -/
theorem answer_before (h : p.Sound) :
    ∃ sorted : List ρ, sorted.Perm (p.rows.filter p.keeps) ∧
      sorted.Pairwise (fun a b => p.table.Precedes p.sorts (p.table.cell a) (p.table.cell b)) ∧
      ∀ r ∈ p.rows, ∃ n ≤ sorted.length,
        (∀ y ∈ sorted.take n, p.table.Precedes p.sorts (p.table.cell y) (p.table.cell r)) ∧
        (∀ y ∈ sorted.drop n, ¬p.table.Precedes p.sorts (p.table.cell y) (p.table.cell r)) ∧
        (∀ page, p.Answer .before (p.cursorOf r) page ↔
          page = sorted.take (min p.limit.toNat n)) ∧
        (p.Answer .before (p.cursorOf r) (p.lastBefore sorted n) ↔ n ≤ p.limit.toNat) := by
  obtain ⟨sorted, hs⟩ := exists_sorting h
  have hstrict := hs.ordered.pairwise_precedes hs.filled hs.distinct
  refine ⟨sorted, hs.perm, hstrict, fun r hr => ?_⟩
  obtain ⟨n, hn, hbefore, hrest⟩ := Table.exists_take_precedes hstrict (p.table.cell r)
  have hanswer := answer_before_iff h hs hr hbefore hrest
  refine ⟨n, hn, hbefore, hrest, hanswer, ?_⟩
  rw [hanswer, eq_comm, take_eq_lastBefore_iff hstrict h.positive hn]

/-- The rows before the second of three, from the last to the first. -/
theorem answer_before_of_three :
    let p := ofIntegers [2, 3, 1] .desc 2
    p.Sound ∧ ∃ sorted : List (Text → Option ℤ), sorted.Perm p.rows ∧ ∃ n ≤ 3,
      p.Answer .before (p.cursorOf (integerRow 2)) (sorted.take (min 2 n)) := by
  intro p
  have hsound : p.Sound := sound_ofIntegers [2, 3, 1] (by decide) (by decide) .desc (by decide)
  obtain ⟨sorted, hperm, -, hrows⟩ := answer_before hsound
  have hkeeps : p.rows.filter p.keeps = p.rows := List.filter_eq_self.mpr fun _ _ => rfl
  rw [hkeeps] at hperm
  obtain ⟨n, hn, -, -, hanswer, -⟩ := hrows (integerRow 2) List.mem_cons_self
  exact ⟨hsound, sorted, hperm, n, hn.trans_eq hperm.length_eq, (hanswer _).mpr rfl⟩

/-- Three rows in ascending order, one to a page: the row that is returned before the last one is
the first and not the second. -/
theorem answer_before_skips :
    let p := ofIntegers [2, 3, 1] .asc 1
    let sorted := [integerRow 1, integerRow 2, integerRow 3]
    p.Sound ∧ p.Sorting sorted ∧ p.lastBefore sorted 2 = [integerRow 2] ∧
      p.Answer .before (p.cursorOf (integerRow 3)) [integerRow 1] ∧
      ¬p.Answer .before (p.cursorOf (integerRow 3)) (p.lastBefore sorted 2) := by
  intro p sorted
  have hsound : p.Sound := sound_ofIntegers [2, 3, 1] (by decide) (by decide) .asc (by decide)
  have hperm : sorted.Perm (p.rows.filter p.keeps) := by
    have hkeeps : p.rows.filter p.keeps = p.rows := List.filter_eq_self.mpr fun _ _ => rfl
    have hints : [(1 : ℤ), 2, 3].Perm [2, 3, 1] := by decide
    rw [hkeeps]
    exact hints.map integerRow
  have hordered : p.table.Ordered p.sorts p.dialect sorted := by
    refine List.pairwise_cons.mpr ⟨?_, List.pairwise_pair.mpr ?_⟩ <;> decide
  have hs : p.Sorting sorted := hsound.sorting hperm hordered
  have hstrict := hs.ordered.pairwise_precedes hs.filled hs.distinct
  obtain ⟨hbefore, -⟩ := Table.precedes_getElem hstrict (n := 2) (by decide)
  have hanswer := answer_before_iff hsound hs (List.mem_cons_of_mem _ List.mem_cons_self) hbefore
    (List.forall_mem_singleton.mpr Table.not_precedes_self)
  have hlast : p.lastBefore sorted 2 = [integerRow 2] := rfl
  have hfirst : sorted.take (min p.limit.toNat 2) = [integerRow 1] := rfl
  refine ⟨hsound, hs, hlast, (hanswer _).mpr hfirst.symm, ?_⟩
  rw [hanswer, hlast, hfirst]
  intro heq
  have hcell := congrFun (List.singleton_inj.mp heq) "a"
  exact absurd hcell (by decide)

end BoundSql.Pager
