import BoundSql.Proofs.Table.Seek

/-!
# Rows in sort order

Rows without NULL in their sort fields can be put into the order of ORDER BY, and
in one way only if no two of them agree in all these fields. Those beyond one of
the rows are then the ones that follow it.
-/
namespace BoundSql.Table

variable {ρ : Type} {T : Table ρ} {sorts : List SortKey} {a b c : T.Key}

/-- Do two keys agree in all sort fields? -/
def Agree (T : Table ρ) (sorts : List SortKey) (a b : T.Key) : Prop :=
  ∀ s ∈ sorts, a s.field = b s.field

theorem Agree.refl (a : T.Key) : T.Agree sorts a a := fun _ _ => rfl

theorem Agree.symm (h : T.Agree sorts a b) : T.Agree sorts b a := fun s hs => (h s hs).symm

theorem Agree.trans (h : T.Agree sorts a b) (h' : T.Agree sorts b c) : T.Agree sorts a c :=
  fun s hs => (h s hs).trans (h' s hs)

theorem Before.trans {s : SortKey} (h : T.Before s a b) (h' : T.Before s b c) :
    T.Before s a c := by
  obtain ⟨x, hx, y, hy, hxy⟩ := h
  obtain ⟨y', hy', z, hz, hyz⟩ := h'
  obtain rfl : y = y' := Option.mem_unique hy hy'
  refine ⟨x, hx, z, hz, ?_⟩
  cases hdir : s.dir with
  | asc =>
    rw [hdir] at hxy hyz
    exact lt_trans hxy hyz
  | desc =>
    rw [hdir] at hxy hyz
    exact lt_trans hyz hxy

theorem not_before_self {s : SortKey} : ¬ T.Before s a a := by
  rintro ⟨x, hx, y, hy, hxy⟩
  obtain rfl : x = y := Option.mem_unique hx hy
  cases hdir : s.dir <;> rw [hdir] at hxy <;> exact lt_irrefl _ hxy

/-- Only the sort fields count. -/
theorem precedes_congr {a' b' : T.Key} (ha : T.Agree sorts a a') (hb : T.Agree sorts b b') :
    T.Precedes sorts a b ↔ T.Precedes sorts a' b' := by
  induction sorts with
  | nil => simp
  | cons s sorts ih =>
    rw [Agree, List.forall_mem_cons] at ha hb
    rw [precedes_cons, precedes_cons, Before, Before, ha.1, hb.1, ih ha.2 hb.2]

theorem beyond_congr {a' b' : T.Key} (direction : SeekDirection) (ha : T.Agree sorts a a')
    (hb : T.Agree sorts b b') :
    T.Beyond direction sorts a b ↔ T.Beyond direction sorts a' b' := by
  cases direction with
  | after => exact precedes_congr ha hb
  | before => exact precedes_congr hb ha

theorem Precedes.trans (h : T.Precedes sorts a b) (h' : T.Precedes sorts b c) :
    T.Precedes sorts a c := by
  induction sorts with
  | nil => exact absurd h precedes_nil
  | cons s sorts ih =>
    rw [precedes_cons] at h h' ⊢
    rcases h with hab | ⟨hab, h⟩ <;> rcases h' with hbc | ⟨hbc, h'⟩
    · exact .inl (hab.trans hbc)
    · refine .inl ?_
      rwa [Before, ← hbc]
    · refine .inl ?_
      rwa [Before, hab]
    · exact .inr ⟨hab.trans hbc, ih h h'⟩

theorem not_precedes_self : ¬ T.Precedes sorts a a := by
  induction sorts with
  | nil => exact precedes_nil
  | cons s sorts ih =>
    rw [precedes_cons, not_or, not_and]
    exact ⟨not_before_self, fun _ => ih⟩

section Rows

variable (T) (d : Dialect) (sorts)

/-- Rows in an order that agrees with ORDER BY. -/
def Ordered (rows : List ρ) : Prop :=
  rows.Pairwise fun a b => T.compareKeys d sorts (T.cell a) (T.cell b) ≠ .gt

/-- No row has NULL in a sort field. -/
def Filled (rows : List ρ) : Prop := ∀ r ∈ rows, ∀ s ∈ sorts, T.cell r s.field ≠ none

/-- No two rows agree in all sort fields. -/
def Distinct (rows : List ρ) : Prop :=
  rows.Pairwise fun a b => ¬ T.Agree sorts (T.cell a) (T.cell b)

end Rows

variable {d : Dialect} {rows : List ρ}

/-- Without NULL one row comes before another if it precedes it or agrees with it. -/
lemma compareKeys_ne_gt_iff {x y : ρ} (hx : ∀ s ∈ sorts, T.cell x s.field ≠ none)
    (hy : ∀ s ∈ sorts, T.cell y s.field ≠ none) :
    T.compareKeys d sorts (T.cell x) (T.cell y) ≠ .gt ↔
      T.Precedes sorts (T.cell x) (T.cell y) ∨ T.Agree sorts (T.cell x) (T.cell y) := by
  rw [← compareKeys_eq_lt_iff d hx hy, Agree, ← compareKeys_eq_eq_iff d hx hy]
  cases T.compareKeys d sorts (T.cell x) (T.cell y) <;> simp

theorem exists_ordered (T : Table ρ) (d : Dialect) (h : T.Filled sorts rows) :
    ∃ ordered : List ρ, ordered.Perm rows ∧ T.Ordered sorts d ordered := by
  let le : {r // r ∈ rows} → {r // r ∈ rows} → Bool := fun x y =>
    decide (T.compareKeys d sorts (T.cell x) (T.cell y) ≠ .gt)
  have hle : ∀ x y, le x y = true ↔
      T.Precedes sorts (T.cell x) (T.cell y) ∨ T.Agree sorts (T.cell x) (T.cell y) := fun x y =>
    decide_eq_true_iff.trans (compareKeys_ne_gt_iff (h x x.2) (h y y.2))
  have htrans : ∀ x y z, le x y = true → le y z = true → le x z = true := by
    intro x y z hxy hyz
    rw [hle] at hxy hyz ⊢
    rcases hxy with hxy | hxy <;> rcases hyz with hyz | hyz
    · exact .inl (hxy.trans hyz)
    · exact .inl ((precedes_congr (.refl _) hyz).mp hxy)
    · exact .inl ((precedes_congr hxy (.refl _)).mpr hyz)
    · exact .inr (hxy.trans hyz)
  have htotal : ∀ x y, (le x y || le y x) = true := by
    intro x y
    simp only [le, Bool.or_eq_true, decide_eq_true_eq]
    rw [← compareKeys_swap d sorts (T.cell x) (T.cell y)]
    cases T.compareKeys d sorts (T.cell x) (T.cell y) <;> simp
  refine ⟨(rows.attach.mergeSort le).map Subtype.val, ?_, ?_⟩
  · exact ((List.mergeSort_perm _ _).map _).trans (.of_eq rows.attach_map_subtype_val)
  · refine List.pairwise_map.mpr ((List.pairwise_mergeSort htrans htotal _).imp ?_)
    exact fun hxy => of_decide_eq_true hxy

lemma Distinct.eq_of_agree (h : T.Distinct sorts rows) {x y : ρ} (hx : x ∈ rows) (hy : y ∈ rows)
    (hxy : T.Agree sorts (T.cell x) (T.cell y)) : x = y := by
  have hsymm : Std.Symm fun x y : ρ => ¬ T.Agree sorts (T.cell x) (T.cell y) :=
    ⟨fun _ _ hxy hyx => hxy hyx.symm⟩
  by_contra hne
  exact List.Pairwise.forall h hx hy hne hxy

lemma Distinct.perm {l : List ρ} (h : T.Distinct sorts rows) (hperm : l.Perm rows) :
    T.Distinct sorts l :=
  (hperm.pairwise_iff fun hxy hyx => hxy hyx.symm).mpr h

/-- There is one way to put distinct rows into order. -/
theorem Ordered.eq_of_perm {l l' : List ρ} (hl : T.Ordered sorts d l) (hl' : T.Ordered sorts d l')
    (hperm : l.Perm l') (hfilled : T.Filled sorts l) (hdistinct : T.Distinct sorts l) :
    l = l' := by
  refine List.Perm.eq_of_pairwise (fun x y hx hy hxy hyx => ?_) hl hl' hperm
  have hy : y ∈ l := hperm.mem_iff.mpr hy
  refine hdistinct.eq_of_agree hx hy ?_
  rw [compareKeys_ne_gt_iff (hfilled x hx) (hfilled y hy)] at hxy
  rw [compareKeys_ne_gt_iff (hfilled y hy) (hfilled x hx)] at hyx
  rcases hxy with hxy | hxy
  · rcases hyx with hyx | hyx
    · exact absurd (hxy.trans hyx) not_precedes_self
    · exact hyx.symm
  · exact hxy

/-- What holds of some way to put distinct rows into order holds of the only one. -/
theorem Ordered.exists_perm_iff {l base : List ρ} (hl : T.Ordered sorts d l)
    (hperm : l.Perm base) (hfilled : T.Filled sorts l) (hdistinct : T.Distinct sorts l)
    {P : List ρ → Prop} :
    (∃ ordered : List ρ, ordered.Perm base ∧ T.Ordered sorts d ordered ∧ P ordered) ↔ P l := by
  constructor
  · rintro ⟨ordered, hbase, hordered, hP⟩
    rwa [hl.eq_of_perm hordered (hperm.trans hbase.symm) hfilled hdistinct]
  · exact fun hP => ⟨l, hperm, hl, hP⟩

/-- Distinct rows in order are strictly in order. -/
theorem Ordered.pairwise_precedes {l : List ρ} (hl : T.Ordered sorts d l)
    (hfilled : T.Filled sorts l) (hdistinct : T.Distinct sorts l) :
    l.Pairwise fun x y => T.Precedes sorts (T.cell x) (T.cell y) := by
  refine (hl.and hdistinct).imp_of_mem fun {x y} hx hy hxy => ?_
  rw [compareKeys_ne_gt_iff (hfilled x hx) (hfilled y hy)] at hxy
  exact hxy.1.resolve_right hxy.2

/-- In strict order a row stands after those before it and before those after it. -/
lemma precedes_getElem {l : List ρ}
    (h : l.Pairwise fun x y => T.Precedes sorts (T.cell x) (T.cell y)) {n : ℕ}
    (hn : n < l.length) :
    (∀ y ∈ l.take n, T.Precedes sorts (T.cell y) (T.cell l[n])) ∧
      ∀ y ∈ l.drop (n + 1), T.Precedes sorts (T.cell l[n]) (T.cell y) := by
  have hsplit : l.take n ++ l[n] :: l.drop (n + 1) = l := by
    rw [← List.drop_eq_getElem_cons hn, List.take_append_drop]
  rw [← hsplit, List.pairwise_append, List.pairwise_cons] at h
  obtain ⟨-, ⟨hafter, -⟩, hbefore⟩ := h
  exact ⟨fun y hy => hbefore y hy _ List.mem_cons_self, hafter⟩

/-- The rows that precede a key come first, whether a row has this key or not. -/
theorem exists_take_precedes {l : List ρ}
    (h : l.Pairwise fun x y => T.Precedes sorts (T.cell x) (T.cell y)) (key : T.Key) :
    ∃ n ≤ l.length, (∀ y ∈ l.take n, T.Precedes sorts (T.cell y) key) ∧
      ∀ y ∈ l.drop n, ¬T.Precedes sorts (T.cell y) key := by
  induction l with
  | nil => exact ⟨0, le_rfl, by simp, by simp⟩
  | cons x l ih =>
    obtain ⟨hx, hl⟩ := List.pairwise_cons.mp h
    by_cases hkey : T.Precedes sorts (T.cell x) key
    · obtain ⟨n, hn, htake, hdrop⟩ := ih hl
      exact ⟨n + 1, Nat.succ_le_succ hn, List.forall_mem_cons.mpr ⟨hkey, htake⟩, hdrop⟩
    · refine ⟨0, Nat.zero_le _, by simp, List.forall_mem_cons.mpr ⟨hkey, fun y hy hy' => ?_⟩⟩
      exact hkey ((hx y hy).trans hy')

end BoundSql.Table
