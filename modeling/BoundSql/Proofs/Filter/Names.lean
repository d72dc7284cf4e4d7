import BoundSql.Identifier
import BoundSql.Keyset
import BoundSql.Proofs.Filter.Trees

/-!
# The names in a tree

Every field that the filters of a tree compare, for trees that calls bring and
for the condition of a keyset, which compares its sort fields and no others.
-/
namespace BoundSql

/-- Is every field that a tree compares an identifier? -/
def FilterTree.Named (e : FilterTree) : Prop :=
  ∀ f ∈ e.filters, Identifier.isValid f.field = true

theorem FilterTree.named_leaf {f : Filter} :
    (FilterTree.leaf f).Named ↔ Identifier.isValid f.field = true := by simp [Named]

theorem FilterTree.named_of_checkAll {use : Text} {e : FilterTree}
    (h : Identifier.checkAll use (e.filters.map Filter.field) = .ok ()) : e.Named := by
  intro f hf
  exact Identifier.checkAll_eq_ok_iff.mp h f.field (List.mem_map_of_mem hf)

lemma named_tree_filters {tree : Option FilterTree} {fs : List Filter}
    (ht : ∀ e ∈ tree, e.Named) (hf : ∀ f ∈ fs, Identifier.isValid f.field = true) :
    ∀ e ∈ tree.toList ++ fs.map .leaf, e.Named := by
  intro e he
  rcases List.mem_append.mp he with he | he
  · exact ht e (Option.mem_toList.mp he)
  · obtain ⟨f, hfm, rfl⟩ := List.mem_map.mp he
    exact FilterTree.named_leaf.mpr (hf f hfm)

namespace Keyset

variable {P : FilterTree → Prop}

/-- Conjunctions and disjunctions keep what their members have. -/
def KeptByJoins (P : FilterTree → Prop) : Prop :=
  ∀ op, op ≠ .not → ∀ es, (∀ e ∈ es, P e) → P (.group op es)

lemma conjoin_of_forall (hgroup : KeptByJoins P) {es : List FilterTree} (h : ∀ e ∈ es, P e) :
    P (FilterTree.conjoin es) := by
  unfold FilterTree.conjoin
  split
  · exact h _ (by simp)
  · exact hgroup .and (by simp) _ h

lemma disjoin_of_forall (hgroup : KeptByJoins P) {es : List FilterTree} (h : ∀ e ∈ es, P e) :
    P (disjoin es) := by
  unfold disjoin
  split
  · exact h _ (by simp)
  · exact hgroup .or (by simp) _ h

lemma branches_of_forall (hgroup : KeptByJoins P) {direction : SeekDirection}
    {agreed : List FilterTree} {pairs : List (SortKey × Value)}
    (hcompare : ∀ p ∈ pairs, ∀ op v, P (.compare p.1.field op v)) (h : ∀ a ∈ agreed, P a) :
    ∀ e ∈ branches direction agreed pairs, P e := by
  induction pairs generalizing agreed with
  | nil => simp [branches]
  | cons p rest ih =>
    obtain ⟨s, v⟩ := p
    have hnext : ∀ op, ∀ g ∈ agreed ++ [.compare s.field op v], P g := fun op =>
      List.forall_mem_append.mpr
        ⟨h, List.forall_mem_singleton.mpr (hcompare (s, v) (by simp) op v)⟩
    intro e he
    rw [branches, List.mem_cons] at he
    rcases he with rfl | he
    · exact conjoin_of_forall hgroup (hnext _)
    · exact ih (fun q hq => hcompare q (List.mem_cons_of_mem _ hq)) (hnext .eq) e he

/-- What comparisons of the sort fields have, and joins keep, the condition of a keyset has. -/
theorem toTree_induction (k : Keyset) (hgroup : KeptByJoins P)
    (hcompare : ∀ s ∈ k.sorts, ∀ op v, P (.compare s.field op v)) : P k.toTree := by
  refine disjoin_of_forall hgroup (branches_of_forall hgroup (fun p hp op v => ?_) (by simp))
  exact hcompare p.1 (List.of_mem_zip hp).1 op v

theorem named_toTree {k : Keyset} (h : ∀ s ∈ k.sorts, Identifier.isValid s.field = true) :
    k.toTree.Named := by
  refine k.toTree_induction (fun op _ es hes => ?_) fun s hs op v => ?_
  · intro f hf
    rw [FilterTree.filters_group, List.mem_flatMap] at hf
    obtain ⟨e, he, hf⟩ := hf
    exact hes e he f hf
  · exact FilterTree.named_leaf.mpr (h s hs)

theorem sorts_of_ofCursor {sorts : List SortKey} {cursor : Cursor} {direction : SeekDirection}
    {k : Keyset} (h : ofCursor? sorts cursor direction = some k) : k.sorts = sorts := by
  unfold ofCursor? at h
  split_ifs at h
  obtain ⟨values, -, rfl⟩ := Option.map_eq_some_iff.mp h
  rfl

end Keyset
end BoundSql
