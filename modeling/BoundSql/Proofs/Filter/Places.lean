import BoundSql.Proofs.Filter.Truth

/-!
# Places in trees

A place of a filter in a tree is the path to it with what stands to the left and
to the right of the path. What the tree is worth depends on the filter in one
direction: more truth there makes it more true under an even number of negations
and less true under an odd number, and for some truths of the other filters it
follows that of the place exactly.
-/
namespace BoundSql
open Sql

namespace Truth

/-- One truth is no more true than another: unknown lies between false and true. -/
def AtMost (a b : Truth) : Prop :=
  (a = some true → b = some true) ∧ (b = some false → a = some false)

instance (a b : Truth) : Decidable (AtMost a b) := by
  unfold AtMost
  infer_instance

theorem AtMost.of_false (b : Truth) : AtMost (some false) b := ⟨by simp, fun _ => rfl⟩

theorem AtMost.not {a b : Truth} (h : AtMost a b) : AtMost b.not a.not := by
  revert a b
  decide

theorem AtMost.join {a b : Truth} (h : AtMost a b) (j : Join) (c : Truth) :
    AtMost (j.apply a c) (j.apply b c) ∧ AtMost (j.apply c a) (j.apply c b) := by
  cases j <;> revert a b c <;> decide

/-- Joined with others, before it and after it, more truth is no less true. -/
theorem AtMost.foldr {a b : Truth} (h : AtMost a b) (j : Join) (us ws : List Truth) :
    AtMost ((us ++ a :: ws).foldr j.apply j.unit) ((us ++ b :: ws).foldr j.apply j.unit) := by
  induction us with
  | nil => exact (h.join j _).1
  | cons u us ih => exact (ih.join j u).2

end Truth

namespace Sql.Join

lemma foldr_replicate (j : Join) (b : Bool) (n : ℕ) :
    (List.replicate (n + 1) (some b)).foldr j.apply j.unit = some b := by
  have hsame : j.apply (some b) (some b) = some b := by
    cases j <;> cases b <;> rfl
  induction n with
  | zero => exact j.apply_unit (some b)
  | succ n ih => rw [List.replicate_succ, List.foldr_cons, ih, hsame]

/-- Among operands that change nothing there is one that decides. -/
lemma foldr_units (j : Join) (m n : ℕ) (x : Truth) :
    (List.replicate m j.unit ++ x :: List.replicate n j.unit).foldr j.apply j.unit = x := by
  have hunit : ∀ y, j.apply j.unit y = y := by
    cases j <;> decide
  have hunits : ∀ m y, (List.replicate m j.unit).foldr j.apply y = y := by
    intro m y
    induction m with
    | zero => rfl
    | succ m ih => rw [List.replicate_succ, List.foldr_cons, ih, hunit]
  rw [List.foldr_append, List.foldr_cons, hunits, hunits, j.apply_unit]

end Sql.Join

/-- A path to a filter of a tree, with the trees on both sides of it. -/
inductive FilterPlace where
  | here
  | within (op : Connective) (before : List FilterTree) (inner : FilterPlace)
    (after : List FilterTree)

namespace FilterPlace

/-- The tree with a filter at the place. -/
def fill (f : Filter) : FilterPlace → FilterTree
  | here => .leaf f
  | within op before inner after => .group op (before ++ inner.fill f :: after)

/-- The filters before the place, from left to right. -/
def left : FilterPlace → List Filter
  | here => []
  | within _ before inner _ => before.flatMap FilterTree.filters ++ inner.left

/-- The filters after the place. -/
def right : FilterPlace → List Filter
  | here => []
  | within _ _ inner after => inner.right ++ after.flatMap FilterTree.filters

/-- The number of the place among the filters of the tree. -/
def index (c : FilterPlace) : ℕ := c.left.length

/-- How many negations are around the place. -/
def negations : FilterPlace → ℕ
  | here => 0
  | within op _ inner _ => inner.negations + if op = .not then 1 else 0

theorem filters_fill (c : FilterPlace) (f : Filter) :
    (c.fill f).filters = c.left ++ f :: c.right := by
  induction c with
  | here => rw [fill, FilterTree.filters_leaf, left, right, List.nil_append]
  | within op before inner after ih => simp [fill, left, right, ih]

theorem length_fill (c : FilterPlace) (f : Filter) :
    (c.fill f).filters.length = c.index + c.right.length + 1 := by
  rw [filters_fill, List.length_append, List.length_cons, index, Nat.add_assoc]

/-- Another filter at the place changes no group. -/
theorem isProper_fill {c : FilterPlace} {f : Filter} (h : (c.fill f).isProper = true)
    (g : Filter) : (c.fill g).isProper = true := by
  induction c with
  | here => exact FilterTree.isProper_leaf g
  | within op before inner after ih =>
    rw [fill, FilterTree.isProper_group] at h ⊢
    refine ⟨by simpa using h.1, fun e he => ?_⟩
    rcases List.mem_append.mp he with he | he
    · exact h.2 e (List.mem_append_left _ he)
    · rcases List.mem_cons.mp he with rfl | he
      · exact ih (h.2 _ (List.mem_append_right _ List.mem_cons_self))
      · exact h.2 e (List.mem_append_right _ (List.mem_cons_of_mem _ he))

theorem named_fill {c : FilterPlace} {f g : Filter} (h : (c.fill f).Named)
    (hg : Identifier.isValid g.field = true) : (c.fill g).Named := by
  intro g' hmem
  rw [filters_fill] at hmem
  have hother : ∀ f' ∈ c.left ++ c.right, Identifier.isValid f'.field = true := by
    refine fun f' hf' => h f' ?_
    rw [filters_fill]
    simp only [List.mem_append, List.mem_cons] at hf' ⊢
    exact hf'.imp_right .inr
  simp only [List.mem_append, List.mem_cons] at hmem hother
  rcases hmem with hmem | rfl | hmem
  · exact hother g' (.inl hmem)
  · exact hg
  · exact hother g' (.inr hmem)

end FilterPlace

namespace FilterTree

/-- A filter of a list of trees is in one of them. -/
lemma exists_child {es : List FilterTree} {i : ℕ} {f : Filter}
    (h : (es.flatMap filters)[i]? = some f) : ∃ before e after k, es = before ++ e :: after ∧
      i = (before.flatMap filters).length + k ∧ e.filters[k]? = some f := by
  induction es generalizing i with
  | nil => simp at h
  | cons e es ih =>
    rw [List.flatMap_cons] at h
    by_cases hi : i < e.filters.length
    · rw [List.getElem?_append_left hi] at h
      exact ⟨[], e, es, i, rfl, by simp, h⟩
    · rw [List.getElem?_append_right (Nat.le_of_not_lt hi)] at h
      obtain ⟨before, e', after, k, rfl, hk, hf⟩ := ih h
      refine ⟨e :: before, e', after, k, rfl, ?_, hf⟩
      rw [List.flatMap_cons, List.length_append]
      omega

/-- Every filter of a tree has its place. -/
theorem exists_place {e : FilterTree} {i : ℕ} {f : Filter} (h : e.filters[i]? = some f) :
    ∃ c : FilterPlace, c.fill f = e ∧ c.index = i := by
  induction e generalizing i with
  | leaf g =>
    obtain ⟨rfl, rfl⟩ : i = 0 ∧ g = f := by
      cases i <;> simp_all
    exact ⟨.here, rfl, rfl⟩
  | group op es ih =>
    rw [filters_group] at h
    obtain ⟨before, e, after, k, rfl, rfl, hf⟩ := exists_child h
    obtain ⟨c, rfl, rfl⟩ := ih e (by simp) hf
    exact ⟨.within op before c after, rfl, List.length_append⟩

section Congruence

variable {v w : ℕ → Truth} {es : List FilterTree}

theorem truths_append (es es' : List FilterTree) (k : ℕ) :
    truths v (es ++ es') k =
      truths v es k ++ truths v es' (k + (es.flatMap filters).length) := by
  induction es generalizing k with
  | nil => rfl
  | cons e es ih =>
    rw [List.cons_append, truths, truths, ih, List.flatMap_cons, List.length_append, Nat.add_assoc]
    rfl

lemma truths_congr_of {k : ℕ} (hes : ∀ e ∈ es, ∀ k, (∀ i, k ≤ i → i < k + e.filters.length →
      v i = w i) → e.truth v k = e.truth w k)
    (h : ∀ i, k ≤ i → i < k + (es.flatMap filters).length → v i = w i) :
    truths v es k = truths w es k := by
  induction es generalizing k with
  | nil => rfl
  | cons e es ih =>
    rw [List.flatMap_cons, List.length_append] at h
    rw [truths, truths, hes e (by simp) k fun i hi hlt => h i hi (by omega),
      ih (fun a ha => hes a (List.mem_cons_of_mem e ha)) fun i hi hlt => h i (by omega) (by omega)]

/-- The truth of a tree depends on its own filters only. -/
theorem truth_congr {e : FilterTree} {k : ℕ}
    (h : ∀ i, k ≤ i → i < k + e.filters.length → v i = w i) : e.truth v k = e.truth w k := by
  induction e generalizing k with
  | leaf f =>
    rw [truth, truth]
    exact h k le_rfl (by simp)
  | group op es ih =>
    rw [filters_group] at h
    rw [truth, truth, truths_congr_of (fun e he k => ih e he) h]

theorem truths_congr {k : ℕ} (h : ∀ i, k ≤ i → i < k + (es.flatMap filters).length → v i = w i) :
    truths v es k = truths w es k := truths_congr_of (fun _ _ _ => truth_congr) h

end Congruence

end FilterTree

namespace FilterPlace

variable {v w : ℕ → Truth}

/-- The truths of the trees on a path and beside it. -/
lemma truths_around (before : List FilterTree) (inner : FilterPlace) (after : List FilterTree)
    (f : Filter) (k : ℕ) : FilterTree.truths v (before ++ inner.fill f :: after) k =
      FilterTree.truths v before k ++
        (inner.fill f).truth v (k + (before.flatMap FilterTree.filters).length) ::
          FilterTree.truths v after (k + (before.flatMap FilterTree.filters).length +
            (inner.index + inner.right.length + 1)) := by
  rw [FilterTree.truths_append, FilterTree.truths, length_fill]

lemma index_within (op : Connective) (before : List FilterTree) (inner : FilterPlace)
    (after : List FilterTree) : (within op before inner after).index =
      (before.flatMap FilterTree.filters).length + inner.index := List.length_append

/-- More truth at a place makes the tree more true under an even number of negations and less true
under an odd number, whatever filter stands there. -/
theorem atMost_fill {c : FilterPlace} {k : ℕ} (hrest : ∀ i, i ≠ k + c.index → v i = w i)
    (hle : (v (k + c.index)).AtMost (w (k + c.index))) (f g : Filter) :
    (Even c.negations → ((c.fill f).truth v k).AtMost ((c.fill g).truth w k)) ∧
      (¬Even c.negations → ((c.fill g).truth w k).AtMost ((c.fill f).truth v k)) := by
  induction c generalizing k with
  | here => exact ⟨fun _ => hle, fun hodd => absurd Even.zero hodd⟩
  | within op before inner after ih =>
    rw [index_within, ← Nat.add_assoc] at hrest hle
    have hinner := ih hrest hle
    have hbefore : FilterTree.truths v before k = FilterTree.truths w before k :=
      FilterTree.truths_congr fun i _ hlt => hrest i (by omega)
    have hafter : ∀ n, inner.index < n →
        FilterTree.truths v after (k + (before.flatMap FilterTree.filters).length + n) =
          FilterTree.truths w after (k + (before.flatMap FilterTree.filters).length + n) :=
      fun n hn => FilterTree.truths_congr fun i hi _ => hrest i (by omega)
    rw [fill, fill, FilterTree.truth, FilterTree.truth, truths_around, truths_around, hbefore,
      hafter _ (by omega), negations]
    cases op with
    | and =>
      rw [if_neg (by decide), Nat.add_zero]
      exact ⟨fun h => (hinner.1 h).foldr .and _ _, fun h => (hinner.2 h).foldr .and _ _⟩
    | or =>
      rw [if_neg (by decide), Nat.add_zero]
      exact ⟨fun h => (hinner.1 h).foldr .or _ _, fun h => (hinner.2 h).foldr .or _ _⟩
    | not =>
      rw [if_pos rfl, Nat.even_add_one, not_not]
      exact ⟨fun h => ((hinner.2 h).foldr .and _ _).not, fun h => ((hinner.1 h).foldr .and _ _).not⟩

end FilterPlace

namespace FilterTree

lemma exists_truths_of {es : List FilterTree} {b : Bool}
    (h : ∀ e ∈ es, ∀ k, ∃ v, e.truth v k = some b) (k : ℕ) :
    ∃ v, truths v es k = List.replicate es.length (some b) := by
  induction es generalizing k with
  | nil => exact ⟨fun _ => none, rfl⟩
  | cons e es ih =>
    obtain ⟨v, hv⟩ := h e (by simp) k
    obtain ⟨w, hw⟩ := ih (fun a ha => h a (List.mem_cons_of_mem e ha)) (k + e.filters.length)
    -- The numbers of the first tree end where those of the others begin.
    refine ⟨fun i => if i < k + e.filters.length then v i else w i, ?_⟩
    have hfirst : e.truth (fun i => if i < k + e.filters.length then v i else w i) k =
        e.truth v k := truth_congr fun i _ hlt => if_pos hlt
    have hrest : truths (fun i => if i < k + e.filters.length then v i else w i) es
        (k + e.filters.length) = truths w es (k + e.filters.length) :=
      truths_congr fun i hi _ => if_neg (Nat.not_lt.mpr hi)
    rw [truths, hfirst, hrest, hv, hw]
    rfl

/-- A proper tree is true for some truths of its filters and false for others. -/
theorem exists_truth {e : FilterTree} (hproper : e.isProper = true) (b : Bool) (k : ℕ) :
    ∃ v, e.truth v k = some b := by
  induction e generalizing b k with
  | leaf f => exact ⟨fun _ => some b, rfl⟩
  | group op es ih =>
    obtain ⟨hsize, hes⟩ := isProper_group.mp hproper
    have hjoin : ∀ j : Join, (∀ ts, op.combine ts = ts.foldr j.apply j.unit) → 1 ≤ es.length →
        ∃ v, (group op es).truth v k = some b := by
      intro j hcombine hsome
      obtain ⟨n, hn⟩ : ∃ n, es.length = n + 1 := ⟨es.length - 1, by omega⟩
      obtain ⟨v, hv⟩ := exists_truths_of (fun e he k => ih e he (hes e he) b k) k
      exact ⟨v, by rw [truth, hv, hcombine, hn, j.foldr_replicate]⟩
    cases op with
    | not =>
      obtain ⟨e, rfl⟩ := List.length_eq_one_iff.mp (by simpa using hsize)
      obtain ⟨v, hv⟩ := ih e (by simp) (hes e (by simp)) (!b) k
      refine ⟨v, ?_⟩
      rw [truth, truths, truths, hv]
      cases b <;> rfl
    | and => exact hjoin .and (fun _ => rfl) (by simpa using hsize)
    | or => exact hjoin .or (fun _ => rfl) (by simpa using hsize)

/-- Several proper trees can change nothing together. -/
lemma exists_units {es : List FilterTree} (h : ∀ e ∈ es, e.isProper = true) (j : Join) (k : ℕ) :
    ∃ v, truths v es k = List.replicate es.length j.unit := by
  cases j with
  | and => exact exists_truths_of (fun e he k => exists_truth (h e he) true k) k
  | or => exact exists_truths_of (fun e he k => exists_truth (h e he) false k) k

end FilterTree

namespace FilterPlace

/-- Beside a path the numbers are others than on it, so the trees there can change nothing while
those on the path have any truth. -/
lemma exists_truths_around {before after : List FilterTree}
    (hbefore : ∀ e ∈ before, e.isProper = true) (hafter : ∀ e ∈ after, e.isProper = true)
    (inner : FilterPlace) (j : Join) (k : ℕ) (v : ℕ → Truth) :
    ∃ w, ∀ t g, FilterTree.truths (Function.update w
        (k + (before.flatMap FilterTree.filters).length + inner.index) t)
        (before ++ inner.fill g :: after) k =
      List.replicate before.length j.unit ++
        (inner.fill g).truth (Function.update v
          (k + (before.flatMap FilterTree.filters).length + inner.index) t)
          (k + (before.flatMap FilterTree.filters).length) ::
        List.replicate after.length j.unit := by
  obtain ⟨m, hm⟩ : ∃ m, k + (before.flatMap FilterTree.filters).length = m := ⟨_, rfl⟩
  obtain ⟨n, hn⟩ : ∃ n, m + (inner.index + inner.right.length + 1) = n := ⟨_, rfl⟩
  obtain ⟨u, hu⟩ := FilterTree.exists_units hbefore j k
  obtain ⟨w, hw⟩ := FilterTree.exists_units hafter j n
  refine ⟨fun i => if i < m then u i else if i < n then v i else w i, fun t g => ?_⟩
  rw [truths_around, hm, hn]
  obtain ⟨x, hx⟩ : ∃ x, x = Function.update
      (fun i => if i < m then u i else if i < n then v i else w i) (m + inner.index) t := ⟨_, rfl⟩
  have hleft : FilterTree.truths x before k = FilterTree.truths u before k :=
    FilterTree.truths_congr fun i _ hlt => by
      rw [hx, Function.update_of_ne (by omega), if_pos (by omega)]
  have hright : FilterTree.truths x after n = FilterTree.truths w after n :=
    FilterTree.truths_congr fun i hi _ => by
      rw [hx, Function.update_of_ne (by omega), if_neg (by omega), if_neg (by omega)]
  have hinner : (inner.fill g).truth x m =
      (inner.fill g).truth (Function.update v (m + inner.index) t) m := by
    refine FilterTree.truth_congr fun i hi hlt => ?_
    rw [length_fill] at hlt
    by_cases hplace : i = m + inner.index
    · rw [hx, hplace, Function.update_self, Function.update_self]
    · rw [hx, Function.update_of_ne hplace, Function.update_of_ne hplace, if_neg (by omega),
        if_pos (by omega)]
  rw [← hx, hleft, hright, hinner, hu, hw]

/-- For some truths of the other filters a proper tree is worth what stands at the place, negated
as often as there are negations around it. -/
theorem exists_follows {c : FilterPlace} {f : Filter} (hproper : (c.fill f).isProper = true)
    (k : ℕ) : ∃ v, ∀ t g, (c.fill g).truth (Function.update v (k + c.index) t) k =
      Truth.not^[c.negations] t := by
  induction c generalizing k with
  | here =>
    refine ⟨fun _ => none, fun t g => ?_⟩
    rw [fill, FilterTree.truth]
    simp [index, left, negations]
  | within op before inner after ih =>
    obtain ⟨-, hes⟩ := FilterTree.isProper_group.mp hproper
    have hbefore : ∀ e ∈ before, e.isProper = true := fun e he => hes e (by simp [he])
    have hafter : ∀ e ∈ after, e.isProper = true := fun e he => hes e (by simp [he])
    obtain ⟨v, hv⟩ := ih (hes _ (by simp)) (k + (before.flatMap FilterTree.filters).length)
    -- A negation has nothing beside the path, and is one of the conjunction of its children.
    have hjoin : ∀ j : Join, ∃ w, ∀ t g,
        (FilterTree.truths (Function.update w (k + (within op before inner after).index) t)
          (before ++ inner.fill g :: after) k).foldr j.apply j.unit =
            Truth.not^[inner.negations] t := by
      intro j
      obtain ⟨w, hw⟩ := exists_truths_around hbefore hafter inner j k v
      refine ⟨w, fun t g => ?_⟩
      rw [index_within, ← Nat.add_assoc, hw, hv, j.foldr_units]
    cases op with
    | not =>
      obtain ⟨w, hw⟩ := hjoin .and
      refine ⟨w, fun t g => ?_⟩
      rw [fill, FilterTree.truth, negations, if_pos rfl, Function.iterate_succ_apply', ← hw t g]
      rfl
    | and =>
      obtain ⟨w, hw⟩ := hjoin .and
      exact ⟨w, hw⟩
    | or =>
      obtain ⟨w, hw⟩ := hjoin .or
      exact ⟨w, hw⟩

/-- A tree with a false filter at the place is true only if it is true with another filter there,
whatever that one is worth and whatever the other filters of the tree are worth. -/
def FailsClosed (c : FilterPlace) (f g : Filter) : Prop :=
  ∀ v t, (c.fill f).truth (Function.update v c.index (some false)) 0 = some true →
    (c.fill g).truth (Function.update v c.index t) 0 = some true

/-- With a false filter it is true whenever it is with another one. -/
def FailsOpen (c : FilterPlace) (f g : Filter) : Prop :=
  ∀ v t, (c.fill g).truth (Function.update v c.index t) 0 = some true →
    (c.fill f).truth (Function.update v c.index (some false)) 0 = some true

variable {c : FilterPlace} {f g : Filter}

lemma atMost_update (v : ℕ → Truth) (t : Truth) :
    (Even c.negations → ((c.fill f).truth (Function.update v c.index (some false)) 0).AtMost
        ((c.fill g).truth (Function.update v c.index t) 0)) ∧
      (¬Even c.negations → ((c.fill g).truth (Function.update v c.index t) 0).AtMost
        ((c.fill f).truth (Function.update v c.index (some false)) 0)) := by
  have hindex : 0 + c.index = c.index := Nat.zero_add _
  refine atMost_fill (fun i hi => ?_) ?_ f g
  · rw [hindex] at hi
    rw [Function.update_of_ne hi, Function.update_of_ne hi]
  · rw [hindex, Function.update_self]
    exact .of_false _

/-- A false filter fails closed under an even number of negations and nowhere else. -/
theorem failsClosed_iff (hproper : (c.fill f).isProper = true) :
    c.FailsClosed f g ↔ Even c.negations := by
  refine ⟨fun h => ?_, fun heven v t => ((atMost_update v t).1 heven).1⟩
  by_contra hodd
  obtain ⟨v, hv⟩ := exists_follows hproper 0
  have hflip : Truth.not^[c.negations] = Truth.not := by
    have hnot : ∀ a : Truth, a.not.not = a := by decide
    exact Function.Involutive.iterate_odd hnot (Nat.not_even_iff_odd.mp hodd)
  simp only [Nat.zero_add, hflip] at hv
  have htrue := h v (some true) (hv (some false) f)
  rw [hv] at htrue
  exact absurd htrue (by decide)

theorem failsOpen_of_odd (h : ¬Even c.negations) : c.FailsOpen f g := fun v t =>
  ((atMost_update v t).2 h).1

lemma getElem?_fill_self (c : FilterPlace) (f : Filter) :
    (c.fill f).filters[c.index]? = some f := by
  rw [filters_fill, index, List.getElem?_append_right le_rfl, Nat.sub_self, List.getElem?_cons_zero]

lemma getElem?_fill_of_ne {i : ℕ} (h : i ≠ c.index) (f g : Filter) :
    (c.fill f).filters[i]? = (c.fill g).filters[i]? := by
  rw [index] at h
  rw [filters_fill, filters_fill]
  by_cases hlt : i < c.left.length
  · rw [List.getElem?_append_left hlt, List.getElem?_append_left hlt]
  · obtain ⟨k, rfl⟩ : ∃ k, i = c.left.length + (k + 1) := ⟨i - c.left.length - 1, by omega⟩
    rw [List.getElem?_append_right (Nat.le_add_right _ _),
      List.getElem?_append_right (Nat.le_add_right _ _), Nat.add_sub_cancel_left,
      List.getElem?_cons_succ, List.getElem?_cons_succ]

/-- Truths that filters have by themselves are, numbered through, the same for two filters at a
place but for the place. -/
lemma value_fill (t : Filter → Truth) (c : FilterPlace) (f g : Filter) :
    (c.fill g).value t = (c.fill g).truth
      (Function.update (fun i => (c.fill f).filters[i]?.bind t) c.index (t g)) 0 := by
  refine (FilterTree.truth_eq_value fun i f' hi => ?_).symm
  rw [Nat.zero_add]
  by_cases hplace : i = c.index
  · rw [hplace, getElem?_fill_self] at hi
    rw [hplace, Function.update_self, Option.some_inj.mp hi]
  · rw [Function.update_of_ne hplace, getElem?_fill_of_ne hplace f g, hi, Option.bind_some]

/-- Where a place fails closed, no truths that filters have by themselves let the tree with a
false filter be true but those that let it be with the other one. -/
theorem FailsClosed.value (h : c.FailsClosed f g) {t : Filter → Truth} (hf : t f = some false)
    (htrue : (c.fill f).value t = some true) : (c.fill g).value t = some true := by
  rw [value_fill t c f g]
  rw [value_fill t c f f, hf] at htrue
  exact h _ _ htrue

end FilterPlace

end BoundSql
