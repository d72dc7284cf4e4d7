import BoundSql.Proofs.Filter.Binding
import BoundSql.Proofs.Filter.Names

/-!
# The truth of conditions

A test says what a comparison is worth once its parameters are in place: on some
row, say. The text of a condition is read by the precedence of SQL, its parameters
are put in the places of placeholders, and for every test what was read is worth
what the tree is worth, each filter by the comparison it is compiled to.
-/
namespace BoundSql
open Sql

namespace Truth

theorem and_eq_true {a b : Truth} : a.and b = some true ↔ a = some true ∧ b = some true := by
  revert a b
  decide

theorem or_eq_true {a b : Truth} : a.or b = some true ↔ a = some true ∨ b = some true := by
  revert a b
  decide

theorem foldr_and_eq_true {ts : List Truth} :
    ts.foldr Truth.and (some true) = some true ↔ ∀ t ∈ ts, t = some true := by
  induction ts with
  | nil => simp
  | cons t ts ih => simp [and_eq_true, ih]

theorem foldr_or_eq_true {ts : List Truth} :
    ts.foldr Truth.or (some false) = some true ↔ some true ∈ ts := by
  induction ts with
  | nil => simp
  | cons t ts ih => rw [List.foldr_cons, or_eq_true, ih, List.mem_cons, eq_comm]

end Truth

namespace FilterTree

mutual

/-- The truth of a tree whose filters have the given truths. -/
def value (t : Filter → Truth) : FilterTree → Truth
  | .leaf f => t f
  | .group op children => op.combine (valuesOf t children)

def valuesOf (t : Filter → Truth) : List FilterTree → List Truth
  | [] => []
  | e :: rest => e.value t :: valuesOf t rest

end

variable {t : Filter → Truth}

lemma valuesOf_eq_map (es : List FilterTree) : valuesOf t es = es.map (value t) := by
  induction es with
  | nil => rfl
  | cons e es ih => simp [valuesOf, ih]

@[simp] theorem value_leaf (f : Filter) : value t (.leaf f) = t f := by simp [value]

@[simp] theorem value_group (op : Connective) (es : List FilterTree) :
    value t (.group op es) = op.combine (es.map (value t)) := by
  simp [value, valuesOf_eq_map]

theorem conjunction_eq_true {es : List FilterTree} :
    (conjunction es).value t = some true ↔ ∀ e ∈ es, e.value t = some true := by
  simp [conjunction, Connective.combine, Truth.foldr_and_eq_true]

theorem disjunction_eq_true {es : List FilterTree} :
    (disjunction es).value t = some true ↔ ∃ e ∈ es, e.value t = some true := by
  simp [disjunction, Connective.combine, Truth.foldr_or_eq_true]

/-- Filters that are numbered from left to right and those that are looked at by themselves. -/
theorem truth_eq_value {v : ℕ → Truth} {e : FilterTree} {k : ℕ}
    (h : ∀ i f, e.filters[i]? = some f → v (k + i) = t f) : e.truth v k = e.value t := by
  induction e generalizing k with
  | leaf f =>
    rw [truth, value_leaf]
    exact h 0 f (by simp)
  | group op es ih =>
    rw [truth, value_group]
    rw [filters_group] at h
    congr 1
    induction es generalizing k with
    | nil => rfl
    | cons e es ih' =>
      rw [truths, List.map_cons]
      rw [List.flatMap_cons] at h
      congr 1
      · refine ih e (by simp) fun i f hf => h i f ?_
        rw [List.getElem?_append_left (List.getElem?_eq_some_iff.mp hf).1, hf]
      · refine ih' (fun a ha => ih a (List.mem_cons_of_mem e ha)) fun i f hf => ?_
        have hplace : (e.filters ++ es.flatMap filters)[e.filters.length + i]? = some f := by
          rwa [List.getElem?_append_right (Nat.le_add_right _ _), Nat.add_sub_cancel_left]
        rw [Nat.add_assoc]
        exact h _ f hplace

end FilterTree

/-- The truth of a formula that was read, its parameters in place, under a test of comparisons. -/
def Sql.Formula.truth (test : List Item → Truth) (formula : Formula) (params : List Value) :
    Truth := formula.eval (fun k => (bindAll formula.atoms params)[k]?.bind test) 0

/-- The truth of a filter: that of the comparison it is compiled to. -/
def Filter.truth (d : Dialect) (test : List Item → Truth) (f : Filter) : Truth :=
  test (Condition.ofFilter d f 1).items

variable {d : Dialect} {test : List Item → Truth}

theorem Filter.truth_eq (f : Filter) : f.truth d test = test (f.layout d).items := by
  rw [Filter.truth, Condition.items_ofFilter]

/-- A formula over the comparisons of filters, with their parameters and perhaps more. -/
lemma Sql.Formula.truth_of_atoms {formula : Formula} {e : FilterTree} {index : Double}
    (hf : ∀ f ∈ e.filters, Identifier.isValid f.field = true)
    (hatoms : formula.atoms = (Condition.leaves d e.filters index).parts.map lexemesOf)
    (heval : ∀ v, formula.eval v 0 = e.truth v 0) (more : List Value) :
    formula.truth test ((Condition.leaves d e.filters index).params ++ more) =
      e.value (Filter.truth d test) := by
  rw [Formula.truth, heval, hatoms, Condition.bindAll_leaves hf]
  refine FilterTree.truth_eq_value fun i f hi => ?_
  simp [hi, Filter.truth_eq]

namespace Condition

/-- The text of a tree is read as a formula that is worth what the tree is worth, for truths of its
comparisons in order and, with the parameters of the tree, under a test of comparisons. -/
theorem exists_truth_ofTree {e : FilterTree} (hproper : e.isProper = true) (hnamed : e.Named)
    (d : Dialect) (index : Double) :
    ∃ formula, readCondition (ofTree d e index).sql = some formula ∧
      (∀ v, formula.eval v 0 = e.truth v 0) ∧ ∀ test more,
      formula.truth test ((ofTree d e index).params ++ more) = e.value (Filter.truth d test) := by
  obtain ⟨formula, hmeans⟩ := exists_means (d := d) hproper hnamed index
  have hlex := lex_of_vetted (spaced_ofTree d e index) (vetted_ofTree hnamed index)
  refine ⟨formula, ?_, fun v => hmeans.eval v 0, fun test more => ?_⟩
  · exact readCondition_of_reads hlex hmeans.reads
  · rw [params_ofTree]
    exact Formula.truth_of_atoms hnamed hmeans.atoms (fun v => hmeans.eval v 0) more

/-- The same for the trees of a WHERE clause, whatever clause comes after it. -/
theorem exists_truth_ofTrees {es : List FilterTree} (hne : es ≠ [])
    (hproper : ∀ e ∈ es, e.isProper = true) (hnamed : ∀ e ∈ es, e.Named) (d : Dialect)
    (index : Double) {rest : List Text} (hrest : EndsCondition rest) :
    ∃ formula, Reader.start.read (lexemesOf (joined .and
        (Series.ofList (ofTree d) es index).parts) ++ rest) = some (formula, rest) ∧
      ∀ test more,
      formula.truth test ((Series.ofList (ofTree d) es index).params ++ more) =
        (FilterTree.conjunction es).value (Filter.truth d test) := by
  have hfilters : ∀ f ∈ (FilterTree.conjunction es).filters,
      Identifier.isValid f.field = true := by
    intro f hf
    rw [FilterTree.conjunction, FilterTree.filters_group, List.mem_flatMap] at hf
    obtain ⟨e, he, hf⟩ := hf
    exact hnamed e he f hf
  obtain ⟨fs, formula, hreads, hjoin, hatoms, heval⟩ := means_join (d := d) .and hne
    (fun e he index => exists_means (hproper e he) (hnamed e he) index) index
  have hparams : (Series.ofList (ofTree d) es index).params =
      (leaves d (FilterTree.conjunction es).filters index).params := by
    rw [← params_ofTree, FilterTree.conjunction, ofTree_group]
  rw [← FilterTree.filters_group .and] at hatoms
  refine ⟨formula, ?_, fun test more => ?_⟩
  · rw [lexemesOf_joined .and .and lexemes_and]
    exact read_conjunction hreads (map_lexemesOf_ne_nil hne index) hjoin hrest
  · rw [hparams]
    exact Formula.truth_of_atoms hfilters hatoms (fun v => by rw [heval]; rfl) more

end Condition
end BoundSql
