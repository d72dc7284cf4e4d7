import BoundSql.Proofs.Filter.Comparisons

/-!
# The meaning of conditions

The text of a tree, read by the precedence of SQL, is a formula whose
comparisons are those of the tree's filters in order and whose truth is that of
the tree, in three-valued logic and whatever the comparisons are worth. A group
of one child is written without parentheses and is that child; any other group
brings its own.
-/
namespace BoundSql
open Sql

/-- What a group makes of the truth of its children; a negation negates their conjunction. -/
def Connective.combine : Connective → List Truth → Truth
  | .and, ts => ts.foldr Truth.and (some true)
  | .or, ts => ts.foldr Truth.or (some false)
  | .not, ts => (ts.foldr Truth.and (some true)).not

namespace FilterTree

mutual

/-- The truth of a tree under an assignment to its filters, of which the first has the given
place. -/
def truth (v : ℕ → Truth) : FilterTree → ℕ → Truth
  | .leaf _, k => v k
  | .group op children, k => op.combine (truths v children k)

def truths (v : ℕ → Truth) : List FilterTree → ℕ → List Truth
  | [], _ => []
  | e :: rest, k => e.truth v k :: truths v rest (k + e.filters.length)

end

end FilterTree

namespace Sql.Formula

/-- The truths of several formulas whose comparisons are numbered through. -/
def evalAll (v : ℕ → Truth) : List Formula → ℕ → List Truth
  | [], _ => []
  | f :: fs, k => f.eval v k :: evalAll v fs (k + f.atoms.length)

/-- What is joined from left to right is worth the same joined from right to left. -/
lemma joinAll_after {j : Join} {g f : Formula} {fs : List Formula}
    (h : joinAll j (some g) fs = some f) : f.atoms = g.atoms ++ fs.flatMap atoms ∧
      ∀ v k, f.eval v k = j.apply (g.eval v k)
        ((evalAll v fs (k + g.atoms.length)).foldr j.apply j.unit) := by
  induction fs generalizing g with
  | nil =>
    obtain rfl : g = f := Option.some.inj h
    exact ⟨by simp, fun v k => (j.apply_unit _).symm⟩
  | cons a fs ih =>
    obtain ⟨hatoms, heval⟩ := ih (g := .join j g a) h
    refine ⟨by simp [hatoms, atoms], fun v k => ?_⟩
    rw [heval, eval, j.apply_assoc]
    simp only [evalAll, List.foldr_cons, atoms, List.length_append, Nat.add_assoc]

theorem joinAll_cons (j : Join) (a : Formula) (fs : List Formula) :
    ∃ f, joinAll j none (a :: fs) = some f ∧ f.atoms = (a :: fs).flatMap atoms ∧
      ∀ v k, f.eval v k = (evalAll v (a :: fs) k).foldr j.apply j.unit := by
  have hsome : ∀ (bs : List Formula) (g : Formula), ∃ f, joinAll j (some g) bs = some f := by
    intro bs
    induction bs with
    | nil => exact fun g => ⟨g, rfl⟩
    | cons b bs ih => exact fun g => ih (.join j g b)
  obtain ⟨f, hf⟩ := hsome fs a
  obtain ⟨hatoms, heval⟩ := joinAll_after hf
  exact ⟨f, hf, by simp [hatoms], fun v k => by rw [heval, evalAll, List.foldr_cons]⟩

end Sql.Formula

namespace Series

theorem ofList_append {α : Type} (piece : α → Double → Condition) (as bs : List α)
    (index : Double) :
    (ofList piece (as ++ bs) index).parts = (ofList piece as index).parts ++
        (ofList piece bs (ofList piece as index).next).parts ∧
      (ofList piece (as ++ bs) index).next =
        (ofList piece bs (ofList piece as index).next).next := by
  induction as generalizing index with
  | nil => exact ⟨rfl, rfl⟩
  | cons a as ih =>
    obtain ⟨hparts, hnext⟩ := ih (piece a index).next
    exact ⟨by simp [ofList, cons, hparts], hnext⟩

end Series

namespace Condition

/-- The conditions of the filters of a tree, numbered like those in the tree. -/
def leaves (d : Dialect) (fs : List Filter) (index : Double) : Series :=
  Series.ofList (ofFilter d) fs index

/-- A tree hands on the number that its filters alone would hand on. -/
theorem next_ofTree (d : Dialect) (e : FilterTree) (index : Double) :
    (ofTree d e index).next = (leaves d e.filters index).next := by
  induction e generalizing index with
  | leaf f =>
    rw [ofTree_leaf, FilterTree.filters_leaf]
    rfl
  | group op es ih =>
    rw [ofTree_group, FilterTree.filters_group]
    simp only
    induction es generalizing index with
    | nil => rfl
    | cons e es ih' =>
      have hfirst := ih e (by simp) index
      have hrest := ih' (fun a ha => ih a (List.mem_cons_of_mem e ha)) (ofTree d e index).next
      calc (Series.ofList (ofTree d) (e :: es) index).next
          = (Series.ofList (ofTree d) es (ofTree d e index).next).next := rfl
        _ = (leaves d (es.flatMap FilterTree.filters) (leaves d e.filters index).next).next := by
          rw [hrest, hfirst]
        _ = (leaves d ((e :: es).flatMap FilterTree.filters) index).next := by
          rw [List.flatMap_cons, leaves, leaves, leaves, (Series.ofList_append _ _ _ _).2]

/-- A formula that the condition of a tree is read as and that has its meaning. -/
structure Means (d : Dialect) (e : FilterTree) (index : Double) (f : Formula) : Prop where
  reads : Reads (lexemesOf (ofTree d e index).tokens) f
  atoms : f.atoms = (leaves d e.filters index).parts.map lexemesOf
  eval : ∀ v k, f.eval v k = e.truth v k

lemma Means.length {d : Dialect} {e : FilterTree} {index : Double} {f : Formula}
    (h : Means d e index f) : f.atoms.length = e.filters.length := by
  rw [h.atoms, List.length_map, leaves, Series.length_parts]

/-- The formulas of several trees that are numbered through. -/
lemma means_list {d : Dialect} {es : List FilterTree}
    (h : ∀ e ∈ es, ∀ index, ∃ f, Means d e index f) (index : Double) :
    ∃ fs, List.Forall₂ Reads ((Series.ofList (ofTree d) es index).parts.map lexemesOf) fs ∧
      fs.flatMap Formula.atoms =
        (leaves d (es.flatMap FilterTree.filters) index).parts.map lexemesOf ∧
      ∀ v k, Formula.evalAll v fs k = FilterTree.truths v es k := by
  induction es generalizing index with
  | nil => exact ⟨[], .nil, rfl, fun v k => rfl⟩
  | cons e es ih =>
    obtain ⟨f, hf⟩ := h e (by simp) index
    obtain ⟨fs, hreads, hatoms, heval⟩ :=
      ih (fun a ha => h a (List.mem_cons_of_mem e ha)) (ofTree d e index).next
    refine ⟨f :: fs, .cons hf.reads hreads, ?_, fun v k => ?_⟩
    · rw [List.flatMap_cons, List.flatMap_cons, hf.atoms, hatoms, leaves, leaves, leaves,
        (Series.ofList_append _ _ _ _).1, List.map_append, next_ofTree, leaves]
    · rw [Formula.evalAll, FilterTree.truths, hf.eval, hf.length, heval]

lemma lexemesOf_joined (w : Word) (j : Join) (hw : (Token.word w).lexemes = [j.keyword])
    (parts : List (List Token)) :
    lexemesOf (joined w parts) = List.intercalate [j.keyword] (parts.map lexemesOf) := by
  simp [joined, lexemesOf_intercalate, hw]

lemma map_lexemesOf_ne_nil {d : Dialect} {es : List FilterTree} (hne : es ≠ [])
    (index : Double) : (Series.ofList (ofTree d) es index).parts.map lexemesOf ≠ [] := by
  intro hnil
  have hlength := congrArg List.length hnil
  rw [List.length_map, Series.length_parts, List.length_nil, List.length_eq_zero_iff] at hlength
  exact hne hlength

/-- What several trees mean when they are joined by one connective. -/
lemma means_join {d : Dialect} {es : List FilterTree} (j : Join) (hne : es ≠ [])
    (h : ∀ e ∈ es, ∀ index, ∃ f, Means d e index f) (index : Double) :
    ∃ fs f, List.Forall₂ Reads ((Series.ofList (ofTree d) es index).parts.map lexemesOf) fs ∧
      Formula.joinAll j none fs = some f ∧
      f.atoms = (leaves d (es.flatMap FilterTree.filters) index).parts.map lexemesOf ∧
      ∀ v k, f.eval v k = (FilterTree.truths v es k).foldr j.apply j.unit := by
  obtain ⟨fs, hreads, hatoms, heval⟩ := means_list h index
  cases fs with
  | nil =>
    exact absurd (List.forall₂_nil_right_iff.mp hreads) (map_lexemesOf_ne_nil hne index)
  | cons g fs =>
    obtain ⟨f, hjoin, hfatoms, hfeval⟩ := Formula.joinAll_cons j g fs
    refine ⟨g :: fs, f, hreads, hjoin, hfatoms.trans hatoms, fun v k => ?_⟩
    rw [hfeval, heval]

/-- A group of one child is its child. -/
lemma means_single {d : Dialect} {op : Connective} (hop : op ≠ .not) {e : FilterTree}
    {index : Double} {f : Formula} (h : Means d e index f) : Means d (.group op [e]) index f := by
  have htokens : (ofTree d (.group op [e]) index).tokens = (ofTree d e index).tokens := by
    rw [ofTree_group]
    cases op with
    | not => exact absurd rfl hop
    | _ => rfl
  refine ⟨by rw [htokens]; exact h.reads, by simpa using h.atoms, fun v k => ?_⟩
  rw [h.eval, FilterTree.truth, FilterTree.truths, FilterTree.truths]
  cases op with
  | not => exact absurd rfl hop
  | and => exact (Join.and.apply_unit _).symm
  | or => exact (Join.or.apply_unit _).symm

/-- A group of several children is their formulas joined, in parentheses. -/
lemma exists_means_group {d : Dialect} {op : Connective} {w : Word} {j : Join} (hop : op ≠ .not)
    (hw : (Token.word w).lexemes = [j.keyword])
    (htokens : ∀ p q ps, groupTokens op (p :: q :: ps) = paren (joined w (p :: q :: ps)))
    (hcombine : ∀ ts, op.combine ts = ts.foldr j.apply j.unit) {es : List FilterTree}
    (hne : es ≠ []) (h : ∀ e ∈ es, ∀ index, ∃ f, Means d e index f) (index : Double) :
    ∃ f, Means d (.group op es) index f := by
  by_cases hsingle : es.length = 1
  · obtain ⟨e, rfl⟩ := List.length_eq_one_iff.mp hsingle
    obtain ⟨f, hf⟩ := h e (by simp) index
    exact ⟨f, means_single hop hf⟩
  · obtain ⟨fs, f, hreads, hjoin, hatoms, heval⟩ := means_join j hne h index
    have hlength : (Series.ofList (ofTree d) es index).parts.length = es.length :=
      Series.length_parts es index
    obtain ⟨p, q, ps, hparts⟩ : ∃ p q ps, (Series.ofList (ofTree d) es index).parts =
        p :: q :: ps := by
      rcases hcases : (Series.ofList (ofTree d) es index).parts with _ | ⟨p, _ | ⟨q, ps⟩⟩
      · rw [hcases, List.length_nil] at hlength
        exact absurd (List.length_eq_zero_iff.mp hlength.symm) hne
      · rw [hcases] at hlength
        exact absurd hlength.symm hsingle
      · exact ⟨p, q, ps, rfl⟩
    refine ⟨f, ?_, by simpa using hatoms, fun v k => ?_⟩
    · rw [ofTree_group, hparts, htokens, ← hparts, lexemesOf_paren, lexemesOf_joined w j hw]
      exact reads_group j hreads (map_lexemesOf_ne_nil hne index) hjoin
    · rw [heval, FilterTree.truth, hcombine]

/-- The negation of a child is that child in parentheses after NOT. -/
lemma means_negation {d : Dialect} {e : FilterTree} {index : Double} {f : Formula}
    (h : Means d e index f) : Means d (.group .not [e]) index (.neg f) := by
  refine ⟨?_, by simpa [Formula.atoms] using h.atoms, fun v k => ?_⟩
  · rw [ofTree_group]
    simpa [groupTokens, Series.ofList, Series.cons, lexemes_not] using reads_negation h.reads
  · rw [Formula.eval, h.eval, FilterTree.truth, FilterTree.truths, FilterTree.truths]
    exact congrArg Truth.not (Join.and.apply_unit _).symm

/-- Every proper tree over identifiers is read as a formula with its meaning. -/
theorem exists_means {d : Dialect} {e : FilterTree} (hproper : e.isProper = true)
    (hf : ∀ f ∈ e.filters, Identifier.isValid f.field = true) (index : Double) :
    ∃ f, Means d e index f := by
  induction e generalizing index with
  | leaf f =>
    refine ⟨.atom (lexemesOf (ofFilter d f index).tokens), ?_, ?_, fun v k => ?_⟩
    · rw [ofTree_leaf]
      exact reads_ofFilter (hf f (by simp)) index
    · rw [FilterTree.filters_leaf]
      rfl
    · rw [FilterTree.truth]
      rfl
  | group op es ih =>
    obtain ⟨hsize, hes⟩ := FilterTree.isProper_group.mp hproper
    have hchild : ∀ e ∈ es, ∀ index, ∃ f, Means d e index f := by
      refine fun e he index => ih e he (hes e he) (fun f hfe => hf f ?_) index
      rw [FilterTree.filters_group]
      exact List.mem_flatMap.mpr ⟨e, he, hfe⟩
    cases op with
    | not =>
      obtain ⟨e, rfl⟩ := List.length_eq_one_iff.mp (by simpa using hsize)
      obtain ⟨f, hf⟩ := hchild e (by simp) index
      exact ⟨.neg f, means_negation hf⟩
    | and =>
      have hsome : 1 ≤ es.length := by simpa using hsize
      exact exists_means_group (by simp) lexemes_and (fun _ _ _ => rfl) (fun _ => rfl)
        (List.length_pos_iff.mp hsome) hchild index
    | or =>
      have hsome : 1 ≤ es.length := by simpa using hsize
      exact exists_means_group (by simp) lexemes_or (fun _ _ _ => rfl) (fun _ => rfl)
        (List.length_pos_iff.mp hsome) hchild index

/-- The lexemes of a condition are those of its tokens. -/
lemma lex_of_vetted {d : Dialect} {ts : List Token} (hspaced : Spaced ts)
    (hvetted : AllVetted d [] (fun _ => True) ts) : lex (render ts) = lexemesOf ts :=
  lex_render hspaced fun t ht => Token.closed_of_vetted (hvetted t ht)

lemma lex_leaves {d : Dialect} {fs : List Filter}
    (hf : ∀ f ∈ fs, Identifier.isValid f.field = true) (index : Double) :
    (leaves d fs index).parts.map (fun p => lex (render p)) =
      (leaves d fs index).parts.map lexemesOf := by
  have hparts : ∀ p ∈ (leaves d fs index).parts, lex (render p) = lexemesOf p :=
    Series.forall_parts (fun f hmem i => lex_of_vetted (spaced_ofFilter d f i)
      (counts_ofFilter (fun _ _ _ => trivial) (hf f hmem) trivial).1) index
  exact List.map_congr_left hparts

/-- Whatever the numbers in a tree are, its tokens are vetted. -/
lemma vetted_ofTree {d : Dialect} {e : FilterTree}
    (hf : ∀ f ∈ e.filters, Identifier.isValid f.field = true) (index : Double) :
    AllVetted d [] (fun _ => True) (ofTree d e index).tokens :=
  (counts_ofTree (fun _ _ _ => trivial) hf trivial).1

lemma lex_joined {d : Dialect} {es : List FilterTree}
    (hf : ∀ e ∈ es, ∀ f ∈ e.filters, Identifier.isValid f.field = true) (index : Double) :
    lex (render (joined .and (Series.ofList (ofTree d) es index).parts)) =
      lexemesOf (joined .and (Series.ofList (ofTree d) es index).parts) :=
  lex_of_vetted (spaced_joined (Series.forall_parts (fun e _ i => spaced_ofTree d e i) index))
    (allVetted_joined (Series.forall_parts (fun e he i => vetted_ofTree (hf e he) i) index))

/-- The text of a tree, read by the precedence of SQL, is a formula over the conditions of its
filters in order, with the truth of the tree for every assignment of truths to them; and the
text of several trees in a WHERE clause is read as their conjunction. -/
theorem readCondition_sql (d : Dialect) (index : Double) :
    (∀ e : FilterTree, e.isProper = true →
      (∀ f ∈ e.filters, Identifier.isValid f.field = true) →
      ∃ formula, readCondition (ofTree d e index).sql = some formula ∧
        formula.atoms = (Series.ofList (ofFilter d) e.filters index).parts.map
          (fun p => lex (render p)) ∧
        ∀ v, formula.eval v 0 = e.truth v 0) ∧
    ∀ es : List FilterTree, es ≠ [] → (∀ e ∈ es, e.isProper = true) →
      (∀ e ∈ es, ∀ f ∈ e.filters, Identifier.isValid f.field = true) →
      ∃ c formula, ofWhere? d es index = some c ∧ readCondition c.sql = some formula ∧
        formula.atoms = (Series.ofList (ofFilter d) (es.flatMap FilterTree.filters)
          index).parts.map (fun p => lex (render p)) ∧
        ∀ v, formula.eval v 0 = (FilterTree.conjunction es).truth v 0 := by
  constructor
  · intro e hproper hf
    obtain ⟨formula, hmeans⟩ := exists_means (d := d) hproper hf index
    refine ⟨formula, ?_, ?_, fun v => hmeans.eval v 0⟩
    · have hlex := lex_of_vetted (spaced_ofTree d e index) (vetted_ofTree hf index)
      exact readCondition_of_reads hlex hmeans.reads
    · rw [hmeans.atoms, ← lex_leaves hf]
      rfl
  · intro es hne hproper hf
    have hfilters : ∀ f ∈ es.flatMap FilterTree.filters, Identifier.isValid f.field = true := by
      intro f hmem
      obtain ⟨e, he, hfe⟩ := List.mem_flatMap.mp hmem
      exact hf e he f hfe
    obtain ⟨fs, formula, hreads, hjoin, hatoms, heval⟩ := means_join (d := d) .and hne
      (fun e he index => exists_means (hproper e he) (hf e he) index) index
    have hnonempty : es.isEmpty = false := by simpa using hne
    have hparts := map_lexemesOf_ne_nil (d := d) hne index
    refine ⟨_, formula, by rw [ofWhere?, hnonempty]; rfl, ?_, ?_, fun v => ?_⟩
    · have hlexemes := lexemesOf_joined .and .and lexemes_and
      refine readCondition_of_conjunction ?_ hreads hparts hjoin
      rw [Condition.sql, ofTrees_eq_ofList, lex_joined hf index, hlexemes]
    · rw [hatoms, ← lex_leaves hfilters]
      rfl
    · rw [heval, FilterTree.conjunction, FilterTree.truth]
      rfl

/-- A range is one comparison of a negated group, and of a clause without parentheses. -/
theorem readCondition_sql_of_range :
    let range : FilterTree := .compare "a" .between (.array [.null, .null])
    let item : FilterTree := .compare "not" .isIn (.array [.null])
    (∃ formula, readCondition (ofTree .sqlite (.negation (.disjunction [range, item])) 1).sql =
        some formula ∧ formula.atoms.length = 2 ∧
        ∀ v, formula.eval v 0 = ((v 0).or (v 1)).not) ∧
      ∃ c formula, ofWhere? .postgres [.disjunction [item, range], range] 1 = some c ∧
        readCondition c.sql = some formula ∧ formula.atoms.length = 3 ∧
        ∀ v, formula.eval v 0 = ((v 0).or (v 1)).and (v 2) := by
  intro range item
  obtain ⟨formula, hread, hatoms, heval⟩ := (readCondition_sql .sqlite 1).1
    (.negation (.disjunction [range, item])) (by decide) (by decide)
  obtain ⟨c, formula', hc, hread', hatoms', heval'⟩ := (readCondition_sql .postgres 1).2
    [.disjunction [item, range], range] (by simp) (by decide) (by decide)
  have htrue : ∀ a : Truth, a.and (some true) = a := Join.and.apply_unit
  have hfalse : ∀ a : Truth, a.or (some false) = a := Join.or.apply_unit
  refine ⟨⟨formula, hread, ?_, fun v => ?_⟩, c, formula', hc, hread', ?_, fun v => ?_⟩
  · rw [hatoms, List.length_map, Series.length_parts]
    rfl
  · rw [heval]
    have hvalue : (FilterTree.disjunction [range, item]).negation.truth v 0 =
        (((v 0).or ((v 1).or (some false))).and (some true)).not := by
      simp [FilterTree.negation, FilterTree.disjunction, FilterTree.truth, FilterTree.truths,
        Connective.combine, range, item, FilterTree.compare]
    rw [hvalue, hfalse, htrue]
  · rw [hatoms', List.length_map, Series.length_parts]
    rfl
  · rw [heval']
    have hvalue : (FilterTree.conjunction [.disjunction [item, range], range]).truth v 0 =
        ((v 0).or ((v 1).or (some false))).and ((v 2).and (some true)) := by
      simp [FilterTree.conjunction, FilterTree.disjunction, FilterTree.truth, FilterTree.truths,
        Connective.combine, range, item, FilterTree.compare]
    rw [hvalue, hfalse, htrue]

end Condition
end BoundSql
