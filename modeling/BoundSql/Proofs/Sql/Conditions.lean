import BoundSql.Proofs.Filter.Trees
import BoundSql.Proofs.Sql.Tokens

/-!
# The tokens of conditions

Conditions are spaced whatever they are about, and vetted when the fields of
their filters are identifiers and the first number is at least one. The number
that a condition hands on is then at least one again. Besides fields and
placeholders their tokens are from a fixed vocabulary.
-/
namespace BoundSql.Condition
open Sql Token

/-- The literal lists of tokens here are chains by inspection. -/
lemma spaced_cons_cons (t u : Token) (ts : List Token) :
    Spaced (t :: u :: ts) ↔ Apart t u ∧ Spaced (u :: ts) := List.isChain_cons_cons

theorem spaced_ofScalar (d : Dialect) (f : Filter) (index : Double) :
    Spaced (ofScalar d f index).tokens := by
  unfold ofScalar
  split <;>
    simp [single, binary, Dialect.startsWith, Dialect.endsWith, Dialect.contains,
      spaced_cons_cons, Apart]

lemma spaced_placeholderList (d : Dialect) (values : List Value) (start : Double) :
    Spaced (d.placeholderList values start) := by
  refine spaced_commaList fun p hp => ?_
  simp only [List.mem_mapIdx] at hp
  obtain ⟨i, _, rfl⟩ := hp
  exact spaced_singleton _

theorem spaced_memberOf (d : Dialect) (field : Text) (values : List Value) (start : Double) :
    Spaced (d.memberOf field values start).tokens ∧
      Spaced (d.notMemberOf field values start).tokens := by
  have hlist := spaced_paren (spaced_placeholderList d values start)
  have hone := spaced_paren (spaced_singleton (.placeholder d start))
  cases d with
  | postgres =>
    constructor <;>
      exact ((((hone.cons (.inr (by simp))).cons (.inl rfl)).cons (.inr (by simp))).cons
        (.inl rfl)).cons (.inr (by simp))
  | sqlite =>
    constructor <;>
      exact (((hlist.cons (.inl rfl)).cons (.inr (by simp))).cons (.inl rfl)).cons
        (.inr (by simp))

theorem spaced_ofFilter (d : Dialect) (f : Filter) (index : Double) :
    Spaced (ofFilter d f index).tokens := by
  unfold ofFilter
  split
  · simp [spaced_cons_cons, Apart]
  · simp [spaced_cons_cons, Apart]
  · exact (spaced_memberOf d f.field _ index).1
  · exact (spaced_memberOf d f.field _ index).2
  · unfold ofRange
    split <;> simp [spaced_cons_cons, Apart]
  · exact spaced_ofScalar d f index

theorem spaced_joined {w : Word} {parts : List (List Token)} (h : ∀ p ∈ parts, Spaced p) :
    Spaced (joined w parts) :=
  spaced_intercalate h rfl [.word w, space] fun _ ht =>
    ((ht.cons (.inl rfl)).cons (.inr (by simp))).cons (.inl rfl)

theorem spaced_groupTokens {op : Connective} {parts : List (List Token)}
    (h : ∀ p ∈ parts, Spaced p) : Spaced (groupTokens op parts) := by
  unfold groupTokens
  split
  · have hhead : Spaced (parts.headD []) := by
      cases parts with
      | nil => exact spaced_nil
      | cons p ps => exact h p (by simp)
    exact ((spaced_paren hhead).cons (.inl rfl)).cons (.inr (by simp))
  · exact h _ (by simp)
  · exact spaced_paren (spaced_joined h)
  · exact spaced_paren (spaced_joined h)

theorem spaced_ofTree (d : Dialect) (e : FilterTree) (index : Double) :
    Spaced (ofTree d e index).tokens := by
  induction e generalizing index with
  | leaf f =>
    rw [ofTree_leaf]
    exact spaced_ofFilter d f index
  | group op es ih =>
    rw [ofTree_group]
    exact spaced_groupTokens (Series.forall_parts ih index)

/-- What stands in the condition of a filter whatever the filter is about. -/
def vocabulary : List Token :=
  [space, openParen, closeParen, .symbol .comma, .symbol .eq, .symbol .ne, .symbol .gt,
    .symbol .ge, .symbol .lt, .symbol .le, .symbol .tilde, .symbol .concat, .word .isNull,
    .word .isNotNull, .word .anyOf, .word .allOf, .word .inList, .word .notInList, .word .like,
    .word .ilike, .word .between, .word .and, .wildcard]

/-- A token that the condition of a filter may have. -/
inductive Belongs (d : Dialect) (f : Filter) : Token → Prop
  | fixed {t : Token} (h : t ∈ vocabulary) : Belongs d f t
  | field : Belongs d f (.name f.field)
  | placeholder (x : Double) : Belongs d f (.placeholder d x)
  | noRange {bounds : List Value} (op : f.op = .between) (value : f.value = .array bounds)
    (length : bounds.length ≠ 2) : Belongs d f (.noRange bounds.length)

/-- The tokens of a filter's condition: its field, placeholders and fixed ones. Only a range of the
wrong length is replaced by a condition without rows. -/
theorem belongs_ofFilter (d : Dialect) (f : Filter) (index : Double) :
    ∀ t ∈ (ofFilter d f index).tokens, Belongs d f t := by
  have hlist : ∀ vs x, ∀ t ∈ d.placeholderList vs x, Belongs d f t := by
    intro vs x t ht
    rcases mem_intercalate ht with ht | ⟨p, hp, ht⟩
    · have hcomma : ∀ t ∈ [.symbol .comma, space], t ∈ vocabulary := by decide
      exact .fixed (hcomma t ht)
    · obtain ⟨i, -, rfl⟩ := List.mem_mapIdx.mp hp
      obtain rfl := List.mem_singleton.mp ht
      exact .placeholder _
  have hregex : Belongs d f d.regexToken := .fixed (by cases d <;> decide)
  have hilike : Belongs d f d.ilikeToken := .fixed (by cases d <;> decide)
  have hcomparison : ∀ op, Belongs d f (comparison op) := fun op =>
    .fixed (by cases op <;> decide)
  unfold ofFilter
  split
  · simp (disch := decide) [Belongs.fixed, Belongs.field]
  · simp (disch := decide) [Belongs.fixed, Belongs.field]
  · cases d <;>
      simp (disch := decide) [ofFragment, Dialect.memberOf, paren, or_imp, forall_and,
        Belongs.fixed, Belongs.field, Belongs.placeholder]
    exact hlist _ index
  · cases d <;>
      simp (disch := decide) [ofFragment, Dialect.notMemberOf, paren, or_imp, forall_and,
        Belongs.fixed, Belongs.field, Belongs.placeholder]
    exact hlist _ index
  · next bounds hop hvalue =>
    unfold ofRange
    split
    · simp (disch := decide) [Belongs.fixed, Belongs.field, Belongs.placeholder]
    · next hpair =>
      refine List.forall_mem_singleton.mpr (.noRange hop hvalue fun hlength => ?_)
      obtain ⟨low, high, rfl⟩ := List.length_eq_two.mp hlength
      exact hpair low high rfl
  · unfold ofScalar
    split <;>
      simp (disch := decide) [single, binary, Dialect.startsWith, Dialect.endsWith,
        Dialect.contains, Belongs.fixed, Belongs.field, Belongs.placeholder, hregex, hilike,
        hcomparison]

/-- What a group adds to the tokens of its children. -/
def grouping : List Token :=
  [space, openParen, closeParen, .word .and, .word .or, .word .not]

lemma mem_groupTokens {op : Connective} {parts : List (List Token)} {t : Token}
    (h : t ∈ groupTokens op parts) : t ∈ grouping ∨ ∃ p ∈ parts, t ∈ p := by
  have hparen : ∀ {w : Word}, .word w ∈ grouping → t ∈ paren (joined w parts) →
      t ∈ grouping ∨ ∃ p ∈ parts, t ∈ p := fun {w} hw ht => by
    simp only [paren, List.mem_cons, List.mem_append, List.not_mem_nil, or_false] at ht
    rcases ht with rfl | ht | rfl
    · exact .inl (by decide)
    · refine (mem_intercalate ht).imp_left fun ht => ?_
      simp only [List.mem_cons, List.not_mem_nil, or_false] at ht
      rcases ht with rfl | rfl | rfl
      · exact List.mem_cons_self
      · exact hw
      · exact List.mem_cons_self
    · exact .inl (by decide)
  unfold groupTokens at h
  split at h
  · cases parts with
    | nil =>
      have hall : ∀ t ∈ [.word .not, space] ++ paren [], t ∈ grouping := by decide
      exact .inl (hall t h)
    | cons p ps =>
      simp only [paren, List.headD_cons, List.mem_cons, List.mem_append, List.not_mem_nil,
        or_false] at h
      rcases h with (rfl | rfl) | rfl | h | rfl
      · exact .inl (by decide)
      · exact .inl (by decide)
      · exact .inl (by decide)
      · exact .inr ⟨p, List.mem_cons_self, h⟩
      · exact .inl (by decide)
  · exact .inr ⟨_, List.mem_cons_self, h⟩
  · exact hparen (by decide) h
  · exact hparen (by decide) h

/-- A token of a tree's condition belongs to the condition of one of its filters or to a group. -/
theorem mem_ofTree {d : Dialect} {e : FilterTree} {index : Double} {t : Token}
    (h : t ∈ (ofTree d e index).tokens) :
    t ∈ grouping ∨ ∃ f ∈ e.filters, ∃ i, t ∈ (ofFilter d f i).tokens := by
  induction e generalizing index with
  | leaf f =>
    rw [ofTree_leaf] at h
    exact .inr ⟨f, by simp, index, h⟩
  | group op es ih =>
    rw [ofTree_group] at h
    have hparts : ∀ p ∈ (Series.ofList (ofTree d) es index).parts, t ∈ p → t ∈ grouping ∨
        ∃ f ∈ (FilterTree.group op es).filters, ∃ i, t ∈ (ofFilter d f i).tokens := by
      refine Series.forall_parts (fun e he i ht => ?_) index
      refine (ih e he ht).imp_right fun ⟨f, hf, hi⟩ => ⟨f, ?_, hi⟩
      rw [FilterTree.filters_group]
      exact List.mem_flatMap.mpr ⟨e, he, hf⟩
    rcases mem_groupTokens h with h | ⟨p, hp, ht⟩
    · exact .inl h
    · exact hparts p hp ht

theorem spaced_whereClause (d : Dialect) (es : List FilterTree) (index : Double) :
    Spaced (whereClause d es index).tokens ∧ Led (whereClause d es index).tokens := by
  unfold whereClause ofWhere?
  split_ifs with hempty
  · simp
  · refine ⟨spaced_clause (spaced_joined ?_), by simp⟩
    rw [ofTrees_eq_ofList]
    exact Series.forall_parts (fun e _ i => spaced_ofTree d e i) index

theorem spaced_havingClause (d : Dialect) (t : Option FilterTree) (index : Double) :
    Spaced (havingClause d t index).tokens ∧ Led (havingClause d t index).tokens := by
  cases t with
  | none => simp [havingClause]
  | some e => exact ⟨spaced_clause (spaced_ofTree d e index), by simp [havingClause]⟩

/-- A piece of text that is vetted and hands on a number as it should be. -/
def Counts (d : Dialect) (xs : List Text) (I : Double → Prop) (c : Condition) : Prop :=
  AllVetted d xs I c.tokens ∧ I c.next

section Counts

variable {d : Dialect} {xs : List Text} {I : Double → Prop}

theorem allVetted_joined {w : Word} {parts : List (List Token)}
    (h : ∀ p ∈ parts, AllVetted d xs I p) : AllVetted d xs I (joined w parts) :=
  allVetted_intercalate (by simp) h

theorem allVetted_groupTokens {op : Connective} {parts : List (List Token)}
    (h : ∀ p ∈ parts, AllVetted d xs I p) : AllVetted d xs I (groupTokens op parts) := by
  unfold groupTokens
  split
  · cases parts with
    | nil => simp
    | cons p ps => simpa using h p (by simp)
  · exact h _ (by simp)
  · simpa using allVetted_joined h
  · simpa using allVetted_joined h

variable (hadd : ∀ x, I x → ∀ n, I (x.add (.ofNat n)))

include hadd

theorem counts_ofScalar {f : Filter} {index : Double}
    (hf : Identifier.isValid f.field = true) (hi : I index) :
    Counts d xs I (ofScalar d f index) := by
  have hnext : I (index.add 1) := hadd _ hi 1
  have hregex : d.regexToken.Vetted d xs I := by cases d <;> trivial
  have hilike : d.ilikeToken.Vetted d xs I := trivial
  have hcomp : ∀ op, (comparison op).Vetted d xs I := by intro op; cases op <;> trivial
  unfold ofScalar
  split <;> refine ⟨?_, hnext⟩ <;>
    simp [single, binary, Dialect.startsWith, Dialect.endsWith, Dialect.contains, hf, hi, hregex,
      hilike, hcomp]

lemma allVetted_placeholderList (values : List Value) {start : Double}
    (hi : I start) : AllVetted d xs I (d.placeholderList values start) := by
  refine allVetted_commaList fun p hp => ?_
  simp only [List.mem_mapIdx] at hp
  obtain ⟨i, _, rfl⟩ := hp
  simpa using hadd _ hi i

theorem counts_memberOf {field : Text} {values : List Value} {start : Double}
    (hf : Identifier.isValid field = true) (hi : I start) :
    Counts d xs I (ofFragment (d.memberOf field values start) start) ∧
      Counts d xs I (ofFragment (d.notMemberOf field values start) start) := by
  refine ⟨⟨?_, hadd _ hi _⟩, ⟨?_, hadd _ hi _⟩⟩ <;>
    cases d <;> simp [ofFragment, Dialect.memberOf, Dialect.notMemberOf, hf, hi,
      allVetted_placeholderList hadd]

theorem counts_ofFilter {f : Filter} {index : Double}
    (hf : Identifier.isValid f.field = true) (hi : I index) :
    Counts d xs I (ofFilter d f index) := by
  have hone : I (index.add 1) := hadd _ hi 1
  have htwo : I (index.add 2) := hadd _ hi 2
  unfold ofFilter
  split
  · simp [Counts, hf, hi]
  · simp [Counts, hf, hi]
  · exact (counts_memberOf hadd hf hi).1
  · exact (counts_memberOf hadd hf hi).2
  · unfold ofRange
    split <;> simp [Counts, hf, hi, hone, htwo]
  · exact counts_ofScalar hadd hf hi

theorem counts_ofTree {e : FilterTree} {index : Double}
    (hf : ∀ f ∈ e.filters, Identifier.isValid f.field = true)
    (hi : I index) : Counts d xs I (ofTree d e index) := by
  induction e generalizing index with
  | leaf f =>
    rw [ofTree_leaf]
    exact counts_ofFilter hadd (hf f (by simp)) hi
  | group op es ih =>
    have hchild : ∀ e ∈ es, ∀ i, I i → Counts d xs I (ofTree d e i) := by
      refine fun e he i hi => ih e he (fun f hfe => hf f ?_) hi
      rw [FilterTree.filters_group]
      exact List.mem_flatMap.mpr ⟨e, he, hfe⟩
    have hseries := Series.ofList_induction hchild hi
    rw [ofTree_group]
    exact ⟨allVetted_groupTokens hseries.1, hseries.2⟩

theorem counts_whereClause {es : List FilterTree} {index : Double}
    (hf : ∀ e ∈ es, ∀ f ∈ e.filters, Identifier.isValid f.field = true)
    (hi : I index) : Counts d xs I (whereClause d es index) := by
  unfold whereClause ofWhere?
  split_ifs with hempty
  · simp [Counts, hi]
  · have htree : ∀ e ∈ es, ∀ i, I i → Counts d xs I (ofTree d e i) :=
      fun e he i hi => counts_ofTree hadd (hf e he) hi
    have hseries := Series.ofList_induction htree hi
    rw [ofTrees_eq_ofList]
    exact ⟨by simpa using allVetted_joined hseries.1, hseries.2⟩

theorem counts_havingClause {t : Option FilterTree} {index : Double}
    (hf : ∀ e ∈ t, ∀ f ∈ e.filters, Identifier.isValid f.field = true)
    (hi : I index) : Counts d xs I (havingClause d t index) := by
  cases t with
  | none => simp [havingClause, Counts, hi]
  | some e =>
    have h : Counts d xs I (ofTree d e index) := counts_ofTree hadd (hf e rfl) hi
    exact ⟨by simpa [havingClause] using h.1, h.2⟩

end Counts

end BoundSql.Condition
