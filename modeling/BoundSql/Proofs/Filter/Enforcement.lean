import BoundSql.Proofs.Filter.Policy
import BoundSql.Proofs.Sql.Conditions

/-!
# Conditions under a policy

What a policy says of the nodes of a tree carries over to the condition that is
written for it. Its text is made of the conditions of the tree's own filters and
of groups around them, so it names no other column; and every parameter has a
node that was counted, a filter or an element of its list.
-/
namespace BoundSql
open Sql

namespace Value

theorem nodesAll_eq_flatMap (depth : ℕ) (vs : List Value) :
    nodesAll depth vs = vs.flatMap (nodes depth) := by
  induction vs with
  | nil => rfl
  | cons v vs ih => rw [nodesAll, ih, List.flatMap_cons]

/-- Each element of a list is a node, besides those that it holds. -/
lemma length_le_nodesAll (depth : ℕ) (vs : List Value) :
    vs.length ≤ (nodesAll depth vs).length := by
  have hnode : ∀ v : Value, 1 ≤ (v.nodes depth).length := fun v => by
    cases v <;> simp [nodes]
  induction vs with
  | nil => exact Nat.zero_le _
  | cons v vs ih =>
    have hv := hnode v
    rw [nodesAll, List.length_append, List.length_cons]
    omega

end Value

namespace FilterTree

theorem nodesAll_eq_flatMap (depth : ℕ) (es : List FilterTree) :
    nodesAll depth es = es.flatMap (nodes depth) := by
  induction es with
  | nil => rfl
  | cons e es ih => rw [nodesAll, ih, List.flatMap_cons]

/-- Every filter of a tree is at one of its nodes. -/
theorem exists_node {e : FilterTree} {f : Filter} (hf : f ∈ e.filters) (depth : ℕ) :
    ∃ n ∈ e.nodes depth, n.filter = some f := by
  induction e generalizing depth with
  | leaf g =>
    rw [filters_leaf, List.mem_singleton] at hf
    exact ⟨⟨depth, some g⟩, List.mem_cons_self, by rw [hf]⟩
  | group op es ih =>
    rw [filters_group, List.mem_flatMap] at hf
    obtain ⟨e, he, hf⟩ := hf
    obtain ⟨n, hn, hfilter⟩ := ih e he hf (depth + 1)
    refine ⟨n, ?_, hfilter⟩
    rw [nodes_group, nodesAll_eq_flatMap]
    exact List.mem_cons_of_mem _ (List.mem_flatMap.mpr ⟨e, he, hn⟩)

end FilterTree

namespace Sql.Token

/-- A token that is a name of a kind, or that names no column. -/
def NamesWithin (P : Text → Prop) : Token → Prop
  | .name n => P n
  | .expression _ => False
  | _ => True

theorem NamesWithin.imp {P Q : Text → Prop} (h : ∀ n, P n → Q n) {t : Token}
    (ht : t.NamesWithin P) : t.NamesWithin Q := by
  cases t with
  | name n => exact h n ht
  | expression x => exact ht
  | _ => trivial

end Sql.Token

/-- Pieces with a bound each have at most the sum as parameters. -/
lemma Series.length_params_le {α : Type} {piece : α → Double → Condition} {bound : α → ℕ}
    {as : List α} (h : ∀ a ∈ as, ∀ i, (piece a i).params.length ≤ bound a) (index : Double) :
    (ofList piece as index).params.length ≤ (as.map bound).sum := by
  induction as generalizing index with
  | nil => exact Nat.zero_le _
  | cons a as ih =>
    have hfirst := h a List.mem_cons_self index
    have hrest := ih (fun b hb => h b (List.mem_cons_of_mem a hb)) (piece a index).next
    rw [ofList, cons, List.length_append, List.map_cons, List.sum_cons]
    exact Nat.add_le_add hfirst hrest

namespace Condition

/-- A filter binds its value, or the elements of a list. -/
theorem length_params_ofFilter (d : Dialect) (f : Filter) (depth : ℕ) (index : Double) :
    (ofFilter d f index).params.length ≤ (f.value.elements depth).length + 1 := by
  have hone : ∀ {c : Condition}, c.params.length = 1 →
      c.params.length ≤ (f.value.elements depth).length + 1 := by
    intro c hc
    omega
  unfold ofFilter
  split
  · exact Nat.zero_le _
  · exact Nat.zero_le _
  · next items hop hvalue =>
    have hlength := Value.length_le_nodesAll depth items
    rw [hvalue, Value.elements]
    cases d <;> simp only [ofFragment, Dialect.memberOf, List.length_singleton] <;> omega
  · next items hop hvalue =>
    have hlength := Value.length_le_nodesAll depth items
    rw [hvalue, Value.elements]
    cases d <;> simp only [ofFragment, Dialect.notMemberOf, List.length_singleton] <;> omega
  · next bounds hop hvalue =>
    have hlength := Value.length_le_nodesAll depth bounds
    rw [hvalue, Value.elements]
    unfold ofRange
    split
    · simp only [List.length_cons, List.length_nil] at hlength ⊢
      omega
    · exact Nat.zero_le _
  · unfold ofScalar
    split <;> exact hone rfl

/-- A tree binds no more parameters than it has nodes. -/
theorem length_params_ofTree (d : Dialect) (e : FilterTree) (depth : ℕ) (index : Double) :
    (ofTree d e index).params.length ≤ (e.nodes depth).length := by
  induction e generalizing depth index with
  | leaf f =>
    rw [ofTree_leaf, FilterTree.nodes_leaf, List.length_cons]
    exact length_params_ofFilter d f (depth + 1) index
  | group op es ih =>
    have hsum := Series.length_params_le (fun e he i => ih e he (depth + 1) i) index
    rw [ofTree_group, FilterTree.nodes_group, FilterTree.nodesAll_eq_flatMap, List.length_cons,
      List.length_flatMap]
    exact hsum.trans (Nat.le_succ _)

/-- Tokens that are written from the conditions of filters of a kind and from groups around
them. -/
inductive Renders (d : Dialect) (P : Filter → Prop) : List Token → Prop
  | leaf {f : Filter} (permitted : P f) (index : Double) : Renders d P (ofFilter d f index).tokens
  | group (op : Connective) {parts : List (List Token)} (each : ∀ p ∈ parts, Renders d P p) :
    Renders d P (groupTokens op parts)

variable {d : Dialect} {P : Filter → Prop}

theorem renders_ofTree {e : FilterTree} (h : ∀ f ∈ e.filters, P f) (index : Double) :
    Renders d P (ofTree d e index).tokens := by
  induction e generalizing index with
  | leaf f =>
    rw [ofTree_leaf]
    exact .leaf (h f (by simp)) index
  | group op es ih =>
    rw [ofTree_group]
    refine .group op (Series.forall_parts (fun e he i => ih e he (fun f hf => h f ?_) i) index)
    rw [FilterTree.filters_group]
    exact List.mem_flatMap.mpr ⟨e, he, hf⟩

/-- The condition of a filter names its field and nothing else. -/
lemma namesWithin_ofFilter (f : Filter) (index : Double) :
    ∀ t ∈ (ofFilter d f index).tokens, t.NamesWithin fun n => f.field = n := by
  have hfixed : ∀ t ∈ vocabulary, t.NamesWithin fun n => f.field = n := by
    simp [vocabulary, space, openParen, closeParen, Token.NamesWithin]
  intro t ht
  cases belongs_ofFilter d f index t ht with
  | fixed h => exact hfixed t h
  | field => rfl
  | _ => trivial

lemma namesWithin_grouping {Q : Text → Prop} : ∀ t ∈ grouping, t.NamesWithin Q := by
  simp [grouping, space, openParen, closeParen, Token.NamesWithin]

/-- All names in the text are fields of the filters that it is written from. -/
theorem Renders.namesWithin {ts : List Token} (h : Renders d P ts) :
    ∀ t ∈ ts, t.NamesWithin fun n => ∃ f, P f ∧ f.field = n := by
  induction h with
  | @leaf f hf index =>
    exact fun t ht => (namesWithin_ofFilter f index t ht).imp fun n hn => ⟨f, hf, hn⟩
  | group op _ ih =>
    intro t ht
    rcases mem_groupTokens ht with ht | ⟨p, hp, ht⟩
    · exact namesWithin_grouping t ht
    · exact ih p hp t ht

end Condition
end BoundSql
