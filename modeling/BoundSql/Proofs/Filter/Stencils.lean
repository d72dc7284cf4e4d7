import BoundSql.Proofs.Filter.Layouts
import BoundSql.Proofs.Filter.Visibility
import BoundSql.Proofs.Sql.Stencils

/-!
# Stencils of conditions

Every tree has a stencil, whatever its negations hide: the numbers of what is not
shown are passed over. This goes up the tree from the layouts of its filters, and
from there to the clauses of a statement.
-/
namespace BoundSql
open Sql

namespace Condition

variable {d : Dialect} {xs : List Text}

/-- A group shows places of its children, each at most once. -/
lemma exists_group (op : Connective) {ps : List Stencil} (h : ∀ p ∈ ps, p.Vetted xs) :
    ∃ p : Stencil,
      (∀ d n, p.number d n = groupTokens op (ps.map (Stencil.number d n))) ∧
      p.places.Sublist (ps.flatMap Stencil.places) ∧ p.Vetted xs := by
  by_cases hop : op = .not
  · subst hop
    cases ps with
    | nil =>
      exact ⟨.fixed [.word .not, space, openParen, closeParen],
        fun _ _ => Stencil.number_fixed _ _ _, by simp, by simp [openParen, closeParen]⟩
    | cons p ps =>
      refine ⟨Stencil.fixed [.word .not, space] ++ p.paren, fun d n => ?_, ?_, ?_⟩
      · simp [groupTokens]
      · simp
      · simpa using h p List.mem_cons_self
  · obtain ⟨w, -, htokens⟩ := groupTokens_of_ne hop
    let p := List.intercalate (Stencil.fixed [space, .word w, space]) ps
    have hnumber : ∀ d n, Stencil.number d n p = joined w (ps.map (Stencil.number d n)) :=
      fun d n => Stencil.number_intercalate d n _ ps
    have hplaces : Stencil.places p = ps.flatMap Stencil.places := Stencil.places_intercalate _ ps
    have hvetted : Stencil.Vetted xs p := Stencil.vetted_intercalate (fun _ => by simp) h
    by_cases hone : ps.length = 1
    · refine ⟨p, fun d n => ?_, hplaces ▸ List.Sublist.refl _, hvetted⟩
      rw [htokens, List.length_map, if_pos hone, hnumber]
    · refine ⟨Stencil.paren p, fun d n => ?_, ?_, Stencil.vetted_paren.mpr hvetted⟩
      · rw [htokens, List.length_map, if_neg hone, Stencil.number_paren, hnumber]
      · rw [Stencil.places_paren, hplaces]

theorem stamped_ofTree {e : FilterTree}
    (h : ∀ f ∈ e.filters, Identifier.isValid f.field = true) : Stamped d xs (ofTree d e) := by
  induction e with
  | leaf f =>
    have hleaf : ofTree d (.leaf f) = ofFilter d f := funext fun x => ofTree_leaf d f x
    rw [hleaf]
    exact (lays_ofFilter f).stamped (f.vetted_layout (h f (by simp)))
  | group op es ih =>
    have hchildren : ∀ e ∈ es, Stamped d xs (ofTree d e) := fun e he => ih e he fun f hf =>
      h f (by rw [FilterTree.filters_group]; exact List.mem_flatMap.mpr ⟨e, he, hf⟩)
    obtain ⟨vs, ps, hseries⟩ := stampsAll_ofList hchildren
    obtain ⟨p, hnumber, hplaces, hp⟩ := exists_group op hseries.vetted
    have hgroup : ofTree d (.group op es) = fun x =>
        ⟨groupTokens op (Series.ofList (ofTree d) es x).parts,
          (Series.ofList (ofTree d) es x).params, (Series.ofList (ofTree d) es x).next⟩ :=
      funext fun x => ofTree_group d op es x
    rw [hgroup]
    exact hseries.stamped (hnumber d) hplaces hp

theorem stamped_whereClause {es : List FilterTree}
    (h : ∀ e ∈ es, ∀ f ∈ e.filters, Identifier.isValid f.field = true) :
    Stamped d xs (whereClause d es) := by
  by_cases hempty : es = []
  · subst hempty
    exact stamped_fixed [] (by simp)
  · have hnonempty : es.isEmpty = false := by simpa using hempty
    let conjunction : Double → Condition := fun x =>
      ⟨joined .and (Series.ofList (ofTree d) es x).parts, (Series.ofList (ofTree d) es x).params,
        (Series.ofList (ofTree d) es x).next⟩
    have hclause : whereClause d es =
        inTurn [fun x => ⟨[space, .word .filter, space], [], x⟩, conjunction] := funext fun x => by
      simp [whereClause, ofWhere?, hnonempty, ofTrees_eq_ofList, inTurn, Series.ofList,
        Series.cons, Series.empty, clause, conjunction]
    rw [hclause]
    refine stamped_inTurn fun piece hpiece => ?_
    rcases List.mem_pair.mp hpiece with rfl | rfl
    · exact stamped_fixed _ (by simp)
    · exact stamped_intercalate (fun e he => stamped_ofTree (h e he)) (by simp)

theorem stamped_havingClause {t : Option FilterTree}
    (h : ∀ e ∈ t, ∀ f ∈ e.filters, Identifier.isValid f.field = true) :
    Stamped d xs (havingClause d t) := by
  cases t with
  | none => exact stamped_fixed [] (by simp)
  | some e =>
    have hclause : havingClause d (some e) =
        inTurn [fun x => ⟨[space, .word .having, space], [], x⟩, ofTree d e] := funext fun x => by
      simp [havingClause, inTurn, Series.ofList, Series.cons, Series.empty, clause]
    rw [hclause]
    refine stamped_inTurn fun piece hpiece => ?_
    rcases List.mem_pair.mp hpiece with rfl | rfl
    · exact stamped_fixed _ (by simp)
    · exact stamped_ofTree (h e rfl)

end Condition
end BoundSql
