import BoundSql.Proofs.Filter.Trees
import BoundSql.Keyset
import BoundSql.Cursor.Token

/-!
# Shapes of values

All that a condition shows of a value is whether it is null, and of a list its
length. Two values with this in common have the same shape; trees have it when
they differ in such values only. Conditions of trees of the same shape have the
same text and bind equally many values.
-/
namespace BoundSql

/-- Both null, both lists of one length, or neither null nor a list. -/
inductive Value.SameShape : Value → Value → Prop
  | null : SameShape .null .null
  | array {vs ws : List Value} (length : vs.length = ws.length) : SameShape (.array vs) (.array ws)
  | scalar {v w : Value} (hv : v.isScalar = true) (hw : w.isScalar = true)
      (hvn : v.isNull = false) (hwn : w.isNull = false) : SameShape v w

@[refl] theorem Value.SameShape.refl (v : Value) : v.SameShape v := by
  cases v with
  | null => exact .null
  | array vs => exact .array rfl
  | _ => exact .scalar rfl rfl rfl rfl

/-- Equal but for the values, which have the same shape. -/
structure Filter.SameShape (f g : Filter) : Prop where
  field : f.field = g.field
  op : f.op = g.op
  value : f.value.SameShape g.value

@[refl] theorem Filter.SameShape.refl (f : Filter) : f.SameShape f := ⟨rfl, rfl, .refl _⟩

/-- Equal but for the values of filters. -/
inductive FilterTree.SameShape : FilterTree → FilterTree → Prop
  | leaf {f g : Filter} (filter : f.SameShape g) : SameShape (.leaf f) (.leaf g)
  | group (op : Connective) {es gs : List FilterTree} (children : List.Forall₂ SameShape es gs) :
    SameShape (.group op es) (.group op gs)

@[refl] theorem FilterTree.SameShape.refl (e : FilterTree) : e.SameShape e := by
  induction e with
  | leaf f => exact .leaf (.refl f)
  | group op es ih =>
    refine .group op ?_
    rw [List.forall₂_same]
    exact ih

/-- Equal names, values of the same shape. -/
def SamePair (p q : Text × Value) : Prop := p.1 = q.1 ∧ p.2.SameShape q.2

@[refl] theorem SamePair.refl (p : Text × Value) : SamePair p p := ⟨rfl, .refl _⟩

/-- The same names in the same order, with values of the same shape. -/
def Cursor.SameShape (c c' : Cursor) : Prop := List.Forall₂ SamePair c.entries c'.entries

/-- Equal, or cursors of the same shape, whether they come as objects or as tokens. -/
inductive RequestedCursor.SameShape : RequestedCursor → RequestedCursor → Prop
  | refl (r : RequestedCursor) : SameShape r r
  | cursor {c c' : Cursor} (shape : c.SameShape c') : SameShape (.cursor c) (.cursor c')
  | token {t t' : Text} {c c' : Cursor} (decoded : Cursor.decode t = .ok c)
      (decoded' : Cursor.decode t' = .ok c') (shape : c.SameShape c') :
    SameShape (.token t) (.token t')

/-- The same text, equally many values and the same next number. -/
structure Condition.Alike (c c' : Condition) : Prop where
  tokens : c.tokens = c'.tokens
  count : c.params.length = c'.params.length
  next : c.next = c'.next

/-- The same for several pieces. -/
structure Series.Alike (s s' : Series) : Prop where
  parts : s.parts = s'.parts
  count : s.params.length = s'.params.length
  next : s.next = s'.next

/-- Pieces that are alike, item by item, make series that are alike. -/
theorem Series.alike_ofList {α : Type} {R : α → α → Prop} {piece : α → Double → Condition}
    {as bs : List α} (h : List.Forall₂ R as bs)
    (step : ∀ a ∈ as, ∀ b, R a b → ∀ i, (piece a i).Alike (piece b i)) (index : Double) :
    (ofList piece as index).Alike (ofList piece bs index) := by
  induction h generalizing index with
  | nil => exact ⟨rfl, rfl, rfl⟩
  | @cons a b as bs hab _ ih =>
    have hfirst := step a (by simp) b hab index
    have hrest := ih (fun a ha => step a (List.mem_cons_of_mem _ ha)) (piece b index).next
    rw [ofList, ofList]
    refine ⟨?_, ?_, ?_⟩
    · simp only [cons, hfirst.tokens, hrest.parts, hfirst.next]
    · simp only [cons, List.length_append, hfirst.count, hrest.count, hfirst.next]
    · simp only [cons, hrest.next, hfirst.next]

namespace Condition

open Sql

lemma alike_ofFragment {a b : Fragment} (htokens : a.tokens = b.tokens)
    (hcount : a.params.length = b.params.length) (index : Double) :
    (ofFragment a index).Alike (ofFragment b index) :=
  ⟨htokens, hcount, by simp [ofFragment, hcount]⟩

lemma alike_memberOf (d : Dialect) (field : Text) {vs ws : List Value}
    (h : vs.length = ws.length) (index : Double) :
    (ofFragment (d.memberOf field vs index) index).Alike
        (ofFragment (d.memberOf field ws index) index) ∧
      (ofFragment (d.notMemberOf field vs index) index).Alike
        (ofFragment (d.notMemberOf field ws index) index) := by
  have hlist : d.placeholderList vs index = d.placeholderList ws index := by
    simp only [Dialect.placeholderList_eq_range, h]
  cases d with
  | postgres =>
    refine ⟨alike_ofFragment ?_ ?_ index, alike_ofFragment ?_ ?_ index⟩ <;> rfl
  | sqlite =>
    refine ⟨alike_ofFragment ?_ h index, alike_ofFragment ?_ h index⟩
    · simp only [Dialect.memberOf, hlist]
    · simp only [Dialect.notMemberOf, hlist]

lemma alike_ofRange (d : Dialect) (field : Text) {vs ws : List Value}
    (h : vs.length = ws.length) (index : Double) :
    (ofRange d field vs index).Alike (ofRange d field ws index) := by
  match vs, ws with
  | [], [] => exact ⟨rfl, rfl, rfl⟩
  | [_], [_] => exact ⟨rfl, rfl, rfl⟩
  | [_, _], [_, _] => exact ⟨rfl, rfl, rfl⟩
  | _ :: _ :: _ :: vs, _ :: _ :: _ :: ws =>
    simp only [List.length_cons, Nat.add_right_cancel_iff] at h
    refine ⟨?_, rfl, rfl⟩
    simp [ofRange, h]

lemma alike_ofScalar (d : Dialect) (field : Text) (op : Operator) (v w : Value)
    (index : Double) :
    (ofScalar d ⟨field, op, v⟩ index).Alike (ofScalar d ⟨field, op, w⟩ index) := by
  unfold ofScalar
  cases op <;> exact ⟨rfl, rfl, rfl⟩

/-- An operator without a case of its own for a value treats it like any other. -/
lemma ofFilter_of_scalar (d : Dialect) {f : Filter} (hs : f.value.isScalar = true)
    (hn : f.value.isNull = false) (index : Double) : ofFilter d f index = ofScalar d f index := by
  obtain ⟨field, op, value⟩ := f
  unfold ofFilter
  split <;> simp_all [Value.isScalar, Value.isNull]

theorem alike_ofFilter (d : Dialect) {f g : Filter} (h : f.SameShape g) (index : Double) :
    (ofFilter d f index).Alike (ofFilter d g index) := by
  obtain ⟨field, op, v⟩ := f
  obtain ⟨field', op', w⟩ := g
  obtain ⟨rfl, rfl, hvw⟩ := h
  simp only at hvw
  cases hvw with
  | null => exact ⟨rfl, rfl, rfl⟩
  | @array vs ws hlength =>
    by_cases hin : op = .isIn
    · subst hin
      exact (alike_memberOf d field hlength index).1
    by_cases hnot : op = .notIn
    · subst hnot
      exact (alike_memberOf d field hlength index).2
    by_cases hbetween : op = .between
    · subst hbetween
      exact alike_ofRange d field hlength index
    · have hscalar : ∀ us : List Value,
          ofFilter d ⟨field, op, .array us⟩ index = ofScalar d ⟨field, op, .array us⟩ index := by
        intro us
        cases op <;> simp_all [ofFilter]
      rw [hscalar vs, hscalar ws]
      exact alike_ofScalar d field op _ _ index
  | scalar hv hw hvn hwn =>
    rw [ofFilter_of_scalar d hv hvn, ofFilter_of_scalar d hw hwn]
    exact alike_ofScalar d field op v w index

theorem alike_ofTree (d : Dialect) {e g : FilterTree} (h : e.SameShape g) (index : Double) :
    (ofTree d e index).Alike (ofTree d g index) := by
  induction e generalizing g index with
  | leaf f =>
    cases h with
    | leaf hf =>
      rw [ofTree_leaf, ofTree_leaf]
      exact alike_ofFilter d hf index
  | group op es ih =>
    cases h with
    | group _ hes =>
      have hseries := Series.alike_ofList hes (fun e he g heg i => ih e he heg i) index
      rw [ofTree_group, ofTree_group]
      exact ⟨by simp only [hseries.parts], hseries.count, hseries.next⟩

theorem alike_whereClause (d : Dialect) {es gs : List FilterTree}
    (h : List.Forall₂ FilterTree.SameShape es gs) (index : Double) :
    (whereClause d es index).Alike (whereClause d gs index) := by
  have hseries := Series.alike_ofList h (fun _ _ _ heg i => alike_ofTree d heg i) index
  cases h with
  | nil => exact ⟨rfl, rfl, rfl⟩
  | cons hd tl =>
    simp only [whereClause, ofWhere?, List.isEmpty_cons, Bool.false_eq_true, if_false,
      ofTrees_eq_ofList]
    exact ⟨by simp only [hseries.parts], hseries.count, hseries.next⟩

theorem alike_havingClause (d : Dialect) {t u : Option FilterTree}
    (h : Option.Rel FilterTree.SameShape t u) (index : Double) :
    (havingClause d t index).Alike (havingClause d u index) := by
  cases h with
  | none => exact ⟨rfl, rfl, rfl⟩
  | some heg =>
    have htree := alike_ofTree d heg index
    exact ⟨by simp only [havingClause, htree.tokens], htree.count, htree.next⟩

end Condition

namespace Keyset

/-- The values of two cursors under a name. -/
theorem sameShape_get {c c' : Cursor} (h : c.SameShape c') (name : Text) :
    Option.Rel Value.SameShape (c.get? name) (c'.get? name) := by
  obtain ⟨entries⟩ := c
  obtain ⟨entries'⟩ := c'
  simp only [Cursor.SameShape] at h
  simp only [Cursor.get?]
  induction h with
  | nil => exact .none
  | @cons p q ps qs hpq _ ih =>
    rw [List.find?_cons, List.find?_cons, ← hpq.1]
    by_cases hname : p.1 = name
    · simpa only [hname, decide_true, Option.map_some] using .some hpq.2
    · simpa only [hname, decide_false] using ih

/-- The values of two cursors for a list of sort fields; either both have them all or
neither has. -/
lemma sameShape_values {c c' : Cursor} (h : c.SameShape c') (sorts : List SortKey) :
    Option.Rel (List.Forall₂ Value.SameShape) (sorts.mapM fun s => c.get? s.field)
      (sorts.mapM fun s => c'.get? s.field) := by
  induction sorts with
  | nil => exact .some .nil
  | cons s rest ih =>
    have hvalue := sameShape_get h s.field
    rw [List.mapM_cons, List.mapM_cons]
    cases hv : c.get? s.field <;> cases hw : c'.get? s.field <;> rw [hv, hw] at hvalue
    · exact .none
    · cases hvalue
    · cases hvalue
    · cases hvs : rest.mapM (fun s => c.get? s.field) <;>
        cases hws : rest.mapM (fun s => c'.get? s.field) <;> rw [hvs, hws] at ih
      · exact .none
      · cases ih
      · cases ih
      · cases ih with
        | some hrest =>
          cases hvalue with
          | some hfirst => exact .some (.cons hfirst hrest)

/-- A sort field with one value or another of its shape. -/
def SameBound (p q : SortKey × Value) : Prop := p.1 = q.1 ∧ p.2.SameShape q.2

lemma sameShape_compare (field : Text) (op : Operator) {v w : Value} (h : v.SameShape w) :
    (FilterTree.compare field op v).SameShape (.compare field op w) := .leaf ⟨rfl, rfl, h⟩

lemma sameShape_conjoin {es gs : List FilterTree} (h : List.Forall₂ FilterTree.SameShape es gs) :
    (FilterTree.conjoin es).SameShape (.conjoin gs) := by
  match es, gs, h with
  | [], [], h => exact .group .and h
  | [e], [g], .cons heg .nil => exact heg
  | _ :: _ :: _, _ :: _ :: _, h => exact .group .and h

lemma sameShape_disjoin {es gs : List FilterTree} (h : List.Forall₂ FilterTree.SameShape es gs) :
    (disjoin es).SameShape (disjoin gs) := by
  match es, gs, h with
  | [], [], h => exact .group .or h
  | [e], [g], .cons heg .nil => exact heg
  | _ :: _ :: _, _ :: _ :: _, h => exact .group .or h

lemma sameShape_branches (direction : SeekDirection) {agreed agreed' : List FilterTree}
    {ps qs : List (SortKey × Value)} (hagreed : List.Forall₂ FilterTree.SameShape agreed agreed')
    (h : List.Forall₂ SameBound ps qs) :
    List.Forall₂ FilterTree.SameShape (branches direction agreed ps)
      (branches direction agreed' qs) := by
  induction h generalizing agreed agreed' with
  | nil => exact .nil
  | @cons p q ps qs hpq _ ih =>
    obtain ⟨s, v⟩ := p
    obtain ⟨s', w⟩ := q
    obtain ⟨rfl, hvw⟩ := hpq
    have hlast := sameShape_compare s.field (beyondOperator direction s.dir) hvw
    have hequal := sameShape_compare s.field .eq hvw
    rw [branches, branches]
    exact .cons (sameShape_conjoin (List.rel_append hagreed (.cons hlast .nil)))
      (ih (List.rel_append hagreed (.cons hequal .nil)))

lemma sameBound_zip {sorts : List SortKey} {vs ws : List Value}
    (h : List.Forall₂ Value.SameShape vs ws) :
    List.Forall₂ SameBound (sorts.zip vs) (sorts.zip ws) := by
  induction h generalizing sorts with
  | nil => simp
  | cons hvw _ ih =>
    cases sorts with
    | nil => simp
    | cons s sorts => exact .cons ⟨rfl, hvw⟩ ih

/-- Cursors of the same shape lead to conditions of the same shape, or neither covers the
sort fields. -/
theorem sameShape_ofCursor {c c' : Cursor} (h : c.SameShape c') (sorts : List SortKey)
    (direction : SeekDirection) :
    Option.Rel FilterTree.SameShape ((ofCursor? sorts c direction).map toTree)
      ((ofCursor? sorts c' direction).map toTree) := by
  have hvalues := sameShape_values h sorts
  unfold ofCursor?
  split_ifs with hempty
  · exact .none
  · generalize sorts.mapM (fun s => c.get? s.field) = values at hvalues ⊢
    generalize sorts.mapM (fun s => c'.get? s.field) = values' at hvalues ⊢
    cases hvalues with
    | none => exact .none
    | some hvs =>
      exact .some (sameShape_disjoin (sameShape_branches direction .nil (sameBound_zip hvs)))

end Keyset
end BoundSql
