import BoundSql.Proofs.Sql.Layout

/-!
# Layouts of conditions

The text of a filter with its value in place, and of trees of filters. A
negation shows one child only, so trees are laid out in full when no negation
has more.
-/
namespace BoundSql
open Sql

namespace Filter

/-- Field, operator and value. -/
def plainLayout (field : Text) (op : Token) (v : Value) : Layout :=
  Layout.fixed [.name field, space, op, space] ++ [.value v]

/-- The layout where the operator treats every value alike. -/
def scalarLayout (d : Dialect) (f : Filter) : Layout :=
  match f.op with
  | .regex => plainLayout f.field d.regexToken f.value
  | .ilike => plainLayout f.field d.ilikeToken f.value
  | .startsWith => Layout.fixed [.name f.field, space, .word .like, space] ++
      .value f.value :: Layout.fixed [space, .symbol .concat, space, .wildcard]
  | .endsWith => Layout.fixed [.name f.field, space, .word .like, space, .wildcard, space,
      .symbol .concat, space] ++ [.value f.value]
  | .contains => Layout.fixed [.name f.field, space, .word .like, space, .wildcard, space,
      .symbol .concat, space] ++
      .value f.value :: Layout.fixed [space, .symbol .concat, space, .wildcard]
  | op => plainLayout f.field (Condition.comparison op) f.value

/-- Membership in a list: one value on Postgres, one for each element on SQLite. -/
def memberLayout (field : Text) (items : List Value) : Dialect → Layout
  | .postgres => Layout.fixed [.name field, space, .symbol .eq, space, .word .anyOf] ++
      Layout.paren [.value (.array items)]
  | .sqlite => Layout.fixed [.name field, space, .word .inList, space] ++
      Layout.paren (Layout.commaList (items.map fun v => [.value v]))

def nonMemberLayout (field : Text) (items : List Value) : Dialect → Layout
  | .postgres => Layout.fixed [.name field, space, .symbol .ne, space, .word .allOf] ++
      Layout.paren [.value (.array items)]
  | .sqlite => Layout.fixed [.name field, space, .word .notInList, space] ++
      Layout.paren (Layout.commaList (items.map fun v => [.value v]))

/-- Both bounds of a range; a list of any other length has none. -/
def rangeLayout (field : Text) : List Value → Layout
  | [low, high] => Layout.fixed [.name field, space, .word .between, space] ++
      .value low :: (Layout.fixed [space, .word .and, space] ++ [.value high])
  | bounds => Layout.fixed [.noRange bounds.length]

/-- The condition of a filter with its value in place. -/
def layout (d : Dialect) (f : Filter) : Layout :=
  match f.op, f.value with
  | .eq, .null => Layout.fixed [.name f.field, space, .word .isNull]
  | .ne, .null => Layout.fixed [.name f.field, space, .word .isNotNull]
  | .isIn, .array items => memberLayout f.field items d
  | .notIn, .array items => nonMemberLayout f.field items d
  | .between, .array bounds => rangeLayout f.field bounds
  | _, _ => scalarLayout d f

end Filter

/-- The children of a group as the group shows them. -/
def Connective.layout (op : Connective) (ls : List Layout) : Layout :=
  match op, ls with
  | .not, _ => Layout.fixed [.word .not, space] ++ Layout.paren (ls.headD [])
  | _, [only] => only
  | .and, _ => Layout.paren (List.intercalate (Layout.fixed [space, .word .and, space]) ls)
  | .or, _ => Layout.paren (List.intercalate (Layout.fixed [space, .word .or, space]) ls)

namespace FilterTree

mutual

/-- The condition of a tree with all values in place. -/
def layout (d : Dialect) : FilterTree → Layout
  | .leaf f => f.layout d
  | .group op children => op.layout (layouts d children)

def layouts (d : Dialect) : List FilterTree → List Layout
  | [] => []
  | e :: rest => e.layout d :: layouts d rest

end

theorem layouts_eq_map (d : Dialect) (es : List FilterTree) : layouts d es = es.map (layout d) := by
  induction es with
  | nil => rfl
  | cons e es ih => simp [layouts, ih]

/-- The WHERE clause of several trees with all values in place. -/
def whereLayout (d : Dialect) (es : List FilterTree) : Layout :=
  if es.isEmpty then []
  else Layout.fixed [space, .word .filter, space] ++
    List.intercalate (Layout.fixed [space, .word .and, space]) (es.map (layout d))

/-- The HAVING clause of a tree with all values in place. -/
def havingLayout (d : Dialect) : Option FilterTree → Layout
  | some e => Layout.fixed [space, .word .having, space] ++ e.layout d
  | none => []

end FilterTree

section Vetted

variable {d : Dialect} {xs : List Text}

theorem Filter.vetted_layout {f : Filter} (hf : Identifier.isValid f.field = true) :
    (f.layout d).Vetted xs := by
  have hregex : ∀ d', d.regexToken.Vetted d' xs Double.AtLeastOne := by
    cases d <;> exact fun _ => trivial
  have hilike : ∀ d', d.ilikeToken.Vetted d' xs Double.AtLeastOne := by
    cases d <;> exact fun _ => trivial
  have hcomp : ∀ op d', (Condition.comparison op).Vetted d' xs Double.AtLeastOne := by
    intro op d'
    cases op <;> trivial
  have hitems : ∀ items : List Value,
      (Layout.commaList (items.map fun v => [.value v])).Vetted xs := fun items =>
    Layout.vetted_commaList fun l hl => by
      obtain ⟨v, -, rfl⟩ := List.mem_map.mp hl
      simp
  unfold Filter.layout
  split
  · simp [hf]
  · simp [hf]
  · cases d <;> simp [Filter.memberLayout, hf, hitems]
  · cases d <;> simp [Filter.nonMemberLayout, hf, hitems]
  · unfold Filter.rangeLayout
    split <;> simp [hf]
  · unfold Filter.scalarLayout
    split <;> simp [Filter.plainLayout, hf, hregex, hilike, hcomp]

theorem Connective.vetted_layout {op : Connective} {ls : List Layout}
    (h : ∀ l ∈ ls, l.Vetted xs) : (op.layout ls).Vetted xs := by
  unfold Connective.layout
  split
  · cases ls with
    | nil => simp
    | cons l ls => simpa using h l (by simp)
  · exact h _ (by simp)
  · rw [Layout.vetted_paren]
    exact Layout.vetted_intercalate (fun _ => by simp) h
  · rw [Layout.vetted_paren]
    exact Layout.vetted_intercalate (fun _ => by simp) h

namespace FilterTree

theorem vetted_layout {e : FilterTree}
    (h : ∀ f ∈ e.filters, Identifier.isValid f.field = true) : (e.layout d).Vetted xs := by
  induction e with
  | leaf f =>
    rw [layout]
    exact f.vetted_layout (h f (by simp))
  | group op es ih =>
    rw [layout, layouts_eq_map]
    refine Connective.vetted_layout fun l hl => ?_
    obtain ⟨e, he, rfl⟩ := List.mem_map.mp hl
    refine ih e he fun f hf => h f ?_
    rw [filters_group]
    exact List.mem_flatMap.mpr ⟨e, he, hf⟩

theorem vetted_whereLayout {es : List FilterTree}
    (h : ∀ e ∈ es, ∀ f ∈ e.filters, Identifier.isValid f.field = true) :
    (whereLayout d es).Vetted xs := by
  have htrees : ∀ l ∈ es.map (layout d), l.Vetted xs := by
    intro l hl
    obtain ⟨e, he, rfl⟩ := List.mem_map.mp hl
    exact vetted_layout (h e he)
  unfold whereLayout
  split_ifs
  · simp
  · simpa using Layout.vetted_intercalate (fun _ => by simp) htrees

theorem vetted_havingLayout {t : Option FilterTree}
    (h : ∀ e ∈ t, ∀ f ∈ e.filters, Identifier.isValid f.field = true) :
    (havingLayout d t).Vetted xs := by
  cases t with
  | none => simp [havingLayout]
  | some e => simpa [havingLayout] using vetted_layout (h e rfl)

end FilterTree

end Vetted

namespace Condition

variable {d : Dialect}

/-- A condition without values. -/
lemma lays_fixed {piece : Double → Condition} (ts : List Token)
    (h : ∀ x, piece x = ⟨ts, [], x⟩) : Lays d piece (Layout.fixed ts) := by
  refine ⟨fun x => ?_, fun {x n} _ => ?_, fun {x n} hx => ?_⟩
  · simp [h]
  · rw [h]
    exact .fixed d n ts
  · simpa [h] using hx

/-- A condition with one value takes one number. -/
lemma lays_single {piece : Double → Condition} (front back : List Token) {v : Value} {l : Layout}
    (h : ∀ x, piece x = single (front ++ .placeholder d x :: back) v x)
    (hl : l = Layout.fixed front ++ .value v :: Layout.fixed back) : Lays d piece l := by
  have hv : l.values = [v] := by simp [hl]
  refine ⟨fun x => ?_, fun {x n} hx => ?_, fun {x n} hx => ?_⟩
  · rw [h, hv, single]
  · rw [h, hl, single]
    exact .fixed_append front (.value v hx (.fixed d _ back))
  · rw [h, hv]
    exact hx.add 1

theorem lays_ofScalar (f : Filter) : Lays d (ofScalar d f) (f.scalarLayout d) := by
  obtain ⟨field, op, v⟩ := f
  have hplain : ∀ sign : Token, Lays d (fun x => single (binary d field sign x) v x)
      (Filter.plainLayout field sign v) := fun sign =>
    lays_single [.name field, space, sign, space] [] (fun _ => rfl) rfl
  cases op with
  | startsWith =>
    exact lays_single [.name field, space, .word .like, space]
      [space, .symbol .concat, space, .wildcard] (fun _ => rfl) rfl
  | endsWith =>
    exact lays_single [.name field, space, .word .like, space, .wildcard, space,
      .symbol .concat, space] [] (fun _ => rfl) rfl
  | contains =>
    exact lays_single [.name field, space, .word .like, space, .wildcard, space,
      .symbol .concat, space] [space, .symbol .concat, space, .wildcard] (fun _ => rfl) rfl
  | _ => exact hplain _

/-- A membership test takes as many numbers as it has parameters. -/
lemma lays_ofFragment {fragment : Double → Fragment} {l : Layout}
    (hp : ∀ x, (fragment x).params = l.values)
    (hn : ∀ {x n}, IsCount x n → Numbered d n l (fragment x).tokens) :
    Lays d (fun x => ofFragment (fragment x) x) l := by
  refine ⟨hp, hn, fun {x n} hx => ?_⟩
  simp only [ofFragment, hp]
  exact hx.add _

lemma numbered_placeholderList {x : Double} {n : ℕ} (hx : IsCount x n) (vs : List Value) :
    Numbered d n (Layout.commaList (vs.map fun v => [.value v])) (d.placeholderList vs x) := by
  rw [Dialect.placeholderList_eq_range, List.range_eq_range']
  exact .commaList (numberedAll_singletons d hx vs 0)

lemma values_singletons (vs : List Value) :
    (vs.map fun v => [Slot.value v]).flatMap Layout.values = vs := by
  induction vs with
  | nil => rfl
  | cons v vs ih => simp [ih]

theorem lays_memberOf (field : Text) (items : List Value) :
    Lays d (fun x => ofFragment (d.memberOf field items x) x) (Filter.memberLayout field items d) ∧
      Lays d (fun x => ofFragment (d.notMemberOf field items x) x)
        (Filter.nonMemberLayout field items d) := by
  cases d with
  | postgres =>
    constructor
    · exact lays_single [.name field, space, .symbol .eq, space, .word .anyOf, openParen]
        [closeParen] (fun _ => rfl) rfl
    · exact lays_single [.name field, space, .symbol .ne, space, .word .allOf, openParen]
        [closeParen] (fun _ => rfl) rfl
  | sqlite =>
    have hvalues : (Filter.memberLayout field items .sqlite).values = items := by
      simp [Filter.memberLayout, values_singletons]
    have hvalues' : (Filter.nonMemberLayout field items .sqlite).values = items := by
      simp [Filter.nonMemberLayout, values_singletons]
    constructor
    · exact lays_ofFragment (fun _ => hvalues.symm) fun hx =>
        .fixed_append _ (numbered_placeholderList hx items).paren
    · exact lays_ofFragment (fun _ => hvalues'.symm) fun hx =>
        .fixed_append _ (numbered_placeholderList hx items).paren

theorem lays_ofRange (field : Text) (bounds : List Value) :
    Lays d (ofRange d field bounds) (Filter.rangeLayout field bounds) := by
  match bounds with
  | [low, high] =>
    refine ⟨fun x => rfl, fun {x n} hx => ?_, fun {x n} hx => hx.add 2⟩
    have hsecond : IsCount (x.add 1) (n + 1) := hx.add 1
    exact .fixed_append [.name field, space, .word .between, space] (.value low hx
      (.fixed_append [space, .word .and, space] (.value high hsecond (.nil _))))
  | [] => exact lays_fixed _ fun _ => rfl
  | [_] => exact lays_fixed _ fun _ => rfl
  | _ :: _ :: _ :: _ => exact lays_fixed _ fun _ => rfl

theorem lays_ofFilter (f : Filter) : Lays d (ofFilter d f) (f.layout d) := by
  obtain ⟨field, op, v⟩ := f
  have hscalar := lays_ofScalar (d := d) ⟨field, op, v⟩
  cases op <;> cases v <;> first
    | exact hscalar
    | exact lays_fixed _ fun _ => rfl
    | exact (lays_memberOf field _).1
    | exact (lays_memberOf field _).2
    | exact lays_ofRange field _

lemma numbered_group (op : Connective) {n : ℕ} {ls : List Layout} {parts : List (List Token)}
    (h : NumberedAll d n ls parts) : Numbered d n (op.layout ls) (groupTokens op parts) := by
  have hjoined : ∀ w : Word, Numbered d n
      (Layout.paren (List.intercalate (Layout.fixed [space, .word w, space]) ls))
      (paren (joined w parts)) := fun w => (Numbered.intercalate h _).paren
  cases op with
  | not =>
    cases h with
    | nil => exact .fixed_append _ (Numbered.paren (.nil n))
    | cons hfirst _ => exact .fixed_append _ hfirst.paren
  | and =>
    cases h with
    | nil => exact hjoined .and
    | cons hfirst hrest =>
      cases hrest with
      | nil => exact hfirst
      | cons _ _ => exact hjoined .and
  | or =>
    cases h with
    | nil => exact hjoined .or
    | cons hfirst hrest =>
      cases hrest with
      | nil => exact hfirst
      | cons _ _ => exact hjoined .or

/-- All values of the children are shown, unless there is a second child of a negation. -/
lemma values_group {op : Connective} {ls : List Layout} (h : op = .not → ls.length ≤ 1) :
    (op.layout ls).values = ls.flatMap Layout.values := by
  match op, ls with
  | .not, [] => rfl
  | .not, [l] => simp [Connective.layout]
  | .not, l :: l' :: ls => simp at h
  | .and, [] => rfl
  | .or, [] => rfl
  | .and, [only] => simp [Connective.layout]
  | .or, [only] => simp [Connective.layout]
  | .and, l :: l' :: ls =>
    rw [Connective.layout, Layout.values_paren, Layout.values_intercalate]
    simp
  | .or, l :: l' :: ls =>
    rw [Connective.layout, Layout.values_paren, Layout.values_intercalate]
    simp

theorem lays_ofTree {e : FilterTree} (h : e.hidesNothing = true) :
    Lays d (ofTree d e) (e.layout d) := by
  induction e with
  | leaf f =>
    have hleaf : ofTree d (.leaf f) = ofFilter d f := funext fun x => ofTree_leaf d f x
    rw [hleaf, FilterTree.layout]
    exact lays_ofFilter f
  | group op es ih =>
    obtain ⟨hop, hes⟩ := FilterTree.hidesNothing_group.mp h
    have hseries := laysAll_ofList (fun e he => ih e he (hes e he))
    have hvalues : (op.layout (es.map (FilterTree.layout d))).values =
        (es.map (FilterTree.layout d)).flatMap Layout.values := values_group (by simpa using hop)
    rw [FilterTree.layout, FilterTree.layouts_eq_map]
    refine ⟨fun x => ?_, fun {x n} hx => ?_, fun {x n} hx => ?_⟩
    · rw [ofTree_group, hvalues]
      exact hseries.params x
    · rw [ofTree_group]
      exact numbered_group op (hseries.numbered hx)
    · rw [ofTree_group, hvalues]
      exact hseries.counts hx

theorem lays_whereClause {es : List FilterTree} (h : ∀ e ∈ es, e.hidesNothing = true) :
    Lays d (whereClause d es) (FilterTree.whereLayout d es) := by
  by_cases hempty : es = []
  · subst hempty
    exact lays_fixed [] fun _ => rfl
  · have hnonempty : es.isEmpty = false := by simpa using hempty
    have hseries := laysAll_ofList (fun e he => lays_ofTree (d := d) (h e he))
    have hvalues : (FilterTree.whereLayout d es).values =
        (es.map (FilterTree.layout d)).flatMap Layout.values := by
      simp [FilterTree.whereLayout, hnonempty, Layout.values_intercalate]
    have hclause : ∀ x, whereClause d es x = ⟨clause .filter (joined .and
        (Series.ofList (ofTree d) es x).parts), (Series.ofList (ofTree d) es x).params,
        (Series.ofList (ofTree d) es x).next⟩ := fun x => by
      simp [whereClause, ofWhere?, hnonempty, ofTrees_eq_ofList]
    refine ⟨fun x => ?_, fun {x n} hx => ?_, fun {x n} hx => ?_⟩
    · rw [hclause, hvalues]
      exact hseries.params x
    · rw [hclause, FilterTree.whereLayout, if_neg (by simp [hnonempty])]
      exact .fixed_append _ (.intercalate (hseries.numbered hx) _)
    · rw [hclause, hvalues]
      exact hseries.counts hx

theorem lays_havingClause {t : Option FilterTree} (h : ∀ e ∈ t, e.hidesNothing = true) :
    Lays d (havingClause d t) (FilterTree.havingLayout d t) := by
  cases t with
  | none => exact lays_fixed [] fun _ => rfl
  | some e =>
    have htree := lays_ofTree (d := d) (h e rfl)
    have hvalues : (FilterTree.havingLayout d (some e)).values = (e.layout d).values := by
      simp [FilterTree.havingLayout]
    refine ⟨fun x => ?_, fun {x n} hx => ?_, fun {x n} hx => ?_⟩
    · rw [hvalues]
      exact htree.params x
    · exact .fixed_append _ (htree.numbered hx)
    · rw [hvalues]
      exact htree.counts hx

end Condition
end BoundSql
