import BoundSql.Proofs.Filter.Binding

/-!
# What a tree shows of its filters

All filters of a tree are numbered and bind their values, and the text of the
tree has the condition of each, in order, but for those in the later children of
negations: a negation writes its first child and nothing of the others. The
parameters of what is left out have no placeholder. What the groups write between
the conditions, the outline of the tree, depends neither on the filters nor on the
dialect.
-/
namespace BoundSql
open Sql

/-- The members of a list at the places of true marks. -/
def keep {α : Type} (marks : List Bool) (as : List α) : List α :=
  ((marks.zip as).filter Prod.fst).map Prod.snd

section Keep

variable {α : Type} {marks marks' : List Bool} {as as' : List α}

lemma keep_cons (m : Bool) (marks : List Bool) (a : α) (as : List α) :
    keep (m :: marks) (a :: as) = if m then a :: keep marks as else keep marks as := by
  cases m <;> rfl

lemma keep_append (h : marks.length = as.length) :
    keep (marks ++ marks') (as ++ as') = keep marks as ++ keep marks' as' := by
  rw [keep, List.zip_append h, List.filter_append, List.map_append]
  rfl

lemma keep_of_false (h : ∀ m ∈ marks, m = false) (as : List α) : keep marks as = [] := by
  have hnone : (marks.zip as).filter Prod.fst = [] := by
    refine List.filter_eq_nil_iff.mpr fun p hp => ?_
    simp [h p.1 (List.of_mem_zip hp).1]
  rw [keep, hnone]
  rfl

lemma keep_of_true (h : ∀ m ∈ marks, m = true) (hlength : marks.length = as.length) :
    keep marks as = as := by
  have hall : (marks.zip as).filter Prod.fst = marks.zip as :=
    List.filter_eq_self.mpr fun p hp => h p.1 (List.of_mem_zip hp).1
  rw [keep, hall, List.map_snd_zip hlength.ge]

lemma length_keep (h : marks.length = as.length) : (keep marks as).length = marks.count true := by
  induction marks generalizing as with
  | nil => rfl
  | cons m marks ih =>
    obtain ⟨a, as, rfl⟩ := List.exists_cons_of_length_eq_add_one h.symm
    rw [keep_cons]
    cases m <;> simp [ih (Nat.succ.inj h)]

end Keep

namespace Connective

/-- Of the later parts of a negation nothing is shown. -/
def mask (op : Connective) (parts : List (List Bool)) : List Bool :=
  match op, parts with
  | .not, first :: rest => first ++ rest.flatten.map fun _ => false
  | _, parts => parts.flatten

lemma mask_of_ne {op : Connective} (h : op ≠ .not) (parts : List (List Bool)) :
    op.mask parts = parts.flatten := by
  cases op with
  | not => exact absurd rfl h
  | _ => rfl

lemma length_mask (op : Connective) (parts : List (List Bool)) :
    (op.mask parts).length = parts.flatten.length := by
  unfold mask
  split
  · rw [List.flatten_cons, List.length_append, List.length_append, List.length_map]
  · rfl

end Connective

namespace FilterTree

mutual

/-- For each filter of a tree, is it shown? -/
def marks : FilterTree → List Bool
  | .leaf _ => [true]
  | .group op children => op.mask (marksOf children)

def marksOf : List FilterTree → List (List Bool)
  | [] => []
  | e :: rest => e.marks :: marksOf rest

end

theorem marks_group (op : Connective) (es : List FilterTree) :
    marks (.group op es) = op.mask (es.map marks) := by
  have hlist : marksOf es = es.map marks := by
    induction es with
    | nil => rfl
    | cons e es ih => rw [marksOf, ih, List.map_cons]
  rw [marks, hlist]

theorem length_marks (e : FilterTree) : e.marks.length = e.filters.length := by
  induction e with
  | leaf f => rfl
  | group op es ih =>
    rw [marks_group, Connective.length_mask, filters_group, List.length_flatten,
      List.length_flatMap, List.map_map]
    exact congrArg List.sum (List.map_congr_left ih)

/-- Where no negation has a second child everything is shown. -/
theorem marks_of_hidesNothing {e : FilterTree} (h : e.hidesNothing = true) :
    ∀ m ∈ e.marks, m = true := by
  induction e with
  | leaf f => exact List.forall_mem_singleton.mpr rfl
  | group op es ih =>
    obtain ⟨hop, hes⟩ := hidesNothing_group.mp h
    have hall : ∀ m ∈ (es.map marks).flatten, m = true := by
      intro m hm
      obtain ⟨e, he, hm⟩ := List.mem_flatMap.mp (List.flatMap_def ▸ hm)
      exact ih e he (hes e he) m hm
    rw [marks_group]
    match op, es with
    | .and, es => exact hall
    | .or, es => exact hall
    | .not, [] => exact hall
    | .not, [e] => simpa [Connective.mask] using hall
    | .not, e :: e' :: es => simp at hop

/-- What stands in an outline in the place of a filter's condition. -/
def marker : Token := .expression "□"

mutual

/-- The tokens of a tree with a marker for the condition of each filter. -/
def outline : FilterTree → List Token
  | .leaf _ => [marker]
  | .group op children => Condition.groupTokens op (outlines children)

def outlines : List FilterTree → List (List Token)
  | [] => []
  | e :: rest => e.outline :: outlines rest

end

theorem outline_leaf (f : Filter) : outline (.leaf f) = [marker] := by rw [outline]

theorem outline_group (op : Connective) (es : List FilterTree) :
    outline (.group op es) = Condition.groupTokens op (es.map outline) := by
  have hlist : outlines es = es.map outline := by
    induction es with
    | nil => rfl
    | cons e es ih => rw [outlines, ih, List.map_cons]
  rw [outline, hlist]

end FilterTree

namespace Condition

/-- Tokens that groups add, and these conditions among them, in this order. -/
inductive Carries : List (List Token) → List Token → Prop
  | nil : Carries [] []
  | grouping {t : Token} {cs : List (List Token)} {ts : List Token} (h : t ∈ grouping)
      (rest : Carries cs ts) : Carries cs (t :: ts)
  | condition (c : List Token) {cs : List (List Token)} {ts : List Token} (rest : Carries cs ts) :
    Carries (c :: cs) (c ++ ts)

namespace Carries

variable {cs : List (List Token)} {ts : List Token}

/-- What groups have nothing of comes from the conditions. -/
theorem filterMap {α : Type} {g : Token → Option α} (hg : ∀ t ∈ Condition.grouping, g t = none)
    (h : Carries cs ts) : ts.filterMap g = cs.flatMap (List.filterMap g) := by
  induction h with
  | nil => rfl
  | grouping ht _ ih => rw [List.filterMap_cons_none (hg _ ht), ih]
  | condition c _ ih => rw [List.filterMap_append, ih, List.flatMap_cons]

end Carries

/-- An outline, and tokens that have these conditions in the places of its markers, in this
order. -/
inductive Filled : List Token → List (List Token) → List Token → Prop
  | nil : Filled [] [] []
  | grouping {t : Token} {o : List Token} {cs : List (List Token)} {ts : List Token}
      (h : t ∈ grouping) (rest : Filled o cs ts) : Filled (t :: o) cs (t :: ts)
  | condition (c : List Token) {o : List Token} {cs : List (List Token)} {ts : List Token}
      (rest : Filled o cs ts) : Filled (FilterTree.marker :: o) (c :: cs) (c ++ ts)

namespace Filled

variable {o o' : List Token} {cs cs' : List (List Token)} {ts ts' : List Token}

theorem append (h : Filled o cs ts) (h' : Filled o' cs' ts') :
    Filled (o ++ o') (cs ++ cs') (ts ++ ts') := by
  induction h with
  | nil => exact h'
  | grouping ht _ ih => exact .grouping ht ih
  | condition c _ ih =>
    rw [List.cons_append, List.append_assoc]
    exact .condition c ih

lemma of_grouping (h : ∀ t ∈ ts, t ∈ Condition.grouping) : Filled ts [] ts := by
  induction ts with
  | nil => exact .nil
  | cons t ts ih =>
    exact .grouping (h t List.mem_cons_self) (ih fun u hu => h u (List.mem_cons_of_mem t hu))

lemma paren (h : Filled o cs ts) : Filled (Sql.paren o) cs (Sql.paren ts) := by
  have hclose : Filled [closeParen] [] [closeParen] := of_grouping (by decide)
  have happend := h.append hclose
  rw [List.append_nil] at happend
  exact .grouping (by decide) happend

lemma single (c : List Token) : Filled [FilterTree.marker] [c] c := by
  have h := condition c nil
  rwa [List.append_nil] at h

/-- What fills an outline is carried by the tokens. -/
theorem carries (h : Filled o cs ts) : Carries cs ts := by
  induction h with
  | nil => exact .nil
  | grouping ht _ ih => exact .grouping ht ih
  | condition c _ ih => exact .condition c ih

end Filled

section Trees

variable {d : Dialect} {es : List FilterTree}

/-- The conditions of several trees are those of the first and those of the others. -/
lemma parts_leaves_cons (e : FilterTree) (es : List FilterTree) (index : Double) :
    (leaves d ((e :: es).flatMap FilterTree.filters) index).parts =
      (leaves d e.filters index).parts ++
        (leaves d (es.flatMap FilterTree.filters) (ofTree d e index).next).parts := by
  rw [List.flatMap_cons, leaves, (Series.ofList_append _ _ _ _).1, next_ofTree]
  rfl

lemma keep_marks_cons (e : FilterTree) (es : List FilterTree) (marks : List Bool)
    (index : Double) :
    keep (e.marks ++ marks) (leaves d ((e :: es).flatMap FilterTree.filters) index).parts =
      keep e.marks (leaves d e.filters index).parts ++
        keep marks (leaves d (es.flatMap FilterTree.filters) (ofTree d e index).next).parts := by
  rw [parts_leaves_cons, keep_append]
  rw [e.length_marks, leaves, Series.length_parts]

/-- A tree carries the conditions of the filters that it shows. -/
def Shows (d : Dialect) (e : FilterTree) : Prop :=
  ∀ index, Carries (keep e.marks (leaves d e.filters index).parts) (ofTree d e index).tokens

/-- The outline of a tree and the conditions of the filters that it shows make its tokens. -/
def Fills (d : Dialect) (e : FilterTree) : Prop :=
  ∀ index, Filled e.outline (keep e.marks (leaves d e.filters index).parts)
    (ofTree d e index).tokens

lemma filled_joined {w : Word} (hw : .word w ∈ grouping) (h : ∀ e ∈ es, Fills d e)
    (index : Double) :
    Filled (joined w (es.map FilterTree.outline))
      (keep (es.map FilterTree.marks).flatten
        (leaves d (es.flatMap FilterTree.filters) index).parts)
      (joined w (Series.ofList (ofTree d) es index).parts) := by
  induction es generalizing index with
  | nil => exact .nil
  | cons e es ih =>
    have hfirst := h e List.mem_cons_self index
    have hrest := ih (fun e' he => h e' (List.mem_cons_of_mem e he)) (ofTree d e index).next
    have hparts : (Series.ofList (ofTree d) (e :: es) index).parts = (ofTree d e index).tokens ::
        (Series.ofList (ofTree d) es (ofTree d e index).next).parts := rfl
    rw [hparts, List.map_cons, List.map_cons, List.flatten_cons, keep_marks_cons]
    cases es with
    | nil =>
      have hnone : keep ([] : List Bool) (leaves d [] (ofTree d e index).next).parts = [] := rfl
      have hone : ∀ ts, joined w [ts] = ts := fun _ => List.intercalate_singleton
      rw [List.map_nil, List.map_nil, List.flatten_nil, List.flatMap_nil, hnone, List.append_nil,
        hone]
      exact (hone (ofTree d e index).tokens).symm ▸ hfirst
    | cons e' es =>
      have hword : Filled [space, .word w, space] [] [space, .word w, space] :=
        .grouping (by decide) (.grouping hw (.grouping (by decide) .nil))
      have hmore : ∀ p q ps, joined w (p :: q :: ps) =
          p ++ [space, .word w, space] ++ joined w (q :: ps) :=
        fun _ _ _ => List.intercalate_cons_cons
      have hboth := (hfirst.append hword).append hrest
      rw [List.append_nil] at hboth
      rw [List.map_cons, hmore]
      exact (hmore _ _ _).symm ▸ hboth

/-- A conjunction or disjunction joins its children, in parentheses unless there is one only. -/
lemma groupTokens_of_ne {op : Connective} (h : op ≠ .not) : ∃ w, .word w ∈ grouping ∧
    ∀ parts, groupTokens op parts =
      if parts.length = 1 then joined w parts else paren (joined w parts) := by
  cases op with
  | not => exact absurd rfl h
  | and =>
    refine ⟨.and, by decide, fun parts => ?_⟩
    match parts with
    | [p] =>
      rw [if_pos (by rfl), joined, List.intercalate_singleton]
      rfl
    | [] => rfl
    | p :: q :: ps => exact (if_neg (by simp)).symm
  | or =>
    refine ⟨.or, by decide, fun parts => ?_⟩
    match parts with
    | [p] =>
      rw [if_pos (by rfl), joined, List.intercalate_singleton]
      rfl
    | [] => rfl
    | p :: q :: ps => exact (if_neg (by simp)).symm

theorem fills_group {op : Connective} (h : ∀ e ∈ es, Fills d e) : Fills d (.group op es) := by
  intro index
  rw [ofTree_group, FilterTree.filters_group, FilterTree.marks_group, FilterTree.outline_group]
  by_cases hop : op = .not
  · subst hop
    have hnot : ∀ {o cs ts}, Filled o cs ts →
        Filled ([.word .not, space] ++ paren o) cs ([.word .not, space] ++ paren ts) :=
      fun hts => .grouping (by decide) (.grouping (by decide) hts.paren)
    cases es with
    | nil => exact hnot .nil
    | cons e es =>
      have hfirst := hnot (h e List.mem_cons_self index)
      have hhidden : ∀ m ∈ (es.map FilterTree.marks).flatten.map fun _ => false, m = false := by
        intro m hm
        obtain ⟨-, -, rfl⟩ := List.mem_map.mp hm
        rfl
      simp only [List.map_cons, Connective.mask]
      rw [keep_marks_cons, keep_of_false hhidden, List.append_nil]
      exact hfirst
  · obtain ⟨w, hw, htokens⟩ := groupTokens_of_ne hop
    have hjoined := filled_joined hw h index
    rw [Connective.mask_of_ne hop, htokens, htokens, List.length_map, Series.length_parts]
    split_ifs
    · exact hjoined
    · exact hjoined.paren

/-- The text of a tree is its outline with the conditions of the filters that it shows. -/
theorem fills_ofTree (d : Dialect) (e : FilterTree) : Fills d e := by
  induction e with
  | leaf f =>
    intro index
    rw [ofTree_leaf, FilterTree.outline_leaf]
    exact .single _
  | group op es ih => exact fills_group ih

/-- The text of a tree is made of the conditions of the filters that it shows, in order. -/
theorem shows_ofTree (d : Dialect) (e : FilterTree) : Shows d e := fun index =>
  (fills_ofTree d e index).carries

end Trees

/-- What a condition starts with: a field, or the condition that stands for no range. -/
def head? : Token → Option Token
  | .name n => some (.name n)
  | .noRange length => some (.noRange length)
  | _ => none

lemma head?_of_placeholderList {d : Dialect} {vs : List Value} {x : Double} :
    (d.placeholderList vs x).filterMap head? = [] := by
  refine List.filterMap_eq_nil_iff.mpr fun t ht => ?_
  rcases mem_intercalate ht with hsep | ⟨p, hp, ht⟩
  · simp only [List.mem_cons, List.not_mem_nil, or_false] at hsep
    rcases hsep with rfl | rfl <;> rfl
  · obtain ⟨i, -, rfl⟩ := List.mem_mapIdx.mp hp
    rw [List.mem_singleton.mp ht]
    rfl

lemma heads_memberOf (d : Dialect) (field : Text) (vs : List Value) (x : Double) :
    (d.memberOf field vs x).tokens.filterMap head? = [.name field] ∧
      (d.notMemberOf field vs x).tokens.filterMap head? = [.name field] := by
  have hlist : (paren (d.placeholderList vs x)).filterMap head? = [] := by
    rw [paren, List.filterMap_cons_none rfl, List.filterMap_append, head?_of_placeholderList]
    rfl
  cases d with
  | postgres => exact ⟨rfl, rfl⟩
  | sqlite =>
    constructor
    · rw [Dialect.memberOf, List.filterMap_append, hlist]
      rfl
    · rw [Dialect.notMemberOf, List.filterMap_append, hlist]
      rfl

/-- Every condition has one head. -/
theorem length_heads_ofFilter (d : Dialect) (f : Filter) (index : Double) :
    ((ofFilter d f index).tokens.filterMap head?).length = 1 := by
  obtain ⟨field, op, v⟩ := f
  have hscalar : ((ofScalar d ⟨field, op, v⟩ index).tokens.filterMap head?).length = 1 := by
    cases op <;> cases d <;> rfl
  unfold ofFilter
  split
  · rfl
  · rfl
  · exact congrArg List.length (heads_memberOf d field _ index).1
  · exact congrArg List.length (heads_memberOf d field _ index).2
  · unfold ofRange
    split <;> rfl
  · exact hscalar

lemma length_heads_leaves (d : Dialect) (fs : List Filter) (index : Double) :
    ∀ c ∈ (leaves d fs index).parts, (c.filterMap head?).length = 1 :=
  Series.forall_parts (fun f _ i => length_heads_ofFilter d f i) index

lemma length_heads_of_carries {cs : List (List Token)} {ts : List Token}
    (hcs : ∀ c ∈ cs, (c.filterMap head?).length = 1) (h : Carries cs ts) :
    (ts.filterMap head?).length = cs.length := by
  have hgrouping : ∀ t ∈ grouping, head? t = none := by decide
  have hone : cs.map (fun c => (c.filterMap head?).length) = List.replicate cs.length 1 := by
    rw [List.map_congr_left hcs, List.map_const']
  rw [h.filterMap hgrouping, List.length_flatMap, hone]
  simp

lemma mem_of_mem_keep {α : Type} {marks : List Bool} {as : List α} {a : α}
    (h : a ∈ keep marks as) : a ∈ as := by
  obtain ⟨p, hp, rfl⟩ := List.mem_map.mp h
  exact (List.of_mem_zip (List.mem_filter.mp hp).1).2

/-- The text has the conditions of all filters only if each filter is shown. -/
theorem carries_all_iff (d : Dialect) (e : FilterTree) (index : Double) :
    Carries (leaves d e.filters index).parts (ofTree d e index).tokens ↔
      ∀ m ∈ e.marks, m = true := by
  have hlength : e.marks.length = (leaves d e.filters index).parts.length := by
    rw [e.length_marks, leaves, Series.length_parts]
  have hshows := shows_ofTree d e index
  constructor
  · intro hall
    have hkept := length_heads_of_carries
      (fun c hc => length_heads_leaves d e.filters index c (mem_of_mem_keep hc)) hshows
    rw [length_heads_of_carries (length_heads_leaves d e.filters index) hall, ← hlength,
      length_keep hlength, eq_comm, List.count_eq_length] at hkept
    exact fun m hm => (hkept m hm).symm
  · intro hall
    rwa [keep_of_true hall hlength] at hshows

/-- The numbers of the placeholders. -/
def numbers (ts : List Token) : List Double :=
  ts.filterMap fun
    | .placeholder _ x => some x
    | _ => none

lemma numbers_of_carries {cs : List (List Token)} {ts : List Token} (h : Carries cs ts) :
    numbers ts = cs.flatMap numbers :=
  h.filterMap (by decide)

/-- The values of a layout take the numbers from the first one on. -/
lemma numbers_of_shown {l : Layout} {ts : List Token} (h : Shown l ts) (d : Dialect) (n : ℕ) :
    numbers (l.number d n) = (List.range' n l.values.length).map Double.ofNat := by
  induction h generalizing n with
  | nil => rfl
  | @token t l ts plain _ ih =>
    have hnone : numbers (t :: l.number d n) = numbers (l.number d n) := by
      cases t with
      | placeholder => cases plain
      | _ => rfl
    rw [Layout.number_token, hnone, ih, Layout.values_token]
  | @value v _ _ l ts _ ih =>
    rw [Layout.number_value, Layout.values_value, List.length_cons, List.range'_succ, List.map_cons,
      ← ih (n + 1)]
    rfl

/-- For each parameter of some filters, is its filter marked? -/
def paramMarks (d : Dialect) (marks : List Bool) (fs : List Filter) : List Bool :=
  (marks.zip fs).flatMap fun p => List.replicate (p.2.layout d).values.length p.1

lemma keep_replicate {α : Type} (m : Bool) {k : ℕ} {as : List α} (h : k = as.length) :
    keep (List.replicate k m) as = if m then as else [] := by
  have hmem : ∀ m' ∈ List.replicate k m, m' = m := fun _ hm => List.eq_of_mem_replicate hm
  cases m with
  | true => exact keep_of_true hmem (by rw [List.length_replicate, h])
  | false => exact keep_of_false hmem as

/-- The numbers in the conditions of marked filters are those of their parameters. -/
lemma numbers_leaves {d : Dialect} {marks : List Bool} {fs : List Filter}
    (hmarks : marks.length = fs.length) {x : Double} {n : ℕ} (hx : IsNumber x n)
    (hn : n + (leaves d fs x).params.length ≤ Double.safeBound + 1) :
    (keep marks (leaves d fs x).parts).flatMap numbers =
      keep (paramMarks d marks fs)
        ((List.range' n (leaves d fs x).params.length).map Double.ofNat) := by
  induction fs generalizing marks x n with
  | nil =>
    rw [List.length_eq_zero_iff.mp hmarks]
    rfl
  | cons f fs ih =>
    obtain ⟨m, marks, rfl⟩ := List.exists_cons_of_length_eq_add_one hmarks
    have hlays := lays_ofFilter (d := d) f
    have hparams : (leaves d (f :: fs) x).params =
        (f.layout d).values ++ (leaves d fs (ofFilter d f x).next).params := by
      rw [← hlays.params x]
      rfl
    have hparts : (leaves d (f :: fs) x).parts =
        (ofFilter d f x).tokens :: (leaves d fs (ofFilter d f x).next).parts := rfl
    rw [hparams, List.length_append] at hn
    have hfirst : numbers (ofFilter d f x).tokens =
        (List.range' n (f.layout d).values.length).map Double.ofNat := by
      rw [hlays.tokens hx (by omega), numbers_of_shown (shown_ofFilter f x)]
    have hrest := ih (Nat.succ.inj hmarks) (hlays.next hx) (by omega)
    have hrange : (List.range' n (leaves d (f :: fs) x).params.length).map Double.ofNat =
        (List.range' n (f.layout d).values.length).map Double.ofNat ++
          (List.range' (n + (f.layout d).values.length)
            (leaves d fs (ofFilter d f x).next).params.length).map Double.ofNat := by
      rw [hparams, List.length_append, ← List.range'_append_1, List.map_append]
    have hmarks' : paramMarks d (m :: marks) (f :: fs) =
        List.replicate (f.layout d).values.length m ++ paramMarks d marks fs := rfl
    rw [hparts, keep_cons, hrange, hmarks', keep_append (by simp), keep_replicate m (by simp),
      ← hrest, ← hfirst]
    cases m <;> rfl

lemma length_paramMarks (d : Dialect) {marks : List Bool} {fs : List Filter}
    (h : marks.length = fs.length) :
    (paramMarks d marks fs).length = (fs.flatMap fun f => (f.layout d).values).length := by
  induction fs generalizing marks with
  | nil =>
    rw [List.length_eq_zero_iff.mp h]
    rfl
  | cons f fs ih =>
    obtain ⟨m, marks, rfl⟩ := List.exists_cons_of_length_eq_add_one h
    have hmarks : paramMarks d (m :: marks) (f :: fs) =
        List.replicate (f.layout d).values.length m ++ paramMarks d marks fs := rfl
    rw [hmarks, List.flatMap_cons, List.length_append, List.length_append, List.length_replicate,
      ih (Nat.succ.inj h)]

lemma eq_true_of_mem_paramMarks {d : Dialect} {marks : List Bool} (h : ∀ m ∈ marks, m = true)
    (fs : List Filter) : ∀ m ∈ paramMarks d marks fs, m = true := by
  intro m hm
  obtain ⟨p, hp, hm⟩ := List.mem_flatMap.mp hm
  rw [List.eq_of_mem_replicate hm]
  exact h p.1 (List.of_mem_zip hp).1

lemma count_range' {n k i : ℕ} (hn : n + k ≤ Double.safeBound + 1) (hi : i < k) :
    ((List.range' n k).map Double.ofNat).count (.ofNat (n + i)) = 1 := by
  refine List.count_eq_one_of_mem ?_ (List.mem_map_of_mem ?_)
  · refine List.Nodup.map_on (fun a ha b hb h => ?_) List.nodup_range'
    rw [List.mem_range'_1] at ha hb
    exact Double.ofNat_inj (by omega) (by omega) h
  · rw [List.mem_range'_1]
    omega

/-- The text of a tree has, from left to right, the conditions of the filters that it shows, each
with the numbers it has among all filters, and nothing else but what joins them. The parameters
are those of all filters. So the text has the conditions of all filters only if each is shown, as
they are where no negation has a second child. The placeholders are the numbers of the parameters
of filters that are shown, in order: each parameter has exactly one if nothing is hidden, and
those of hidden filters have none. -/
theorem ofTree_shows (d : Dialect) (e : FilterTree) (index : Double) :
    Carries (keep e.marks (leaves d e.filters index).parts) (ofTree d e index).tokens ∧
    (ofTree d e index).params = (leaves d e.filters index).params ∧
    (Carries (leaves d e.filters index).parts (ofTree d e index).tokens ↔
      ∀ m ∈ e.marks, m = true) ∧
    (e.hidesNothing = true → ∀ m ∈ e.marks, m = true) ∧
    ∀ n : ℕ, index = .ofNat n →
      n + (ofTree d e index).params.length ≤ Double.safeBound + 1 →
      numbers (ofTree d e index).tokens = keep (paramMarks d e.marks e.filters)
        ((List.range' n (ofTree d e index).params.length).map Double.ofNat) ∧
      ((∀ m ∈ e.marks, m = true) → ∀ i < (ofTree d e index).params.length,
        (numbers (ofTree d e index).tokens).count (.ofNat (n + i)) = 1) := by
  have hshows := shows_ofTree d e index
  have hparams := params_ofTree d e index
  refine ⟨hshows, hparams, carries_all_iff d e index, FilterTree.marks_of_hidesNothing, ?_⟩
  intro n hindex hn
  have hnumber : IsNumber index n := fun _ => hindex
  rw [hparams] at hn ⊢
  have hnumbers := numbers_leaves e.length_marks hnumber hn
  rw [← numbers_of_carries hshows] at hnumbers
  refine ⟨hnumbers, fun hall i hi => ?_⟩
  have hvalues : (leaves d e.filters index).params =
      e.filters.flatMap fun f => (f.layout d).values :=
    Series.params_ofList (fun f _ => (lays_ofFilter f).params) index
  have hlength : (paramMarks d e.marks e.filters).length =
      ((List.range' n (leaves d e.filters index).params.length).map Double.ofNat).length := by
    rw [length_paramMarks d e.length_marks, List.length_map, List.length_range', hvalues]
  rw [hnumbers, keep_of_true (eq_true_of_mem_paramMarks hall e.filters) hlength]
  exact count_range' hn hi

/-- A list on SQLite and a negation of one child. -/
theorem ofTree_shows_of_list :
    let e : FilterTree := .group .and [.compare "a" .eq (.int 1),
      .group .not [.compare "b" .isIn (.array [.int 2, .int 3])]]
    let c := ofTree .sqlite e 5
    e.hidesNothing = true ∧ c.params.length = 3 ∧
      Carries (leaves .sqlite e.filters 5).parts c.tokens ∧
      ∀ i < 3, (numbers c.tokens).count (.ofNat (5 + i)) = 1 := by
  intro e c
  obtain ⟨-, -, hall, hhides, hnumbers⟩ := ofTree_shows .sqlite e 5
  have hhidesNothing : e.hidesNothing = true := by decide
  have hmarks := hhides hhidesNothing
  exact ⟨hhidesNothing, rfl, hall.mpr hmarks, (hnumbers 5 rfl (by decide)).2 hmarks⟩

/-- A negation of two comparisons binds the values of both and shows the first. -/
theorem ofTree_hides_second :
    let e : FilterTree := .group .not [.compare "a" .eq (.int 1), .compare "b" .eq (.int 2)]
    let c := ofTree .postgres e 1
    c.sql = Text.ofString "NOT (a = $1)" ∧ c.params = [.int 1, .int 2] ∧
      ¬Carries (leaves .postgres e.filters 1).parts c.tokens ∧
      (numbers c.tokens).count 2 = 0 := by
  intro e c
  refine ⟨by decide +kernel, rfl, fun h => ?_, by decide +kernel⟩
  have hmarks := (carries_all_iff .postgres e 1).mp h
  have hhidden : false ∈ e.marks := by decide
  exact absurd (hmarks false hhidden) (by decide)

end Condition
end BoundSql
