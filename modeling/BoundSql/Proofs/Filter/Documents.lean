import BoundSql.Client.FilterDocument
import BoundSql.Proofs.Number.Integers
import BoundSql.Proofs.Outcomes
import BoundSql.Proofs.Sql.Conditions

/-!
# What documents can say

The trees that documents are read as: every field has a name that is no operator,
every operand has the shape that its operator needs, every negation has one child,
and numbers are either safe integers or no integers. Conditions of such trees never
need a comparison that stands in for another. Each such tree that is not nested too
deep is written as a document of its own, in which every object has one member.
-/
namespace BoundSql

namespace Value

mutual

/-- The scalars in a value. -/
def scalars : Value → List Value
  | .array items => scalarsAll items
  | v => [v]

def scalarsAll : List Value → List Value
  | [] => []
  | v :: rest => v.scalars ++ scalarsAll rest

end

mutual

/-- How many arrays enclose the innermost part of a value. -/
def nesting : Value → ℕ
  | .array items => nestingAll items + 1
  | _ => 0

def nestingAll : List Value → ℕ
  | [] => 0
  | v :: rest => max v.nesting (nestingAll rest)

end

theorem scalarsAll_eq_flatMap (vs : List Value) : scalarsAll vs = vs.flatMap scalars := by
  induction vs with
  | nil => rfl
  | cons v vs ih => simp [scalarsAll, ih]

theorem scalars_array (items : List Value) :
    (Value.array items).scalars = items.flatMap scalars := scalarsAll_eq_flatMap items

theorem nesting_le_nestingAll {vs : List Value} {v : Value} (h : v ∈ vs) :
    v.nesting ≤ nestingAll vs := by
  induction vs with
  | nil => cases h
  | cons w vs ih =>
    rw [nestingAll]
    rcases List.mem_cons.mp h with rfl | h
    · exact le_max_left _ _
    · exact (ih h).trans (le_max_right _ _)

/-- The integers of a value are safe ones, and its other numbers finite and no safe integers. -/
structure Exact (v : Value) : Prop where
  ints : ∀ n, .int n ∈ v.scalars → n.toInt.natAbs ≤ 2 ^ 53 - 1
  floats : ∀ x, .float x ∈ v.scalars → x.isFinite = true ∧ x.isSafeInteger = false

theorem exact_array {items : List Value} :
    (Value.array items).Exact ↔ ∀ v ∈ items, v.Exact := by
  have hmem : ∀ s, s ∈ (Value.array items).scalars ↔ ∃ v ∈ items, s ∈ v.scalars := fun s => by
    rw [scalars_array, List.mem_flatMap]
  constructor
  · intro h v hv
    exact ⟨fun n hn => h.ints n ((hmem _).mpr ⟨v, hv, hn⟩),
      fun x hx => h.floats x ((hmem _).mpr ⟨v, hv, hx⟩)⟩
  · intro h
    constructor
    · intro n hn
      obtain ⟨v, hv, hn⟩ := (hmem _).mp hn
      exact (h v hv).ints n hn
    · intro x hx
      obtain ⟨v, hv, hx⟩ := (hmem _).mp hx
      exact (h v hv).floats x hx

/-- A number is a safe integer or stays as it is. -/
theorem exact_ofNumber {x : Double} (hx : x.isFinite = true) : (ofNumber x).Exact := by
  cases hsafe : x.toSafeInt? with
  | none =>
    have hnumber : ofNumber x = .float x := by rw [ofNumber, hsafe]
    rw [hnumber]
    refine ⟨fun n hn => by simp [scalars] at hn, fun y hy => ?_⟩
    obtain rfl : y = x := by simpa [scalars] using hy
    exact ⟨hx, by rw [Double.isSafeInteger, hsafe]; rfl⟩
  | some z =>
    have hnumber : ofNumber x = .int (Int64.ofInt z) := by rw [ofNumber, hsafe]
    have hbound : z.natAbs < Double.safeBound := by
      rw [Double.toSafeInt?, Option.filter_eq_some_iff] at hsafe
      simpa using hsafe.2
    rw [hnumber]
    refine ⟨fun n hn => ?_, fun y hy => by simp [scalars] at hy⟩
    obtain rfl : n = Int64.ofInt z := by simpa [scalars] using hn
    simp only [Double.safeBound, Double.binadeSize] at hbound
    rw [Int64.toInt_ofInt_of_le (by omega) (by omega)]
    omega

/-- A safe integer comes back from the number that it is. -/
theorem ofNumber_ofInt {n : Int64} (h : n.toInt.natAbs ≤ 2 ^ 53 - 1) :
    (Double.ofInt n.toInt).isFinite = true ∧ ofNumber (Double.ofInt n.toInt) = .int n := by
  have hlt : n.toInt.natAbs < Double.safeBound := by
    simp only [Double.safeBound, Double.binadeSize]
    omega
  obtain ⟨r, hr, -⟩ := Double.ofInt_exact hlt.le
  refine ⟨by rw [hr]; rfl, ?_⟩
  have hsafe : (Double.ofInt n.toInt).toSafeInt? = some n.toInt := by
    rw [Double.toSafeInt?, Double.toInt?_ofInt hlt.le, Option.filter_some]
    simp only [hlt, decide_true, if_true]
  rw [ofNumber, hsafe]
  exact congrArg Value.int n.ofInt_toInt

end Value

/-- A filter that a document can hold. -/
structure Filter.WellShaped (f : Filter) : Prop where
  field : f.field ≠ []
  plain : f.field.head? ≠ some (Text.unit '$')
  members : f.op = .isIn ∨ f.op = .notIn → ∃ items, f.value = .array items
  range : f.op = .between → ∃ low high, f.value = .array [low, high]
  value : f.value.Exact

namespace FilterTree

/-- A tree that a document can hold. -/
structure WellShaped (e : FilterTree) : Prop where
  filters : ∀ f ∈ e.filters, f.WellShaped
  negations : e.everyGroup (fun op n => op ≠ .not || n = 1) = true

theorem wellShaped_leaf {f : Filter} : (FilterTree.leaf f).WellShaped ↔ f.WellShaped :=
  ⟨fun h => h.filters f (by simp), fun h => ⟨by simpa using h, by simp⟩⟩

theorem wellShaped_group {op : Connective} {es : List FilterTree} :
    (FilterTree.group op es).WellShaped ↔
      (op = .not → es.length = 1) ∧ ∀ e ∈ es, e.WellShaped := by
  constructor
  · intro h
    have hfilters := h.filters
    obtain ⟨hop, hes⟩ := everyGroup_group.mp h.negations
    rw [filters_group] at hfilters
    refine ⟨fun hnot => by simpa [hnot] using hop, fun e he => ⟨fun f hf => ?_, hes e he⟩⟩
    exact hfilters f (List.mem_flatMap.mpr ⟨e, he, hf⟩)
  · rintro ⟨hop, hes⟩
    refine ⟨fun f hf => ?_, everyGroup_group.mpr ⟨?_, fun e he => (hes e he).negations⟩⟩
    · rw [filters_group] at hf
      obtain ⟨e, he, hf⟩ := List.mem_flatMap.mp hf
      exact (hes e he).filters f hf
    · by_cases hnot : op = .not
      · simpa [hnot] using hop hnot
      · simp [hnot]

theorem wellShaped_conjoin {es : List FilterTree} (h : ∀ e ∈ es, e.WellShaped) :
    (conjoin es).WellShaped := by
  unfold conjoin
  split
  · exact h _ List.mem_cons_self
  · exact wellShaped_group.mpr ⟨fun hop => absurd hop (by decide), h⟩

mutual

/-- How many groups and arrays enclose the innermost part of a tree. -/
def nesting : FilterTree → ℕ
  | .leaf f => f.value.nesting
  | .group _ children => nestingAll children + 1

def nestingAll : List FilterTree → ℕ
  | [] => 0
  | e :: rest => max e.nesting (nestingAll rest)

end

theorem nesting_le_nestingAll {es : List FilterTree} {e : FilterTree} (h : e ∈ es) :
    e.nesting ≤ nestingAll es := by
  induction es with
  | nil => cases h
  | cons a es ih =>
    rw [nestingAll]
    rcases List.mem_cons.mp h with rfl | h
    · exact le_max_left _ _
    · exact (ih h).trans (le_max_right _ _)

end FilterTree

namespace Condition

open Sql

variable {d : Dialect} {f : Filter} {index : Double}

/-- Only a range of the wrong length is replaced by a condition without rows. -/
lemma noRange_ofFilter {n : ℕ} (h : .noRange n ∈ (ofFilter d f index).tokens) :
    f.op = .between ∧ ∃ bounds, f.value = .array bounds ∧ bounds.length = n ∧ n ≠ 2 := by
  cases belongs_ofFilter d f index _ h with
  | fixed hfixed => simp [vocabulary, space, openParen, closeParen] at hfixed
  | noRange hop hvalue hlength => exact ⟨hop, _, hvalue, rfl, hlength⟩

/-- The condition of a tree that a document can hold has no such range. -/
theorem noRange_ofTree {e : FilterTree} (h : e.WellShaped) (n : ℕ) :
    .noRange n ∉ (ofTree d e index).tokens := by
  intro hmem
  rcases mem_ofTree hmem with hmem | ⟨f, hf, i, hmem⟩
  · simp [grouping, space, openParen, closeParen] at hmem
  · obtain ⟨hop, bounds, hvalue, rfl, hlength⟩ := noRange_ofFilter hmem
    obtain ⟨low, high, hpair⟩ := (h.filters f hf).range hop
    obtain rfl : bounds = [low, high] := Value.array.inj (hvalue.symm.trans hpair)
    exact hlength rfl

/-- Equality does not stand in for membership or a range. -/
theorem ofFilter_ne_equality (h : f.WellShaped) (hop : f.op ∈ [.isIn, .notIn, .between]) :
    (ofFilter d f index).tokens ≠ binary d f.field (.symbol .eq) index := by
  obtain ⟨field, op, value⟩ := f
  simp only [List.mem_cons, List.not_mem_nil, or_false] at hop
  rcases hop with rfl | rfl | rfl
  · obtain ⟨items, rfl⟩ := h.members (.inl rfl)
    cases d <;> simp [ofFilter, ofFragment, Dialect.memberOf, binary, paren]
  · obtain ⟨items, rfl⟩ := h.members (.inr rfl)
    cases d <;> simp [ofFilter, ofFragment, Dialect.notMemberOf, binary, paren]
  · obtain ⟨low, high, rfl⟩ := h.range rfl
    simp [ofFilter, ofRange, binary]

end Condition

namespace FilterDocument

variable {levels : ℕ} {j : Json} {v : Value}

/-- The items of an array are one level deeper. -/
lemma toValue_array {items : List Json} : toValue levels (.array items) = .ok v ↔
    ∃ rest vs, levels = rest + 1 ∧ v = .array vs ∧ items.mapM (toValue rest) = .ok vs := by
  cases levels with
  | zero => simp [toValue]
  | succ rest =>
    rw [toValue, map_eq_ok_iff]
    constructor
    · rintro ⟨vs, hvs, rfl⟩
      exact ⟨rest, vs, rfl, rfl, hvs⟩
    · rintro ⟨rest', vs, hrest, rfl, hvs⟩
      obtain rfl := Nat.succ.inj hrest
      exact ⟨vs, hvs, rfl⟩

theorem exact_toValue (h : toValue levels j = .ok v) : v.Exact := by
  induction levels generalizing j v with
  | zero => cases h
  | succ levels ih =>
    cases j with
    | null =>
      obtain ⟨⟩ := h
      exact ⟨by simp [Value.scalars], by simp [Value.scalars]⟩
    | bool b =>
      obtain ⟨⟩ := h
      exact ⟨by simp [Value.scalars], by simp [Value.scalars]⟩
    | string s =>
      obtain ⟨⟩ := h
      exact ⟨by simp [Value.scalars], by simp [Value.scalars]⟩
    | number x =>
      rw [toValue] at h
      split_ifs at h with hx
      obtain rfl := Except.ok.inj h
      exact Value.exact_ofNumber hx
    | array items =>
      obtain ⟨rest, vs, hrest, rfl, hvs⟩ := toValue_array.mp h
      obtain rfl := Nat.succ.inj hrest
      refine Value.exact_array.mpr fun v hv => ?_
      obtain ⟨j, -, hj⟩ := exists_of_mapM hvs hv
      exact ih hj
    | object members => cases h

lemma valueOr_eq_ok_iff {otherwise : FilterError} :
    valueOr otherwise levels j = .ok v ↔ toValue levels j = .ok v := by
  rw [valueOr]
  cases toValue levels j <;> simp [Except.mapError]

/-- An operand is a value of the shape that its operator needs. -/
lemma operand_spec {key : Text} {op : Operator} (h : operand key op levels j = .ok v) :
    toValue levels j = .ok v ∧ (op = .isIn ∨ op = .notIn → isArray j = true) ∧
      (op = .between → isPair j = true) := by
  unfold operand at h
  split at h
  · split_ifs at h with harray
    exact ⟨valueOr_eq_ok_iff.mp h, fun _ => harray, by simp⟩
  · split_ifs at h with harray
    exact ⟨valueOr_eq_ok_iff.mp h, fun _ => harray, by simp⟩
  · split_ifs at h with hpair
    exact ⟨valueOr_eq_ok_iff.mp h, by simp, fun _ => hpair⟩
  · rename_i hin hnot hbetween
    exact ⟨valueOr_eq_ok_iff.mp h, fun hop => (hop.elim hin hnot).elim,
      fun hop => (hbetween hop).elim⟩

/-- The value of an operator's operand has the shape that the operator needs. -/
lemma shape_of_operand {key : Text} {op : Operator} (h : operand key op levels j = .ok v) :
    (op = .isIn ∨ op = .notIn → ∃ items, v = .array items) ∧
      (op = .between → ∃ low high, v = .array [low, high]) := by
  obtain ⟨hvalue, harray, hpair⟩ := operand_spec h
  constructor
  · intro hop
    have hj := harray hop
    cases j with
    | array items =>
      obtain ⟨-, vs, -, rfl, -⟩ := toValue_array.mp hvalue
      exact ⟨vs, rfl⟩
    | _ => cases hj
  · intro hop
    have hj := hpair hop
    unfold isPair at hj
    split at hj
    · obtain ⟨rest, vs, -, rfl, hvs⟩ := toValue_array.mp hvalue
      have hlength := (mapM_eq_ok_iff.mp hvs).length_eq
      obtain ⟨low, high, rfl⟩ := List.length_eq_two.mp hlength.symm
      exact ⟨low, high, rfl⟩
    · cases hj

lemma wellShaped_fieldFilter {field : Text} {e : FilterTree} (hfield : field ≠ [])
    (hplain : isOperatorKey field = false) (h : fieldFilter field levels j = .ok e) :
    e.WellShaped := by
  have hhead : field.head? ≠ some (Text.unit '$') := by simpa [isOperatorKey] using hplain
  unfold fieldFilter at h
  split at h
  · split_ifs at h
    split at h
    · obtain ⟨v, hv, rfl⟩ := map_eq_ok_iff.mp h
      obtain ⟨hmembers, hrange⟩ := shape_of_operand hv
      exact FilterTree.wellShaped_leaf.mpr
        ⟨hfield, hhead, hmembers, hrange, exact_toValue (operand_spec hv).1⟩
    · cases h
  · cases h
  · obtain ⟨v, hv, rfl⟩ := map_eq_ok_iff.mp h
    exact FilterTree.wellShaped_leaf.mpr
      ⟨hfield, hhead, by simp, by simp, exact_toValue (valueOr_eq_ok_iff.mp hv)⟩

section Groups

variable {read : Json → Except FilterError FilterTree}

lemma wellShaped_children (hread : ∀ {j e}, read j = .ok e → e.WellShaped)
    {es : List FilterTree} (h : children read j = .ok es) : ∀ e ∈ es, e.WellShaped := by
  unfold children at h
  split at h
  · intro e he
    obtain ⟨j, -, hj⟩ := exists_of_mapM h he
    exact hread hj
  · cases h

lemma wellShaped_onlyChild (hread : ∀ {j e}, read j = .ok e → e.WellShaped) {e : FilterTree}
    (h : onlyChild read j = .ok e) : e.WellShaped := by
  unfold onlyChild at h
  split at h
  · exact hread h
  · cases h
  · exact hread h

lemma wellShaped_member (hread : ∀ {j e}, read j = .ok e → e.WellShaped) {key : Text}
    {e : FilterTree} (h : member read levels key j = .ok e) : e.WellShaped := by
  unfold member at h
  split_ifs at h with hempty hplain
  · exact wellShaped_fieldFilter (by simpa using hempty) (by simpa using hplain) h
  · obtain ⟨es, hes, rfl⟩ := map_eq_ok_iff.mp h
    exact FilterTree.wellShaped_group.mpr
      ⟨fun hop => absurd hop (by decide), wellShaped_children hread hes⟩
  · obtain ⟨es, hes, rfl⟩ := map_eq_ok_iff.mp h
    exact FilterTree.wellShaped_group.mpr
      ⟨fun hop => absurd hop (by decide), wellShaped_children hread hes⟩
  · obtain ⟨e, he, rfl⟩ := map_eq_ok_iff.mp h
    exact FilterTree.wellShaped_group.mpr
      ⟨fun _ => rfl, List.forall_mem_singleton.mpr (wellShaped_onlyChild hread he)⟩

end Groups

/-- Whatever a document is read as is a tree that a document can hold. -/
theorem wellShaped_toTree {e : FilterTree} (h : toTree levels j = .ok e) : e.WellShaped := by
  induction levels generalizing j e with
  | zero => cases h
  | succ levels ih =>
    cases j with
    | object members =>
      rw [toTree] at h
      split_ifs at h
      obtain ⟨es, hes, rfl⟩ := map_eq_ok_iff.mp h
      refine FilterTree.wellShaped_conjoin fun e he => ?_
      obtain ⟨m, -, hm⟩ := exists_of_mapM hes he
      exact wellShaped_member ih hm
    | _ => cases h

/-- The key of an operator in a document. -/
def operatorKey (op : Operator) : Text :=
  Text.unit '$' :: if op = .notIn then Text.ofString "nin" else op.name

/-- The key of a group in a document. -/
def groupKey (op : Connective) : Text := Text.unit '$' :: op.name

mutual

/-- The document of a value. -/
def writeValue : Value → Json
  | .null => .null
  | .bool b => .bool b
  | .int n => .number (Double.ofInt n.toInt)
  | .float x => .number x
  | .string s => .string s
  | .array items => .array (writeValues items)

def writeValues : List Value → List Json
  | [] => []
  | v :: rest => writeValue v :: writeValues rest

end

mutual

/-- A document of a tree, in which every object has one member. -/
def write : FilterTree → Json
  | .leaf f => .object [(f.field, .object [(operatorKey f.op, writeValue f.value)])]
  | .group op children => .object [(groupKey op, .array (writeAll children))]

def writeAll : List FilterTree → List Json
  | [] => []
  | e :: rest => write e :: writeAll rest

end

lemma writeValues_eq_map (vs : List Value) : writeValues vs = vs.map writeValue := by
  induction vs with
  | nil => rfl
  | cons v vs ih => rw [writeValues, ih, List.map_cons]

lemma writeAll_eq_map (es : List FilterTree) : writeAll es = es.map write := by
  induction es with
  | nil => rfl
  | cons e es ih => rw [writeAll, ih, List.map_cons]

/-- A value with exact numbers is read back where there are more levels than it has arrays. -/
theorem toValue_writeValue (h : v.Exact) (hlevels : v.nesting < levels) :
    toValue levels (writeValue v) = .ok v := by
  induction v using Value.induct generalizing levels with
  | scalar v hscalar =>
    obtain ⟨rest, rfl⟩ : ∃ rest, levels = rest + 1 := ⟨levels - 1, by omega⟩
    cases v with
    | null => rfl
    | bool b => rfl
    | string s => rfl
    | int n =>
      obtain ⟨hfinite, hback⟩ := Value.ofNumber_ofInt (h.ints n (by simp [Value.scalars]))
      rw [writeValue, toValue, if_pos hfinite, hback]
    | float x =>
      obtain ⟨hfinite, hsafe⟩ := h.floats x (by simp [Value.scalars])
      have hnone : x.toSafeInt? = none := by
        rwa [Double.isSafeInteger, Option.isSome_eq_false_iff, Option.isNone_iff_eq_none] at hsafe
      rw [writeValue, toValue, if_pos hfinite, Value.ofNumber, hnone]
    | array items => cases hscalar
  | array items ih =>
    rw [Value.nesting] at hlevels
    obtain ⟨rest, rfl⟩ : ∃ rest, levels = rest + 1 := ⟨levels - 1, by omega⟩
    rw [writeValue, writeValues_eq_map]
    refine toValue_array.mpr ⟨rest, items, rfl, rfl, mapM_map_eq_ok fun v hv => ?_⟩
    have hdeep := Value.nesting_le_nestingAll hv
    exact ih v hv (Value.exact_array.mp h v hv) (by omega)

lemma operand_writeValue {key : Text} {f : Filter} (h : f.WellShaped)
    (hlevels : f.value.nesting < levels) :
    operand key f.op levels (writeValue f.value) = .ok f.value := by
  have hvalue := toValue_writeValue h.value hlevels
  have harray : f.op = .isIn ∨ f.op = .notIn → isArray (writeValue f.value) = true := fun hop => by
    obtain ⟨items, hitems⟩ := h.members hop
    rw [hitems]
    rfl
  have hpair : f.op = .between → isPair (writeValue f.value) = true := fun hop => by
    obtain ⟨low, high, hbounds⟩ := h.range hop
    rw [hbounds]
    rfl
  unfold operand
  split
  · rw [if_pos (harray (.inl ‹_›))]
    exact valueOr_eq_ok_iff.mpr hvalue
  · rw [if_pos (harray (.inr ‹_›))]
    exact valueOr_eq_ok_iff.mpr hvalue
  · rw [if_pos (hpair ‹_›)]
    exact valueOr_eq_ok_iff.mpr hvalue
  · exact valueOr_eq_ok_iff.mpr hvalue

/-- An object of one member is read as that member. -/
lemma toTree_single (key : Text) (j : Json) :
    toTree (levels + 1) (.object [(key, j)]) = member (toTree levels) levels key j := by
  rw [toTree, if_neg (by simp), List.mapM_cons]
  cases member (toTree levels) levels key j <;> rfl

/-- A name that is no operator is the field of a filter. -/
lemma member_plain {read : Json → Except FilterError FilterTree} {field : Text}
    (hne : field ≠ []) (hplain : isOperatorKey field = false) (j : Json) :
    member read levels field j = fieldFilter field levels j := by
  have hempty : field.isEmpty = false := by simpa using hne
  rw [member, if_neg (by simp [hempty]), if_pos (by simp [hplain])]

lemma member_leaf {read : Json → Except FilterError FilterTree} {f : Filter} (h : f.WellShaped)
    (hlevels : f.value.nesting < levels - 1) :
    member read levels f.field (.object [(operatorKey f.op, writeValue f.value)]) =
      .ok (.leaf f) := by
  have hplain : isOperatorKey f.field = false := by simpa [isOperatorKey] using h.plain
  have hkey : Operator.ofKey? (operatorKey f.op) = some f.op := by cases f.op <;> decide
  have hoperator : isOperatorKey (operatorKey f.op) = true := rfl
  rw [member_plain h.field hplain]
  simp only [fieldFilter, hoperator, if_true, hkey, operand_writeValue h hlevels]
  rfl

lemma member_group {read : Json → Except FilterError FilterTree} {op : Connective}
    {es : List FilterTree} (hop : op = .not → es.length = 1)
    (hread : ∀ e ∈ es, read (write e) = .ok e) :
    member read levels (groupKey op) (.array (writeAll es)) = .ok (.group op es) := by
  have hchildren : (es.map write).mapM read = .ok es := mapM_map_eq_ok hread
  have hempty : (groupKey op).isEmpty = false := rfl
  have hoperator : isOperatorKey (groupKey op) = true := rfl
  rw [writeAll_eq_map]
  simp only [member, hempty, hoperator, Bool.false_eq_true, if_false, Bool.not_true]
  cases op with
  | and =>
    have hkey : groupKey .and = Text.ofString "$and" := by decide
    rw [if_pos hkey, children, hchildren]
    rfl
  | or =>
    have hkey : groupKey .or ≠ Text.ofString "$and" ∧ groupKey .or = Text.ofString "$or" := by
      decide
    rw [if_neg hkey.1, if_pos hkey.2, children, hchildren]
    rfl
  | not =>
    have hkey : groupKey .not ≠ Text.ofString "$and" ∧ groupKey .not ≠ Text.ofString "$or" ∧
        groupKey .not = Text.ofString "$not" := by decide
    obtain ⟨only, rfl⟩ := List.length_eq_one_iff.mp (hop rfl)
    rw [if_neg hkey.1, if_neg hkey.2.1, if_pos hkey.2.2, List.map_singleton, onlyChild,
      hread only List.mem_cons_self]
    rfl

/-- A tree that a document can hold is read back from its own document, if there are levels
enough for its groups and arrays and the two objects around an operand. -/
theorem toTree_write {e : FilterTree} (h : e.WellShaped) (hlevels : e.nesting + 2 < levels) :
    toTree levels (write e) = .ok e := by
  induction e generalizing levels with
  | leaf f =>
    rw [FilterTree.nesting] at hlevels
    obtain ⟨rest, rfl⟩ : ∃ rest, levels = rest + 1 := ⟨levels - 1, by omega⟩
    exact (toTree_single _ _).trans (member_leaf (FilterTree.wellShaped_leaf.mp h) (by omega))
  | group op es ih =>
    rw [FilterTree.nesting] at hlevels
    obtain ⟨rest, rfl⟩ : ∃ rest, levels = rest + 1 := ⟨levels - 1, by omega⟩
    obtain ⟨hop, hes⟩ := FilterTree.wellShaped_group.mp h
    refine (toTree_single _ _).trans (member_group hop fun e he => ih e he (hes e he) ?_)
    have hdeep := FilterTree.nesting_le_nestingAll he
    omega

/-- Documents are read as trees of which every field has a plain name, every operand the shape
that its operator needs, every negation one child and every number its exact kind. Conditions of
such trees, in any dialect, hold no range that was replaced and no equality in place of a
membership or a range. Every such tree with at most 62 groups and arrays around its innermost
part is what some document is read as. -/
theorem read_image :
    (∀ j e, read j = .ok e → e.WellShaped ∧
      (∀ f ∈ e.filters, .float (Double.neg 0) ∉ f.value.scalars) ∧
      ∀ d index, (∀ n, .noRange n ∉ (Condition.ofTree d e index).tokens) ∧
        ∀ f ∈ e.filters, f.op ∈ [.isIn, .notIn, .between] → ∀ i,
          (Condition.ofFilter d f i).tokens ≠ Condition.binary d f.field (.symbol .eq) i) ∧
    ∀ e : FilterTree, e.WellShaped → e.nesting ≤ 62 → ∃ j, read j = .ok e := by
  refine ⟨fun j e h => ?_, fun e h hnesting => ⟨write e, toTree_write h ?_⟩⟩
  · have he := wellShaped_toTree h
    refine ⟨he, fun f hf hzero => ?_, fun d index => ⟨Condition.noRange_ofTree he, ?_⟩⟩
    · have hsafe : (Double.neg 0).isSafeInteger = true := by decide +kernel
      obtain ⟨-, hnot⟩ := (he.filters f hf).value.floats _ hzero
      exact Bool.noConfusion (hsafe.symm.trans hnot)
    · exact fun f hf hop i => Condition.ofFilter_ne_equality (he.filters f hf) hop
  · simp only [maxLevels]
    omega

/-- A negated range, and what its condition is compiled to. -/
theorem read_image_of_range :
    let f : Filter := ⟨"age", .between, .array [.int 18, .null]⟩
    let e : FilterTree := .negation (.leaf f)
    e.WellShaped ∧ e.nesting ≤ 62 ∧ ∃ j, read j = .ok e ∧
      (∀ n, .noRange n ∉ (Condition.ofTree .sqlite e 1).tokens) ∧
      (Condition.ofFilter .sqlite f 1).tokens ≠ Condition.binary .sqlite "age" (.symbol .eq) 1 := by
  intro f e
  have hvalue : f.value.Exact := by
    refine ⟨fun n hn => ?_, fun x hx => by simp [f, Value.scalars, Value.scalarsAll] at hx⟩
    obtain rfl : n = 18 := by simpa [f, Value.scalars, Value.scalarsAll] using hn
    decide
  have hshape : e.WellShaped := FilterTree.wellShaped_group.mpr ⟨fun _ => rfl,
    List.forall_mem_singleton.mpr (FilterTree.wellShaped_leaf.mpr
      ⟨by decide, by decide, by simp [f], fun _ => ⟨_, _, rfl⟩, hvalue⟩)⟩
  have hnesting : e.nesting ≤ 62 := by decide
  obtain ⟨j, hj⟩ := read_image.2 e hshape hnesting
  obtain ⟨-, -, hcompiled⟩ := read_image.1 j e hj
  obtain ⟨hrange, hequality⟩ := hcompiled .sqlite 1
  exact ⟨hshape, hnesting, j, hj, hrange, hequality f (by simp [e, FilterTree.negation])
    (by decide) 1⟩

end FilterDocument

end BoundSql
