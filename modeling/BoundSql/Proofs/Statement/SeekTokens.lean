import BoundSql.Proofs.Cursor.Token
import BoundSql.Proofs.Filter.Binding
import BoundSql.Proofs.Statement.Parts
import BoundSql.Proofs.Statement.Safety
import BoundSql.Proofs.Statement.Where
import BoundSql.Proofs.Table.Seek

/-!
# Cursors passed as tokens

A call with the token of a cursor does what the call with the cursor does, as
far as a token can carry it: up to the two limits, beyond which the token is
ignored, up to values without a form, and up to the sign of zero. Of the values
only those of the sort fields matter, so the statements are compared through the
condition of the cursor.
-/
namespace BoundSql

/-- Minus zero as zero, and every other value as it is. -/
def Value.unsigned : Value → Value
  | .float x => .float x.plusZero
  | v => v

namespace Value

lemma unsigned_eq_self {v : Value} (h : v ≠ .float (Double.neg 0)) : v.unsigned = v := by
  cases v with
  | float x =>
    have hx : x ≠ Double.neg 0 := fun hx => h (congrArg float hx)
    exact congrArg float (if_neg hx)
  | _ => rfl

lemma unsigned_ne (v : Value) : v.unsigned ≠ .float (Double.neg 0) := by
  intro h
  cases v with
  | float x => exact x.plusZero_ne (float.inj h)
  | _ => cases h

end Value

namespace Cursor

/-- The token of the cursor is within both limits. -/
def Fits (c : Cursor) : Prop := c.encode.length ≤ maxSize ∧ c.kept.length ≤ maxFields

instance (c : Cursor) : Decidable c.Fits := inferInstanceAs (Decidable (_ ∧ _))

/-- The values of the sort fields have a form in a token. -/
def Written (c : Cursor) (sorts : List SortKey) : Prop :=
  ∀ s ∈ sorts, ∀ v, c.get? s.field = some v → scalarText? v ≠ none

/-- The values of the sort fields have a form in a token that keeps their signs. -/
def Lasting (c : Cursor) (sorts : List SortKey) : Prop :=
  ∀ s ∈ sorts, ∀ v, c.get? s.field = some v → scalarText? v ≠ none ∧ v ≠ .float (Double.neg 0)

/-- The cursor with the same names and no minus zero. -/
def unsigned (c : Cursor) : Cursor := ⟨c.entries.map fun entry => (entry.1, entry.2.unsigned)⟩

lemma decode_eq_read (c : Cursor) :
    decode c.encode =
      if maxSize < c.encode.length then .error (.tooLarge c.encode.length)
      else (read (write c.entries)).map Cursor.mk := by
  rw [decode, size_encode, decodeText_encode]
  rfl

theorem decode_of_fits {c : Cursor} (h : c.Fits) : decode c.encode = .ok ⟨c.kept⟩ := by
  rw [decode_eq_read, if_neg (Nat.not_lt.mpr h.1), read_write]
  exact congrArg (Except.map Cursor.mk) (if_neg (Nat.not_lt.mpr h.2))

theorem exists_error_of_not_fits {c : Cursor} (h : ¬c.Fits) : ∃ e, decode c.encode = .error e := by
  rw [decode_eq_read]
  by_cases hsize : maxSize < c.encode.length
  · exact ⟨_, if_pos hsize⟩
  · have hfull : maxFields < c.kept.length := by
      by_contra hroom
      exact h ⟨Nat.not_lt.mp hsize, Nat.not_lt.mp hroom⟩
    rw [if_neg hsize, read_write]
    exact ⟨.tooManyFields, congrArg (Except.map Cursor.mk) (if_pos hfull)⟩

lemma keptValue?_eq_none {v : Value} : keptValue? v = none ↔ scalarText? v = none := by
  rcases writes_scalarText v with ⟨htext, hkept⟩ | ⟨t, w, htext, hkept, -⟩
  · exact iff_of_true hkept htext
  · simp [htext, hkept]

/-- What is kept of a value is the value, but for the sign of zero. -/
lemma keptValue?_eq_unsigned {v : Value} (hform : scalarText? v ≠ none) :
    keptValue? v = some v.unsigned := by
  rw [ne_eq, ← keptValue?_eq_none] at hform
  cases v with
  | float x =>
    by_cases hfinite : x.isFinite = true
    · exact if_pos hfinite
    · exact absurd (if_neg hfinite) hform
  | array items => exact absurd rfl hform
  | _ => rfl

/-- A value that was kept has a form, which gives it back. -/
lemma lasts_of_kept {v w : Value} (h : keptValue? v = some w) :
    scalarText? w ≠ none ∧ w ≠ .float (Double.neg 0) := by
  have hform : scalarText? v ≠ none := fun hnone => by
    rw [keptValue?_eq_none.mpr hnone] at h
    cases h
  obtain rfl := Option.some_inj.mp ((keptValue?_eq_unsigned hform).symm.trans h)
  refine ⟨?_, v.unsigned_ne⟩
  cases v with
  | float x =>
    have hfinite : x.isFinite = true := by
      by_contra hx
      exact hform (if_neg hx)
    rw [Value.unsigned, scalarText?, if_pos (x.isFinite_plusZero.trans hfinite)]
    exact Option.some_ne_none _
  | _ => exact hform

lemma get?_cons (entry : Text × Value) (entries : List (Text × Value)) (name : Text) :
    get? ⟨entry :: entries⟩ name =
      if entry.1 = name then some entry.2 else get? ⟨entries⟩ name := by
  rw [get?, List.find?_cons]
  by_cases h : entry.1 = name <;> simp [h, get?]

/-- A first value with a form stays the first under its name. -/
lemma get?_kept {c : Cursor} {name : Text} {v w : Value} (hv : c.get? name = some v)
    (hkept : keptValue? v = some w) : get? ⟨c.kept⟩ name = some w := by
  obtain ⟨entries⟩ := c
  rw [kept]
  induction entries with
  | nil => cases hv
  | cons entry entries ih =>
    rw [get?_cons] at hv
    by_cases hname : entry.1 = name
    · rw [if_pos hname] at hv
      have hfield : keptField? entry = some (entry.1, w) := by
        rw [keptField?, Option.some_inj.mp hv, hkept, Option.map_some]
      rw [List.filterMap_cons_some hfield, get?_cons, if_pos hname]
    · rw [if_neg hname] at hv
      cases hvalue : keptValue? entry.2 with
      | none =>
        have hfield : keptField? entry = none := by rw [keptField?, hvalue, Option.map_none]
        rw [List.filterMap_cons_none hfield]
        exact ih hv
      | some u =>
        have hfield : keptField? entry = some (entry.1, u) := by
          rw [keptField?, hvalue, Option.map_some]
        rw [List.filterMap_cons_some hfield, get?_cons, if_neg hname]
        exact ih hv

lemma get?_unsigned (c : Cursor) (name : Text) :
    c.unsigned.get? name = (c.get? name).map Value.unsigned := by
  rw [get?, get?, unsigned, List.find?_map, Option.map_map, Option.map_map]
  rfl

/-- Whatever a token holds lasts in a token of its own. -/
lemma lasting_kept (c : Cursor) (sorts : List SortKey) : Lasting ⟨c.kept⟩ sorts := by
  intro s _ w hw
  obtain ⟨entry, hfind, rfl⟩ := Option.map_eq_some_iff.mp hw
  obtain ⟨source, -, hfield⟩ := List.mem_filterMap.mp (List.mem_of_find?_eq_some hfind)
  obtain ⟨v, hkept, rfl⟩ := Option.map_eq_some_iff.mp hfield
  exact lasts_of_kept hkept

section Sorts

variable {c : Cursor} {sorts : List SortKey}

/-- Under the names of sort fields a token has what the cursor has, without minus zero. -/
lemma get?_kept_eq_unsigned (hwritten : c.Written sorts)
    (hvalues : ∀ s ∈ sorts, c.get? s.field ≠ none) :
    ∀ s ∈ sorts, get? ⟨c.kept⟩ s.field = c.unsigned.get? s.field := by
  intro s hs
  obtain ⟨v, hv⟩ := Option.ne_none_iff_exists'.mp (hvalues s hs)
  rw [get?_unsigned, hv, Option.map_some]
  exact get?_kept hv (keptValue?_eq_unsigned (hwritten s hs v hv))

lemma get?_unsigned_of_lasting (hlasting : c.Lasting sorts) :
    ∀ s ∈ sorts, c.unsigned.get? s.field = c.get? s.field := by
  intro s hs
  rw [get?_unsigned]
  cases hv : c.get? s.field with
  | none => rfl
  | some v => exact congrArg some (Value.unsigned_eq_self (hlasting s hs v hv).2)

/-- Values for all sort fields, the same ones in every cursor with the same entries there. -/
lemma exists_values (hvalues : ∀ s ∈ sorts, c.get? s.field ≠ none) :
    ∃ values, ∀ c' : Cursor, (∀ s ∈ sorts, c'.get? s.field = c.get? s.field) →
      List.Forall₂ (fun s v => c'.get? s.field = some v) sorts values := by
  have hall : sorts.mapM (fun s => c.get? s.field) ≠ none := by
    rw [ne_eq, Keyset.mapM_get_eq_none]
    rintro ⟨s, hs, hnone⟩
    exact hvalues s hs hnone
  obtain ⟨values, hvalues⟩ := Option.ne_none_iff_exists'.mp hall
  have hget := Keyset.mapM_get_eq_some.mp hvalues
  have hmem : ∀ s ∈ sorts, s ∈ sorts := fun _ hs => hs
  refine ⟨values, fun c' hsame => ?_⟩
  exact ((List.forall₂_and_left sorts values).mpr ⟨hmem, hget⟩).imp fun s v ⟨hs, hv⟩ =>
    (hsame s hs).trans hv

end Sorts

end Cursor

/-- The values that a tree binds, whatever it is numbered from. -/
def FilterTree.bound (d : Dialect) (e : FilterTree) : List Value :=
  e.filters.flatMap fun f => (f.layout d).values

namespace FilterTree

@[simp] lemma bound_leaf (d : Dialect) (f : Filter) : bound d (.leaf f) = (f.layout d).values := by
  simp [bound]

@[simp] lemma bound_group (d : Dialect) (op : Connective) (es : List FilterTree) :
    bound d (.group op es) = es.flatMap (bound d) := by
  rw [bound, filters_group, List.flatMap_assoc]
  rfl

lemma bound_conjoin (d : Dialect) (es : List FilterTree) :
    bound d (conjoin es) = es.flatMap (bound d) := by
  unfold conjoin
  split
  · exact (List.flatMap_singleton _ _).symm
  · exact bound_group d .and es

end FilterTree

namespace Condition

theorem params_eq_bound (d : Dialect) (e : FilterTree) (index : Double) :
    (ofTree d e index).params = e.bound d := by
  rw [params_ofTree]
  exact Series.params_ofList (fun f _ => (lays_ofFilter f).params) index

lemma params_whereClause_eq (d : Dialect) (es : List FilterTree) (index : Double) :
    (whereClause d es index).params = es.flatMap (FilterTree.bound d) := by
  rw [params_whereClause]
  exact Series.params_ofList (fun e _ => params_eq_bound d e) index

lemma params_havingClause (d : Dialect) (t : Option FilterTree) (index : Double) :
    (havingClause d t index).params = t.toList.flatMap (FilterTree.bound d) := by
  cases t with
  | none => rfl
  | some e => simpa [havingClause] using params_eq_bound d e index

end Condition

namespace Keyset

variable {d : Dialect} {direction : SeekDirection}

lemma bound_disjoin (d : Dialect) (es : List FilterTree) :
    (disjoin es).bound d = es.flatMap (FilterTree.bound d) := by
  unfold disjoin
  split
  · exact (List.flatMap_singleton _ _).symm
  · exact FilterTree.bound_group d .or es

lemma bound_beyond (d : Dialect) (direction : SeekDirection) (s : SortKey) (v : Value) :
    (FilterTree.compare s.field (beyondOperator direction s.dir) v).bound d = [v] := by
  rw [FilterTree.compare, FilterTree.bound_leaf]
  cases direction <;> cases s.dir <;> rfl

lemma bound_branches_cons (d : Dialect) (direction : SeekDirection) (agreed : List FilterTree)
    (s : SortKey) (v : Value) (rest : List (SortKey × Value)) :
    (branches direction agreed ((s, v) :: rest)).flatMap (FilterTree.bound d) =
      agreed.flatMap (FilterTree.bound d) ++ v ::
        (branches direction (agreed ++ [.compare s.field .eq v]) rest).flatMap
          (FilterTree.bound d) := by
  simp only [branches, List.flatMap_cons, FilterTree.bound_conjoin, List.flatMap_append,
    List.flatMap_nil, bound_beyond, List.append_nil, List.append_assoc, List.singleton_append]

/-- The values of a cursor can be read off what its condition binds. -/
theorem values_of_branches {sorts : List SortKey} {vs ws : List Value}
    (hvs : sorts.length = vs.length) (hws : sorts.length = ws.length)
    {agreed agreed' : List FilterTree}
    (hagreed : agreed.flatMap (FilterTree.bound d) = agreed'.flatMap (FilterTree.bound d))
    (h : (branches direction agreed (sorts.zip vs)).flatMap (FilterTree.bound d) =
      (branches direction agreed' (sorts.zip ws)).flatMap (FilterTree.bound d)) : vs = ws := by
  induction sorts generalizing vs ws agreed agreed' with
  | nil =>
    rw [List.length_nil, eq_comm, List.length_eq_zero_iff] at hvs hws
    rw [hvs, hws]
  | cons s sorts ih =>
    obtain ⟨v, vs, rfl⟩ := List.exists_cons_of_length_eq_add_one hvs.symm
    obtain ⟨w, ws, rfl⟩ := List.exists_cons_of_length_eq_add_one hws.symm
    rw [List.zip_cons_cons, List.zip_cons_cons, bound_branches_cons, bound_branches_cons, hagreed,
      List.append_cancel_left_eq, List.cons.injEq] at h
    obtain ⟨rfl, hrest⟩ := h
    have htail : vs = ws := by
      refine ih (Nat.succ.inj hvs) (Nat.succ.inj hws) ?_ hrest
      simp only [List.flatMap_append, hagreed]
    rw [htail]

lemma bound_toTree_ne_nil {k : Keyset} (hsorts : k.sorts ≠ [])
    (hlength : k.sorts.length = k.values.length) : k.toTree.bound d ≠ [] := by
  obtain ⟨sorts, values, direction⟩ := k
  obtain ⟨s, sorts, rfl⟩ := List.exists_cons_of_ne_nil hsorts
  obtain ⟨v, values, rfl⟩ := List.exists_cons_of_length_eq_add_one hlength.symm
  rw [toTree, bound_disjoin, List.zip_cons_cons, bound_branches_cons]
  simp

theorem values_of_bound {k k' : Keyset} (hsorts : k.sorts = k'.sorts)
    (hdirection : k.direction = k'.direction) (hlength : k.sorts.length = k.values.length)
    (hlength' : k'.sorts.length = k'.values.length) (h : k.toTree.bound d = k'.toTree.bound d) :
    k.values = k'.values := by
  obtain ⟨sorts, values, direction⟩ := k
  obtain ⟨_, values', _⟩ := k'
  simp only at hsorts hdirection
  subst hsorts hdirection
  rw [toTree, toTree, bound_disjoin, bound_disjoin] at h
  exact values_of_branches hlength hlength' rfl h

lemma ofCursor?_eq_of_values {sorts : List SortKey} (hsorts : sorts ≠ []) {c : Cursor}
    {values : List Value} (h : List.Forall₂ (fun s v => c.get? s.field = some v) sorts values) :
    ofCursor? sorts c direction = some ⟨sorts, values, direction⟩ := by
  have hempty : sorts.isEmpty = false := by simpa using hsorts
  simp only [ofCursor?, hempty, Bool.false_eq_true, if_false, mapM_get_eq_some.mpr h,
    Option.map_some]

end Keyset

namespace SelectDraft

lemma params_queryWhere (d : Dialect) (table : Text) (s : SelectDraft) (es : List FilterTree)
    (start : Double) :
    (s.queryWhere d table es start).params =
      es.flatMap (FilterTree.bound d) ++ s.having.toList.flatMap (FilterTree.bound d) := by
  rw [queryWhere, Condition.params_whereClause_eq, Condition.params_havingClause]

lemma params_query (d : Dialect) (table : Text) (s : SelectDraft) (start : Double) :
    (s.query d table start).params =
      s.conditions.flatMap (FilterTree.bound d) ++
        s.having.toList.flatMap (FilterTree.bound d) :=
  params_queryWhere d table s s.conditions start

/-- The condition of a cursor that is held against sort fields. -/
lemma seekCondition_cursor {s : SelectDraft} (hs : s.Vetted) (hsorts : s.sorts ≠ [])
    (direction : SeekDirection) (c : Cursor) :
    seekCondition { s with seek := some (direction, c) } =
      (Keyset.ofCursor? s.sorts c direction).elim (none, [.gapIgnored direction]) fun k =>
        (some k.toTree, []) := by
  have hempty : s.sorts.isEmpty = false := by simpa using hsorts
  have hnames : (s.sorts.all fun k => Identifier.isValid k.field) = true :=
    List.all_eq_true.mpr hs.sorts
  simp only [seekCondition, seekSorts, hempty, Bool.false_eq_true, if_false, hnames, if_true]
  cases Keyset.ofCursor? s.sorts c direction <;> rfl

lemma setSeek_of_get {c : Cursor} {name : Text} {v : Value} (hv : c.get? name = some v)
    (s : SelectDraft) (direction : SeekDirection) :
    (s.setSeek direction (.cursor c)).1 = { s with seek := some (direction, c) } := by
  have hempty : c.isEmpty = false := by
    obtain ⟨entries⟩ := c
    cases entries with
    | nil => cases hv
    | cons => rfl
  simp only [setSeek, hempty, Bool.false_eq_true, if_false]

/-- In a draft without a cursor only the one that is passed has a condition, if it has a value
for each sort field. -/
lemma seekCondition_setSeek {s : SelectDraft} (hs : s.Vetted) (hsorts : s.sorts ≠ [])
    (hseek : s.seek = none) (direction : SeekDirection) (c : Cursor) :
    (s.setSeek direction (.cursor c)).1.seekCondition.1 =
      (Keyset.ofCursor? s.sorts c direction).map Keyset.toTree := by
  by_cases hempty : c.isEmpty = true
  · obtain ⟨key, rest, hkeys⟩ := List.exists_cons_of_ne_nil hsorts
    have hnone : c.get? key.field = none := by
      rw [Cursor.isEmpty, List.isEmpty_iff] at hempty
      rw [Cursor.get?, hempty]
      rfl
    have hgap : Keyset.ofCursor? s.sorts c direction = none :=
      Keyset.ofCursor?_eq_none.mpr (.inr ⟨key, by simp [hkeys], hnone⟩)
    rw [hgap]
    simp only [setSeek, if_pos hempty, seekCondition, hseek, Option.map_none]
  · simp only [setSeek, if_neg hempty, seekCondition_cursor hs hsorts]
    cases Keyset.ofCursor? s.sorts c direction <;> rfl

/-- Statements depend on a cursor through its condition only. -/
lemma query_congr {s : SelectDraft} {p p' : Option (SeekDirection × Cursor)}
    (h : seekCondition { s with seek := p } = seekCondition { s with seek := p' }) (d : Dialect)
    (table : Text) (start : Double) :
    query d table { s with seek := p } start = query d table { s with seek := p' } start := by
  simp only [query, conditions, h]
  rfl

lemma params_setSeek {s : SelectDraft} (hs : s.Vetted) (hsorts : s.sorts ≠ [])
    (hseek : s.seek = none) (direction : SeekDirection) (c : Cursor) (d : Dialect) (table : Text)
    (start : Double) :
    (query d table (s.setSeek direction (.cursor c)).1 start).params =
      (s.tree.toList ++ s.filters.map FilterTree.leaf).flatMap (FilterTree.bound d) ++
        (((Keyset.ofCursor? s.sorts c direction).map Keyset.toTree).toList.flatMap
            (FilterTree.bound d) ++ s.having.toList.flatMap (FilterTree.bound d)) := by
  rw [params_query, conditions, seekCondition_setSeek hs hsorts hseek, List.flatMap_append,
    List.append_assoc]
  rcases setSeek_cases direction (.cursor c) with h | ⟨_, h⟩ <;> rw [h]

end SelectDraft

namespace Builder

/-- The builder after a call with the cursor of a request. -/
def seekBy (b : Builder SelectDraft) (direction : SeekDirection) (r : RequestedCursor) :
    Builder SelectDraft :=
  (b.act (.configure (SelectCall.seek direction r))).1

lemma seekBy_eq (b : Builder SelectDraft) (direction : SeekDirection) (r : RequestedCursor) :
    b.seekBy direction r =
      if b.built then b else { b with draft := (b.draft.setSeek direction r).1 } :=
  act_eq_after b _

lemma seekBy_of_built {b : Builder SelectDraft} (hb : b.built = true) (direction : SeekDirection)
    (r : RequestedCursor) : b.seekBy direction r = b := by
  rw [seekBy_eq, if_pos hb]

lemma seekBy_of_unbuilt {b : Builder SelectDraft} (hb : b.built = false)
    (direction : SeekDirection) (r : RequestedCursor) :
    b.seekBy direction r = { b with draft := (b.draft.setSeek direction r).1 } := by
  rw [seekBy_eq, hb]
  rfl

lemma seekBy_token {c : Cursor} (hc : c.Fits) (b : Builder SelectDraft)
    (direction : SeekDirection) :
    b.seekBy direction (.token c.encode) = b.seekBy direction (.cursor ⟨c.kept⟩) := by
  rw [seekBy_eq, seekBy_eq, SelectDraft.setSeek_of_decode _ _ (Cursor.decode_of_fits hc)]

variable {d : Dialect} {table : Text} {b : Builder SelectDraft} {c : Cursor}

/-- What a statement has of a cursor is its condition, and that depends on the values of the sort
fields only. -/
lemma seekBy_of_values (hs : b.draft.Vetted) (hsorts : b.draft.sorts ≠ [])
    (hvalues : ∀ s ∈ b.draft.sorts, c.get? s.field ≠ none) (hb : b.built = false)
    (direction : SeekDirection) :
    ∃ tree, ∀ c' : Cursor, (∀ s ∈ b.draft.sorts, c'.get? s.field = c.get? s.field) →
      (b.seekBy direction (.cursor c')).draft = { b.draft with seek := some (direction, c') } ∧
      (b.seekBy direction (.cursor c')).draft.seekCondition = (some tree, []) := by
  obtain ⟨values, hget⟩ := Cursor.exists_values hvalues
  refine ⟨Keyset.toTree ⟨b.draft.sorts, values, direction⟩, fun c' hsame => ?_⟩
  obtain ⟨key, rest, hkeys⟩ := List.exists_cons_of_ne_nil hsorts
  have hkey : key ∈ b.draft.sorts := by simp [hkeys]
  obtain ⟨v, hv⟩ := Option.ne_none_iff_exists'.mp (hvalues key hkey)
  have hdraft : (b.seekBy direction (.cursor c')).draft =
      { b.draft with seek := some (direction, c') } := by
    rw [seekBy_of_unbuilt hb, SelectDraft.setSeek_of_get ((hsame key hkey).trans hv)]
  refine ⟨hdraft, ?_⟩
  rw [hdraft, SelectDraft.seekCondition_cursor hs hsorts,
    Keyset.ofCursor?_eq_of_values hsorts (hget c' hsame)]
  rfl

/-- Cursors with the same values for the sort fields lead to the same statement. -/
lemma build_seekBy_congr (hs : b.draft.Vetted) (hsorts : b.draft.sorts ≠ [])
    (hvalues : ∀ s ∈ b.draft.sorts, c.get? s.field ≠ none) {c' : Cursor}
    (hsame : ∀ s ∈ b.draft.sorts, c'.get? s.field = c.get? s.field) (direction : SeekDirection)
    (start : Double) :
    (b.seekBy direction (.cursor c')).build start =
      (b.seekBy direction (.cursor c)).build start := by
  by_cases hbuilt : b.built = true
  · rw [seekBy_of_built hbuilt, seekBy_of_built hbuilt]
  · have hb : b.built = false := by simpa using hbuilt
    obtain ⟨tree, hall⟩ := seekBy_of_values hs hsorts hvalues hb direction
    obtain ⟨hdraft', hcond'⟩ := hall c' hsame
    obtain ⟨hdraft, hcond⟩ := hall c fun _ _ => rfl
    rw [hdraft'] at hcond'
    rw [hdraft] at hcond
    have hquery := SelectDraft.query_congr (hcond'.trans hcond.symm) b.dialect b.table start
    have hasm : DraftSpec.assemble b.dialect b.table (b.seekBy direction (.cursor c')).draft start =
        DraftSpec.assemble b.dialect b.table (b.seekBy direction (.cursor c)).draft start := by
      rw [hdraft', hdraft]
      change Except.ok (_, _) = Except.ok (_, _)
      rw [hquery, hcond', hcond]
    rw [seekBy_of_unbuilt hb, seekBy_of_unbuilt hb] at hasm ⊢
    rw [build_eq, build_eq, hasm]
    rfl

/-- What a statement binds for a cursor that is passed to a builder without one. -/
lemma exists_params_seekBy (hs : b.draft.Vetted) (hsorts : b.draft.sorts ≠ [])
    (hb : b.built = false) (hseek : b.draft.seek = none) {start : Double}
    (hstart : checkStart start = .ok ()) (direction : SeekDirection) (c : Cursor) :
    ∃ q events, (b.seekBy direction (.cursor c)).build start = .ok (q, events) ∧ q.params =
      (b.draft.tree.toList ++ b.draft.filters.map FilterTree.leaf).flatMap
          (FilterTree.bound b.dialect) ++
        (((Keyset.ofCursor? b.draft.sorts c direction).map Keyset.toTree).toList.flatMap
            (FilterTree.bound b.dialect) ++
          b.draft.having.toList.flatMap (FilterTree.bound b.dialect)) := by
  obtain ⟨hsafe, hone⟩ := checkStart_eq_ok_iff.mp hstart
  rw [seekBy_of_unbuilt hb]
  exact ⟨_, _, build_eq_ok_iff.mpr ⟨hb, hsafe, hone, _, rfl, rfl⟩,
    SelectDraft.params_setSeek hs hsorts hseek direction c b.dialect b.table start⟩

/-- Equal statements need sort values that last in a token, unless another cursor was there
before. -/
lemma lasting_of_build_eq (hs : b.draft.Vetted) (hsorts : b.draft.sorts ≠ []) (hfits : c.Fits)
    (hvalues : ∀ s ∈ b.draft.sorts, c.get? s.field ≠ none) (hb : b.built = false)
    (hseek : b.draft.seek = none) {start : Double} (hstart : checkStart start = .ok ())
    {direction : SeekDirection}
    (h : (b.seekBy direction (.token c.encode)).build start =
      (b.seekBy direction (.cursor c)).build start) : c.Lasting b.draft.sorts := by
  obtain ⟨values, hget⟩ := Cursor.exists_values hvalues
  have hcursor := hget c fun _ _ => rfl
  obtain ⟨q, _, hbuild, hparams⟩ :=
    exists_params_seekBy hs hsorts hb hseek hstart direction ⟨c.kept⟩
  obtain ⟨q', _, hbuild', hparams'⟩ :=
    exists_params_seekBy hs hsorts hb hseek hstart direction c
  rw [seekBy_token hfits, hbuild, hbuild'] at h
  obtain rfl := (Prod.mk.inj (Except.ok.inj h)).1
  rw [hparams, List.append_cancel_left_eq, List.append_cancel_right_eq,
    Keyset.ofCursor?_eq_of_values hsorts hcursor, Option.map_some, Option.toList_some,
    List.flatMap_singleton] at hparams'
  cases hk : Keyset.ofCursor? b.draft.sorts ⟨c.kept⟩ direction with
  | none =>
    rw [hk] at hparams'
    exact absurd hparams'.symm (Keyset.bound_toTree_ne_nil hsorts hcursor.length_eq)
  | some k =>
    obtain ⟨hsorts', hdirection, hkept⟩ := Keyset.ofCursor?_eq_some hk
    rw [hk, Option.map_some, Option.toList_some, List.flatMap_singleton] at hparams'
    have hsame : k.values = values := Keyset.values_of_bound hsorts' hdirection
      (by rw [hsorts', hkept.length_eq]) hcursor.length_eq hparams'
    rw [hsame] at hkept
    intro s hmem v hv
    obtain ⟨i, hi, rfl⟩ := List.getElem_of_mem hmem
    have hplace : i < values.length := hcursor.length_eq ▸ hi
    have hsource := hcursor.get hi hplace
    have htarget := hkept.get hi hplace
    obtain rfl := Option.some_inj.mp (hv.symm.trans hsource)
    exact Cursor.lasting_kept c b.draft.sorts _ hmem _ htarget

/-- A token beyond a limit is reported and otherwise ignored. -/
lemma act_of_not_fits (hb : b.built = false) (h : ¬c.Fits) (direction : SeekDirection) :
    ∃ e, b.act (.configure (SelectCall.seek direction (.token c.encode))) =
      (b, ⟨.ok none, [.tokenIgnored direction e]⟩) := by
  obtain ⟨e, he⟩ := Cursor.exists_error_of_not_fits h
  have hset : b.draft.setSeek direction (.token c.encode) =
      (b.draft, [.tokenIgnored direction e]) := by
    simp only [SelectDraft.setSeek, he]
  have hconf : b.configure (SelectCall.seek direction (.token c.encode)) =
      .ok (b, [.tokenIgnored direction e]) := by
    rw [configure_of_unbuilt hb rfl]
    change Except.ok (({ b with draft := (b.draft.setSeek _ _).1 } : Builder SelectDraft),
      (b.draft.setSeek _ _).2) = _
    rw [hset]
  exact ⟨e, by rw [act_configure, hconf]⟩

/-- A cursor with a value for each sort field is held against a builder, as it is and as its
token. A token within the limits does what the cursor does in which minus zero is zero, if the sort
values have a form in it, and its condition is then in the statement. So token and cursor lead to
the same statement and parameters if no sort value is minus zero, and only then, unless another
cursor was set before. A token beyond a limit leaves the builder as it was and is reported. -/
theorem build_seekBy_token (hreached : Reached (k := .select) d table b)
    (hsorts : b.draft.sorts ≠ []) (direction : SeekDirection)
    (hvalues : ∀ s ∈ b.draft.sorts, c.get? s.field ≠ none) :
    (c.Fits →
      (c.Written b.draft.sorts →
        (∀ start, (b.seekBy direction (.token c.encode)).build start =
          (b.seekBy direction (.cursor c.unsigned)).build start) ∧
        (b.built = false → ∃ tree,
          (b.seekBy direction (.token c.encode)).draft.seekCondition = (some tree, []))) ∧
      (c.Lasting b.draft.sorts → ∀ start, (b.seekBy direction (.token c.encode)).build start =
        (b.seekBy direction (.cursor c)).build start) ∧
      (b.built = false → b.draft.seek = none → ∀ start, checkStart start = .ok () →
        (b.seekBy direction (.token c.encode)).build start =
          (b.seekBy direction (.cursor c)).build start → c.Lasting b.draft.sorts)) ∧
    (¬c.Fits → b.seekBy direction (.token c.encode) = b ∧
      (b.built = false → ∃ e, b.act (.configure (SelectCall.seek direction (.token c.encode))) =
        (b, ⟨.ok none, [.tokenIgnored direction e]⟩))) := by
  obtain ⟨-, -, -, hvetted⟩ := vetted_of_reached hreached
  have hunsigned : ∀ s ∈ b.draft.sorts, c.unsigned.get? s.field ≠ none := fun s hs => by
    rw [Cursor.get?_unsigned, ne_eq, Option.map_eq_none_iff]
    exact hvalues s hs
  refine ⟨fun hfits => ⟨fun hwritten => ?_, fun hlasting start => ?_, ?_⟩, fun hfits => ⟨?_, ?_⟩⟩
  · have hsame := Cursor.get?_kept_eq_unsigned hwritten hvalues
    refine ⟨fun start => ?_, fun hb => ?_⟩
    · rw [seekBy_token hfits]
      exact build_seekBy_congr hvetted hsorts hunsigned hsame direction start
    · obtain ⟨tree, hall⟩ := seekBy_of_values hvetted hsorts hunsigned hb direction
      rw [seekBy_token hfits]
      exact ⟨tree, (hall ⟨c.kept⟩ hsame).2⟩
  · have hwritten : c.Written b.draft.sorts := fun s hs v hv => (hlasting s hs v hv).1
    have hsame : ∀ s ∈ b.draft.sorts, Cursor.get? ⟨c.kept⟩ s.field = c.get? s.field :=
      fun s hs => (Cursor.get?_kept_eq_unsigned hwritten hvalues s hs).trans
        (Cursor.get?_unsigned_of_lasting hlasting s hs)
    rw [seekBy_token hfits]
    exact build_seekBy_congr hvetted hsorts hvalues hsame direction start
  · exact fun hb hseek start hstart => lasting_of_build_eq hvetted hsorts hfits hvalues hb hseek
      hstart
  · by_cases hb : b.built = true
    · exact seekBy_of_built hb _ _
    · obtain ⟨e, hact⟩ := act_of_not_fits (by simpa using hb) hfits direction
      rw [seekBy, hact]
  · exact fun hb => act_of_not_fits hb hfits direction

/-- The last row of a page by its integer key. -/
theorem build_seekBy_token_of_integer :
    let b : Builder SelectDraft := ⟨.postgres, "t", { sorts := [⟨"id", .desc⟩] }, false⟩
    let c : Cursor := ⟨[("id", .int 42)]⟩
    Reached (k := .select) .postgres "t" b ∧ c.Fits ∧ c.Lasting b.draft.sorts ∧
      (b.seekBy .after (.token c.encode)).build 1 = (b.seekBy .after (.cursor c)).build 1 := by
  intro b c
  have hreached : Reached (k := .select) .postgres "t" b :=
    ⟨⟨.postgres, "t", {}, false⟩, rfl, [.configure (.sort "id" .desc)], rfl⟩
  have hvalue : ∀ s ∈ b.draft.sorts, c.get? s.field = some (.int 42) :=
    List.forall_mem_singleton.mpr rfl
  have hfits : c.Fits := by decide +kernel
  have hlasting : c.Lasting b.draft.sorts := fun s hs v hv => by
    rw [hvalue s hs] at hv
    cases hv
    exact ⟨Option.some_ne_none _, by simp⟩
  obtain ⟨hwithin, -⟩ := build_seekBy_token hreached (List.cons_ne_nil _ _) .after
    (c := c) fun s hs => by simp [hvalue s hs]
  exact ⟨hreached, hfits, hlasting, (hwithin hfits).2.1 hlasting 1⟩

/-- A cursor of seventeen integers has no token that is read: the statement starts from the first
row again. -/
theorem build_seekBy_token_ne :
    let b : Builder SelectDraft := ⟨.postgres, "t", { sorts := [⟨"f0", .asc⟩] }, false⟩
    let c : Cursor := ⟨(List.range 17).map fun i => (Text.ofString "f" ++ Text.ofNat i, .int 7)⟩
    Reached (k := .select) .postgres "t" b ∧ c.get? "f0" = some (.int 7) ∧
      (b.seekBy .after (.token c.encode)).build 1 ≠ (b.seekBy .after (.cursor c)).build 1 := by
  intro b c
  have hreached : Reached (k := .select) .postgres "t" b :=
    ⟨⟨.postgres, "t", {}, false⟩, rfl, [.configure (.sort "f0" .asc)], rfl⟩
  have htoken : ((b.seekBy .after (.token c.encode)).build 1).toOption.map
      (fun out => out.1.params.length) = some 0 := by decide +kernel
  have hcursor : ((b.seekBy .after (.cursor c)).build 1).toOption.map
      (fun out => out.1.params.length) = some 1 := by decide +kernel
  refine ⟨hreached, rfl, fun h => ?_⟩
  rw [h, hcursor] at htoken
  cases htoken

end Builder
end BoundSql
