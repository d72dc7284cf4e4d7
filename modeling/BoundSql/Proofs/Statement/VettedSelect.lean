import BoundSql.Proofs.Statement.Vetted

/-!
# Vetted SELECT statements

Aggregates and computed columns bring names and expressions of their own, and
the names of a cursor are looked at only when the statement is built.
-/
namespace BoundSql

open Double (AtLeastOne)

namespace Aggregate

open Sql

/-- Are the names in an aggregate identifiers, as far as there are any? -/
def Named (a : Aggregate) : Prop :=
  (∀ n ∈ a.field, Identifier.isValid n = true) ∧ ∀ n ∈ a.label, Identifier.isValid n = true

theorem named_of_check {a : Aggregate} (h : a.check = .ok ()) : a.Named := by
  obtain ⟨func, field, label⟩ := a
  have hvalid : ∀ {use : Text} {n : Text} {u : Unit}, Identifier.check use n = .ok u →
      Identifier.isValid n = true := fun h => Identifier.check_eq_ok_iff.mp h
  cases field with
  | none =>
    cases label with
    | none => simp [Named]
    | some label => simpa [Named] using hvalid h
  | some field =>
    obtain ⟨u, hfield, h⟩ := bind_eq_ok_iff.mp h
    cases label with
    | none => simpa [Named] using hvalid hfield
    | some label => simpa [Named] using ⟨hvalid hfield, hvalid h⟩

theorem named_ofField {func : AggregateFunction} {field : Text} {a : Aggregate}
    (h : ofField func field = .ok a) : a.Named := by
  obtain ⟨⟨⟩, hn, ⟨⟩⟩ := bind_eq_ok_iff.mp h
  have hfield := Identifier.check_eq_ok_iff.mp hn
  simp [Named, hfield]

lemma spaced_callTokens (a : Aggregate) : Spaced a.callTokens := by
  unfold callTokens
  split <;> simp [call, paren, Condition.spaced_cons_cons, Token.Apart]

theorem spaced_tokens (a : Aggregate) : Spaced a.tokens := by
  unfold tokens
  split
  · exact (spaced_callTokens a).append
      (by simp [labelled, Condition.spaced_cons_cons, Token.Apart]) (by simp [labelled])
  · exact spaced_callTokens a

theorem vetted_tokens {d : Dialect} {xs : List Text} {a : Aggregate} (h : a.Named) :
    AllVetted d xs AtLeastOne a.tokens := by
  obtain ⟨func, field, label⟩ := a
  obtain ⟨hfield, hlabel⟩ := h
  cases field <;> cases label <;> cases func <;>
    simp_all [tokens, callTokens, call, labelled]

end Aggregate

namespace ComputedColumn

open Sql

def Vetted (c : ComputedColumn) : Prop :=
  Identifier.isValid c.label = true ∧ Expression.isValid c.expression = true

theorem vetted_make {label expression : Text} {c : ComputedColumn}
    (h : make label expression = .ok c) : c.Vetted := by
  obtain ⟨⟨⟩, hlabel, h⟩ := bind_eq_ok_iff.mp h
  obtain ⟨⟨⟩, hexpr, ⟨⟩⟩ := bind_eq_ok_iff.mp h
  exact ⟨Identifier.check_eq_ok_iff.mp hlabel, Expression.check_eq_ok_iff.mp hexpr⟩

theorem spaced_tokens (c : ComputedColumn) : Spaced c.tokens := by
  simp [tokens, paren, Aggregate.labelled, Condition.spaced_cons_cons, Token.Apart]

theorem vetted_tokens {d : Dialect} {xs : List Text} {c : ComputedColumn} (h : c.Vetted)
    (hmem : c.expression ∈ xs) : AllVetted d xs AtLeastOne c.tokens := by
  simp [tokens, Aggregate.labelled, h.1, h.2, hmem]

end ComputedColumn

namespace SelectDraft

open Sql

structure Vetted (s : SelectDraft) : Prop where
  fields : ∀ n ∈ s.fields, Identifier.isValid n = true
  computed : ∀ c ∈ s.computed, c.Vetted
  aggregates : ∀ a ∈ s.aggregates, a.Named
  filters : ∀ f ∈ s.filters, Identifier.isValid f.field = true
  tree : ∀ e ∈ s.tree, e.Named
  groupBy : ∀ n ∈ s.groupBy, Identifier.isValid n = true
  having : ∀ e ∈ s.having, e.Named
  sorts : ∀ k ∈ s.sorts, Identifier.isValid k.field = true

theorem vetted_new : Vetted {} := by constructor <;> simp

theorem vetted_setSeek {s : SelectDraft} (direction : SeekDirection) (input : RequestedCursor)
    (hs : s.Vetted) : (s.setSeek direction input).1.Vetted := by
  rw [setSeek_eq]
  cases Cursor.ofRequest? input with
  | none => exact hs
  | some c => exact { hs with }

theorem vetted_fill {s s' : SelectDraft} {call : SelectCall} (h : s.fill call = .ok s')
    (hs : s.Vetted) : s'.Vetted := by
  cases call with
  | fields names =>
    obtain ⟨⟨⟩, hn, ⟨⟩⟩ := bind_eq_ok_iff.mp h
    exact { hs with fields := Identifier.checkAll_eq_ok_iff.mp hn }
  | computed label expression =>
    obtain ⟨c, hc, ⟨⟩⟩ := bind_eq_ok_iff.mp h
    exact { hs with computed := forall_mem_append_one hs.computed (ComputedColumn.vetted_make hc) }
  | aggregate a =>
    obtain ⟨⟨⟩, ha, ⟨⟩⟩ := bind_eq_ok_iff.mp h
    exact { hs with
      aggregates := forall_mem_append_one hs.aggregates (Aggregate.named_of_check ha) }
  | aggregateOf func field =>
    obtain ⟨a, ha, ⟨⟩⟩ := bind_eq_ok_iff.mp h
    exact { hs with
      aggregates := forall_mem_append_one hs.aggregates (Aggregate.named_ofField ha) }
  | filter field op value =>
    obtain ⟨⟨⟩, hn, ⟨⟩⟩ := bind_eq_ok_iff.mp h
    exact { hs with
      filters := forall_mem_append_one hs.filters (Identifier.check_eq_ok_iff.mp hn) }
  | tree t =>
    obtain ⟨⟨⟩, hn, ⟨⟩⟩ := bind_eq_ok_iff.mp h
    exact { hs with tree := by simpa using FilterTree.named_of_checkAll hn }
  | groupBy names =>
    obtain ⟨⟨⟩, hn, ⟨⟩⟩ := bind_eq_ok_iff.mp h
    exact { hs with groupBy := Identifier.checkAll_eq_ok_iff.mp hn }
  | having t =>
    obtain ⟨⟨⟩, hn, ⟨⟩⟩ := bind_eq_ok_iff.mp h
    exact { hs with having := by simpa using FilterTree.named_of_checkAll hn }
  | sort field dir =>
    obtain ⟨⟨⟩, hn, ⟨⟩⟩ := bind_eq_ok_iff.mp h
    exact { hs with
      sorts := forall_mem_append_one hs.sorts (Identifier.check_eq_ok_iff.mp hn) }
  | sorts fields =>
    obtain ⟨⟨⟩, hn, ⟨⟩⟩ := bind_eq_ok_iff.mp h
    refine { hs with sorts := fun k hk => ?_ }
    rcases List.mem_append.mp hk with hk | hk
    · exact hs.sorts k hk
    · exact Identifier.checkAll_eq_ok_iff.mp hn k.field (List.mem_map_of_mem hk)
  | page page limit =>
    obtain ⟨p, -, h⟩ := bind_eq_ok_iff.mp h
    obtain ⟨l, -, ⟨⟩⟩ := bind_eq_ok_iff.mp h
    exact { hs with }
  | limitOffset limit offset =>
    obtain ⟨l, -, h⟩ := bind_eq_ok_iff.mp h
    obtain ⟨o, -, ⟨⟩⟩ := bind_eq_ok_iff.mp h
    exact { hs with }
  | limit limit =>
    obtain ⟨l, -, ⟨⟩⟩ := bind_eq_ok_iff.mp h
    exact { hs with }
  | seek direction input =>
    obtain ⟨⟩ := h
    exact vetted_setSeek direction input hs

/-- The names of a cursor are looked at when its condition is made. -/
theorem named_seekCondition (s : SelectDraft) : ∀ e ∈ s.seekCondition.1, e.Named := by
  unfold seekCondition
  split
  · simp
  · rename_i direction cursor _
    simp only
    split_ifs with hvalid
    · cases hk : Keyset.ofCursor? (s.seekSorts cursor) cursor direction with
      | none => simp
      | some k =>
        intro e he
        obtain rfl : k.toTree = e := by simpa using he
        have hsorts : k.sorts = s.seekSorts cursor := Keyset.sorts_of_ofCursor hk
        refine Keyset.named_toTree fun key hkey => ?_
        rw [hsorts] at hkey
        exact List.all_eq_true.mp hvalid key hkey
    · simp

theorem named_conditions {s : SelectDraft} (hs : s.Vetted) : ∀ e ∈ s.conditions, e.Named := by
  intro e he
  rcases List.mem_append.mp he with he | he
  · exact named_tree_filters hs.tree hs.filters e he
  · exact named_seekCondition s e (Option.mem_toList.mp he)

lemma spaced_selectList (s : SelectDraft) : Spaced s.selectList := by
  rw [selectList]
  split_ifs
  · exact spaced_singleton _
  · refine spaced_commaList fun p hp => ?_
    simp only [List.mem_append, List.mem_map] at hp
    rcases hp with (⟨n, -, rfl⟩ | ⟨c, -, rfl⟩) | ⟨a, -, rfl⟩
    · exact spaced_singleton _
    · exact c.spaced_tokens
    · exact a.spaced_tokens

/-- The expressions that calls put into a draft. -/
def expressions (s : SelectDraft) : List Text := s.computed.map ComputedColumn.expression

lemma vetted_selectList {d : Dialect} {s : SelectDraft} (hs : s.Vetted) :
    AllVetted d s.expressions AtLeastOne s.selectList := by
  rw [selectList]
  split_ifs
  · simp
  · refine allVetted_commaList fun p hp => ?_
    simp only [List.mem_append, List.mem_map] at hp
    rcases hp with (⟨n, hn, rfl⟩ | ⟨c, hc, rfl⟩) | ⟨a, ha, rfl⟩
    · simpa using hs.fields n hn
    · exact ComputedColumn.vetted_tokens (hs.computed c hc) (List.mem_map_of_mem hc)
    · exact Aggregate.vetted_tokens (hs.aggregates a ha)

lemma spaced_sortParts (s : SelectDraft) : ∀ p ∈ s.sorts.map sortTokens, Spaced p := by
  intro p hp
  obtain ⟨k, -, rfl⟩ := List.mem_map.mp hp
  simp [sortTokens, Condition.spaced_cons_cons, Token.Apart]

lemma vetted_sortParts {d : Dialect} {xs : List Text} {s : SelectDraft} (hs : s.Vetted) :
    ∀ p ∈ s.sorts.map sortTokens, AllVetted d xs AtLeastOne p := by
  intro p hp
  obtain ⟨k, hk, rfl⟩ := List.mem_map.mp hp
  simp [sortTokens, hs.sorts k hk]

/-- Row counts are numbers, so nothing has to be checked about them. -/
lemma rowClauses_spec (d : Dialect) (xs : List Text) (s : SelectDraft) :
    Spaced s.rowClauses ∧ Led s.rowClauses ∧ AllVetted d xs AtLeastOne s.rowClauses := by
  have hone : ∀ (w : Word) (n : UInt32), Spaced (clause w [.rows n]) := fun w n =>
    spaced_clause (spaced_singleton _)
  unfold rowClauses
  split <;> split <;> (try split_ifs) <;>
    simp [hone, Spaced.append, Led.append]

theorem spaced_query (d : Dialect) (table : Text) (s : SelectDraft) (start : Double) :
    Spaced (s.query d table start).tokens := by
  have hwhere := Condition.spaced_whereClause d s.conditions start
  have hhaving := Condition.spaced_havingClause d s.having
    (Condition.whereClause d s.conditions start).next
  have hgroup := spaced_nameClause .groupBy s.groupBy
  have horder := spaced_clauseUnlessEmpty (w := .orderBy) (spaced_sortParts s)
  obtain ⟨hrows, hled, -⟩ := rowClauses_spec d [] s
  have hfrom : Spaced (clause .source [Token.name table]) := spaced_clause (spaced_singleton _)
  have hrest := (((((((spaced_selectList s).append hfrom (by simp)).append hwhere.1
    hwhere.2).append hgroup (by simp)).append hhaving.1 hhaving.2).append horder
    (by simp)).append hrows hled)
  exact (hrest.cons (.inl rfl)).cons (.inr (by simp))

theorem vetted_query {d : Dialect} {table : Text} {s : SelectDraft} {start : Double}
    (hs : s.Vetted) (ht : Identifier.isValid table = true) (hi : AtLeastOne start) :
    AllVetted d s.expressions AtLeastOne (s.query d table start).tokens := by
  have hwhere : Condition.Counts d s.expressions AtLeastOne
      (Condition.whereClause d s.conditions start) :=
    Condition.counts_whereClause (fun _ h => h.add) (named_conditions hs) hi
  have hhaving : Condition.Counts d s.expressions AtLeastOne (Condition.havingClause d s.having
      (Condition.whereClause d s.conditions start).next) :=
    Condition.counts_havingClause (fun _ h => h.add) hs.having hwhere.2
  obtain ⟨-, -, hrows⟩ := rowClauses_spec d s.expressions s
  simp [query, queryWhere, ht, vetted_selectList hs, hwhere.1, hhaving.1,
    allVetted_nameClause hs.groupBy, allVetted_clauseUnlessEmpty (vetted_sortParts hs), hrows]

end SelectDraft

end BoundSql
