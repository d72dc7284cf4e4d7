import BoundSql.Proofs.Filter.Names
import BoundSql.Proofs.Statement.Runs

/-!
# Vetted statements

A draft is vetted when every name and expression in it went through its check.
New drafts are, accepted calls keep it so, and a vetted draft makes a vetted
statement.
-/
namespace BoundSql

open Double (AtLeastOne)

/-- What holds of the members of a list and of one more holds of the longer list. -/
theorem forall_mem_append_one {α : Type} {P : α → Prop} {as : List α} {b : α}
    (h : ∀ a ∈ as, P a) (hb : P b) : ∀ a ∈ as ++ [b], P a := by
  simpa [or_imp, forall_and] using ⟨h, hb⟩

section Parts

open Sql

lemma spaced_nameParts (ns : List Text) : ∀ p ∈ ns.map fun n => [Token.name n], Spaced p := by
  intro p hp
  obtain ⟨n, -, rfl⟩ := List.mem_map.mp hp
  exact spaced_singleton _

lemma spaced_nameClause (w : Word) (ns : List Text) :
    Spaced (clauseUnlessEmpty w (ns.map fun n => [.name n])) :=
  spaced_clauseUnlessEmpty (spaced_nameParts ns)

lemma allVetted_nameParts {d : Dialect} {xs : List Text} {ns : List Text}
    (h : ∀ n ∈ ns, Identifier.isValid n = true) :
    ∀ p ∈ ns.map fun n => [Token.name n], AllVetted d xs AtLeastOne p := by
  intro p hp
  obtain ⟨n, hn, rfl⟩ := List.mem_map.mp hp
  simpa using h n hn

lemma allVetted_nameClause {d : Dialect} {xs : List Text} {w : Word} {ns : List Text}
    (h : ∀ n ∈ ns, Identifier.isValid n = true) :
    AllVetted d xs AtLeastOne (clauseUnlessEmpty w (ns.map fun n => [.name n])) :=
  allVetted_clauseUnlessEmpty (allVetted_nameParts h)

end Parts

namespace InsertDraft

open Sql

structure Vetted (s : InsertDraft) : Prop where
  columns : ∀ n ∈ s.columns, Identifier.isValid n = true
  returning : ∀ n ∈ s.returning, Identifier.isValid n = true

theorem vetted_new : Vetted {} := by constructor <;> simp

theorem vetted_fill {s s' : InsertDraft} {call : InsertCall} (h : s.fill call = .ok s')
    (hs : s.Vetted) : s'.Vetted := by
  cases call with
  | columns names =>
    obtain ⟨⟨⟩, hn, ⟨⟩⟩ := bind_eq_ok_iff.mp h
    exact { hs with columns := Identifier.checkAll_eq_ok_iff.mp hn }
  | values row =>
    obtain ⟨⟩ := h
    exact { hs with }
  | valuesMany rows =>
    obtain ⟨⟩ := h
    exact { hs with }
  | returning names =>
    obtain ⟨⟨⟩, hn, ⟨⟩⟩ := bind_eq_ok_iff.mp h
    exact { hs with returning := Identifier.checkAll_eq_ok_iff.mp hn }

lemma spaced_group (d : Dialect) (row : List Value) (index : Double) :
    Spaced (group d row index).tokens := by
  have hcells : ∀ p ∈ (Series.ofList (cell d) row index).parts, Spaced p :=
    Series.forall_parts (fun _ _ i => spaced_singleton (.placeholder d i)) index
  exact spaced_paren (spaced_commaList hcells)

theorem spaced_query (d : Dialect) (table : Text) (s : InsertDraft) (start : Double) :
    Spaced (s.query d table start).tokens := by
  have hrows : ∀ p ∈ (Series.ofList (group d) s.rows start).parts, Spaced p :=
    Series.forall_parts (fun row _ i => spaced_group d row i) start
  have hcolumns : Spaced (paren (names s.columns)) :=
    spaced_paren (spaced_commaList (spaced_nameParts s.columns))
  have hvalues := (spaced_clause (w := .values) (spaced_commaList hrows))
  have hreturning := spaced_nameClause .returning s.returning
  refine ((((Spaced.append (hcolumns.append hvalues (by simp)) hreturning (by simp)).cons
    (.inl rfl)).cons (.inr (by simp))).cons (.inl rfl)).cons (.inr (by simp))

lemma counts_group {d : Dialect} {xs : List Text} {row : List Value} {index : Double}
    (hi : AtLeastOne index) : Condition.Counts d xs AtLeastOne (group d row index) := by
  have hcell : ∀ v ∈ row, ∀ i, AtLeastOne i →
      AllVetted d xs AtLeastOne (cell d v i).tokens ∧ AtLeastOne (cell d v i).next :=
    fun v _ i hi => ⟨by simp [cell, hi], hi.add 1⟩
  have hcells := Series.ofList_induction hcell hi
  exact ⟨by simpa [group] using allVetted_commaList hcells.1, hcells.2⟩

theorem vetted_query {d : Dialect} {xs : List Text} {table : Text} {s : InsertDraft}
    {start : Double} (hs : s.Vetted) (ht : Identifier.isValid table = true)
    (hi : AtLeastOne start) : AllVetted d xs AtLeastOne (s.query d table start).tokens := by
  have hrow : ∀ row ∈ s.rows, ∀ i, AtLeastOne i →
      Condition.Counts d xs AtLeastOne (group d row i) := fun row _ i hi => counts_group hi
  have hrows := Series.ofList_induction hrow hi
  have hcolumns : AllVetted d xs AtLeastOne (names s.columns) :=
    allVetted_commaList (allVetted_nameParts hs.columns)
  have hvalues := allVetted_commaList hrows.1
  simp [query, queryOf, ht, hcolumns, hvalues, allVetted_nameClause hs.returning]

end InsertDraft

namespace DeleteDraft

open Sql

structure Vetted (s : DeleteDraft) : Prop where
  filters : ∀ f ∈ s.filters, Identifier.isValid f.field = true
  tree : ∀ e ∈ s.tree, e.Named
  returning : ∀ n ∈ s.returning, Identifier.isValid n = true

theorem vetted_new : Vetted {} := by constructor <;> simp

theorem vetted_fill {s s' : DeleteDraft} {call : DeleteCall} (h : s.fill call = .ok s')
    (hs : s.Vetted) : s'.Vetted := by
  cases call with
  | filter field op value =>
    obtain ⟨⟨⟩, hn, ⟨⟩⟩ := bind_eq_ok_iff.mp h
    exact { hs with
      filters := forall_mem_append_one hs.filters (Identifier.check_eq_ok_iff.mp hn) }
  | tree t =>
    obtain ⟨⟨⟩, hn, ⟨⟩⟩ := bind_eq_ok_iff.mp h
    exact { hs with tree := by simpa using FilterTree.named_of_checkAll hn }
  | returning names =>
    obtain ⟨⟨⟩, hn, ⟨⟩⟩ := bind_eq_ok_iff.mp h
    exact { hs with returning := Identifier.checkAll_eq_ok_iff.mp hn }

theorem spaced_query (d : Dialect) (table : Text) (s : DeleteDraft) (start : Double) :
    Spaced (s.query d table start).tokens := by
  have hwhere := Condition.spaced_whereClause d s.conditions start
  have hreturning := spaced_nameClause .returning s.returning
  have hrest := hwhere.1.append hreturning (by simp)
  exact ((hrest.cons (.inr (hwhere.2.append (by simp)))).cons (.inl rfl)).cons (.inr (by simp))

theorem named_conditions {s : DeleteDraft} (hs : s.Vetted) : ∀ e ∈ s.conditions, e.Named :=
  named_tree_filters hs.tree hs.filters

theorem vetted_query {d : Dialect} {xs : List Text} {table : Text} {s : DeleteDraft}
    {start : Double} (hs : s.Vetted) (ht : Identifier.isValid table = true)
    (hi : AtLeastOne start) : AllVetted d xs AtLeastOne (s.query d table start).tokens := by
  have hwhere : AllVetted d xs AtLeastOne (Condition.whereClause d s.conditions start).tokens :=
    (Condition.counts_whereClause (fun _ h => h.add) (named_conditions hs) hi).1
  simp [query, ht, hwhere, allVetted_nameClause hs.returning]

end DeleteDraft

namespace UpdateDraft

open Sql

structure Vetted (s : UpdateDraft) : Prop where
  assignments : ∀ p ∈ s.assignments, Identifier.isValid p.1 = true
  filters : ∀ f ∈ s.filters, Identifier.isValid f.field = true
  tree : ∀ e ∈ s.tree, e.Named
  returning : ∀ n ∈ s.returning, Identifier.isValid n = true

theorem vetted_new : Vetted {} := by constructor <;> simp

theorem vetted_fill {s s' : UpdateDraft} {call : UpdateCall} (h : s.fill call = .ok s')
    (hs : s.Vetted) : s'.Vetted := by
  cases call with
  | set column value =>
    obtain ⟨⟨⟩, hn, ⟨⟩⟩ := bind_eq_ok_iff.mp h
    exact { hs with
      assignments := forall_mem_append_one hs.assignments (Identifier.check_eq_ok_iff.mp hn) }
  | setMany pairs =>
    obtain ⟨⟨⟩, hn, ⟨⟩⟩ := bind_eq_ok_iff.mp h
    refine { hs with assignments := fun p hp => ?_ }
    rcases List.mem_append.mp hp with hp | hp
    · exact hs.assignments p hp
    · exact Identifier.checkAll_eq_ok_iff.mp hn p.1 (List.mem_map_of_mem hp)
  | filter field op value =>
    obtain ⟨⟨⟩, hn, ⟨⟩⟩ := bind_eq_ok_iff.mp h
    exact { hs with
      filters := forall_mem_append_one hs.filters (Identifier.check_eq_ok_iff.mp hn) }
  | tree t =>
    obtain ⟨⟨⟩, hn, ⟨⟩⟩ := bind_eq_ok_iff.mp h
    exact { hs with tree := by simpa using FilterTree.named_of_checkAll hn }
  | returning names =>
    obtain ⟨⟨⟩, hn, ⟨⟩⟩ := bind_eq_ok_iff.mp h
    exact { hs with returning := Identifier.checkAll_eq_ok_iff.mp hn }

theorem spaced_query (d : Dialect) (table : Text) (s : UpdateDraft) (start : Double) :
    Spaced (s.query d table start).tokens := by
  have hpair : ∀ p i, Spaced (assignment d p i).tokens := fun p i => by
    simp [assignment, Condition.spaced_cons_cons, Token.Apart]
  have hassign : ∀ p ∈ (Series.ofList (assignment d) s.assignments start).parts, Spaced p :=
    Series.forall_parts (fun p _ i => hpair p i) start
  have hset := spaced_clause (w := .assign) (spaced_commaList hassign)
  have hwhere := Condition.spaced_whereClause d s.conditions
    (Series.ofList (assignment d) s.assignments start).next
  have hreturning := spaced_nameClause .returning s.returning
  have hrest := (hset.append hwhere.1 hwhere.2).append hreturning (by simp)
  exact ((hrest.cons (.inr (((led_clause _ _).append hwhere.2).append (by simp)))).cons
    (.inl rfl)).cons (.inr (by simp))

theorem named_conditions {s : UpdateDraft} (hs : s.Vetted) : ∀ e ∈ s.conditions, e.Named :=
  named_tree_filters hs.tree hs.filters

theorem vetted_query {d : Dialect} {xs : List Text} {table : Text} {s : UpdateDraft}
    {start : Double} (hs : s.Vetted) (ht : Identifier.isValid table = true)
    (hi : AtLeastOne start) : AllVetted d xs AtLeastOne (s.query d table start).tokens := by
  have hpair : ∀ p ∈ s.assignments, ∀ i, AtLeastOne i →
      Condition.Counts d xs AtLeastOne (assignment d p i) := fun p hp i hi =>
    ⟨by simp [assignment, hs.assignments p hp, hi], hi.add 1⟩
  have hassign := Series.ofList_induction hpair hi
  have hset := allVetted_commaList hassign.1
  have hwhere : AllVetted d xs AtLeastOne (Condition.whereClause d s.conditions
      (Series.ofList (assignment d) s.assignments start).next).tokens :=
    (Condition.counts_whereClause (fun _ h => h.add) (named_conditions hs) hassign.2).1
  simp [query, ht, hset, hwhere, allVetted_nameClause hs.returning]

end UpdateDraft

end BoundSql
