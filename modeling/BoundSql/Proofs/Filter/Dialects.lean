import BoundSql.Proofs.Filter.Visibility

/-!
# One condition in two dialects

A tree has the same outline for Postgres and for SQLite, although the numbers in
the conditions of its filters differ from the first list on. Postgres binds a
list that is asked for membership as one parameter where SQLite binds its
elements; any other value, a list or not, is the same parameter for both.
-/
namespace BoundSql
open Sql

/-- What SQLite binds where Postgres binds a value for this filter. -/
def Filter.expand (f : Filter) (v : Value) : List Value :=
  match f.op, v with
  | .isIn, .array items => items
  | .notIn, .array items => items
  | _, v => [v]

namespace Condition

/-- The parameters of all filters of a tree, each with the filter that binds it. -/
def bindings (d : Dialect) (e : FilterTree) : List (Filter × Value) :=
  e.filters.flatMap fun f => (ofFilter d f 1).params.map fun v => (f, v)

/-- Only membership in a list is bound in two ways. -/
theorem params_ofFilter_sqlite (f : Filter) (index : Double) :
    (ofFilter .sqlite f index).params = (ofFilter .postgres f index).params.flatMap f.expand := by
  obtain ⟨field, op, v⟩ := f
  have hrange : ∀ bounds, (ofRange .sqlite field bounds index).params =
      (ofRange .postgres field bounds index).params.flatMap fun v => [v] := by
    intro bounds
    rw [List.flatMap_singleton']
    unfold ofRange
    split <;> rfl
  cases op <;> cases v <;> first
    | rfl
    | exact (List.append_nil _).symm
    | exact hrange _

lemma params_leaves (d : Dialect) (fs : List Filter) (index : Double) :
    (leaves d fs index).params = fs.flatMap fun f => (ofFilter d f 1).params :=
  Series.params_ofList (fun f _ i => by
    rw [(lays_ofFilter f).params, (lays_ofFilter f).params]) index

/-- A tree hands on the number after its parameters. -/
theorem isNumber_next_ofTree {d : Dialect} {e : FilterTree} {index : Double} {n : ℕ}
    (h : IsNumber index n) :
    IsNumber (ofTree d e index).next (n + (ofTree d e index).params.length) := by
  have hlays : LaysAll d (Series.ofList (ofFilter d) e.filters) (e.filters.map (Filter.layout d)) :=
    laysAll_ofList fun f _ => lays_ofFilter f
  rw [next_ofTree, params_ofTree, leaves, hlays.params]
  exact hlays.next h

/-- A tree is compiled alike for both dialects. Its text is one outline for both, with a marker
where the condition of a filter stands, filled with the conditions of the filters that are shown.
The parameters on SQLite are those on Postgres, but the elements of a list in the place of each
list that membership was asked in. The next free number lies as far from the first one as there
are parameters. -/
theorem ofTree_dialects (e : FilterTree) (index : Double) :
    (∀ d : Dialect, Filled e.outline (keep e.marks (leaves d e.filters index).parts)
      (ofTree d e index).tokens) ∧
    (ofTree .postgres e index).params = (bindings .postgres e).map Prod.snd ∧
    (ofTree .sqlite e index).params = (bindings .postgres e).flatMap (fun b => b.1.expand b.2) ∧
    ∀ (d : Dialect) (n : ℕ), index = .ofNat n →
      n + (ofTree d e index).params.length ≤ Double.safeBound →
      (ofTree d e index).next = .ofNat (n + (ofTree d e index).params.length) := by
  refine ⟨fun d => fills_ofTree d e index, ?_, ?_, fun d n hindex hn => ?_⟩
  · rw [params_ofTree, params_leaves, bindings, List.map_flatMap]
    refine List.flatMap_congr fun f _ => ?_
    rw [List.map_map]
    exact (List.map_id _).symm
  · rw [params_ofTree, params_leaves, bindings, List.flatMap_assoc]
    refine List.flatMap_congr fun f _ => ?_
    rw [List.flatMap_map]
    exact params_ofFilter_sqlite f 1
  · have hnumber : IsNumber index n := fun _ => hindex
    exact isNumber_next_ofTree hnumber hn

/-- A list of lists, an empty list and a list that is compared as a whole, on both dialects. -/
theorem ofTree_dialects_of_lists :
    let e : FilterTree := .group .or [.compare "a" .isIn (.array [.int 1, .array [.int 2]]),
      .group .not [.compare "b" .notIn (.array [])], .compare "c" .eq (.array [.int 3])]
    (ofTree .postgres e 5).params = [.array [.int 1, .array [.int 2]], .array [],
      .array [.int 3]] ∧
    (ofTree .sqlite e 5).params = [.int 1, .array [.int 2], .array [.int 3]] ∧
    (ofTree .postgres e 5).next = 8 ∧ (ofTree .sqlite e 5).next = 8 := by
  intro e
  obtain ⟨-, hpostgres, hsqlite, hnext⟩ := ofTree_dialects e 5
  exact ⟨hpostgres, hsqlite, hnext .postgres 5 rfl (by decide), hnext .sqlite 5 rfl (by decide)⟩

end Condition
end BoundSql
