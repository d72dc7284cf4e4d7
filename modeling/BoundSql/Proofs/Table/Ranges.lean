import BoundSql.Proofs.Filter.Places
import BoundSql.Proofs.Table.Rows

/-!
# Ranges of the wrong length

A range takes two bounds; with a list of any other length it is compiled to a
condition that is false on every row. That keeps rows out where the range stands
for itself, in conjunctions, in disjunctions and under an even number of
negations. Under an odd number a false condition lets rows in.
-/
namespace BoundSql
open Sql

/-- A range whose list has not two members. -/
structure Filter.MalformedRange (f : Filter) : Prop where
  op : f.op = .between
  bounds : ∃ bounds, f.value = .array bounds ∧ bounds.length ≠ 2

namespace Filter.MalformedRange

variable {f : Filter}

theorem layout_eq (h : f.MalformedRange) (d : Dialect) :
    ∃ n, f.layout d = Layout.fixed [.noRange n] := by
  obtain ⟨field, op, value⟩ := f
  obtain ⟨rfl, bounds, rfl, hlength⟩ := h
  refine ⟨bounds.length, ?_⟩
  match bounds with
  | [] => rfl
  | [_] => rfl
  | [_, _] => exact absurd rfl hlength
  | _ :: _ :: _ :: _ => rfl

/-- It is false on every row. -/
theorem filterTruth_eq_false (h : f.MalformedRange) (d : Dialect) {ρ : Type} (T : Table ρ) (r : ρ) :
    T.filterTruth d r f = some false := by
  obtain ⟨n, hlayout⟩ := h.layout_eq d
  have hitems : (Layout.fixed [.noRange n]).items = [.lexeme "1", .lexeme "=", .lexeme "0"] := by
    have htoken : (Token.noRange n).items = (Token.noRange n).lexemes.map .lexeme := rfl
    simp [Layout.fixed, Layout.items, htoken, Token.lexemes_noRange]
  have hnull : ¬((Text.ofString "=") = Text.ofString "IS" ∧
      (Text.ofString "0") = Text.ofString "NULL") := by decide
  rw [Table.filterTruth_eq_test, hlayout, hitems, Table.test, if_neg hnull]
  exact if_pos ⟨rfl, rfl, rfl⟩

end Filter.MalformedRange

/-- A tree with a range of the wrong length at some place. The range is false on every row. So the
tree is true only if it is true with any other filter at the place, a range of two bounds say,
whatever that one and the others are worth, exactly if an even number of negations is around the
place; under an odd number it is true whenever it is true with the other filter. Over identifiers
the texts of both trees are read with these truths, and what holds for all truths holds on the rows
of every table. -/
theorem Table.malformed_range_spec {e : FilterTree} (hproper : e.isProper = true) {i : ℕ}
    {f : Filter} (hi : e.filters[i]? = some f) (hf : f.MalformedRange) :
    (∀ (d : Dialect) {ρ : Type} (T : Table ρ) (r : ρ), T.filterTruth d r f = some false) ∧
    (∃ c : FilterPlace, c.fill f = e ∧ c.index = i) ∧
    ∀ c : FilterPlace, c.fill f = e → c.index = i → ∀ g : Filter,
      (c.FailsClosed f g ↔ Even c.negations) ∧ (¬Even c.negations → c.FailsOpen f g) ∧
      (e.Named → Identifier.isValid g.field = true → ∀ (d : Dialect) (index : Double),
        ∃ φ ψ, readCondition (Condition.ofTree d e index).sql = some φ ∧
          readCondition (Condition.ofTree d (c.fill g) index).sql = some ψ ∧
          (∀ v, φ.eval v 0 = e.truth v 0) ∧ (∀ v, ψ.eval v 0 = (c.fill g).truth v 0) ∧
          (Even c.negations → ∀ {ρ : Type} (T : Table ρ) (r : ρ),
            T.truth r φ (Condition.ofTree d e index).params = some true →
            T.truth r ψ (Condition.ofTree d (c.fill g) index).params = some true)) := by
  have hfalse := fun d {ρ} (T : Table ρ) r => hf.filterTruth_eq_false d T r
  refine ⟨hfalse, FilterTree.exists_place hi, ?_⟩
  rintro c rfl rfl g
  refine ⟨FilterPlace.failsClosed_iff hproper, FilterPlace.failsOpen_of_odd, ?_⟩
  intro hnamed hg d index
  obtain ⟨φ, hφ, hφtruth, hφrows⟩ := Condition.exists_truth_ofTree hproper hnamed d index
  obtain ⟨ψ, hψ, hψtruth, hψrows⟩ := Condition.exists_truth_ofTree
    (FilterPlace.isProper_fill hproper g) (FilterPlace.named_fill hnamed hg) d index
  refine ⟨φ, ψ, hφ, hψ, hφtruth, hψtruth, fun heven ρ T r htrue => ?_⟩
  have hclosed : c.FailsClosed f g := (FilterPlace.failsClosed_iff hproper).mpr heven
  rw [truth_eq, ← List.append_nil (Condition.ofTree d (c.fill f) index).params, hφrows] at htrue
  rw [truth_eq, ← List.append_nil (Condition.ofTree d (c.fill g) index).params, hψrows]
  exact hclosed.value (hfalse d T r) htrue

/-- A range of one bound, negated twice beside a comparison, keeps out what a range would. -/
theorem Table.malformed_range_spec_of_two_negations :
    let f : Filter := ⟨"age", .between, .array [.int 18]⟩
    let g : Filter := ⟨"age", .between, .array [.int 18, .int 65]⟩
    let c : FilterPlace := .within .and [.compare "id" .gt (.int 0)]
      (.within .not [] (.within .not [] .here []) []) []
    (c.fill f).isProper = true ∧ (c.fill f).filters[1]? = some f ∧ f.MalformedRange ∧
      c.FailsClosed f g := by
  intro f g c
  have hproper : (c.fill f).isProper = true := by decide
  have hf : f.MalformedRange := ⟨rfl, [.int 18], rfl, by decide⟩
  obtain ⟨-, -, hplace⟩ := malformed_range_spec hproper (i := 1) rfl hf
  exact ⟨hproper, rfl, hf, (hplace c rfl rfl g).1.mpr (by decide)⟩

/-- A range of three bounds under one negation lets every row in. -/
theorem Table.negated_malformed_range :
    let f : Filter := ⟨"age", .between, .array [.int 1, .int 2, .int 3]⟩
    let g : Filter := ⟨"age", .between, .array [.int 1, .int 2]⟩
    let c : FilterPlace := .within .not [] .here []
    (c.fill f).isProper = true ∧ f.MalformedRange ∧
      (Condition.ofTree .postgres (c.fill f) 1).sql =
        Text.ofString "NOT (1=0 /* BETWEEN requires 2 values, got 3 */)" ∧
      (∀ {ρ : Type} (T : Table ρ) (r : ρ),
        (c.fill f).value (T.filterTruth .postgres r) = some true) ∧
      ¬c.FailsClosed f g := by
  intro f g c
  have hf : f.MalformedRange := ⟨rfl, [.int 1, .int 2, .int 3], rfl, by decide⟩
  refine ⟨by decide, hf, by decide +kernel, fun {ρ} T r => ?_, fun h => ?_⟩
  · have hvalue : (c.fill f).value (T.filterTruth .postgres r) =
        ((T.filterTruth .postgres r f).and (some true)).not := rfl
    rw [hvalue, hf.filterTruth_eq_false]
    rfl
  · have hopen := h (fun _ => none) (some true) rfl
    exact absurd hopen (by decide)

end BoundSql
