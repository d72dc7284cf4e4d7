import BoundSql.Proofs.Number.Numerals
import BoundSql.Proofs.Statement.Layouts

/-!
# How far placeholders can be told apart

A build takes any start below 2^53, but its last placeholder is as far from the
start as the statement has parameters. One past 2^53 counting falls back onto
2^53, so two placeholders share that number. This happens exactly when the
numbers of a statement go beyond 2^53.
-/
namespace BoundSql

theorem Text.ofNat_injective : Function.Injective Text.ofNat :=
  Function.LeftInverse.injective Text.digitsValue_ofNat

namespace Sql

variable {d : Dialect} {xs : List Text} {n : ℕ} {l : Layout} {ts : List Token}

/-- The numbers of a text are distinct as long as the last of them is exact. -/
theorem numeralsAfter_nodup_iff (hxs : ∀ e ∈ xs, d.mark ∉ e) (h : Numbered d n l ts)
    (hl : l.Vetted xs) (hspaced : Spaced ts) (hn : n ≤ Double.safeBound) :
    (numeralsAfter d.mark (render ts)).Nodup ↔
      n + l.values.length ≤ Double.safeBound + 1 := by
  obtain ⟨hlength, hplaces⟩ := numeralsAfter_numbered hxs h hl hspaced
  rw [List.nodup_iff_getElem?_ne_getElem?, hlength]
  constructor
  · intro hdistinct
    by_contra hbeyond
    -- the places at which counting gives 2^53 and one more
    have hlast := hplaces (Double.safeBound - n) (by omega) (by omega)
    have hnext := hplaces (Double.safeBound + 1 - n) (by omega) (by omega)
    rw [min_eq_right (by omega)] at hlast hnext
    exact hdistinct _ _ (by omega) (by omega) (hlast.trans hnext.symm)
  · intro hexact i j hij hj heq
    rw [hplaces i (hij.trans hj) (by omega), hplaces j hj (by omega),
      min_eq_left (by omega), min_eq_left (by omega)] at heq
    have hnumbers := Text.ofNat_injective (Option.some.inj heq)
    omega

end Sql

open Sql

namespace Builder

/-- Every start that a build accepts is a number below 2^53 from which the placeholders count, one
for each parameter and in the order of the parameters. Up to 2^53 they have their numbers, and the
one after that has 2^53 again: the numbers of a statement are distinct exactly when the last is at
most 2^53. -/
theorem build_numerals_nodup_iff {k : StatementKind} {d : Dialect} {table : Text}
    {b : Builder k.DraftOf} {start : Double} {q : Query} {events : List Event}
    (hb : Reached d table b) (h : b.build start = .ok (q, events))
    (htrees : ∀ e ∈ k.trees b.draft, e.hidesNothing = true)
    (hexpr : ∀ e ∈ k.expressions b.draft, Text.unit '$' ∉ e ∧ Text.unit '?' ∉ e) :
    ∃ n : ℕ, start.toInt? = some (n : ℤ) ∧ 1 ≤ n ∧ n < 2 ^ 53 ∧
      q.params = (k.layout d table b.draft).values ∧
      Numbered d n (k.layout d table b.draft) q.tokens ∧
      (numeralsAfter d.mark q.sql).length = q.params.length ∧
      (∀ i < q.params.length, n + i ≤ 2 ^ 53 + 1 →
        (numeralsAfter d.mark q.sql)[i]? = some (Text.ofNat (min (n + i) (2 ^ 53)))) ∧
      ((numeralsAfter d.mark q.sql).Nodup ↔ n + q.params.length - 1 ≤ 2 ^ 53) := by
  obtain ⟨rfl, hsafe, hone⟩ := build_eq_query hb h
  obtain ⟨ht, -, -, hdraft⟩ := vetted_of_reached hb
  obtain ⟨n, hn, hlt, rfl⟩ := Double.exists_ofNat_of_start hsafe hone
  have hsafeBound : Double.safeBound = 2 ^ 53 := by norm_num
  have hlays : LaysQuery d (StatementKind.query d table k b.draft) (k.layout d table b.draft) :=
    StatementKind.lays_query htrees
  have hnumbered := hlays.numbered (isCount_ofNat n)
  have hspaced := StatementKind.spaced_query d table b.draft (Double.ofNat n)
  have hvetted := StatementKind.vetted_layout (d := d) hdraft ht
  have hmark : ∀ e ∈ k.expressions b.draft, d.mark ∉ e := fun e he =>
    Dialect.mark_not_mem (hexpr e he)
  obtain ⟨hlength, hplaces⟩ := numeralsAfter_numbered hmark hnumbered hvetted hspaced
  have hnodup := numeralsAfter_nodup_iff hmark hnumbered hvetted hspaced hlt.le
  rw [hsafeBound] at hlt hplaces hnodup
  rw [hlays.params, Query.sql]
  refine ⟨n, Double.toInt?_ofNat (hlt.le.trans hsafeBound.ge), hn, hlt, rfl, hnumbered, hlength,
    hplaces, hnodup.trans ?_⟩
  omega

/-- A DELETE on PostgreSQL from 2^53 - 1 on, with two values: the last number is 2^53. -/
theorem build_numerals_nodup_iff_at_bound :
    ∃ (b : Builder (StatementKind.DraftOf .delete)) (q : Query) (events : List Event),
      Reached .postgres "t" b ∧ b.build (Double.ofNat (2 ^ 53 - 1)) = .ok (q, events) ∧
      q.params.length = 2 ∧ (numeralsAfter (Text.unit '$') q.sql).Nodup := by
  let range : FilterTree := .compare "a" .between (.array [.bool false, .bool true])
  let b : Builder DeleteDraft := ⟨.postgres, "t", { tree := some range }, false⟩
  have hreached : Reached (k := .delete) .postgres "t" b :=
    ⟨⟨.postgres, "t", {}, false⟩, rfl, [.configure (.tree range)], rfl⟩
  have hbuild : ∃ q events, b.build (Double.ofNat (2 ^ 53 - 1)) = .ok (q, events) ∧
      q.params.length = 2 :=
    ⟨_, _, build_eq_ok_iff.mpr ⟨rfl, by decide +kernel, by decide +kernel, _, rfl, rfl⟩, rfl⟩
  obtain ⟨q, events, hq, hlength⟩ := hbuild
  have htrees : ∀ e ∈ StatementKind.trees .delete b.draft, e.hidesNothing = true := by
    intro e he
    obtain rfl : e = range := List.mem_singleton.mp he
    simp [range, FilterTree.compare]
  obtain ⟨n, hn, -, -, -, -, -, -, hnodup⟩ := build_numerals_nodup_iff hreached hq htrees
    (fun e he => absurd he List.not_mem_nil)
  obtain rfl := Double.eq_of_toInt?_ofNat (by norm_num) hn
  exact ⟨b, q, events, hreached, hq, hlength, hnodup.mpr (by rw [hlength]; norm_num)⟩

/-- An INSERT on SQLite from the same start, with three values: the last two share 2^53. -/
theorem build_repeats_numeral :
    ∃ (b : Builder (StatementKind.DraftOf .insert)) (q : Query) (events : List Event),
      Reached .sqlite "t" b ∧ b.build (Double.ofNat (2 ^ 53 - 1)) = .ok (q, events) ∧
      q.params = [.int 1, .int 2, .int 3] ∧
      numeralsAfter (Text.unit '?') q.sql =
        [Text.ofNat (2 ^ 53 - 1), Text.ofNat (2 ^ 53), Text.ofNat (2 ^ 53)] := by
  let b : Builder InsertDraft := ⟨.sqlite, "t",
    { columns := ["a", "b", "c"], rows := [[.int 1, .int 2, .int 3]] }, false⟩
  have hreached : Reached (k := .insert) .sqlite "t" b :=
    ⟨⟨.sqlite, "t", {}, false⟩, rfl, [.configure (.columns ["a", "b", "c"]),
      .configure (.values [.int 1, .int 2, .int 3])], rfl⟩
  refine ⟨b, _, _, hreached, build_eq_ok_iff.mpr ⟨rfl, by decide +kernel, by decide +kernel, _,
    rfl, rfl⟩, rfl, ?_⟩
  decide +kernel

end Builder
end BoundSql
