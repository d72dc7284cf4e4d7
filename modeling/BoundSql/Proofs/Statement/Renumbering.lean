import BoundSql.Proofs.Filter.Stencils
import BoundSql.Proofs.Sql.Renumbering
import BoundSql.Proofs.Statement.Layouts
import BoundSql.Proofs.Statement.Shapes

/-!
# Statements from another start

Every kind of statement is a sequence of pieces with stencils, so the start of a
build shows in the numbers of its placeholders and nowhere else. Two statements
of which the second starts where the numbers of the first end have no number in
common.
-/
namespace BoundSql
open Sql

/-- A statement that is a piece with a stencil. -/
def StampedQuery (d : Dialect) (xs : List Text) (query : Double → Query) : Prop :=
  ∃ piece, Stamped d xs piece ∧ ∀ x, query x = ⟨(piece x).tokens, (piece x).params⟩

/-- A statement whose pieces have stencils, each going on with the numbers of the one before. -/
lemma stampedQuery_of_pieces {d : Dialect} {xs : List Text} {query : Double → Query}
    (pieces : List (Double → Condition)) (h : pieces.Forall (Stamped d xs))
    (hquery : ∀ x, query x = ⟨(inTurn pieces x).tokens, (inTurn pieces x).params⟩) :
    StampedQuery d xs query :=
  ⟨inTurn pieces, stamped_inTurn (List.forall_iff_forall_mem.mp h), hquery⟩

namespace DeleteDraft

theorem stamped_query {d : Dialect} {table : Text} {s : DeleteDraft} {xs : List Text}
    (hs : s.Vetted) (ht : Identifier.isValid table = true) :
    StampedQuery d xs (s.query d table) := by
  refine stampedQuery_of_pieces [
    fun x => ⟨[.word .deleteFrom, space, .name table], [], x⟩,
    Condition.whereClause d s.conditions,
    fun x => ⟨clauseUnlessEmpty .returning (s.returning.map fun n => [.name n]), [], x⟩] ?_ ?_
  · refine ⟨stamped_fixed _ (by simp [ht]), Condition.stamped_whereClause ?_, stamped_fixed _ ?_⟩
    · exact named_conditions hs
    · exact fun _ => allVetted_nameClause hs.returning
  · intro x
    simp [query, inTurn, Series.ofList, Series.cons, Series.empty]

end DeleteDraft

namespace UpdateDraft

theorem stamped_query {d : Dialect} {table : Text} {s : UpdateDraft} {xs : List Text}
    (hs : s.Vetted) (ht : Identifier.isValid table = true) :
    StampedQuery d xs (s.query d table) := by
  have hassign : ∀ p ∈ s.assignments, Stamped d xs (assignment d p) := fun p hp =>
    (lays_assignment d p).stamped (by simp [assignmentLayout, hs.assignments p hp])
  refine stampedQuery_of_pieces [
    fun x => ⟨[.word .update, space, .name table, space, .word .assign, space], [], x⟩,
    fun x => ⟨commaList (Series.ofList (assignment d) s.assignments x).parts,
      (Series.ofList (assignment d) s.assignments x).params,
      (Series.ofList (assignment d) s.assignments x).next⟩,
    Condition.whereClause d s.conditions,
    fun x => ⟨clauseUnlessEmpty .returning (s.returning.map fun n => [.name n]), [], x⟩] ?_ ?_
  · refine ⟨stamped_fixed _ (by simp [ht]), stamped_intercalate hassign (by simp),
      Condition.stamped_whereClause ?_, stamped_fixed _ ?_⟩
    · exact named_conditions hs
    · exact fun _ => allVetted_nameClause hs.returning
  · intro x
    simp [query, inTurn, Series.ofList, Series.cons, Series.empty, clause]

end UpdateDraft

namespace InsertDraft

theorem stamped_query {d : Dialect} {table : Text} {s : InsertDraft} {xs : List Text}
    (hs : s.Vetted) (ht : Identifier.isValid table = true) :
    StampedQuery d xs (s.query d table) := by
  have hcolumns : ∀ d, AllVetted d xs Double.AtLeastOne (names s.columns) := fun d =>
    allVetted_commaList (allVetted_nameParts hs.columns)
  have hrows : ∀ row ∈ s.rows, Stamped d xs (group d row) := fun row _ =>
    (lays_group d row).stamped (vetted_rowLayout row)
  refine stampedQuery_of_pieces [
    fun x => ⟨[.word .insertInto, space, .name table, space] ++ paren (names s.columns) ++
      [space, .word .values, space], [], x⟩,
    fun x => ⟨commaList (Series.ofList (group d) s.rows x).parts,
      (Series.ofList (group d) s.rows x).params, (Series.ofList (group d) s.rows x).next⟩,
    fun x => ⟨clauseUnlessEmpty .returning (s.returning.map fun n => [.name n]), [], x⟩] ?_ ?_
  · exact ⟨stamped_fixed _ (by simp [ht, hcolumns]), stamped_intercalate hrows (by simp),
      stamped_fixed _ fun _ => allVetted_nameClause hs.returning⟩
  · intro x
    simp [query, queryOf, inTurn, Series.ofList, Series.cons, Series.empty, clause]

end InsertDraft

namespace SelectDraft

theorem stamped_query {d : Dialect} {table : Text} {s : SelectDraft} (hs : s.Vetted)
    (ht : Identifier.isValid table = true) : StampedQuery d s.expressions (s.query d table) := by
  have hlist : ∀ d', AllVetted d' s.expressions Double.AtLeastOne s.selectList := fun _ =>
    vetted_selectList hs
  have hrows : ∀ d', AllVetted d' s.expressions Double.AtLeastOne s.rowClauses := fun d' =>
    (rowClauses_spec d' s.expressions s).2.2
  refine stampedQuery_of_pieces [
    fun x => ⟨.word .select :: space :: (s.selectList ++ clause .source [.name table]), [], x⟩,
    Condition.whereClause d s.conditions,
    fun x => ⟨clauseUnlessEmpty .groupBy (s.groupBy.map fun n => [.name n]), [], x⟩,
    Condition.havingClause d s.having,
    fun x => ⟨clauseUnlessEmpty .orderBy (s.sorts.map sortTokens) ++ s.rowClauses, [], x⟩] ?_ ?_
  · refine ⟨stamped_fixed _ (by simp [ht, hlist]), Condition.stamped_whereClause ?_,
      stamped_fixed _ ?_, Condition.stamped_havingClause hs.having, stamped_fixed _ ?_⟩
    · exact named_conditions hs
    · exact fun _ => allVetted_nameClause hs.groupBy
    · simp [hrows, allVetted_clauseUnlessEmpty (vetted_sortParts hs)]
  · intro x
    simp [query, queryWhere, inTurn, Series.ofList, Series.cons, Series.empty]

end SelectDraft

namespace StatementKind

variable {k : StatementKind} {d : Dialect} {table : Text} {s : k.DraftOf}

theorem stamped_query (hs : k.Vetted s) (ht : Identifier.isValid table = true) :
    StampedQuery d (k.expressions s) (query d table k s) := by
  cases k with
  | select => exact SelectDraft.stamped_query hs ht
  | insert => exact InsertDraft.stamped_query hs ht
  | update => exact UpdateDraft.stamped_query hs ht
  | delete => exact DeleteDraft.stamped_query hs ht

/-- Whether a statement can be assembled does not depend on the start. -/
theorem agree_assemble (d : Dialect) (table : Text) (s : k.DraftOf) (x y : Double) :
    Agree (fun out out' => out.1 = query d table k s x ∧ out'.1 = query d table k s y)
      (DraftSpec.assemble d table s x) (DraftSpec.assemble d table s y) := by
  cases k with
  | select => exact .ok ⟨rfl, rfl⟩
  | insert =>
    show Agree _ ((InsertDraft.assemble d table s x).map _)
      ((InsertDraft.assemble d table s y).map _)
    unfold InsertDraft.assemble
    split_ifs
    · exact .error _
    · cases InsertDraft.checkWidths (InsertDraft.columns s).length 0 (InsertDraft.rows s) with
      | error fault => exact .error fault
      | ok _ => exact .ok ⟨rfl, rfl⟩
  | update =>
    show Agree _ ((UpdateDraft.assemble d table s x).map _)
      ((UpdateDraft.assemble d table s y).map _)
    unfold UpdateDraft.assemble
    split_ifs
    · exact .error _
    · exact .ok ⟨rfl, rfl⟩
  | delete => exact .ok ⟨rfl, rfl⟩

/-- Every statement begins with a word. -/
lemma exists_word (d : Dialect) (table : Text) (s : k.DraftOf) (x : Double) :
    ∃ w ts, (query d table k s x).tokens = .word w :: ts := by
  cases k <;> exact ⟨_, _, rfl⟩

/-- A statement goes on after any numeral. -/
lemma endsNumeral_query (d : Dialect) (table : Text) (s : k.DraftOf) (x : Double) :
    EndsNumeral (query d table k s x).sql := by
  obtain ⟨w, ts, htokens⟩ := exists_word d table s x
  have hword : w.text.head?.map Text.isDigit = some false := by cases w <;> rfl
  obtain ⟨c, hhead, hdigit⟩ := Option.map_eq_some_iff.mp hword
  intro a ha
  rw [Query.sql, htokens, render_cons, Token.text, List.head?_append, hhead, Option.some_or] at ha
  obtain rfl : c = a := Option.some.inj ha
  exact hdigit

end StatementKind

/-- The parameters of a statement and the numbers at its placeholders, from any start. -/
structure Query.Renumbers (d : Dialect) (query : Double → Query) (vs : List Value)
    (places : List ℕ) : Prop where
  params (x : Double) : (query x).params = vs
  places_lt : ∀ i ∈ places, i < vs.length
  places_increase : places.Pairwise (· < ·)
  sql {n m : ℕ} : n + vs.length ≤ Double.safeBound + 1 → m + vs.length ≤ Double.safeBound + 1 →
    (query (.ofNat m)).sql = renumber d.mark (fun k => k - n + m) (query (.ofNat n)).sql
  numerals {n : ℕ} : n + vs.length ≤ Double.safeBound + 1 → ∀ {u : Text}, EndsNumeral u →
    numeralsAfter d.mark ((query (.ofNat n)).sql ++ u) =
      places.map (fun i => Text.ofNat (n + i)) ++ numeralsAfter d.mark u

lemma Query.Renumbers.numerals_self {d : Dialect} {query : Double → Query} {vs : List Value}
    {places : List ℕ} (h : Query.Renumbers d query vs places) {n : ℕ}
    (hn : n + vs.length ≤ Double.safeBound + 1) :
    numeralsAfter d.mark (query (.ofNat n)).sql =
      (places.map fun i => n + i).map Text.ofNat := by
  have htext := h.numerals hn endsNumeral_nil
  rw [List.append_nil] at htext
  simpa [Function.comp_def, numeralsAfter] using htext

lemma Query.Renumbers.bounds {d : Dialect} {query : Double → Query} {vs : List Value}
    {places : List ℕ} (h : Query.Renumbers d query vs places) (n : ℕ) :
    ∀ i ∈ places.map fun i => n + i, n ≤ i ∧ i < n + vs.length := by
  refine List.forall_mem_map.mpr fun i hi => ?_
  have hi := h.places_lt i hi
  omega

namespace Builder

variable {k : StatementKind} {d : Dialect} {table : Text} {b : Builder k.DraftOf}

theorem exists_renumbers (hb : Reached d table b)
    (hexpr : ∀ e ∈ k.expressions b.draft, Text.unit '$' ∉ e ∧ Text.unit '?' ∉ e) :
    ∃ vs places, Query.Renumbers d (StatementKind.query d table k b.draft) vs places := by
  obtain ⟨ht, -, -, hdraft⟩ := vetted_of_reached hb
  obtain ⟨piece, ⟨vs, p, hpiece⟩, hquery⟩ := StatementKind.stamped_query (d := d) hdraft ht
  have hmarks : ∀ e ∈ k.expressions b.draft, d.mark ∉ e := fun e he =>
    Dialect.mark_not_mem (hexpr e he)
  have hlt : ∀ i ∈ p.places, i < vs.length := fun i hi =>
    List.mem_range.mp (hpiece.places.subset hi)
  have htokens : ∀ {n : ℕ}, n + vs.length ≤ Double.safeBound + 1 →
      (StatementKind.query d table k b.draft (.ofNat n)).tokens = p.number d n := fun hn => by
    rw [hquery, hpiece.tokens (fun _ => rfl) hn]
  have hspaced : ∀ {n : ℕ}, n + vs.length ≤ Double.safeBound + 1 → Spaced (p.number d n) :=
    fun hn => htokens hn ▸ StatementKind.spaced_query d table b.draft _
  have hfits : ∀ {n : ℕ}, n + vs.length ≤ Double.safeBound + 1 →
      ∀ i ∈ p.places, n + i ≤ Double.safeBound := fun hn i hi => by
    have hi := hlt i hi
    omega
  refine ⟨vs, p.places, fun x => ?_, hlt, ?_, fun hn hm => ?_, fun hn u hu => ?_⟩
  · rw [hquery]
    exact hpiece.params x
  · exact List.pairwise_lt_range.sublist hpiece.places
  · rw [Query.sql, Query.sql, htokens hn, htokens hm]
    exact (renumber_stencil hmarks hpiece.vetted (hspaced hn)
      fun i hi => ⟨hfits hn i hi, hfits hm i hi⟩).symm
  · rw [Query.sql, htokens hn]
    exact numeralsAfter_stencil hmarks hpiece.vetted (hspaced hn) (hfits hn) hu

theorem agree_build_of_starts (hb : Reached d table b) {x y : Double}
    (hx : checkStart x = .ok ()) (hy : checkStart y = .ok ()) :
    Agree (fun out out' => out.1 = StatementKind.query d table k b.draft x ∧
      out'.1 = StatementKind.query d table k b.draft y) (b.build x) (b.build y) := by
  obtain ⟨-, hdialect, htable, -⟩ := vetted_of_reached hb
  rw [build_eq, build_eq, hx, hy, hdialect, htable]
  refine .after _ fun _ => .after _ fun _ => ?_
  refine (StatementKind.agree_assemble d table b.draft x y).bind fun out out' h => ?_
  exact .ok h

/-- A statement that starts where the numbers of another end: no number is in both. -/
theorem numerals_of_following {q q' : Double → Query} {vs vs' : List Value} {ks ks' : List ℕ}
    (hq : Query.Renumbers d q vs ks) (hq' : Query.Renumbers d q' vs' ks') {n : ℕ}
    (hfits : n + vs.length + vs'.length ≤ Double.safeBound + 1) {between : Text}
    (hbetween : EndsNumeral (between ++ (q' (.ofNat (n + vs.length))).sql))
    (hmark : d.mark ∉ between) :
    let first := ks.map fun i => n + i
    let second := ks'.map fun i => n + vs.length + i
    numeralsAfter d.mark ((q (.ofNat n)).sql ++ between ++ (q' (.ofNat (n + vs.length))).sql) =
      (first ++ second).map Text.ofNat ∧ (first ++ second).Pairwise (· < ·) := by
  intro first second
  constructor
  · rw [List.append_assoc, hq.numerals (by omega) hbetween, numeralsAfter_append hmark,
      hq'.numerals_self hfits]
    simp [first, second, Function.comp_def]
  · have hfirst : first.Pairwise (· < ·) := List.pairwise_map.mpr
      (hq.places_increase.imp fun {a b} hab => by omega)
    have hsecond : second.Pairwise (· < ·) := List.pairwise_map.mpr
      (hq'.places_increase.imp fun {a b} hab => by omega)
    refine List.pairwise_append.mpr ⟨hfirst, hsecond, fun a ha b hb => ?_⟩
    obtain ⟨i, hi, rfl⟩ := List.mem_map.mp ha
    obtain ⟨j, -, rfl⟩ := List.mem_map.mp hb
    have hi := hq.places_lt i hi
    omega

/-- Another start changes the numbers of the placeholders and nothing else: a build from it fails
with the same fault, or binds the same parameters to a text in which each number is as far from
the new start as it was from the old one. So a statement that starts where the numbers of another
end can follow it, with any text between them that has no placeholder: the numbers go up through
both, so none stands in both. -/
theorem build_renumbered (hb : Reached d table b)
    (hexpr : ∀ e ∈ k.expressions b.draft, Text.unit '$' ∉ e ∧ Text.unit '?' ∉ e)
    {x y : Double} (hx : checkStart x = .ok ()) (hy : checkStart y = .ok ()) :
    ∃ n m : ℕ, x.toInt? = some (n : ℤ) ∧ y.toInt? = some (m : ℤ) ∧
      Agree (fun out out' => out'.1.params = out.1.params ∧
        (n + out.1.params.length - 1 ≤ 2 ^ 53 → m + out.1.params.length - 1 ≤ 2 ^ 53 →
          (∀ digits ∈ numeralsAfter d.mark out.1.sql,
            ∃ i, n ≤ i ∧ i < n + out.1.params.length ∧ digits = Text.ofNat i) ∧
          out'.1.sql = renumber d.mark (fun i => i - n + m) out.1.sql))
        (b.build x) (b.build y) ∧
      ∀ (k' : StatementKind) (table' : Text) (b' : Builder k'.DraftOf), Reached d table' b' →
        (∀ e ∈ k'.expressions b'.draft, Text.unit '$' ∉ e ∧ Text.unit '?' ∉ e) →
        ∀ q events q' events' between, b.build x = .ok (q, events) →
          b'.build (.ofNat (n + q.params.length)) = .ok (q', events') →
          n + q.params.length + q'.params.length - 1 ≤ 2 ^ 53 →
          d.mark ∉ between → EndsNumeral between →
          ∃ first second : List ℕ,
            numeralsAfter d.mark q.sql = first.map Text.ofNat ∧
            numeralsAfter d.mark q'.sql = second.map Text.ofNat ∧
            (∀ i ∈ first, n ≤ i ∧ i < n + q.params.length) ∧
            (∀ i ∈ second, n + q.params.length ≤ i ∧
              i < n + q.params.length + q'.params.length) ∧
            numeralsAfter d.mark (q.sql ++ between ++ q'.sql) = (first ++ second).map Text.ofNat ∧
            (first ++ second).Pairwise (· < ·) := by
  obtain ⟨vs, ks, hq⟩ := exists_renumbers hb hexpr
  have hagree := agree_build_of_starts hb hx hy
  have hsafeBound : Double.safeBound = 2 ^ 53 := by norm_num
  obtain ⟨hsafe, hone⟩ := checkStart_eq_ok_iff.mp hx
  obtain ⟨n, hn, hlt, rfl⟩ := Double.exists_ofNat_of_start hsafe hone
  obtain ⟨hsafe', hone'⟩ := checkStart_eq_ok_iff.mp hy
  obtain ⟨m, hm, hlt', rfl⟩ := Double.exists_ofNat_of_start hsafe' hone'
  refine ⟨n, m, Double.toInt?_ofNat hlt.le, Double.toInt?_ofNat hlt'.le, ?_, ?_⟩
  · refine hagree.mono fun out out' h => ?_
    obtain ⟨hout, hout'⟩ := h
    rw [hout, hout', hq.params, hq.params]
    refine ⟨rfl, fun hn hm => ⟨fun digits hdigits => ?_, hq.sql (by omega) (by omega)⟩⟩
    rw [hq.numerals_self (by omega)] at hdigits
    obtain ⟨i, hi, rfl⟩ := List.mem_map.mp hdigits
    exact ⟨i, (hq.bounds n i hi).1, (hq.bounds n i hi).2, rfl⟩
  · intro k' table' b' hb' hexpr' q events q' events' between hbuild hbuild' hbound hmark hends
    obtain ⟨vs', ks', hq'⟩ := exists_renumbers hb' hexpr'
    obtain ⟨rfl, -, -⟩ := build_eq_query hb hbuild
    obtain ⟨rfl, -, -⟩ := build_eq_query hb' hbuild'
    rw [hq.params, hq'.params] at hbound
    have hfits : n + vs.length + vs'.length ≤ Double.safeBound + 1 := by omega
    have hafter : EndsNumeral (between ++
        (StatementKind.query d table' k' b'.draft (.ofNat (n + vs.length))).sql) :=
      hends.append (StatementKind.endsNumeral_query d table' b'.draft _)
    obtain ⟨hnumerals, hincrease⟩ := numerals_of_following hq hq' hfits hafter hmark
    rw [hq.params, hq'.params]
    exact ⟨_, _, hq.numerals_self (by omega), hq'.numerals_self hfits, hq.bounds n,
      hq'.bounds (n + vs.length), hnumerals, hincrease⟩

/-- An UPDATE on SQLite whose negation hides a value, from five and from forty, and a SELECT that
follows it. -/
theorem build_renumbered_of_negation :
    ∃ (b : Builder (StatementKind.DraftOf .update)) (b' : Builder (StatementKind.DraftOf .select))
      (q r q' : Query) (events events' events'' : List Event),
      Reached .sqlite "t" b ∧ Reached .sqlite "t" b' ∧
      b.build (Double.ofNat 5) = .ok (q, events) ∧ b.build (Double.ofNat 40) = .ok (r, events') ∧
      b'.build (Double.ofNat 10) = .ok (q', events'') ∧ q.params.length = 5 ∧
      q.sql = "UPDATE t SET a = ?5 WHERE NOT (b = ?6) AND d IN (?8, ?9)" ∧
      r.params = q.params ∧ r.sql = renumber (Text.unit '?') (fun i => i - 5 + 40) q.sql ∧
      ∃ ks : List ℕ, numeralsAfter (Text.unit '?') (q.sql ++ "; " ++ q'.sql) =
        ks.map Text.ofNat ∧ ks.Pairwise (· < ·) := by
  let negated : FilterTree :=
    .group .not [.compare "b" .eq (.bool true), .compare "c" .eq (.bool false)]
  let list : Filter := ⟨"d", .isIn, .array [.bool true, .null]⟩
  let b : Builder UpdateDraft := ⟨.sqlite, "t",
    { assignments := [("a", .bool false)], filters := [list], tree := some negated }, false⟩
  let b' : Builder SelectDraft := ⟨.sqlite, "t", { filters := [⟨"e", .eq, .bool true⟩] }, false⟩
  have hreached : Reached (k := .update) .sqlite "t" b :=
    ⟨⟨.sqlite, "t", {}, false⟩, rfl, [.configure (.set "a" (.bool false)),
      .configure (.filter list.field list.op list.value), .configure (.tree negated)], rfl⟩
  have hreached' : Reached (k := .select) .sqlite "t" b' :=
    ⟨⟨.sqlite, "t", {}, false⟩, rfl, [.configure (.filter "e" .eq (.bool true))], rfl⟩
  have hstart : checkStart (Double.ofNat 5) = .ok () := by decide +kernel
  have hother : checkStart (Double.ofNat 40) = .ok () := by decide +kernel
  have hnone : ∀ e ∈ StatementKind.expressions .update b.draft,
      Text.unit '$' ∉ e ∧ Text.unit '?' ∉ e := fun e he => absurd he List.not_mem_nil
  have hnone' : ∀ e ∈ StatementKind.expressions .select b'.draft,
      Text.unit '$' ∉ e ∧ Text.unit '?' ∉ e := fun e he => absurd he List.not_mem_nil
  have hbuild : ∃ q events, b.build (Double.ofNat 5) = .ok (q, events) ∧ q.params.length = 5 ∧
      q.sql = "UPDATE t SET a = ?5 WHERE NOT (b = ?6) AND d IN (?8, ?9)" :=
    ⟨_, _, build_eq_ok_iff.mpr ⟨rfl, by decide +kernel, by decide +kernel, _, rfl, rfl⟩, rfl,
      by decide +kernel⟩
  have hbuild' : ∃ q events, b'.build (Double.ofNat 10) = .ok (q, events) ∧ q.params.length = 1 :=
    ⟨_, _, build_eq_ok_iff.mpr ⟨rfl, by decide +kernel, by decide +kernel, _, rfl, rfl⟩, rfl⟩
  obtain ⟨q, events, hq, hlength, hsql⟩ := hbuild
  obtain ⟨q', events'', hq', hlength'⟩ := hbuild'
  obtain ⟨n, m, hn, hm, hagree, hconcat⟩ := build_renumbered hreached hnone hstart hother
  obtain rfl := Double.eq_of_toInt?_ofNat (by norm_num) hn
  obtain rfl := Double.eq_of_toInt?_ofNat (by norm_num) hm
  obtain ⟨r, events', hr, hparams, hrenumbered⟩ : ∃ r events',
      b.build (Double.ofNat 40) = .ok (r, events') ∧ r.params = q.params ∧
        r.sql = renumber (Text.unit '?') (fun i => i - 5 + 40) q.sql := by
    rw [hq] at hagree
    generalize b.build (Double.ofNat 40) = out at hagree ⊢
    cases hagree with
    | @ok _ other h =>
      obtain ⟨hparams, hsql⟩ := h
      exact ⟨other.1, other.2, rfl, hparams, (hsql (by simp [hlength]) (by simp [hlength])).2⟩
  have hten : 5 + q.params.length = 10 := by rw [hlength]
  obtain ⟨first, second, -, -, -, -, hnumerals, hincrease⟩ :=
    hconcat .select "t" b' hreached' hnone' q events q' events'' "; " hq (hten ▸ hq')
      (by rw [hlength, hlength']; norm_num) (by decide) fun _ hc => by cases hc; rfl
  exact ⟨b, b', q, r, q', events, events', events'', hreached, hreached', hq, hr, hq', hlength,
    hsql, hparams, hrenumbered, _, hnumerals, hincrease⟩

end Builder
end BoundSql
