import BoundSql.Proofs.Sql.Pieces
import BoundSql.Proofs.Statement.VettedSelect

/-!
# Nothing unchecked reaches a statement

Whatever texts the calls of a builder were given, a statement it builds is
spelled with fixed texts, numbers, checked names and checked expressions. The
draft is vetted after every call, so this holds of each build at any time.
-/
namespace BoundSql

namespace StatementKind

/-- Did every name and expression in a draft go through its check? -/
def Vetted : (k : StatementKind) → k.DraftOf → Prop
  | .select => SelectDraft.Vetted
  | .insert => InsertDraft.Vetted
  | .update => UpdateDraft.Vetted
  | .delete => DeleteDraft.Vetted

/-- The expressions in a draft; only a SELECT can have any. -/
def expressions : (k : StatementKind) → k.DraftOf → List Text
  | .select => SelectDraft.expressions
  | _ => fun _ => []

variable {k : StatementKind}

theorem vetted_configure {s s' : k.DraftOf} {call : k.CallOf} {events : List Event}
    (h : DraftSpec.configure call s = .ok (s', events)) (hs : k.Vetted s) : k.Vetted s' := by
  cases k with
  | select => exact SelectDraft.vetted_fill (eq_ok_of_map_pair h) hs
  | insert => exact InsertDraft.vetted_fill (eq_ok_of_map_pair h) hs
  | update => exact UpdateDraft.vetted_fill (eq_ok_of_map_pair h) hs
  | delete => exact DeleteDraft.vetted_fill (eq_ok_of_map_pair h) hs

/-- The query of a draft, whatever the kind; a failed build has none. -/
def query (d : Dialect) (table : Text) : (k : StatementKind) → k.DraftOf → Double → Query
  | .select => SelectDraft.query d table
  | .insert => InsertDraft.query d table
  | .update => UpdateDraft.query d table
  | .delete => DeleteDraft.query d table

theorem assemble_eq_query {d : Dialect} {table : Text} {s : k.DraftOf} {start : Double}
    {q : Query} {events : List Event}
    (h : DraftSpec.assemble d table s start = .ok (q, events)) : q = query d table k s start := by
  cases k with
  | select =>
    obtain ⟨rfl, -⟩ := Prod.mk.inj (Except.ok.inj h)
    rfl
  | insert =>
    have hq := eq_ok_of_map_pair h
    unfold InsertDraft.assemble at hq
    split_ifs at hq
    obtain ⟨⟨⟩, -, hok⟩ := bind_eq_ok_iff.mp hq
    exact (Except.ok.inj hok).symm
  | update =>
    have hq := eq_ok_of_map_pair h
    unfold UpdateDraft.assemble at hq
    split_ifs at hq
    exact (Except.ok.inj hq).symm
  | delete =>
    obtain ⟨rfl, -⟩ := Prod.mk.inj (Except.ok.inj h)
    rfl

theorem spaced_query (d : Dialect) (table : Text) (s : k.DraftOf) (start : Double) :
    Sql.Spaced (query d table k s start).tokens := by
  cases k with
  | select => exact SelectDraft.spaced_query d table s start
  | insert => exact InsertDraft.spaced_query d table s start
  | update => exact UpdateDraft.spaced_query d table s start
  | delete => exact DeleteDraft.spaced_query d table s start

theorem vetted_query {d : Dialect} {table : Text} {s : k.DraftOf} {start : Double}
    (hs : k.Vetted s) (ht : Identifier.isValid table = true) (hi : Double.AtLeastOne start) :
    Sql.AllVetted d (k.expressions s) Double.AtLeastOne (query d table k s start).tokens := by
  cases k with
  | select => exact SelectDraft.vetted_query hs ht hi
  | insert => exact InsertDraft.vetted_query hs ht hi
  | update => exact UpdateDraft.vetted_query hs ht hi
  | delete => exact DeleteDraft.vetted_query hs ht hi

end StatementKind

namespace Builder

variable {k : StatementKind} {d : Dialect} {table : Text}

/-- A new builder has an empty draft and a table whose name is an identifier. -/
theorem fresh_spec {b : Builder k.DraftOf} (h : fresh d table k = .ok b) :
    Identifier.isValid table = true ∧ b.dialect = d ∧ b.table = table ∧ k.Vetted b.draft := by
  cases k with
  | select =>
    obtain ⟨⟨⟩, ht, ⟨⟩⟩ := bind_eq_ok_iff.mp h
    exact ⟨Identifier.check_eq_ok_iff.mp ht, rfl, rfl, SelectDraft.vetted_new⟩
  | insert =>
    obtain ⟨⟨⟩, ht, ⟨⟩⟩ := bind_eq_ok_iff.mp h
    exact ⟨Identifier.check_eq_ok_iff.mp ht, rfl, rfl, InsertDraft.vetted_new⟩
  | update =>
    obtain ⟨⟨⟩, ht, ⟨⟩⟩ := bind_eq_ok_iff.mp h
    exact ⟨Identifier.check_eq_ok_iff.mp ht, rfl, rfl, UpdateDraft.vetted_new⟩
  | delete =>
    obtain ⟨⟨⟩, ht, ⟨⟩⟩ := bind_eq_ok_iff.mp h
    exact ⟨Identifier.check_eq_ok_iff.mp ht, rfl, rfl, DeleteDraft.vetted_new⟩

theorem vetted_of_reached {b : Builder k.DraftOf} (h : Reached d table b) :
    Identifier.isValid table = true ∧ b.dialect = d ∧ b.table = table ∧ k.Vetted b.draft := by
  obtain ⟨b₀, hfresh, actions, rfl⟩ := h
  obtain ⟨ht, hdialect, htable, hdraft⟩ := fresh_spec hfresh
  obtain ⟨hvetted, htable', hdialect'⟩ := run_induction
    (fun hconf hs => StatementKind.vetted_configure hconf hs) hdraft actions
  exact ⟨ht, hdialect'.trans hdialect, htable'.trans htable, hvetted⟩

/-- The statement that a builder makes is the query of its draft, numbered from a whole
number that is at least one. -/
theorem build_eq_query {b : Builder k.DraftOf} {start : Double} {q : Query}
    {events : List Event} (hb : Reached d table b) (h : b.build start = .ok (q, events)) :
    q = StatementKind.query d table k b.draft start ∧ start.isSafeInteger = true ∧
      Double.le 1 start = true := by
  obtain ⟨-, hdialect, htable, -⟩ := vetted_of_reached hb
  obtain ⟨-, hsafe, hone, ev, hasm, -⟩ := build_eq_ok_iff.mp h
  rw [hdialect, htable] at hasm
  exact ⟨StatementKind.assemble_eq_query hasm, hsafe, hone⟩

/-- Every statement is spelled with the listed pieces, no two of which can run together.
Without expressions all its units are plain, its quotation marks are those of wildcards and
its comments those of ranges of the wrong length. -/
theorem build_text {b : Builder k.DraftOf} {start : Double} {q : Query} {events : List Event}
    (hb : Reached d table b) (h : b.build start = .ok (q, events)) :
    (∃ pieces : List Text, q.sql = pieces.flatten ∧
      (∀ p ∈ pieces, Sql.Piece d (k.expressions b.draft) p) ∧
      pieces.IsChain fun p p' => p ∈ Sql.breaks ∨ p' ∈ Sql.breaks) ∧
    (k.expressions b.draft = [] →
      (∀ c ∈ q.sql, Sql.isPlain c = true) ∧
      (∀ us vs, q.sql = us ++ Sql.quote :: vs →
        Text.ofString "%'" <+: vs ∨ Text.ofString "'%" <:+ us) ∧
      ∀ us vs, q.sql = us ++ Text.ofString "/*" ++ vs →
        ∃ n, Text.ofString "1=0 " <:+ us ∧
          Text.ofString " BETWEEN requires 2 values, got " ++ Text.ofNat n ++
            Text.ofString " */" <+: vs) := by
  obtain ⟨rfl, -, hone⟩ := build_eq_query hb h
  obtain ⟨ht, -, -, hdraft⟩ := vetted_of_reached hb
  have hspaced := StatementKind.spaced_query d table b.draft start
  have hvetted := StatementKind.vetted_query (d := d) hdraft ht hone
  refine ⟨Sql.pieces_render hspaced hvetted, fun hnone => ?_⟩
  rw [hnone] at hvetted
  refine ⟨Sql.isPlain_render hvetted, fun us vs hq => Sql.quote_of_render hvetted hq, ?_⟩
  exact fun us vs hq => Sql.comment_of_render hvetted hspaced hq

/-- A SELECT with a range of the wrong length and a prefix, of which every unit is plain. -/
theorem build_text_of_filters :
    ∃ (b : Builder (StatementKind.DraftOf .select)) (q : Query) (events : List Event),
      Reached .sqlite "t" b ∧ b.build (Double.ofNat 1) = .ok (q, events) ∧ q.params.length = 1 ∧
      (∃ pieces : List Text, q.sql = pieces.flatten ∧ ∀ p ∈ pieces, Sql.Piece .sqlite [] p) ∧
      ∀ c ∈ q.sql, Sql.isPlain c = true := by
  let range : Filter := ⟨"a", .between, .array [.null]⟩
  let front : Filter := ⟨"b", .startsWith, .string "';--"⟩
  let b : Builder SelectDraft := ⟨.sqlite, "t", { filters := [range, front] }, false⟩
  have hreached : Reached (k := .select) .sqlite "t" b :=
    ⟨⟨.sqlite, "t", {}, false⟩, rfl, [.configure (.filter range.field range.op range.value),
      .configure (.filter front.field front.op front.value)], rfl⟩
  have hbuild : ∃ q events, b.build (Double.ofNat 1) = .ok (q, events) ∧ q.params.length = 1 :=
    ⟨_, _, build_eq_ok_iff.mpr ⟨rfl, by decide +kernel, by decide +kernel, _, rfl, rfl⟩, rfl⟩
  obtain ⟨q, events, hq, hlength⟩ := hbuild
  obtain ⟨⟨pieces, htext, hpieces, -⟩, hplain⟩ := build_text hreached hq
  exact ⟨b, q, events, hreached, hq, hlength, ⟨pieces, htext, hpieces⟩, (hplain rfl).1⟩

end Builder
end BoundSql
