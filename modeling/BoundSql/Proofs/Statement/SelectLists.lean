import BoundSql.Proofs.Statement.Where

/-!
# Select lists read back

The entries of a select list are read one by one: columns, computed fields without
their expressions, and aggregates as calls. What stands after the WHERE clause of a
SELECT holds no expression and ends the condition, so the statement is read part by
part.
-/
namespace BoundSql

open Sql
open Double (AtLeastOne)

/-- The name of the function that an aggregate calls. -/
def AggregateFunction.keyword : AggregateFunction → Text
  | .count | .countDistinct => "COUNT"
  | .sum => "SUM"
  | .avg => "AVG"
  | .min => "MIN"
  | .max => "MAX"

/-- An aggregate as an entry of a select list. -/
def Aggregate.entry (a : Aggregate) : Entry :=
  match a.field, a.func with
  | none, _ => .call "COUNT" [Text.ofString "*"] a.label
  | some field, .countDistinct => .call "COUNT" [Text.ofString "DISTINCT", field] a.label
  | some field, func => .call func.keyword [field] a.label

section Entries

variable {tail : List Text}

lemma bareLexemes_labelled {label : Text} (h : Identifier.isValid label = true) :
    bareLexemes (Aggregate.labelled label) = [Text.ofString "AS", label] := by
  have hword : (Token.word .labelled).lexemes = [Text.ofString "AS"] := by decide
  simp [Aggregate.labelled, hword, Token.lexemes_name h]

lemma Aggregate.bareLexemes_call (w : Word) (argument : List Token) :
    bareLexemes (call w argument) = (Token.word w).lexemes ++
      Text.ofString "(" :: (bareLexemes argument ++ [Text.ofString ")"]) := by
  have hopen : openParen.hollow.lexemes = [Text.ofString "("] := by decide
  have hclose : closeParen.hollow.lexemes = [Text.ofString ")"] := by decide
  simp [call, paren, hopen, hclose]

/-- The call of an aggregate, lexeme by lexeme. -/
lemma Aggregate.bareLexemes_callTokens {a : Aggregate}
    (h : ∀ n ∈ a.field, Identifier.isValid n = true) :
    ∃ func argument, a.entry = .call func argument a.label ∧
      Identifier.isWellFormed func = true ∧ Text.ofString ")" ∉ argument ∧
      bareLexemes a.callTokens =
        func :: Text.ofString "(" :: (argument ++ [Text.ofString ")"]) := by
  obtain ⟨func, field, label⟩ := a
  cases field with
  | none => exact ⟨_, _, rfl, by decide, by decide, rfl⟩
  | some field =>
    have hfield : Identifier.isValid field = true := h field rfl
    have hname := bareLexemes_name hfield
    have hclose : Text.ofString ")" ≠ field := by
      rintro rfl
      revert hfield
      decide
    have hkeyword : ∀ f : AggregateFunction, Identifier.isWellFormed f.keyword = true := by
      rintro ⟨⟩ <;> decide
    have hdistinct : Text.ofString ")" ≠ Text.ofString "DISTINCT" := by decide
    cases func with
    | countDistinct =>
      have hword : (Token.word .distinct).lexemes = [Text.ofString "DISTINCT"] := by decide
      refine ⟨_, _, rfl, by decide, by simpa using ⟨hdistinct, hclose⟩, ?_⟩
      rw [callTokens, bareLexemes_call, bareLexemes_cons, bareLexemes_cons, hname,
        Token.hollow_word, hword]
      rfl
    | _ =>
      refine ⟨_, _, rfl, hkeyword _, by simpa using hclose, ?_⟩
      rw [callTokens, bareLexemes_call, hname]
      rfl

lemma Aggregate.Named.takes_entry {a : Aggregate} (h : a.Named) :
    Takes readEntry (Text.ofString "FROM" :: tail) (bareLexemes a.tokens) a.entry := by
  obtain ⟨func, argument, hentry, hfunc, hargument, hlexemes⟩ := bareLexemes_callTokens h.1
  have htokens : bareLexemes a.tokens = func :: Text.ofString "(" ::
      (argument ++ Text.ofString ")" :: labelLexemes a.label) := by
    rw [tokens]
    cases hlabel : a.label with
    | none => simpa [labelLexemes] using hlexemes
    | some label =>
      simp [hlexemes, bareLexemes_labelled (h.2 label hlabel), labelLexemes]
  rw [htokens, hentry]
  exact takes_call hfunc hargument h.2

lemma ComputedColumn.Vetted.takes_entry {c : ComputedColumn} (h : c.Vetted) :
    Takes readEntry (Text.ofString "FROM" :: tail) (bareLexemes c.tokens) (.computed c.label) := by
  have hparen : bareLexemes (paren [.expression c.expression]) =
      [Text.ofString "(", Text.ofString ")"] := rfl
  rw [ComputedColumn.tokens, bareLexemes_append, bareLexemes_labelled h.1, hparen]
  exact takes_computed h.1

lemma not_openParen_mem {n : Text} (h : Identifier.isValid n = true) : Text.unit '(' ∉ n :=
  fun hmem => absurd (Identifier.isPart_of_mem h hmem) (by decide)

lemma ComputedColumn.Vetted.cuts {c : ComputedColumn} (h : c.Vetted) : Cuts c.tokens := by
  have htokens : c.tokens = [openParen, .expression c.expression] ++
      (closeParen :: Aggregate.labelled c.label) := rfl
  have htext : Text.unit '(' ∉ render (closeParen :: Aggregate.labelled c.label) := by
    have hfixed : render (closeParen :: Aggregate.labelled c.label) = ") AS " ++ c.label := by
      simp [Aggregate.labelled, Token.text]
      rfl
    rw [hfixed, List.mem_append, not_or]
    exact ⟨by decide, not_openParen_mem h.1⟩
  rw [htokens]
  refine (cuts_expression _).append (cuts_plain ?_ htext)
  simp [Aggregate.labelled, closeParen, Token.expression?, space]

end Entries

namespace SelectDraft

variable {s : SelectDraft} {d : Dialect} {table : Text} {start : Double}

/-- The select list as it is read. -/
def entries (s : SelectDraft) : List Entry :=
  let listed := s.fields.map Entry.column ++ s.computed.map (fun c => Entry.computed c.label) ++
    s.aggregates.map Aggregate.entry
  if listed.isEmpty then [.everything] else listed

/-- The tokens up to the WHERE clause. -/
def frontTokens (table : Text) (s : SelectDraft) : List Token :=
  .word .select :: space :: (s.selectList ++ clause .source [.name table])

/-- The clauses after the WHERE clause. -/
def lastClauses (d : Dialect) (s : SelectDraft) (index : Double) : List Token :=
  clauseUnlessEmpty .groupBy (s.groupBy.map fun n => [.name n]) ++
    (Condition.havingClause d s.having index).tokens ++
    clauseUnlessEmpty .orderBy (s.sorts.map sortTokens) ++ s.rowClauses

lemma query_tokens : (s.query d table start).tokens = s.frontTokens table ++
    (Condition.whereClause d s.conditions start).tokens ++
    s.lastClauses d (Condition.whereClause d s.conditions start).next := by
  simp [query, queryWhere, frontTokens, lastClauses]

/-- The parts of a select list before the aggregates, in which no expression stands. -/
def leadingParts (s : SelectDraft) : List (List Token) :=
  s.fields.map (fun n => [.name n]) ++ s.computed.map ComputedColumn.tokens

lemma takes_parts (hs : s.Vetted) (tail : List Text) :
    List.Forall₂ (Takes readEntry (Text.ofString "FROM" :: tail))
      ((s.leadingParts ++ s.aggregates.map Aggregate.tokens).map bareLexemes)
      (s.fields.map Entry.column ++ s.computed.map (fun c => Entry.computed c.label) ++
        s.aggregates.map Aggregate.entry) := by
  have hmap : ∀ {α : Type} {as : List α} {f : α → List Token} {g : α → Entry},
      (∀ a ∈ as, Takes readEntry (Text.ofString "FROM" :: tail) (bareLexemes (f a)) (g a)) →
      List.Forall₂ (Takes readEntry (Text.ofString "FROM" :: tail))
        ((as.map f).map bareLexemes) (as.map g) := by
    intro α as f g h
    rw [List.map_map, List.forall₂_map_left_iff, List.forall₂_map_right_iff, List.forall₂_same]
    exact h
  rw [leadingParts, List.map_append, List.map_append]
  refine List.rel_append (List.rel_append (hmap fun n hn => ?_) (hmap fun c hc => ?_))
    (hmap fun a ha => ?_)
  · rw [bareLexemes_name (hs.fields n hn)]
    exact takes_column (hs.fields n hn)
  · exact (hs.computed c hc).takes_entry
  · exact (hs.aggregates a ha).takes_entry

lemma selectList_eq (s : SelectDraft) : s.selectList =
    if (s.leadingParts ++ s.aggregates.map Aggregate.tokens).isEmpty then [.symbol .star]
    else commaList (s.leadingParts ++ s.aggregates.map Aggregate.tokens) := rfl

/-- What stands before the WHERE clause of a SELECT is read as its head. -/
theorem readHead_frontTokens (hs : s.Vetted) (ht : Identifier.isValid table = true)
    (tail : List Text) : readHead (bareLexemes (s.frontTokens table) ++ tail) =
      some (.select s.entries table, tail) := by
  have hselect : (Token.word .select).lexemes = [Text.ofString "SELECT"] := by decide
  have hfrom : (Token.word .source).lexemes = [Text.ofString "FROM"] := by decide
  have htokens : bareLexemes (s.frontTokens table) ++ tail = Text.ofString "SELECT" ::
      (bareLexemes s.selectList ++ Text.ofString "FROM" :: table :: tail) := by
    simp [frontTokens, clause, hselect, hfrom, Token.lexemes_name ht]
  have hparts := takes_parts hs (table :: tail)
  have hlength := hparts.length_eq
  rw [List.length_map] at hlength
  rw [htokens, selectList_eq, entries]
  simp only [List.isEmpty_iff_length_eq_zero, ← hlength]
  split_ifs with hempty
  · exact readHead_select ht (.cons takes_everything .nil) (by simp)
  · rw [bareLexemes_commaList]
    refine readHead_select ht hparts fun hnil => hempty ?_
    rw [← List.length_map bareLexemes, hnil, List.length_nil]

/-- The expressions of a SELECT stand before its aggregates and all other clauses. -/
theorem cutsAll_frontTokens (hs : s.Vetted) : CutsAll (s.frontTokens table) := by
  have hselect : Cuts [.word .select, space] :=
    cuts_plain (by simp [Token.expression?, space]) (by decide)
  have hfrom : ∀ t ∈ clause .source [.name table], t.expression? = none := by
    simp [clause, Token.expression?, space]
  have hlist : CutsAll s.selectList := by
    rw [selectList_eq]
    split_ifs with hempty
    · exact cutsAll_plain (by simp [Token.expression?])
    · refine cutsAll_commaList (fun p hp => ?_) fun p hp => ?_
      · simp only [leadingParts, List.mem_append, List.mem_map] at hp
        rcases hp with ⟨n, hn, rfl⟩ | ⟨c, hc, rfl⟩
        · refine cuts_plain (by simp [Token.expression?]) ?_
          simpa [Token.text] using not_openParen_mem (hs.fields n hn)
        · exact (hs.computed c hc).cuts
      · obtain ⟨a, ha, rfl⟩ := List.mem_map.mp hp
        exact expression?_of_vetted (d := .postgres) (Aggregate.vetted_tokens (hs.aggregates a ha))
  exact hselect.append_all (hlist.append_plain hfrom)

lemma endsCondition_rowClauses (s : SelectDraft) : EndsCondition (lexemesOf s.rowClauses) := by
  rw [rowClauses, lexemesOf_append]
  refine EndsCondition.append ?_ ?_
  · cases s.limit with
    | none => exact endsCondition_nil
    | some n => exact endsCondition_clause (by simp) _
  · cases s.offset with
    | none => exact endsCondition_nil
    | some n =>
      dsimp only
      split_ifs
      · exact endsCondition_nil
      · exact endsCondition_clause (by simp) _

lemma endsCondition_lastClauses (index : Double) :
    EndsCondition (lexemesOf (s.lastClauses d index)) := by
  have hhaving : EndsCondition (lexemesOf (Condition.havingClause d s.having index).tokens) := by
    cases s.having with
    | none => exact endsCondition_nil
    | some e => exact endsCondition_clause (by simp) _
  simp only [lastClauses, lexemesOf_append]
  exact (((endsCondition_clauseUnlessEmpty (by simp) _).append hhaving).append
    (endsCondition_clauseUnlessEmpty (by simp) _)).append (endsCondition_rowClauses s)

lemma vetted_lastClauses (hs : s.Vetted) {index : Double} (hi : AtLeastOne index) :
    AllVetted d [] AtLeastOne (s.lastClauses d index) := by
  have hhaving : Condition.Counts d [] AtLeastOne (Condition.havingClause d s.having index) :=
    Condition.counts_havingClause (fun _ h => h.add) hs.having hi
  obtain ⟨-, -, hrows⟩ := rowClauses_spec d [] s
  simp [lastClauses, hhaving.1, allVetted_nameClause hs.groupBy,
    allVetted_clauseUnlessEmpty (vetted_sortParts hs), hrows]

theorem parts_query (hs : s.Vetted) (ht : Identifier.isValid table = true)
    (hi : AtLeastOne start) (hproper : ∀ e ∈ s.conditions, e.isProper = true) :
    (s.query d table start).Parts d s.conditions start (.select s.entries table)
      (s.frontTokens table)
      (s.lastClauses d (Condition.whereClause d s.conditions start).next) where
  tokens := query_tokens
  reads tail _ := readHead_frontTokens hs ht tail
  cuts := cutsAll_frontTokens hs
  plain := by
    have hwhere : Condition.Counts d [] AtLeastOne (Condition.whereClause d s.conditions start) :=
      Condition.counts_whereClause (fun _ h => h.add) (named_conditions hs) hi
    exact vetted_lastClauses hs hwhere.2
  ends := endsCondition_lastClauses _
  proper := hproper
  named := named_conditions hs

theorem demands_query (hs : s.Vetted) (ht : Identifier.isValid table = true)
    (hi : AtLeastOne start) (hproper : ∀ e ∈ s.conditions, e.isProper = true) :
    (s.query d table start).Demands d s.conditions := by
  refine (parts_query (d := d) hs ht hi hproper).demands (spaced_query d table s start)
    (vetted_query hs ht hi) (Condition.havingClause d s.having
      (Condition.whereClause d s.conditions start).next).params ?_
  rw [Head.bound, List.drop_zero, query, queryWhere]

end SelectDraft

end BoundSql
