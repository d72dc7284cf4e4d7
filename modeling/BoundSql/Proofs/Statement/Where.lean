import BoundSql.Proofs.Sql.Statements
import BoundSql.Proofs.Statement.Safety

/-!
# WHERE clauses read back

The text of a SELECT, UPDATE or DELETE is read from its first lexeme on, and its
WHERE clause is given the parameters from its first placeholder on. Whatever stands
before and after it, the clause is worth what the conditions of the draft are worth,
all of them together, under any test of comparisons.
-/
namespace BoundSql

open Sql
open Double (AtLeastOne)

/-- The raw expressions in a statement, from left to right. -/
def Query.expressions (q : Query) : List Text := q.tokens.filterMap Token.expression?

/-- The statement that the text of a query spells. -/
def Query.statement? (q : Query) : Option Statement := readStatement q.expressions q.sql

/-- The condition of a statement with the parameters from its first placeholder on. -/
def Sql.Statement.condition (st : Statement) (params : List Value) :
    Option (Formula × List Value) :=
  st.formula.map fun formula => (formula, params.drop st.head.bound)

/-- The formula of the WHERE clause with its parameters. There may be no such clause, and the text
may be unreadable. -/
def Query.condition? (q : Query) : Option (Option (Formula × List Value)) :=
  q.statement?.map fun st => st.condition q.params

/-- The statement has a WHERE clause if there are conditions, and it is worth what their
conjunction is worth. -/
def Query.Demands (q : Query) (d : Dialect) (es : List FilterTree) : Prop :=
  es = [] ∧ q.condition? = some none ∨
    ∃ formula params, q.condition? = some (some (formula, params)) ∧ ∀ test,
      formula.truth test params = (FilterTree.conjunction es).value (Filter.truth d test)

namespace Sql

lemma lexemesOf_clause (w : Word) (body : List Token) :
    lexemesOf (clause w body) = (Token.word w).lexemes ++ lexemesOf body := by
  simp [clause]

section Ends

variable {ls ls' : List Text}

lemma EndsCondition.append (h : EndsCondition ls) (h' : EndsCondition ls') :
    EndsCondition (ls ++ ls') := by
  cases ls with
  | nil => exact h'
  | cons x ls => exact h

lemma EndsCondition.head_ne_comma (h : EndsCondition ls) :
    ls.head? ≠ some (Text.ofString ",") := by
  intro hcomma
  have hrole : role (Text.ofString ",") = .other := by decide
  rw [h _ hcomma] at hrole
  cases hrole

/-- The clauses that may stand behind a condition end it. -/
lemma endsCondition_clause {w : Word}
    (hw : w ∈ [Word.groupBy, .having, .orderBy, .limit, .offset, .returning])
    (body : List Token) : EndsCondition (lexemesOf (clause w body)) := by
  have hwords : ∀ w ∈ [Word.groupBy, .having, .orderBy, .limit, .offset, .returning],
      (Token.word w).lexemes.head?.map role = some .clause := by decide
  obtain ⟨x, hx, hrole⟩ := Option.map_eq_some_iff.mp (hwords w hw)
  have hhead : (lexemesOf (clause w body)).head? = some x := by
    rw [lexemesOf_clause, List.head?_append_of_ne_nil, hx]
    exact List.ne_nil_of_mem (List.mem_of_mem_head? hx)
  intro y hy
  obtain rfl := Option.some_inj.mp (hhead.symm.trans hy)
  exact hrole

lemma endsCondition_clauseUnlessEmpty {w : Word}
    (hw : w ∈ [Word.groupBy, .having, .orderBy, .limit, .offset, .returning])
    (parts : List (List Token)) : EndsCondition (lexemesOf (clauseUnlessEmpty w parts)) := by
  rw [clauseUnlessEmpty]
  split_ifs
  · exact endsCondition_nil
  · exact endsCondition_clause hw _

end Ends

end Sql

namespace Condition

variable {d : Dialect} {es : List FilterTree} {start : Double}

lemma params_whereClause :
    (whereClause d es start).params = (Series.ofList (ofTree d) es start).params := by
  cases es with
  | nil => rfl
  | cons e es => simp [whereClause, ofWhere?, ofTrees_eq_ofList]

lemma tokens_whereClause (hne : es ≠ []) : (whereClause d es start).tokens =
    clause .filter (joined .and (Series.ofList (ofTree d) es start).parts) := by
  cases es with
  | nil => exact absurd rfl hne
  | cons e es => simp [whereClause, ofWhere?, ofTrees_eq_ofList]

/-- A formula that is worth what some trees are worth together; none where there are no trees. -/
def StandsFor (d : Dialect) (es : List FilterTree) (params : List Value) :
    Option Formula → Prop
  | none => es = []
  | some formula => ∀ test more, formula.truth test (params ++ more) =
      (FilterTree.conjunction es).value (Filter.truth d test)

/-- A WHERE clause is read as what its trees are worth, up to the clause behind it. -/
theorem readWhere_whereClause (hproper : ∀ e ∈ es, e.isProper = true)
    (hnamed : ∀ e ∈ es, e.Named) {rest : List Text} (hrest : EndsCondition rest) :
    ∃ formula, readWhere (lexemesOf (whereClause d es start).tokens ++ rest) =
      some (formula, rest) ∧ StandsFor d es (whereClause d es start).params formula := by
  by_cases hempty : es = []
  · subst hempty
    refine ⟨none, ?_, rfl⟩
    cases rest with
    | nil => rfl
    | cons x rest => exact if_pos (hrest x rfl)
  · obtain ⟨formula, hread, htruth⟩ := exists_truth_ofTrees hempty hproper hnamed d start hrest
    refine ⟨some formula, ?_, fun test more => ?_⟩
    · have hword : ∀ ls, readWhere ((Token.word .filter).lexemes ++ ls) =
          (Reader.start.read ls).map fun out => (some out.1, out.2) := fun _ => rfl
      rw [tokens_whereClause hempty, lexemesOf_clause, List.append_assoc, hword, hread]
      rfl
    · rw [params_whereClause]
      exact htruth test more

/-- Neither a WHERE clause nor what may stand behind it begins with a comma. -/
lemma head_whereClause_ne_comma {rest : List Text} (hrest : EndsCondition rest) :
    (lexemesOf (whereClause d es start).tokens ++ rest).head? ≠ some (Text.ofString ",") := by
  by_cases hempty : es = []
  · subst hempty
    exact hrest.head_ne_comma
  · have hword : (Token.word .filter).lexemes = [Text.ofString "WHERE"] := by decide
    have hcomma : Text.ofString "WHERE" ≠ Text.ofString "," := by decide
    rw [tokens_whereClause hempty, lexemesOf_clause, hword]
    exact fun heq => hcomma (Option.some_inj.mp heq)

end Condition

/-- The tokens of a statement: those of a front that is read as a head, those of the WHERE clause
of some trees, and those of clauses behind it. -/
structure Query.Parts (q : Query) (d : Dialect) (es : List FilterTree) (x : Double)
    (head : Head) (front rest : List Token) : Prop where
  tokens : q.tokens = front ++ (Condition.whereClause d es x).tokens ++ rest
  reads : ∀ tail : List Text, tail.head? ≠ some (Text.ofString ",") →
    readHead (bareLexemes front ++ tail) = some (head, tail)
  cuts : CutsAll front
  plain : AllVetted d [] AtLeastOne rest
  ends : EndsCondition (lexemesOf rest)
  proper : ∀ e ∈ es, e.isProper = true
  named : ∀ e ∈ es, e.Named

namespace Query.Parts

variable {q : Query} {d : Dialect} {es : List FilterTree} {x : Double} {head : Head}
  {front rest : List Token}

/-- A statement is read part by part. -/
theorem statement? (h : q.Parts d es x head front rest) {xs : List Text} {I : Double → Prop}
    (hspaced : Spaced q.tokens) (hvetted : AllVetted d xs I q.tokens) :
    ∃ formula, q.statement? = some ⟨head, formula, lexemesOf rest⟩ ∧
      Condition.StandsFor d es (Condition.whereClause d es x).params formula := by
  have hwhere : ∀ t ∈ (Condition.whereClause d es x).tokens, t.expression? = none :=
    expression?_of_vetted (d := d) (I := fun _ => True)
      (Condition.counts_whereClause (fun _ _ _ => trivial) h.named trivial).1
  have hrest : ∀ t ∈ rest, t.expression? = none := expression?_of_vetted h.plain
  have hcuts : CutsAll q.tokens := by
    rw [h.tokens]
    exact (h.cuts.append_plain hwhere).append_plain hrest
  have hlexemes : bareLexemes q.tokens = bareLexemes front ++
      (lexemesOf (Condition.whereClause d es x).tokens ++ lexemesOf rest) := by
    rw [h.tokens, bareLexemes_append, bareLexemes_append, bareLexemes_of_none hwhere,
      bareLexemes_of_none hrest, List.append_assoc]
  obtain ⟨formula, hread, hstands⟩ : ∃ formula,
      readWhere (lexemesOf (Condition.whereClause d es x).tokens ++ lexemesOf rest) =
        some (formula, lexemesOf rest) ∧
      Condition.StandsFor d es (Condition.whereClause d es x).params formula :=
    Condition.readWhere_whereClause h.proper h.named h.ends
  refine ⟨formula, ?_, hstands⟩
  rw [Query.statement?, Query.expressions, Query.sql, readStatement_render hcuts hspaced hvetted,
    hlexemes, h.reads _ (Condition.head_whereClause_ne_comma h.ends), Option.bind_eq_bind,
    Option.bind_some]
  simp only [hread, Option.bind_eq_bind, Option.bind_some]

theorem demands (h : q.Parts d es x head front rest) {xs : List Text} {I : Double → Prop}
    (hspaced : Spaced q.tokens) (hvetted : AllVetted d xs I q.tokens) (more : List Value)
    (hparams : q.params.drop head.bound = (Condition.whereClause d es x).params ++ more) :
    q.Demands d es := by
  obtain ⟨formula, hstatement, hstands⟩ := h.statement? hspaced hvetted
  have hcondition : q.condition? = some (formula.map fun formula =>
      (formula, (Condition.whereClause d es x).params ++ more)) := by
    rw [Query.condition?, hstatement, Option.map_some, Statement.condition, hparams]
  cases formula with
  | none => exact .inl ⟨hstands, hcondition⟩
  | some formula => exact .inr ⟨formula, _, hcondition, fun test => hstands test more⟩

end Query.Parts

namespace DeleteDraft

variable {s : DeleteDraft} {d : Dialect} {table : Text} {start : Double}

theorem parts_query (hs : s.Vetted) (ht : Identifier.isValid table = true)
    (hproper : ∀ e ∈ s.conditions, e.isProper = true) :
    (s.query d table start).Parts d s.conditions start (.delete table)
      [.word .deleteFrom, space, .name table]
      (clauseUnlessEmpty .returning (s.returning.map fun n => [.name n])) where
  tokens := by simp [query]
  reads tail _ := by
    have hdelete : (Token.word .deleteFrom).lexemes =
        [Text.ofString "DELETE", Text.ofString "FROM"] := by decide
    simpa [hdelete, Token.lexemes_name ht] using readHead_delete ht tail
  cuts := cutsAll_plain (by simp [Token.expression?, space])
  plain := allVetted_nameClause hs.returning
  ends := endsCondition_clauseUnlessEmpty (by simp) _
  proper := hproper
  named := named_conditions hs

theorem demands_query (hs : s.Vetted) (ht : Identifier.isValid table = true)
    (hi : AtLeastOne start) (hproper : ∀ e ∈ s.conditions, e.isProper = true) :
    (s.query d table start).Demands d s.conditions := by
  have hvetted : AllVetted d [] AtLeastOne (s.query d table start).tokens :=
    vetted_query hs ht hi
  refine (parts_query hs ht hproper).demands (spaced_query d table s start) hvetted [] ?_
  rw [Head.bound, List.drop_zero, List.append_nil, query]

end DeleteDraft

namespace UpdateDraft

variable {s : UpdateDraft} {d : Dialect} {table : Text} {start : Double}

/-- The assignments of an UPDATE, one by one. -/
lemma takes_assignments {pairs : List (Text × Value)}
    (h : ∀ p ∈ pairs, Identifier.isValid p.1 = true) (tail : List Text) (index : Double) :
    List.Forall₂ (Takes readAssignment tail)
      ((Series.ofList (assignment d) pairs index).parts.map bareLexemes) (pairs.map Prod.fst) := by
  induction pairs generalizing index with
  | nil => exact .nil
  | cons p pairs ih =>
    obtain ⟨hp, hpairs⟩ := List.forall_mem_cons.mp h
    have heq : (Token.symbol .eq).lexemes = [Text.ofString "="] := by decide
    have hlexemes : bareLexemes (assignment d p index).tokens =
        [p.1, Text.ofString "=", placeholderText d index] := by
      simp [assignment, Token.lexemes_name hp, heq, Token.lexemes_placeholder]
    refine .cons ?_ (ih hpairs _)
    rw [hlexemes]
    exact takes_assignment hp (isPlaceholder_placeholderText d index) tail

lemma length_params_assignments (pairs : List (Text × Value)) (index : Double) :
    (Series.ofList (assignment d) pairs index).params.length = pairs.length := by
  induction pairs generalizing index with
  | nil => rfl
  | cons p pairs ih => simp [Series.ofList, Series.cons, assignment, ih]

/-- The tokens up to the WHERE clause. -/
def frontTokens (d : Dialect) (table : Text) (s : UpdateDraft) (start : Double) : List Token :=
  .word .update :: space :: .name table ::
    clause .assign (commaList (Series.ofList (assignment d) s.assignments start).parts)

lemma query_tokens : (s.query d table start).tokens = s.frontTokens d table start ++
    (Condition.whereClause d s.conditions
      (Series.ofList (assignment d) s.assignments start).next).tokens ++
    clauseUnlessEmpty .returning (s.returning.map fun n => [.name n]) := by
  simp [query, frontTokens]

theorem parts_query (hs : s.Vetted) (ht : Identifier.isValid table = true)
    (hi : AtLeastOne start) (hset : s.assignments ≠ [])
    (hproper : ∀ e ∈ s.conditions, e.isProper = true) :
    (s.query d table start).Parts d s.conditions
      (Series.ofList (assignment d) s.assignments start).next
      (.update table (s.assignments.map Prod.fst)) (s.frontTokens d table start)
      (clauseUnlessEmpty .returning (s.returning.map fun n => [.name n])) where
  tokens := query_tokens
  reads tail htail := by
    have hne : (Series.ofList (assignment d) s.assignments start).parts.map bareLexemes ≠ [] := by
      cases hpairs : s.assignments with
      | nil => exact absurd hpairs hset
      | cons p pairs => simp [Series.ofList, Series.cons]
    have hupdate : (Token.word .update).lexemes = [Text.ofString "UPDATE"] := by decide
    have hassign : (Token.word .assign).lexemes = [Text.ofString "SET"] := by decide
    have hpairs := takes_assignments (d := d) hs.assignments tail start
    have hread := readHead_update ht hpairs hne htail
    simpa [frontTokens, clause, hupdate, hassign, Token.lexemes_name ht, bareLexemes_commaList]
      using hread
  cuts := by
    have hvetted : AllVetted d [] AtLeastOne (s.query d table start).tokens :=
      vetted_query hs ht hi
    rw [query_tokens, List.append_assoc, allVetted_append] at hvetted
    exact cutsAll_plain (expression?_of_vetted hvetted.1)
  plain := allVetted_nameClause hs.returning
  ends := endsCondition_clauseUnlessEmpty (by simp) _
  proper := hproper
  named := named_conditions hs

theorem demands_query (hs : s.Vetted) (ht : Identifier.isValid table = true)
    (hi : AtLeastOne start) (hset : s.assignments ≠ [])
    (hproper : ∀ e ∈ s.conditions, e.isProper = true) :
    (s.query d table start).Demands d s.conditions := by
  have hvetted : AllVetted d [] AtLeastOne (s.query d table start).tokens :=
    vetted_query hs ht hi
  refine (parts_query hs ht hi hset hproper).demands (spaced_query d table s start) hvetted [] ?_
  have hbound : (Head.update table (s.assignments.map Prod.fst)).bound =
      (Series.ofList (assignment d) s.assignments start).params.length := by
    rw [length_params_assignments, Head.bound, List.length_map]
  rw [hbound, query, List.drop_left, List.append_nil]

end UpdateDraft

end BoundSql
