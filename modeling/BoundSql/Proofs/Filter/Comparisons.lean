import BoundSql.Proofs.Sql.Conditions
import BoundSql.Proofs.Sql.Reading

/-!
# Conditions of filters are comparisons

The lexemes of the condition of one filter are read as one comparison, whatever
its field is called: a field that is spelled like a keyword is told from the
keyword by what follows. The bounds of a range and the elements of a list stay
inside the comparison.
-/
namespace BoundSql
open Sql

namespace Sql

/-- The lexemes of tokens, each read by itself. -/
def lexemesOf (ts : List Token) : List Text := ts.flatMap Token.lexemes

@[simp] theorem lexemesOf_nil : lexemesOf [] = [] := rfl

@[simp] theorem lexemesOf_cons (t : Token) (ts : List Token) :
    lexemesOf (t :: ts) = t.lexemes ++ lexemesOf ts := by simp [lexemesOf]

@[simp] theorem lexemesOf_append (ts us : List Token) :
    lexemesOf (ts ++ us) = lexemesOf ts ++ lexemesOf us := by simp [lexemesOf]

@[simp] theorem lexemes_space : space.lexemes = [] := by decide

@[simp] theorem lexemes_openParen : openParen.lexemes = [Text.ofString "("] := by decide

@[simp] theorem lexemes_closeParen : closeParen.lexemes = [Text.ofString ")"] := by
  decide

@[simp] theorem lexemesOf_paren (ts : List Token) :
    lexemesOf (paren ts) = Text.ofString "(" :: (lexemesOf ts ++ [Text.ofString ")"]) := by
  simp [paren]

theorem lexemesOf_intercalate (sep : List Token) (parts : List (List Token)) :
    lexemesOf (List.intercalate sep parts) =
      List.intercalate (lexemesOf sep) (parts.map lexemesOf) := by
  induction parts with
  | nil => rfl
  | cons p parts ih =>
    cases parts with
    | nil => simp
    | cons q parts => simp [List.intercalate_cons_cons, ih]

lemma lexemes_and : (Token.word .and).lexemes = [Join.and.keyword] := by decide

lemma lexemes_or : (Token.word .or).lexemes = [Join.or.keyword] := by decide

lemma lexemes_not : (Token.word .not).lexemes = [Text.ofString "NOT"] := by decide

open Reader

lemma extendAll_append (depth bounds : ℕ) (ls ls' : List Text) :
    extendAll depth bounds (ls ++ ls') =
      (extendAll depth bounds ls).bind fun s => extendAll s.1 s.2 ls' := by
  induction ls generalizing depth bounds with
  | nil => rfl
  | cons x ls ih =>
    simp only [List.cons_append, extendAll]
    cases extend depth bounds x with
    | none => rfl
    | some s => exact ih s.1 s.2

/-- Lexemes without a role leave a comparison as it is. -/
lemma extendAll_other {ls : List Text} (h : ∀ x ∈ ls, role x = .other) (depth bounds : ℕ) :
    extendAll depth bounds ls = some (depth, bounds) := by
  induction ls with
  | nil => rfl
  | cons x ls ih =>
    have hx : extend depth bounds x = some (depth, bounds) := by
      cases depth <;> simp [extend, h x (by simp)]
    rw [extendAll, hx, Option.bind_some]
    exact ih fun y hy => h y (List.mem_cons_of_mem x hy)

/-- A keyword is told by its first unit already. -/
lemma not_isKeyword {keyword x : Text}
    (h : (x.map fun c => if Text.isLower c then c - 32 else c).head? ≠ keyword.head?) :
    isKeyword keyword x = false := by
  rw [isKeyword, decide_eq_false_iff_not]
  exact fun heq => h (congrArg List.head? heq)

lemma role_placeholder (d : Dialect) (index : Double) :
    role (placeholderText d index) = .other := by
  have hhead : ∀ c t, (c = Text.unit '$' ∨ c = Text.unit '?') → role (c :: t) = .other := by
    intro c t hc
    have hopen : c :: t ≠ Text.ofString "(" := fun h => by
      have hunit := (List.cons_eq_cons.mp h).1
      rcases hc with rfl | rfl <;> revert hunit <;> decide
    have hclose : c :: t ≠ Text.ofString ")" := fun h => by
      have hunit := (List.cons_eq_cons.mp h).1
      rcases hc with rfl | rfl <;> revert hunit <;> decide
    have hheads : ∀ k ∈ Text.ofString "AND" :: Text.ofString "OR" :: Text.ofString "BETWEEN" ::
        clauseWords, k.head? ≠ some (Text.unit '$') ∧ k.head? ≠ some (Text.unit '?') := by decide
    have hkeyword : ∀ k ∈ Text.ofString "AND" :: Text.ofString "OR" :: Text.ofString "BETWEEN" ::
        clauseWords, isKeyword k (c :: t) = false := by
      intro k hk
      obtain ⟨hdollar, hquestion⟩ := hheads k hk
      refine not_isKeyword ?_
      simp only [List.map_cons, List.head?_cons]
      rcases hc with rfl | rfl
      · exact hdollar.symm
      · exact hquestion.symm
    simp only [List.forall_mem_cons] at hkeyword
    obtain ⟨hand, hor, hbetween, hclause⟩ := hkeyword
    have hnone : clauseWords.any (isKeyword · (c :: t)) = false :=
      List.any_eq_false.mpr fun k hk => by simp [hclause k hk]
    simp [role, hopen, hclose, hand, hor, hbetween, hnone]
  cases d with
  | postgres => exact hhead _ _ (.inl rfl)
  | sqlite => exact hhead _ _ (.inr rfl)

lemma extendAll_placeholder (d : Dialect) (index : Double) (depth bounds : ℕ) :
    extendAll depth bounds [placeholderText d index] = some (depth, bounds) :=
  extendAll_other (fun x hx => by rw [List.mem_singleton.mp hx, role_placeholder]) depth bounds

/-- A field and what follows it in the condition of a filter. -/
lemma reads_column {field : Text} (hf : Identifier.isValid field = true) {tail : List Text}
    (hgoes : continuesComparison tail = true) (hend : extendAll 0 0 tail = some (0, 0)) :
    Reads (field :: tail) (.atom (field :: tail)) := by
  have hpart : ∀ c, field.head? = some c → Identifier.isPart c = true := fun c hc =>
    Identifier.isPart_of_mem hf (List.mem_of_mem_head? hc)
  have hopen : field ≠ Text.ofString "(" := by
    rintro rfl
    exact absurd (hpart _ rfl) (by decide)
  have hclose : field ≠ Text.ofString ")" := by
    rintro rfl
    exact absurd (hpart _ rfl) (by decide)
  refine reads_comparison ?_ ?_ (fun _ => hgoes) hend
  · unfold role
    split_ifs <;> simp_all
  · unfold role
    split_ifs <;> simp_all

end Sql

namespace Condition

open Reader Token

/-- The lexemes of an operator between a field and a placeholder. -/
def IsOperator (op : Token) : Prop :=
  continuesComparison op.lexemes = true ∧ extendAll 0 0 op.lexemes = some (0, 0)

lemma isOperator_comparison (op : Operator) : IsOperator (comparison op) := by
  cases op <;> exact ⟨by decide, by decide⟩

lemma isOperator_regex (d : Dialect) : IsOperator d.regexToken := by
  cases d <;> exact ⟨by decide, by decide⟩

lemma isOperator_ilike (d : Dialect) : IsOperator d.ilikeToken := by
  cases d <;> exact ⟨by decide, by decide⟩

/-- A condition with closed text before and after its one placeholder. -/
lemma reads_around {field : Text} (hf : Identifier.isValid field = true) {front back : List Text}
    (d : Dialect) (index : Double) (hgoes : continuesComparison front = true) {depth : ℕ}
    (hfront : extendAll 0 0 front = some (depth, 0))
    (hback : extendAll depth 0 back = some (0, 0)) :
    Reads (field :: (front ++ placeholderText d index :: back))
      (.atom (field :: (front ++ placeholderText d index :: back))) := by
  refine reads_column hf (continuesComparison_append hgoes _) ?_
  have hcons : placeholderText d index :: back = [placeholderText d index] ++ back := rfl
  rw [hcons, extendAll_append, hfront, Option.bind_some, extendAll_append, extendAll_placeholder,
    Option.bind_some, hback]

lemma extendAll_likeWildcard :
    extendAll 0 0 (lexemesOf [.word .like, .wildcard, .symbol .concat]) = some (0, 0) := by
  decide

lemma reads_binary {d : Dialect} {field : Text} (hf : Identifier.isValid field = true)
    {op : Token} (hop : IsOperator op) (index : Double) :
    Reads (lexemesOf (binary d field op index)) (.atom (lexemesOf (binary d field op index))) := by
  have hls : lexemesOf (binary d field op index) =
      field :: (op.lexemes ++ [placeholderText d index]) := by
    simp [binary, lexemes_name hf, lexemes_placeholder]
  rw [hls]
  exact reads_around hf d index hop.1 hop.2 rfl

theorem reads_ofScalar {d : Dialect} {f : Filter} (hf : Identifier.isValid f.field = true)
    (index : Double) : Reads (lexemesOf (ofScalar d f index).tokens)
      (.atom (lexemesOf (ofScalar d f index).tokens)) := by
  unfold ofScalar
  split
  · exact reads_binary hf (isOperator_regex d) index
  · exact reads_binary hf (isOperator_ilike d) index
  · have hls : lexemesOf (d.startsWith f.field index) = f.field :: ((Token.word .like).lexemes ++
        placeholderText d index :: lexemesOf [.symbol .concat, .wildcard]) := by
      simp [Dialect.startsWith, lexemes_name hf, lexemes_placeholder]
    rw [single, hls]
    have hfront : extendAll 0 0 (Token.word .like).lexemes = some (0, 0) := by decide
    exact reads_around hf d index (by decide) hfront (by decide)
  · have hls : lexemesOf (d.endsWith f.field index) = f.field ::
        (lexemesOf [.word .like, .wildcard, .symbol .concat] ++ [placeholderText d index]) := by
      simp [Dialect.endsWith, lexemes_name hf, lexemes_placeholder]
    rw [single, hls]
    exact reads_around hf d index (by decide) extendAll_likeWildcard rfl
  · have hls : lexemesOf (d.contains f.field index) = f.field ::
        (lexemesOf [.word .like, .wildcard, .symbol .concat] ++
          placeholderText d index :: lexemesOf [.symbol .concat, .wildcard]) := by
      simp [Dialect.contains, lexemes_name hf, lexemes_placeholder]
    rw [single, hls]
    exact reads_around hf d index (by decide) extendAll_likeWildcard (by decide)
  · exact reads_binary hf (isOperator_comparison _) index

/-- Placeholders and commas leave a comparison as it is. -/
lemma role_placeholderList {d : Dialect} {values : List Value} {start : Double} {x : Text}
    (hx : x ∈ lexemesOf (d.placeholderList values start)) : role x = .other := by
  rw [Dialect.placeholderList_eq_range, commaList, lexemesOf_intercalate] at hx
  rcases mem_intercalate hx with hx | ⟨ls, hls, hx⟩
  · have hcomma : lexemesOf [.symbol .comma, space] = [Text.ofString ","] := by decide
    rw [hcomma, List.mem_singleton] at hx
    rw [hx]
    decide
  · simp only [List.map_map, List.mem_map, Function.comp_apply, lexemesOf_cons, lexemesOf_nil,
      lexemes_placeholder, List.append_nil] at hls
    obtain ⟨i, -, rfl⟩ := hls
    rw [List.mem_singleton.mp hx]
    exact role_placeholder d _

/-- A membership test after the word or sign it begins with. -/
lemma reads_list {d : Dialect} {field : Text} (hf : Identifier.isValid field = true)
    (front : List Token) (values : List Value) (start : Double)
    (hgoes : continuesComparison (lexemesOf front) = true)
    (hfront : extendAll 0 0 (lexemesOf front) = some (0, 0)) :
    Reads (lexemesOf (.name field :: (front ++ paren (d.placeholderList values start))))
      (.atom (lexemesOf (.name field :: (front ++ paren (d.placeholderList values start))))) := by
  have hls : lexemesOf (.name field :: (front ++ paren (d.placeholderList values start))) =
      field :: (lexemesOf front ++ ([Text.ofString "("] ++
        (lexemesOf (d.placeholderList values start) ++ [Text.ofString ")"]))) := by
    simp [lexemes_name hf]
  have hopen : extendAll 0 0 [Text.ofString "("] = some (1, 0) := by decide
  have hclose : extendAll 1 0 [Text.ofString ")"] = some (0, 0) := by decide
  rw [hls]
  refine reads_column hf (continuesComparison_append hgoes _) ?_
  rw [extendAll_append, hfront, Option.bind_some, extendAll_append, hopen, Option.bind_some,
    extendAll_append, extendAll_other (fun x hx => role_placeholderList hx), Option.bind_some,
    hclose]

lemma reads_one {d : Dialect} {field : Text} (hf : Identifier.isValid field = true)
    (front : List Token) (index : Double)
    (hgoes : continuesComparison (lexemesOf (front ++ [openParen])) = true)
    (hfront : extendAll 0 0 (lexemesOf (front ++ [openParen])) = some (1, 0)) :
    Reads (lexemesOf (.name field :: (front ++ paren [.placeholder d index])))
      (.atom (lexemesOf (.name field :: (front ++ paren [.placeholder d index])))) := by
  have hls : lexemesOf (.name field :: (front ++ paren [.placeholder d index])) = field ::
      (lexemesOf (front ++ [openParen]) ++ placeholderText d index :: [Text.ofString ")"]) := by
    simp [lexemes_name hf, lexemes_placeholder]
  have hclose : extendAll 1 0 [Text.ofString ")"] = some (0, 0) := by decide
  rw [hls]
  exact reads_around hf d index hgoes hfront hclose

theorem reads_memberOf {d : Dialect} {field : Text} (hf : Identifier.isValid field = true)
    (values : List Value) (start : Double) :
    Reads (lexemesOf (d.memberOf field values start).tokens)
        (.atom (lexemesOf (d.memberOf field values start).tokens)) ∧
      Reads (lexemesOf (d.notMemberOf field values start).tokens)
        (.atom (lexemesOf (d.notMemberOf field values start).tokens)) := by
  cases d with
  | postgres =>
    constructor
    · exact reads_one hf [space, .symbol .eq, space, .word .anyOf] start
        (by decide) (by decide)
    · exact reads_one hf [space, .symbol .ne, space, .word .allOf] start
        (by decide) (by decide)
  | sqlite =>
    constructor
    · exact reads_list hf [space, .word .inList, space] values start
        (by decide) (by decide)
    · exact reads_list hf [space, .word .notInList, space] values start
        (by decide) (by decide)

/-- The AND between two bounds belongs to BETWEEN; a bad range is false by itself. -/
theorem reads_ofRange {d : Dialect} {field : Text} (hf : Identifier.isValid field = true)
    (bounds : List Value) (index : Double) :
    Reads (lexemesOf (ofRange d field bounds index).tokens)
      (.atom (lexemesOf (ofRange d field bounds index).tokens)) := by
  unfold ofRange
  split
  · rename_i low high
    have hls : lexemesOf [.name field, space, .word .between, space, .placeholder d index, space,
        .word .and, space, .placeholder d (index.add 1)] = field ::
          ((Token.word .between).lexemes ++ ([placeholderText d index] ++
            ((Token.word .and).lexemes ++ [placeholderText d (index.add 1)]))) := by
      simp [lexemes_name hf, lexemes_placeholder]
    have hbetween : extendAll 0 0 (Token.word .between).lexemes = some (0, 1) := by decide
    have hand : extendAll 0 1 (Token.word .and).lexemes = some (0, 0) := by decide
    rw [hls]
    refine reads_column hf (continuesComparison_append (by decide) _) ?_
    rw [extendAll_append, hbetween, Option.bind_some, extendAll_append, extendAll_placeholder,
      Option.bind_some, extendAll_append, hand, Option.bind_some, extendAll_placeholder]
  · rw [lexemesOf_cons, lexemes_noRange]
    exact reads_comparison (by decide) (by decide) (by decide) (by decide)

theorem reads_ofFilter {d : Dialect} {f : Filter} (hf : Identifier.isValid f.field = true)
    (index : Double) : Reads (lexemesOf (ofFilter d f index).tokens)
      (.atom (lexemesOf (ofFilter d f index).tokens)) := by
  have hnull : ∀ w : Word, lexemesOf [.name f.field, space, .word w] =
      f.field :: (Token.word w).lexemes := fun w => by simp [lexemes_name hf]
  unfold ofFilter
  split
  · rw [hnull]
    exact reads_column hf (by decide) (by decide)
  · rw [hnull]
    exact reads_column hf (by decide) (by decide)
  · exact (reads_memberOf hf _ index).1
  · exact (reads_memberOf hf _ index).2
  · exact reads_ofRange hf _ index
  · exact reads_ofScalar hf index

end Condition
end BoundSql
