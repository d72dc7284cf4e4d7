import BoundSql.Proofs.Filter.Truth

/-!
# Statements read from their text

A SELECT, UPDATE or DELETE is read from its first lexeme on: what it does and to
which table, the condition of its WHERE clause, and the lexemes of the clauses after
it. A name is told from a keyword by its place, so it may be spelled like one. A raw
expression may hold anything, an open quotation mark among it, so expressions are
cut out of the text before it is read.
-/
namespace BoundSql
open Sql

namespace Sql

/-- Reads something off the front of a list of lexemes and leaves the others. -/
abbrev Front (α : Type) := List Text → Option (α × List Text)

/-- What follows a keyword or a sign. -/
def expect (keyword : Text) : List Text → Option (List Text)
  | [] => none
  | x :: rest => if isKeyword keyword x then some rest else none

/-- A name, which may be spelled like a keyword. -/
def readName : Front Text
  | [] => none
  | x :: rest => if Identifier.isWellFormed x then some (x, rest) else none

/-- Items with commas between them. -/
def readList {α : Type} (item : Front α) (ls : List Text) : Option (List α × List Text) :=
  match item ls with
  | none => none
  | some (a, []) => some ([a], [])
  | some (a, x :: rest) =>
    -- an item takes lexemes, so fewer are left; the test is there for the recursion
    if x = Text.ofString "," ∧ rest.length < ls.length then
      (readList item rest).map fun out => (a :: out.1, out.2)
    else some ([a], x :: rest)
termination_by ls.length

/-- An entry of a select list. Of a function call the argument is kept as it is written. -/
inductive Entry where
  | everything
  | column (name : Text)
  | computed (label : Text)
  | call (func : Text) (argument : List Text) (label : Option Text)

def Entry.isColumn : Entry → Bool
  | .everything => true
  | .column _ => true
  | _ => false

/-- The label of an entry, if it has one. -/
def readLabel : Front (Option Text) := fun ls =>
  match expect "AS" ls with
  | none => some (none, ls)
  | some ls => (readName ls).map fun out => (some out.1, out.2)

/-- An entry of a select list whose expressions have been cut out of their parentheses. -/
def readEntry : Front Entry
  | [] => none
  | x :: rest =>
    if x = Text.ofString "*" then some (.everything, rest)
    else if x = Text.ofString "(" then do
      let rest ← expect ")" rest
      let rest ← expect "AS" rest
      let (label, rest) ← readName rest
      some (.computed label, rest)
    else if Identifier.isWellFormed x then
      match expect "(" rest with
      | none => some (.column x, rest)
      | some rest => do
        let argument := rest.takeWhile (· ≠ Text.ofString ")")
        let rest ← expect ")" (rest.drop argument.length)
        let (label, rest) ← readLabel rest
        some (.call x argument label, rest)
    else none

/-- A column that is set to a parameter. -/
def readAssignment : Front Text := fun ls => do
  let (column, ls) ← readName ls
  match ← expect "=" ls with
  | [] => none
  | x :: rest => if isPlaceholder x then some (column, rest) else none

/-- What a statement does and to which table. -/
inductive Head where
  | select (entries : List Entry) (table : Text)
  | update (table : Text) (columns : List Text)
  | delete (table : Text)

namespace Head

/-- The number of parameters before the WHERE clause. -/
def bound : Head → ℕ
  | .select _ _ => 0
  | .update _ columns => columns.length
  | .delete _ => 0

/-- The table of a statement that selects plain columns. -/
def plainSource? : Head → Option Text
  | .select entries table => if entries.all Entry.isColumn then some table else none
  | _ => none

end Head

def readSelect : Front Head := fun ls => do
  let ls ← expect "SELECT" ls
  let (entries, ls) ← readList readEntry ls
  let ls ← expect "FROM" ls
  let (table, ls) ← readName ls
  some (.select entries table, ls)

def readUpdate : Front Head := fun ls => do
  let ls ← expect "UPDATE" ls
  let (table, ls) ← readName ls
  let ls ← expect "SET" ls
  let (columns, ls) ← readList readAssignment ls
  some (.update table columns, ls)

def readDelete : Front Head := fun ls => do
  let ls ← expect "DELETE" ls
  let ls ← expect "FROM" ls
  let (table, ls) ← readName ls
  some (.delete table, ls)

def readHead : Front Head := fun ls => (readSelect ls).or ((readUpdate ls).or (readDelete ls))

/-- The condition of the WHERE clause, if there is one. -/
def readWhere : Front (Option Formula)
  | [] => some (none, [])
  | x :: rest =>
    if role x = .clause then some (none, x :: rest)
    else if isKeyword "WHERE" x then
      (Reader.start.read rest).map fun out => (some out.1, out.2)
    else none

namespace Token

def expression? : Token → Option Text
  | .expression e => some e
  | _ => none

/-- A token without the text of a raw expression. -/
def hollow : Token → Token
  | .expression _ => .expression []
  | t => t

section

variable (w : Word) (y : Symbol) (n e : Text) (d : Dialect) (x : Double)

@[simp] theorem hollow_word : (word w).hollow = word w := rfl
@[simp] theorem hollow_symbol : (symbol y).hollow = symbol y := rfl
@[simp] theorem hollow_space : space.hollow = space := rfl
@[simp] theorem hollow_name : (name n).hollow = name n := rfl
@[simp] theorem hollow_placeholder : (placeholder d x).hollow = placeholder d x := rfl
@[simp] theorem hollow_expression : (expression e).hollow = expression [] := rfl

end

end Token

/-- A text without raw expressions, each of which has to stand behind the next parenthesis. -/
def cutOut : List Text → Text → Option Text
  | [], t => some t
  | e :: es, t => do
    let front := t.takeWhile (· ≠ Text.unit '(')
    let rest ← Text.dropFront? (Text.unit '(' :: e) (t.drop front.length)
    let rest ← cutOut es rest
    some (front ++ Text.unit '(' :: rest)

/-- A statement as it is read: before the WHERE clause, the clause, and after it. -/
structure Statement where
  head : Head
  formula : Option Formula
  rest : List Text

/-- The statement that a text spells with these raw expressions, from left to right. -/
def readStatement (expressions : List Text) (t : Text) : Option Statement := do
  let t ← cutOut expressions t
  let (head, ls) ← readHead (lex t)
  let (formula, rest) ← readWhere ls
  some ⟨head, formula, rest⟩

end Sql

namespace Sql

section Reading

lemma expect_cons {keyword x : Text} (h : isKeyword keyword x = true) (rest : List Text) :
    expect keyword (x :: rest) = some rest := if_pos h

lemma isWellFormed_of_isValid {n : Text} (h : Identifier.isValid n = true) :
    Identifier.isWellFormed n = true := (Bool.and_eq_true_iff.mp h).2

lemma readName_cons {n : Text} (h : Identifier.isValid n = true) (rest : List Text) :
    readName (n :: rest) = some (n, rest) := if_pos (isWellFormed_of_isValid h)

/-- These lexemes are taken for the given item, before a comma and at the end of a list. -/
def Takes {α : Type} (item : Front α) (tail ls : List Text) (a : α) : Prop :=
  ∀ rest, rest = tail ∨ rest.head? = some (Text.ofString ",") → item (ls ++ rest) = some (a, rest)

/-- A list that is written item by item is read item by item. -/
theorem readList_intercalate {α : Type} {item : Front α} {tail : List Text} {lss : List (List Text)}
    {as : List α} (h : List.Forall₂ (Takes item tail) lss as) (hne : lss ≠ [])
    (htail : tail.head? ≠ some (Text.ofString ",")) :
    readList item (List.intercalate [Text.ofString ","] lss ++ tail) = some (as, tail) := by
  induction h with
  | nil => exact absurd rfl hne
  | @cons ls a lss as hfirst hrest ih =>
    cases hrest with
    | nil =>
      rw [List.intercalate_singleton, readList, hfirst tail (.inl rfl)]
      cases tail with
      | nil => rfl
      | cons x rest =>
        have hx : ¬(x = Text.ofString "," ∧ rest.length < (ls ++ x :: rest).length) :=
          fun hcomma => htail (congrArg some hcomma.1)
        exact if_neg hx
    | @cons ls' a' lss as hsecond hrest =>
      have hread := ih (by simp)
      have hsplit : List.intercalate [Text.ofString ","] (ls :: ls' :: lss) ++ tail =
          ls ++ Text.ofString "," ::
            (List.intercalate [Text.ofString ","] (ls' :: lss) ++ tail) := by
        simp [List.intercalate_cons_cons]
      rw [hsplit]
      generalize List.intercalate [Text.ofString ","] (ls' :: lss) ++ tail = more at hread
      have hshorter : more.length < (ls ++ Text.ofString "," :: more).length := by
        rw [List.length_append, List.length_cons]
        omega
      rw [readList, hfirst _ (.inr rfl)]
      exact (if_pos ⟨rfl, hshorter⟩).trans (by rw [hread]; rfl)

lemma expect_of_head {keyword : Text} {rest : List Text}
    (h : ∀ x ∈ rest.head?, isKeyword keyword x = false) : expect keyword rest = none := by
  cases rest with
  | nil => rfl
  | cons x rest => simp [expect, h x rfl]

/-- Neither a call nor a label goes on before FROM or a comma. -/
lemma expect_after_entry {ls rest : List Text}
    (h : rest = Text.ofString "FROM" :: ls ∨ rest.head? = some (Text.ofString ",")) :
    expect "(" rest = none ∧ expect "AS" rest = none := by
  have hhead : ∀ x ∈ rest.head?, x = Text.ofString "FROM" ∨ x = Text.ofString "," := by
    rcases h with rfl | h <;> simp_all
  have hkeyword : ∀ k ∈ [Text.ofString "(", Text.ofString "AS"], expect k rest = none := by
    intro k hk
    refine expect_of_head fun x hx => ?_
    simp only [List.mem_cons, List.not_mem_nil, or_false] at hk
    rcases hhead x hx with rfl | rfl <;> rcases hk with rfl | rfl <;> decide
  exact ⟨hkeyword _ (by simp), hkeyword _ (by simp)⟩

section Entries

variable {ls : List Text}

lemma takes_everything :
    Takes readEntry (Text.ofString "FROM" :: ls) [Text.ofString "*"] .everything :=
  fun _ _ => rfl

/-- What begins with a name is a column or a call. -/
lemma readEntry_name {n : Text} (hn : Identifier.isWellFormed n = true) (rest : List Text) :
    readEntry (n :: rest) = match expect "(" rest with
      | none => some (.column n, rest)
      | some rest => (do
        let argument := rest.takeWhile (· ≠ Text.ofString ")")
        let rest ← expect ")" (rest.drop argument.length)
        let (label, rest) ← readLabel rest
        some (.call n argument label, rest)) := by
  have hsign : n ≠ Text.ofString "*" ∧ n ≠ Text.ofString "(" := by
    constructor <;>
    · rintro rfl
      revert hn
      decide
  rw [readEntry, if_neg hsign.1, if_neg hsign.2, if_pos hn]

lemma takes_column {n : Text} (hn : Identifier.isValid n = true) :
    Takes readEntry (Text.ofString "FROM" :: ls) [n] (.column n) := by
  intro rest hrest
  rw [List.singleton_append, readEntry_name (isWellFormed_of_isValid hn),
    (expect_after_entry hrest).1]

lemma takes_computed {label : Text} (hlabel : Identifier.isValid label = true) :
    Takes readEntry (Text.ofString "FROM" :: ls)
      [Text.ofString "(", Text.ofString ")", Text.ofString "AS", label] (.computed label) := by
  intro rest _
  have hread : readEntry ([Text.ofString "(", Text.ofString ")", Text.ofString "AS", label] ++
      rest) = (readName (label :: rest)).bind fun out => some (.computed out.1, out.2) := rfl
  rw [hread, readName_cons hlabel]
  rfl

/-- The lexemes of a label. -/
def labelLexemes : Option Text → List Text
  | none => []
  | some label => [Text.ofString "AS", label]

lemma readLabel_labelLexemes {label : Option Text}
    (hlabel : ∀ l ∈ label, Identifier.isValid l = true) {rest : List Text}
    (hrest : expect "AS" rest = none) :
    readLabel (labelLexemes label ++ rest) = some (label, rest) := by
  cases label with
  | none => rw [labelLexemes, List.nil_append, readLabel, hrest]
  | some l =>
    have hread : readLabel (labelLexemes (some l) ++ rest) =
        (readName (l :: rest)).map fun out => (some out.1, out.2) := rfl
    rw [hread, readName_cons (hlabel l rfl)]
    rfl

lemma takes_call {func : Text} (hfunc : Identifier.isWellFormed func = true)
    {argument : List Text} (hargument : Text.ofString ")" ∉ argument) {label : Option Text}
    (hlabel : ∀ l ∈ label, Identifier.isValid l = true) :
    Takes readEntry (Text.ofString "FROM" :: ls)
      (func :: Text.ofString "(" :: (argument ++ Text.ofString ")" :: labelLexemes label))
      (.call func argument label) := by
  intro rest hrest
  have htake : ∀ tail, (argument ++ Text.ofString ")" :: tail).takeWhile
      (· ≠ Text.ofString ")") = argument := by
    intro tail
    rw [List.takeWhile_append_of_pos fun x hx => by
      simpa using fun heq : x = Text.ofString ")" => hargument (heq ▸ hx)]
    simp
  have hopen : ∀ tail, expect "(" (Text.ofString "(" :: tail) = some tail := fun _ => rfl
  have hclose : ∀ tail, expect ")" (Text.ofString ")" :: tail) = some tail := fun _ => rfl
  have hread := readLabel_labelLexemes hlabel (expect_after_entry hrest).2
  rw [List.cons_append, readEntry_name hfunc, List.cons_append, hopen, List.append_assoc,
    List.cons_append]
  simp only [htake, List.drop_left, hclose, hread, Option.bind_eq_bind, Option.bind_some]

end Entries

lemma takes_assignment {n x : Text} (hn : Identifier.isValid n = true)
    (hx : isPlaceholder x = true) (tail : List Text) :
    Takes readAssignment tail [n, Text.ofString "=", x] n := by
  intro rest _
  have hread : readAssignment ([n, Text.ofString "=", x] ++ rest) =
      (readName (n :: Text.ofString "=" :: x :: rest)).bind fun out =>
        if isPlaceholder x then some (out.1, rest) else none := by
    rw [List.cons_append, List.cons_append, List.singleton_append, readAssignment, readName_cons hn]
    rfl
  rw [hread, readName_cons hn, Option.bind_some, if_pos hx]

section Heads

variable {table : Text} (ht : Identifier.isValid table = true)

include ht

theorem readHead_select {lss : List (List Text)} {entries : List Entry} {tail : List Text}
    (h : List.Forall₂ (Takes readEntry (Text.ofString "FROM" :: table :: tail)) lss entries)
    (hne : lss ≠ []) :
    readHead (Text.ofString "SELECT" :: (List.intercalate [Text.ofString ","] lss ++
      Text.ofString "FROM" :: table :: tail)) = some (.select entries table, tail) := by
  have hselect : ∀ ls, expect "SELECT" (Text.ofString "SELECT" :: ls) = some ls := fun _ => rfl
  have hfrom : ∀ ls, expect "FROM" (Text.ofString "FROM" :: ls) = some ls := fun _ => rfl
  have hcomma : Text.ofString "FROM" ≠ Text.ofString "," := by decide
  have hentries := readList_intercalate h hne fun heq => hcomma (Option.some_inj.mp heq)
  rw [readHead, readSelect]
  simp only [hselect, hentries, hfrom, readName_cons ht, Option.bind_eq_bind, Option.bind_some,
    Option.some_or]

theorem readHead_update {lss : List (List Text)} {columns tail : List Text}
    (h : List.Forall₂ (Takes readAssignment tail) lss columns) (hne : lss ≠ [])
    (htail : tail.head? ≠ some (Text.ofString ",")) :
    readHead (Text.ofString "UPDATE" :: table :: Text.ofString "SET" ::
      (List.intercalate [Text.ofString ","] lss ++ tail)) = some (.update table columns, tail) := by
  have hselect : ∀ ls, readSelect (Text.ofString "UPDATE" :: ls) = none := fun _ => rfl
  have hupdate : ∀ ls, expect "UPDATE" (Text.ofString "UPDATE" :: ls) = some ls := fun _ => rfl
  have hset : ∀ ls, expect "SET" (Text.ofString "SET" :: ls) = some ls := fun _ => rfl
  rw [readHead, hselect, Option.none_or, readUpdate]
  simp only [hupdate, readName_cons ht, hset, readList_intercalate h hne htail,
    Option.bind_eq_bind, Option.bind_some, Option.some_or]

theorem readHead_delete (tail : List Text) :
    readHead (Text.ofString "DELETE" :: Text.ofString "FROM" :: table :: tail) =
      some (.delete table, tail) := by
  have hread : readHead (Text.ofString "DELETE" :: Text.ofString "FROM" :: table :: tail) =
      (readName (table :: tail)).bind fun out => some (.delete out.1, out.2) := rfl
  rw [hread, readName_cons ht]
  rfl

end Heads

end Reading

/-- The lexemes of tokens, the text of raw expressions left out. -/
def bareLexemes (ts : List Token) : List Text := lexemesOf (ts.map Token.hollow)

@[simp] theorem bareLexemes_nil : bareLexemes [] = [] := rfl

@[simp] theorem bareLexemes_cons (t : Token) (ts : List Token) :
    bareLexemes (t :: ts) = t.hollow.lexemes ++ bareLexemes ts := by simp [bareLexemes]

lemma bareLexemes_name {n : Text} (h : Identifier.isValid n = true) :
    bareLexemes [.name n] = [n] := by simp [Token.lexemes_name h]

@[simp] theorem bareLexemes_append (ts us : List Token) :
    bareLexemes (ts ++ us) = bareLexemes ts ++ bareLexemes us := by simp [bareLexemes]

theorem bareLexemes_commaList (parts : List (List Token)) : bareLexemes (commaList parts) =
    List.intercalate [Text.ofString ","] (parts.map bareLexemes) := by
  have hflat : ∀ ts, bareLexemes ts = ts.flatMap fun t => t.hollow.lexemes := fun ts => by
    rw [bareLexemes, lexemesOf, List.flatMap_map]
  have hcomma : bareLexemes [.symbol .comma, space] = [Text.ofString ","] := by decide
  rw [commaList, hflat, flatMap_intercalate, ← hflat, hcomma]
  exact congrArg _ (List.map_congr_left fun ts _ => (hflat ts).symm)

lemma hollow_of_none {ts : List Token} (h : ∀ t ∈ ts, t.expression? = none) :
    ts.map Token.hollow = ts ∧ ts.filterMap Token.expression? = [] := by
  refine ⟨List.map_congr_left (fun t ht => ?_) |>.trans (List.map_id ts),
    List.filterMap_eq_nil_iff.mpr h⟩
  cases t with
  | expression e => cases h _ ht
  | _ => rfl

lemma bareLexemes_of_none {ts : List Token} (h : ∀ t ∈ ts, t.expression? = none) :
    bareLexemes ts = lexemesOf ts := congrArg lexemesOf (hollow_of_none h).1

lemma expression?_of_vetted {d : Dialect} {I : Double → Prop} {ts : List Token}
    (h : AllVetted d [] I ts) : ∀ t ∈ ts, t.expression? = none := by
  intro t ht
  have hvetted := h t ht
  cases t with
  | expression e => exact absurd hvetted.1 List.not_mem_nil
  | _ => rfl

/-- The lexemes of a text are those of its tokens, once its expressions are cut out. -/
theorem lex_hollow {d : Dialect} {xs : List Text} {I : Double → Prop} {ts : List Token}
    (hspaced : Spaced ts) (hvetted : AllVetted d xs I ts) :
    lex (render (ts.map Token.hollow)) = bareLexemes ts := by
  have hbreak : ∀ t : Token, t.hollow.isBreak = t.isBreak := fun t => by cases t <;> rfl
  refine lex_render ?_ ?_
  · rw [Spaced, List.isChain_map]
    exact hspaced.imp fun t u htu => by rwa [Token.Apart, hbreak, hbreak]
  · intro u hu
    obtain ⟨t, ht, rfl⟩ := List.mem_map.mp hu
    have hclosed := hvetted t ht
    cases t with
    | expression e => exact (by decide : (Token.expression []).Closed)
    | _ => exact Token.closed_of_vetted (d := d) (I := I) hclosed

/-- The expressions among some tokens are found in their text, whatever stands behind. -/
def Cuts (ts : List Token) : Prop := ∀ es t,
  cutOut (ts.filterMap Token.expression? ++ es) (render ts ++ t) =
    (cutOut es t).map fun rest => render (ts.map Token.hollow) ++ rest

/-- The expressions among some tokens are found in their text, if no more come behind. -/
def CutsAll (ts : List Token) : Prop := ∀ t,
  cutOut (ts.filterMap Token.expression?) (render ts ++ t) =
    some (render (ts.map Token.hollow) ++ t)

section Cutting

variable {ts us : List Token}

lemma cutOut_append {front : Text} (h : Text.unit '(' ∉ front) (es : List Text) (t : Text) :
    cutOut es (front ++ t) = (cutOut es t).map fun rest => front ++ rest := by
  cases es with
  | nil => rfl
  | cons e es =>
    have htake : (front ++ t).takeWhile (· ≠ Text.unit '(') =
        front ++ t.takeWhile (· ≠ Text.unit '(') :=
      List.takeWhile_append_of_pos fun c hc => by
        simpa using fun heq : c = Text.unit '(' => h (heq ▸ hc)
    rw [cutOut, cutOut, htake, List.length_append, List.drop_length_add_append]
    cases Text.dropFront? (Text.unit '(' :: e)
        (t.drop (t.takeWhile (· ≠ Text.unit '(')).length) with
    | none => rfl
    | some rest => cases hcut : cutOut es rest <;> simp [hcut]

lemma Cuts.append (ht : Cuts ts) (hu : Cuts us) : Cuts (ts ++ us) := by
  intro es t
  rw [List.filterMap_append, List.append_assoc, render_append, List.append_assoc, ht, hu,
    Option.map_map, List.map_append, render_append]
  simp [Function.comp_def]

lemma cuts_plain (hnone : ∀ t ∈ ts, t.expression? = none) (h : Text.unit '(' ∉ render ts) :
    Cuts ts := by
  intro es t
  obtain ⟨hsame, hempty⟩ := hollow_of_none hnone
  rw [hsame, hempty, List.nil_append, cutOut_append h]

lemma cuts_expression (e : Text) : Cuts [openParen, .expression e] := by
  intro es t
  have hrest : Text.dropFront? (Text.unit '(' :: e) (Text.unit '(' :: (e ++ t)) = some t :=
    Text.dropFront?_eq_some_iff.mpr rfl
  have htext : render [openParen, .expression e] ++ t = Text.unit '(' :: (e ++ t) := by
    simp [openParen, Token.text, Symbol.text]
    rfl
  rw [htext]
  change cutOut (e :: es) _ = _
  rw [cutOut]
  have hfront : (Text.unit '(' :: (e ++ t)).takeWhile (· ≠ Text.unit '(') = [] := rfl
  rw [hfront]
  simp only [List.length_nil, List.drop_zero, hrest, Option.bind_eq_bind, Option.bind_some]
  cases cutOut es t <;> rfl

lemma Cuts.append_all (ht : Cuts ts) (hu : CutsAll us) : CutsAll (ts ++ us) := by
  intro t
  rw [List.filterMap_append, render_append, List.append_assoc, ht, hu, Option.map_some,
    List.map_append, render_append, List.append_assoc]

lemma cutsAll_plain (hnone : ∀ t ∈ ts, t.expression? = none) : CutsAll ts := by
  intro t
  obtain ⟨hsame, hempty⟩ := hollow_of_none hnone
  rw [hsame, hempty, cutOut]

lemma CutsAll.append_plain (ht : CutsAll ts) (hnone : ∀ u ∈ us, u.expression? = none) :
    CutsAll (ts ++ us) := by
  intro t
  obtain ⟨hsame, hempty⟩ := hollow_of_none hnone
  rw [List.filterMap_append, hempty, List.append_nil, render_append, List.append_assoc, ht,
    List.map_append, hsame, render_append, List.append_assoc]

/-- The parts of a list up to the last one with an expression, and those behind. -/
theorem cutsAll_commaList {before after : List (List Token)} (h : ∀ p ∈ before, Cuts p)
    (hafter : ∀ p ∈ after, ∀ t ∈ p, t.expression? = none) :
    CutsAll (commaList (before ++ after)) := by
  have hseparator : ∀ t ∈ [Token.symbol .comma, space], t.expression? = none := by decide
  have hcomma : Cuts [.symbol .comma, space] := cuts_plain hseparator (by decide)
  induction before with
  | nil =>
    refine cutsAll_plain fun t ht => ?_
    rcases mem_intercalate ht with ht | ⟨p, hp, ht⟩
    · exact hseparator t ht
    · exact hafter p hp t ht
  | cons p before ih =>
    obtain ⟨hp, hbefore⟩ := List.forall_mem_cons.mp h
    have hrest := ih hbefore
    rw [List.cons_append]
    -- only a part with another one behind it has a comma
    cases hparts : before ++ after with
    | nil =>
      rw [commaList, List.intercalate_singleton, ← List.append_nil p]
      exact hp.append_all (cutsAll_plain (by simp))
    | cons q parts =>
      rw [hparts] at hrest
      rw [commaList, List.intercalate_cons_cons]
      exact (hp.append hcomma).append_all hrest

end Cutting

/-- A text that is written from tokens is read from their lexemes. -/
theorem readStatement_render {d : Dialect} {xs : List Text} {I : Double → Prop} {ts : List Token}
    (hcuts : CutsAll ts) (hspaced : Spaced ts) (hvetted : AllVetted d xs I ts) :
    readStatement (ts.filterMap Token.expression?) (render ts) = (do
      let (head, ls) ← readHead (bareLexemes ts)
      let (formula, rest) ← readWhere ls
      some ⟨head, formula, rest⟩) := by
  have hcut := hcuts []
  rw [List.append_nil, List.append_nil] at hcut
  rw [readStatement, hcut, Option.bind_eq_bind, Option.bind_some, lex_hollow hspaced hvetted]

end Sql
end BoundSql
