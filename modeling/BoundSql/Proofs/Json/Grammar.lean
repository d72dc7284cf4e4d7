import BoundSql.Json.Basic
import BoundSql.Proofs.Number.Numerals
import BoundSql.Proofs.Text.Quoted

/-!
# The grammar of JSON

Which texts spell which phrase by RFC 8259, stated without a reader: texts are put
together from their parts, with blanks where the grammar has them. Numbers are kept
as they are spelled. Then what the readers of words and blanks take from the front
of a text is what the grammar allows there.
-/
namespace BoundSql

namespace Text

lemma dropFront?_eq_none {front c : UInt16} (h : c ≠ front) (fronts t : Text) :
    dropFront? (front :: fronts) (c :: t) = none := by
  have hfront : (front == c) = false := beq_false_of_ne h.symm
  rw [dropFront?, List.isPrefixOf, hfront, Bool.false_and, if_neg Bool.false_ne_true]

end Text

namespace Json

/-- Nothing but the blanks of the grammar. -/
def Blank (t : Text) : Prop := ∀ c ∈ t, c = 0x20 ∨ c = 0x09 ∨ c = 0x0A ∨ c = 0x0D

/-- What a text can say. The members of an object stand in the order of the text, repeated names
are kept, and numbers are as they are spelled. -/
inductive Phrase where
  | null
  | bool (b : Bool)
  | number (n : Numeral)
  | string (s : Text)
  | array (items : List Phrase)
  | object (members : List (Text × Phrase))

section Lists

variable {α : Type}

/-- One or more things with commas between them and blanks around each. -/
inductive Separated (R : Text → α → Prop) : Text → List α → Prop
  | one {before t after : Text} {a : α} (front : Blank before) (only : R t a)
      (back : Blank after) : Separated R (before ++ t ++ after) [a]
  | more {before t after u : Text} {a : α} {as : List α} (front : Blank before) (first : R t a)
      (back : Blank after) (rest : Separated R u as) :
      Separated R (before ++ t ++ after ++ Text.unit ',' :: u) (a :: as)

/-- A name, a colon with blanks around it, and what is named. -/
inductive Named (R : Text → α → Prop) : Text → Text × α → Prop
  | intro {n before after t s : Text} {a : α} (name : Text.Quoted.Spells n s)
      (front : Blank before) (back : Blank after) (value : R t a) :
      Named R (n ++ before ++ Text.unit ':' :: (after ++ t)) (s, a)

end Lists

/-- How a phrase is spelled, without blanks around it. -/
inductive Spells : Text → Phrase → Prop
  | null : Spells "null" .null
  | true : Spells "true" (.bool true)
  | false : Spells "false" (.bool false)
  | number {t : Text} {n : Numeral} (h : Numeral.Spells t n) : Spells t (.number n)
  | string {t s : Text} (h : Text.Quoted.Spells t s) : Spells t (.string s)
  | emptyArray {t : Text} (h : Blank t) :
      Spells (Text.unit '[' :: (t ++ [Text.unit ']'])) (.array [])
  | array {t : Text} {items : List Phrase} (h : Separated Spells t items) :
      Spells (Text.unit '[' :: (t ++ [Text.unit ']'])) (.array items)
  | emptyObject {t : Text} (h : Blank t) :
      Spells (Text.unit '{' :: (t ++ [Text.unit '}'])) (.object [])
  | object {t : Text} {members : List (Text × Phrase)} (h : Separated (Named Spells) t members) :
      Spells (Text.unit '{' :: (t ++ [Text.unit '}'])) (.object members)

/-- A whole text spells a phrase, with blanks around it. -/
def SpellsText (t : Text) (p : Phrase) : Prop :=
  ∃ before u after, Blank before ∧ Spells u p ∧ Blank after ∧ t = before ++ u ++ after

/-- The word of a truth value or of nothing. -/
def wordText : Option Bool → Text
  | none => "null"
  | some true => "true"
  | some false => "false"

lemma spells_word (w : Option Bool) : Spells (wordText w) (w.elim .null .bool) := by
  cases w with
  | none => exact .null
  | some b =>
    cases b with
    | true => exact .true
    | false => exact .false

lemma isSpace_iff {c : UInt16} :
    isSpace c = true ↔ c = 0x20 ∨ c = 0x09 ∨ c = 0x0A ∨ c = 0x0D := by
  simp [isSpace, or_assoc]

lemma Blank.append {t u : Text} (ht : Blank t) (hu : Blank u) : Blank (t ++ u) := by
  intro c hc
  exact (List.mem_append.mp hc).elim (ht c) (hu c)

lemma blank_nil : Blank [] := fun _ hc => absurd hc List.not_mem_nil

section Lists

variable {α : Type} {R : Text → α → Prop}

/-- Blanks in front belong to the first thing. -/
lemma Separated.blank_append {before u : Text} {as : List α} (hbefore : Blank before)
    (h : Separated R u as) : Separated R (before ++ u) as := by
  cases h with
  | one front only back =>
    rw [← List.append_assoc, ← List.append_assoc]
    exact .one (hbefore.append front) only back
  | more front first back rest =>
    rw [← List.append_assoc, ← List.append_assoc, ← List.append_assoc]
    exact .more (hbefore.append front) first back rest

/-- Without them the text begins with the first thing. -/
lemma Separated.exists_front {u : Text} {as : List α} (h : Separated R u as) :
    ∃ before t a rest, Blank before ∧ R t a ∧ u = before ++ (t ++ rest) ∧
      Separated R (t ++ rest) as := by
  cases h with
  | @one before t after a front only back =>
    exact ⟨before, t, a, after, front, only, List.append_assoc .., .one blank_nil only back⟩
  | @more before t after v a as front first back more =>
    refine ⟨before, t, a, after ++ Text.unit ',' :: v, front, first, ?_, ?_⟩
    · simp only [List.append_assoc]
    · rw [← List.append_assoc]
      exact .more blank_nil first back more

lemma Named.exists_quote {t : Text} {m : Text × α} (h : Named R t m) :
    ∃ u, t = Text.Quoted.quote :: u := by
  obtain ⟨⟨-⟩, -, -, -⟩ := h
  exact ⟨_, rfl⟩

/-- Texts joined by commas, each of which stands for its thing. -/
lemma separated_join {texts : List Text} {as : List α} (h : List.Forall₂ R texts as)
    (hne : texts ≠ []) : Separated R (Text.join "," texts) as := by
  have hcomma : Text.ofString "," = [Text.unit ','] := rfl
  rw [Text.join, hcomma]
  induction h with
  | nil => exact absurd rfl hne
  | @cons t a texts as ht hrest ih =>
    have halone : [] ++ t ++ [] = t := List.append_nil t
    cases hrest with
    | nil =>
      have hone := Separated.one blank_nil ht blank_nil
      rw [List.intercalate_singleton]
      rwa [halone] at hone
    | cons =>
      have hmore := Separated.more blank_nil ht blank_nil (ih (List.cons_ne_nil _ _))
      rw [List.intercalate_cons_cons, List.append_assoc]
      rwa [halone] at hmore

end Lists

/-- Blanks at the front are skipped. -/
lemma skipSpace_append {before : Text} (h : Blank before) (t : Text) :
    skipSpace (before ++ t) = skipSpace t :=
  List.dropWhile_append_of_pos fun c hc => isSpace_iff.mpr (h c hc)

lemma skipSpace_of_ne {c : UInt16} (h : isSpace c = false) (t : Text) :
    skipSpace (c :: t) = c :: t := by
  rw [skipSpace, List.dropWhile_cons_of_neg]
  rw [h]
  exact Bool.false_ne_true

/-- What is skipped is blank. -/
lemma exists_blank (t : Text) : ∃ before, Blank before ∧ t = before ++ skipSpace t :=
  ⟨t.takeWhile isSpace, fun _ hc => isSpace_iff.mp (List.mem_takeWhile_imp hc),
    List.takeWhile_append_dropWhile.symm⟩

lemma blank_of_skipSpace {t : Text} (h : skipSpace t = []) : Blank t := by
  obtain ⟨before, hbefore, ht⟩ := exists_blank t
  rw [h, List.append_nil] at ht
  rwa [ht]

lemma exists_head_wordText (word : Option Bool) :
    ∃ c t, wordText word = c :: t ∧ c ≠ Text.Quoted.quote ∧ isSpace c = false := by
  cases word with
  | none => exact ⟨_, _, rfl, by decide⟩
  | some b =>
    cases b with
    | true => exact ⟨_, _, rfl, by decide⟩
    | false => exact ⟨_, _, rfl, by decide⟩

lemma isSpace_eq_false {c : UInt16} (hc : Text.isDigit c = true ∨ c = Text.unit '-') :
    isSpace c = false := by
  rcases hc with hdigit | rfl
  · by_contra hspace
    simp only [isSpace, Bool.not_eq_false, Bool.or_eq_true, decide_eq_true_eq] at hspace
    rcases hspace with ((rfl | rfl) | rfl) | rfl <;> exact absurd hdigit (by decide)
  · decide

lemma readWord?_eq_none {c : UInt16} (hc : Text.isDigit c = true ∨ c = Text.unit '-') (t : Text) :
    readWord? (c :: t) = none := by
  have hletters : c ≠ Text.unit 't' ∧ c ≠ Text.unit 'f' ∧ c ≠ Text.unit 'n' := by
    rcases hc with hdigit | rfl
    · refine ⟨?_, ?_, ?_⟩ <;> (rintro rfl; exact absurd hdigit (by decide))
    · decide
  have htrue : Text.dropFront? "true" (c :: t) = none := Text.dropFront?_eq_none hletters.1 _ t
  have hfalse : Text.dropFront? "false" (c :: t) = none := Text.dropFront?_eq_none hletters.2.1 _ t
  have hnull : Text.dropFront? "null" (c :: t) = none := Text.dropFront?_eq_none hletters.2.2 _ t
  rw [readWord?, htrue, hfalse, hnull]

lemma readWord?_word (word : Option Bool) (t : Text) :
    readWord? (wordText word ++ t) = some (word, t) := by
  have hhit : Text.dropFront? (wordText word) (wordText word ++ t) = some t :=
    Text.dropFront?_eq_some_iff.mpr rfl
  -- no two words start with the same letter
  have hmiss : ∀ {c d : UInt16}, c ≠ d → ∀ u v, Text.dropFront? (d :: u) (c :: v ++ t) = none :=
    fun h u v => Text.dropFront?_eq_none h u (v ++ t)
  cases word with
  | none =>
    have htrue : Text.dropFront? "true" (wordText none ++ t) = none := hmiss (by decide) _ _
    have hfalse : Text.dropFront? "false" (wordText none ++ t) = none := hmiss (by decide) _ _
    have hnull : Text.dropFront? "null" (wordText none ++ t) = some t := hhit
    rw [readWord?, htrue, hfalse, hnull]
  | some b =>
    cases b with
    | true =>
      have htrue : Text.dropFront? "true" (wordText (some true) ++ t) = some t := hhit
      rw [readWord?, htrue]
    | false =>
      have htrue : Text.dropFront? "true" (wordText (some false) ++ t) = none :=
        hmiss (by decide) _ _
      have hfalse : Text.dropFront? "false" (wordText (some false) ++ t) = some t := hhit
      rw [readWord?, htrue, hfalse]

/-- A word at the front of a text is one that is spelled there. -/
lemma readWord?_eq_some_iff {t rest : Text} {w : Option Bool} :
    readWord? t = some (w, rest) ↔ t = wordText w ++ rest := by
  constructor
  · intro h
    unfold readWord? at h
    split at h
    · obtain ⟨rfl, rfl⟩ := Prod.mk.inj (Option.some_inj.mp h)
      exact Text.dropFront?_eq_some_iff.mp ‹_›
    · obtain ⟨rfl, rfl⟩ := Prod.mk.inj (Option.some_inj.mp h)
      exact Text.dropFront?_eq_some_iff.mp ‹_›
    · obtain ⟨rfl, rfl⟩ := Prod.mk.inj (Option.some_inj.mp h)
      exact Text.dropFront?_eq_some_iff.mp ‹_›
    · cases h
  · rintro rfl
    exact readWord?_word w rest

end Json

end BoundSql
