import BoundSql.Proofs.Number.Texts
import BoundSql.Sql.SelectList

/-!
# Tokens in their places

Blanks, commas and parentheses are the breaks of a statement. Two other tokens
never stand side by side, so the text can be cut into its tokens again. A token
is vetted when the text in it went through the check for its kind. Both notions
are closed under the ways in which statements are put together.
-/
namespace BoundSql

theorem Identifier.ne_nil {n : Text} (h : isValid n = true) : n ≠ [] := by
  rintro rfl
  simp [isValid, isWellFormed] at h

theorem Identifier.isPart_of_mem {n : Text} (h : isValid n = true) {c : UInt16} (hc : c ∈ n) :
    isPart c = true := by
  cases n with
  | nil => simp at hc
  | cons a rest =>
    simp only [isValid, isWellFormed, Bool.and_eq_true, List.all_eq_true] at h
    rcases List.mem_cons.mp hc with rfl | hc
    · simp [isPart, h.2.1]
    · exact h.2.2 c hc

namespace Sql

/-- What holds of all parts and survives one more part in front holds of the whole. -/
theorem intercalate_induction {α : Type*} {P : List α → Prop} {sep : List α}
    {parts : List (List α)} (nil : P []) (one : ∀ a ∈ parts, P a)
    (more : ∀ a ∈ parts, ∀ rest, P rest → P (a ++ sep ++ rest)) :
    P (List.intercalate sep parts) := by
  induction parts with
  | nil => exact nil
  | cons a rest ih =>
    cases rest with
    | nil => simpa using one a (by simp)
    | cons b rest =>
      rw [List.intercalate_cons_cons]
      refine more a (by simp) _ (ih ?_ ?_)
      · exact fun x hx => one x (List.mem_cons_of_mem a hx)
      · exact fun x hx => more x (List.mem_cons_of_mem a hx)

theorem mem_intercalate {α : Type*} {sep : List α} {parts : List (List α)} {x : α}
    (h : x ∈ List.intercalate sep parts) : x ∈ sep ∨ ∃ a ∈ parts, x ∈ a := by
  revert h
  refine intercalate_induction (P := fun ts => x ∈ ts → _) (by simp) ?_ ?_
  · exact fun a ha hx => .inr ⟨a, ha, hx⟩
  · intro a ha rest ih hx
    simp only [List.mem_append] at hx
    rcases hx with (hx | hx) | hx
    · exact .inr ⟨a, ha, hx⟩
    · exact .inl hx
    · exact ih hx

/-- What a function makes of the members goes through to the parts and what separates them. -/
theorem flatMap_intercalate {α β : Type*} (f : α → List β) (sep : List α)
    (parts : List (List α)) : (List.intercalate sep parts).flatMap f =
      List.intercalate (sep.flatMap f) (parts.map fun as => as.flatMap f) := by
  induction parts with
  | nil => rfl
  | cons as parts ih =>
    cases parts with
    | nil => simp
    | cons bs parts =>
      rw [List.intercalate_cons_cons, List.flatMap_append, List.flatMap_append, ih]
      simp [List.intercalate_cons_cons]

theorem render_commaList (parts : List (List Token)) :
    render (commaList parts) = Text.join ", " (parts.map render) := flatMap_intercalate _ _ parts

theorem render_paren (ts : List Token) : render (paren ts) = "(" ++ render ts ++ ")" := by
  simp [paren, openParen, closeParen, Token.text, Symbol.text]

theorem render_names (ns : List Text) : render (names ns) = Text.join ", " ns := by
  simp [names, render_commaList, Function.comp_def, Token.text]

namespace Token

/-- Blanks, commas and parentheses. -/
def isBreak : Token → Bool
  | .symbol .space => true
  | .symbol .comma => true
  | .symbol .openParen => true
  | .symbol .closeParen => true
  | _ => false

/-- Can two tokens be told apart when they are written side by side? -/
def Apart (t u : Token) : Prop := t.isBreak = true ∨ u.isBreak = true

instance (t u : Token) : Decidable (Apart t u) := inferInstanceAs (Decidable (_ ∨ _))

/-- A name that is an identifier, a placeholder of the dialect with a number as it should be,
one of the given expressions that was accepted; all other tokens have a fixed text. -/
def Vetted (d : Dialect) (expressions : List Text) (I : Double → Prop) : Token → Prop
  | .name n => Identifier.isValid n = true
  | .placeholder e index => e = d ∧ I index
  | .expression e => e ∈ expressions ∧ Expression.isValid e = true
  | _ => True

end Token

open Token

@[simp] theorem isBreak_space : space.isBreak = true := rfl
@[simp] theorem isBreak_comma : (Token.symbol .comma).isBreak = true := rfl
@[simp] theorem isBreak_openParen : openParen.isBreak = true := rfl
@[simp] theorem isBreak_closeParen : closeParen.isBreak = true := rfl

/-- No two tokens stand side by side that could run into each other. -/
def Spaced (ts : List Token) : Prop := ts.IsChain Apart

/-- Does a list of tokens go on after any other: empty, or with a break first? -/
def Led (ts : List Token) : Prop := ∀ t ∈ ts.head?, t.isBreak = true

/-- Only vetted tokens. -/
def AllVetted (d : Dialect) (xs : List Text) (I : Double → Prop) (ts : List Token) : Prop :=
  ∀ t ∈ ts, t.Vetted d xs I

@[simp] theorem spaced_nil : Spaced [] := List.isChain_nil

@[simp] theorem spaced_singleton (t : Token) : Spaced [t] := List.isChain_singleton t

@[simp] theorem led_nil : Led [] := by simp [Led]

@[simp] theorem led_cons (t : Token) (ts : List Token) : Led (t :: ts) ↔ t.isBreak = true := by
  simp [Led]

theorem Led.append {ts us : List Token} (ht : Led ts) (hu : Led us) : Led (ts ++ us) := by
  cases ts with
  | nil => exact hu
  | cons t ts => simpa using ht

theorem Spaced.append {ts us : List Token} (ht : Spaced ts) (hu : Spaced us) (hl : Led us) :
    Spaced (ts ++ us) :=
  List.IsChain.append ht hu fun _ _ u hm => .inr (hl u hm)

theorem Spaced.cons {t : Token} {ts : List Token} (h : Spaced ts)
    (hb : t.isBreak = true ∨ Led ts) : Spaced (t :: ts) := by
  refine List.IsChain.cons h fun u hu => ?_
  rcases hb with hb | hl
  · exact .inl hb
  · exact .inr (hl u hu)

/-- What follows a token is led by a break, unless the token is one. -/
theorem Spaced.of_cons {t : Token} {ts : List Token} (h : Spaced (t :: ts)) :
    (t.isBreak = true ∨ Led ts) ∧ Spaced ts := by
  refine ⟨?_, List.IsChain.tail h⟩
  cases ts with
  | nil => exact .inr led_nil
  | cons u us =>
    rw [led_cons]
    exact (List.isChain_cons_cons.mp h).1

/-- Whatever stands between a break in front and breaks behind. -/
theorem spaced_paren {ts : List Token} (h : Spaced ts) : Spaced (paren ts) :=
  (h.append (spaced_singleton _) (by simp)).cons (.inl rfl)

@[simp] theorem led_paren (ts : List Token) : Led (paren ts) := by simp [paren]

theorem spaced_intercalate {s : Token} {parts : List (List Token)}
    (h : ∀ p ∈ parts, Spaced p) (hs : s.isBreak = true) (mid : List Token)
    (hm : ∀ ts, Spaced ts → Spaced (s :: mid ++ ts)) :
    Spaced (List.intercalate (s :: mid) parts) := by
  refine intercalate_induction spaced_nil h fun p hp rest hr => ?_
  rw [List.append_assoc]
  exact (h p hp).append (hm rest hr) (by simpa using hs)

theorem spaced_commaList {parts : List (List Token)} (h : ∀ p ∈ parts, Spaced p) :
    Spaced (commaList parts) :=
  spaced_intercalate h rfl [space] fun _ ht => (ht.cons (.inl rfl)).cons (.inl rfl)

theorem spaced_clause {w : Word} {body : List Token} (h : Spaced body) :
    Spaced (clause w body) :=
  ((h.cons (.inl rfl)).cons (.inr (by simp))).cons (.inl rfl)

@[simp] theorem led_clause (w : Word) (body : List Token) : Led (clause w body) := by
  simp [clause]

theorem spaced_clauseUnlessEmpty {w : Word} {parts : List (List Token)}
    (h : ∀ p ∈ parts, Spaced p) : Spaced (clauseUnlessEmpty w parts) := by
  rw [clauseUnlessEmpty]
  split_ifs
  · exact spaced_nil
  · exact spaced_clause (spaced_commaList h)

@[simp] theorem led_clauseUnlessEmpty (w : Word) (parts : List (List Token)) :
    Led (clauseUnlessEmpty w parts) := by
  rw [clauseUnlessEmpty]
  split_ifs <;> simp

variable {d : Dialect} {xs : List Text} {I : Double → Prop}

@[simp] theorem allVetted_nil : AllVetted d xs I [] := by simp [AllVetted]

@[simp] theorem allVetted_cons (t : Token) (ts : List Token) :
    AllVetted d xs I (t :: ts) ↔ t.Vetted d xs I ∧ AllVetted d xs I ts := by simp [AllVetted]

@[simp] theorem allVetted_append (ts us : List Token) :
    AllVetted d xs I (ts ++ us) ↔ AllVetted d xs I ts ∧ AllVetted d xs I us := by
  simp [AllVetted, or_imp, forall_and]

@[simp] theorem vetted_word (w : Word) : (Token.word w).Vetted d xs I := trivial
@[simp] theorem vetted_symbol (s : Symbol) : (Token.symbol s).Vetted d xs I := trivial
@[simp] theorem vetted_rows (n : UInt32) : (Token.rows n).Vetted d xs I := trivial
@[simp] theorem vetted_wildcard : Token.wildcard.Vetted d xs I := trivial
@[simp] theorem vetted_noRange (n : ℕ) : (Token.noRange n).Vetted d xs I := trivial
@[simp] theorem vetted_space : space.Vetted d xs I := trivial

@[simp] theorem vetted_name (n : Text) :
    (Token.name n).Vetted d xs I ↔ Identifier.isValid n = true := Iff.rfl

@[simp] theorem vetted_placeholder (e : Dialect) (index : Double) :
    (Token.placeholder e index).Vetted d xs I ↔ e = d ∧ I index := Iff.rfl

@[simp] theorem vetted_expression (e : Text) :
    (Token.expression e).Vetted d xs I ↔ e ∈ xs ∧ Expression.isValid e = true := Iff.rfl

@[simp] theorem allVetted_paren (ts : List Token) :
    AllVetted d xs I (paren ts) ↔ AllVetted d xs I ts := by
  have hopen : openParen.Vetted d xs I := trivial
  have hclose : closeParen.Vetted d xs I := trivial
  simp [paren, hopen, hclose]

theorem allVetted_intercalate {sep : List Token} {parts : List (List Token)}
    (hs : AllVetted d xs I sep) (h : ∀ p ∈ parts, AllVetted d xs I p) :
    AllVetted d xs I (List.intercalate sep parts) := by
  intro t ht
  rcases mem_intercalate ht with ht | ⟨p, hp, ht⟩
  · exact hs t ht
  · exact h p hp t ht

theorem allVetted_commaList {parts : List (List Token)} (h : ∀ p ∈ parts, AllVetted d xs I p) :
    AllVetted d xs I (commaList parts) := allVetted_intercalate (by simp) h

@[simp] theorem allVetted_clause (w : Word) (body : List Token) :
    AllVetted d xs I (clause w body) ↔ AllVetted d xs I body := by simp [clause]

theorem allVetted_clauseUnlessEmpty {w : Word} {parts : List (List Token)}
    (h : ∀ p ∈ parts, AllVetted d xs I p) : AllVetted d xs I (clauseUnlessEmpty w parts) := by
  rw [clauseUnlessEmpty]
  split_ifs
  · exact allVetted_nil
  · rw [allVetted_clause]
    exact allVetted_commaList h

end Sql
end BoundSql
