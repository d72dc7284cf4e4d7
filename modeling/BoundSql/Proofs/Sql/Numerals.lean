import BoundSql.Proofs.Sql.Layout
import BoundSql.Proofs.Sql.Pieces

/-!
# Placeholders in a text

The numerals after the marks of a text, read from left to right. In the text of
a layout they are those of its values, provided that nothing else in it has the
mark: the other tokens are vetted whatever the dialect, so none of them is a
placeholder.
-/
namespace BoundSql

/-- The unit that placeholders start with. -/
def Dialect.mark : Dialect → UInt16
  | .postgres => Text.unit '$'
  | .sqlite => Text.unit '?'

lemma Dialect.mark_not_mem {d : Dialect} {e : Text}
    (h : Text.unit '$' ∉ e ∧ Text.unit '?' ∉ e) : d.mark ∉ e := by
  cases d with
  | postgres => exact h.1
  | sqlite => exact h.2

namespace Sql

/-- The digits after each occurrence of a mark. -/
def numeralsAfter (mark : UInt16) : Text → List Text
  | [] => []
  | c :: rest =>
    if c = mark then rest.takeWhile Text.isDigit :: numeralsAfter mark rest
    else numeralsAfter mark rest

lemma numeralsAfter_append {mark : UInt16} {t : Text} (h : mark ∉ t) (u : Text) :
    numeralsAfter mark (t ++ u) = numeralsAfter mark u := by
  induction t with
  | nil => rfl
  | cons c t ih =>
    rw [List.mem_cons, not_or] at h
    have hc : c ≠ mark := fun hc => h.1 hc.symm
    rw [List.cons_append, numeralsAfter, if_neg hc, ih h.2]

/-- The text ahead does not go on with a digit. -/
def EndsNumeral (u : Text) : Prop := ∀ c ∈ u.head?, Text.isDigit c = false

/-- What goes on with no digit does not lengthen a numeral. -/
lemma takeWhile_append_of_ends (t : Text) {u : Text} (hu : EndsNumeral u) :
    (t ++ u).takeWhile Text.isDigit = t.takeWhile Text.isDigit := by
  have hrest : u.takeWhile Text.isDigit = [] := by
    cases u with
    | nil => rfl
    | cons c u => simp [hu c (by simp)]
  rw [List.takeWhile_append, hrest, List.append_nil]
  split_ifs with h
  · exact ((List.takeWhile_prefix _).eq_of_length h).symm
  · rfl

lemma takeWhile_ofNat (n : ℕ) : (Text.ofNat n).takeWhile Text.isDigit = Text.ofNat n :=
  List.takeWhile_eq_self_iff.mpr fun _ => Text.isDigit_of_mem_ofNat

lemma isDigit_mark (d : Dialect) : Text.isDigit d.mark = false := by
  cases d <;> decide

lemma mark_not_mem_digits (d : Dialect) {digits : Text}
    (h : ∀ c ∈ digits, Text.isDigit c = true) : d.mark ∉ digits := by
  intro hmem
  have hdigit := h _ hmem
  rw [isDigit_mark] at hdigit
  exact Bool.false_ne_true hdigit

lemma mark_not_mem_ofNat (d : Dialect) (n : ℕ) : d.mark ∉ Text.ofNat n :=
  mark_not_mem_digits d fun _ => Text.isDigit_of_mem_ofNat

/-- No number is written with a mark. -/
lemma mark_not_mem_toText (d : Dialect) (x : Double) : d.mark ∉ x.toText := by
  intro hmem
  rcases Double.mem_toText hmem with hpart | hsign | hsign | hsign
  · cases d <;> revert hpart <;> decide
  · exact absurd hsign (by cases d <;> decide)
  · exact absurd hsign (by cases d <;> decide)
  · exact absurd hsign (by cases d <;> decide)

lemma numeralsAfter_mark (d : Dialect) {t u : Text} (ht : d.mark ∉ t) (hu : EndsNumeral u) :
    numeralsAfter d.mark (d.mark :: t ++ u) =
      t.takeWhile Text.isDigit :: numeralsAfter d.mark u := by
  rw [List.cons_append, numeralsAfter, if_pos rfl, takeWhile_append_of_ends t hu,
    numeralsAfter_append ht]

/-- What goes on after any token goes on with no digit. -/
lemma endsNumeral_render {ts : List Token} (h : Led ts) : EndsNumeral (render ts) := by
  intro c hc
  by_contra hdigit
  rw [Bool.not_eq_false] at hdigit
  obtain ⟨rest, hrest⟩ : ∃ rest, render ts = c :: rest := by
    cases htext : render ts with
    | nil => simp [htext] at hc
    | cons a rest =>
      rw [htext] at hc
      exact ⟨rest, by simpa using hc⟩
  refine render_ne_cons_of_led h (fun hmem => ?_) hrest
  have hbreaks : breaks.flatten.all (fun a => !Text.isDigit a) = true := by decide
  have hnot := List.all_eq_true.mp hbreaks c hmem
  simp [hdigit] at hnot

/-- Fixed tokens have no mark, as long as no expression has one. -/
lemma mark_not_mem_text {d : Dialect} {xs : List Text} (hxs : ∀ e ∈ xs, d.mark ∉ e) {t : Token}
    (ht : ∀ d', t.Vetted d' xs Double.AtLeastOne) : d.mark ∉ t.text := by
  intro hmem
  cases t with
  | word w => exact absurd hmem (by cases d <;> cases w <;> decide)
  | symbol s => exact absurd hmem (by cases d <;> cases s <;> decide)
  | name n =>
    have hpart := Identifier.isPart_of_mem (ht d) hmem
    cases d <;> revert hpart <;> decide
  | placeholder e index =>
    have hp := (ht .postgres).1
    have hs := (ht .sqlite).1
    rw [hp] at hs
    cases hs
  | rows n => exact mark_not_mem_ofNat d _ hmem
  | wildcard => exact absurd hmem (by cases d <;> decide)
  | noRange n =>
    simp only [Token.text, List.mem_append] at hmem
    rcases hmem with (hmem | hmem) | hmem
    · exact absurd hmem (by cases d <;> decide)
    · exact mark_not_mem_ofNat d _ hmem
    · exact absurd hmem (by cases d <;> decide)
  | expression e => exact hxs e (ht d).1 hmem

theorem placeholderText_eq (d : Dialect) (x : Double) :
    placeholderText d x = d.mark :: x.toText := by cases d <;> rfl

/-- A placeholder with a number that is exact. -/
theorem placeholderText_ofNat (d : Dialect) {n : ℕ} (hn : n ≤ Double.safeBound) :
    placeholderText d (.ofNat n) = d.mark :: Text.ofNat n := by
  rw [placeholderText_eq, Double.toText_ofNat hn]

/-- The numeral of a number that counting gives: one past 2^53 it is that of 2^53. -/
lemma numeral_of_isCount {x : Double} {n : ℕ} (h : IsCount x n) (hn : n ≤ Double.safeBound + 1) :
    x.toText.takeWhile Text.isDigit = Text.ofNat (min n Double.safeBound) := by
  have hx : x = Double.ofNat (min n Double.safeBound) := by
    rw [h hn]
    rcases hn.lt_or_eq with hlt | rfl
    · rw [min_eq_left (Nat.le_of_lt_succ hlt)]
    · rw [min_eq_right (Nat.le_succ _), Double.ofNat_succ_safeBound]
  rw [hx, Double.toText_ofNat (min_le_right _ _), takeWhile_ofNat]

section Numbered

variable {d : Dialect} {xs : List Text} {n : ℕ} {l : Layout} {ts : List Token}

/-- The placeholders of a text are one for each value, and their numerals are what counting
gives, as far as it is known. -/
theorem numeralsAfter_numbered (hxs : ∀ e ∈ xs, d.mark ∉ e) (h : Numbered d n l ts)
    (hl : l.Vetted xs) (hspaced : Spaced ts) :
    (numeralsAfter d.mark (render ts)).length = l.values.length ∧
    ∀ i < l.values.length, n + i ≤ Double.safeBound + 1 →
      (numeralsAfter d.mark (render ts))[i]? =
        some (Text.ofNat (min (n + i) Double.safeBound)) := by
  induction h with
  | nil n => exact ⟨rfl, fun i hi => absurd hi (Nat.not_lt_zero i)⟩
  | token t _ ih =>
    obtain ⟨ht, hl⟩ := Layout.vetted_token.mp hl
    rw [render_cons, numeralsAfter_append (mark_not_mem_text hxs ht)]
    exact ih hl (List.IsChain.tail hspaced)
  | @value n x l ts v hx _ ih =>
    obtain ⟨hnext, htail⟩ := hspaced.of_cons
    have hled : Led ts := hnext.resolve_left (by simp [Token.isBreak])
    have htext : (Token.placeholder d x).text = d.mark :: x.toText := placeholderText_eq d x
    obtain ⟨hlength, hplaces⟩ := ih (Layout.vetted_value.mp hl) htail
    rw [render_cons, htext,
      numeralsAfter_mark d (mark_not_mem_toText d x) (endsNumeral_render hled)]
    refine ⟨by simp [hlength], fun i hi hbound => ?_⟩
    cases i with
    | zero => simpa using numeral_of_isCount hx hbound
    | succ i =>
      have hi' : i < l.values.length := by simpa using hi
      have hshift : n + 1 + i = n + (i + 1) := by omega
      simpa [hshift] using hplaces i hi' (by omega)

/-- The placeholders of a text are numbered in order, one for each value. -/
theorem numeralsAfter_number (hxs : ∀ e ∈ xs, d.mark ∉ e) (hl : l.Vetted xs)
    (hspaced : Spaced (l.number d n)) (hn : n + l.values.length ≤ Double.safeBound + 1) :
    numeralsAfter d.mark (render (l.number d n)) =
      (List.range l.values.length).map fun i => Text.ofNat (n + i) := by
  obtain ⟨hlength, hplaces⟩ := numeralsAfter_numbered hxs (.number d n l) hl hspaced
  refine List.ext_getElem? fun i => ?_
  by_cases hi : i < l.values.length
  · have hmin : min (n + i) Double.safeBound = n + i := min_eq_left (by omega)
    rw [hplaces i hi (by omega), hmin]
    simp [hi]
  · have hover : (numeralsAfter d.mark (render (l.number d n))).length ≤ i := by omega
    rw [List.getElem?_eq_none hover]
    simp [hi]

end Numbered

end Sql
end BoundSql
