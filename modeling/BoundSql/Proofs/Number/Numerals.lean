import BoundSql.Number.Numeral
import BoundSql.Proofs.Number.Rounding

/-!
# Reading numbers back

The text of a number is a numeral of the JSON grammar, written from its parts: a
sign, a whole part without leading zeros, a fraction and an exponent, which has
several spellings. The reader takes those parts apart again and stops where they
end, and whatever it reads is such a spelling. The value of the parts is rounded
to the number that was written. Only the sign of zero is lost.
-/
namespace BoundSql

namespace Text
open Decimal

/-- A number is written as its leading digits and its last one. -/
lemma ofNat_eq_append {n : ℕ} (h : 10 ≤ n) : ofNat n = ofNat (n / 10) ++ ofNat (n % 10) := by
  have hdigits := Nat.toDigits_append_toDigits (b := 10) (n := n / 10) (d := n % 10)
    (by decide) (by omega) (by omega)
  rw [Nat.div_add_mod] at hdigits
  rw [ofNat, ofNat, ofNat, ← hdigits, List.map_append]

lemma foldl_digits (t : Text) (n : ℕ) :
    t.foldl (fun n c => 10 * n + (c.toNat - 48)) n = n * tenPow t.length + digitsValue t := by
  induction t generalizing n with
  | nil => simp [digitsValue, tenPow]
  | cons c t ih =>
    rw [digitsValue, List.foldl_cons, List.foldl_cons, ih, ih, List.length_cons, tenPow_succ]
    ring

theorem digitsValue_append (t u : Text) :
    digitsValue (t ++ u) = digitsValue t * tenPow u.length + digitsValue u := by
  rw [digitsValue, List.foldl_append, foldl_digits]
  rfl

lemma digitsValue_zeros (k : ℕ) : digitsValue (List.replicate k (unit '0')) = 0 := by
  induction k with
  | zero => rfl
  | succ k ih =>
    rw [List.replicate_succ', digitsValue_append, ih, Nat.zero_mul]
    rfl

/-- The numeral of a natural number spells it. -/
theorem digitsValue_ofNat (n : ℕ) : digitsValue (ofNat n) = n := by
  induction n using Nat.strong_induction_on with
  | _ n ih =>
    have hdigit : ∀ d < 10, digitsValue (ofNat d) = d ∧ (ofNat d).length = 1 := by decide
    by_cases hn : n < 10
    · exact (hdigit n hn).1
    · obtain ⟨hlast, hlength⟩ := hdigit (n % 10) (by omega)
      have hone : tenPow 1 = 10 := rfl
      rw [ofNat_eq_append (by omega), digitsValue_append, ih (n / 10) (by omega), hlast, hlength,
        hone]
      omega

/-- No numeral but that of zero starts with a zero. -/
theorem head?_ofNat_ne_zero {n : ℕ} (h : n ≠ 0) : (ofNat n).head? ≠ some (unit '0') := by
  induction n using Nat.strong_induction_on with
  | _ n ih =>
    have hdigit : ∀ d < 10, d ≠ 0 → (ofNat d).head? ≠ some (unit '0') := by decide
    by_cases hn : n < 10
    · exact hdigit n hn h
    · rw [ofNat_eq_append (by omega), List.head?_append_of_ne_nil _ (ofNat_ne_nil _)]
      exact ih (n / 10) (by omega) (by omega)

/-- Every numeral has a whole part that the grammar allows. -/
lemma lead_ofNat (n : ℕ) :
    (ofNat n).head? ≠ some (unit '0') ∨ ofNat n = [unit '0'] := by
  by_cases h : n = 0
  · right
    rw [h]
    rfl
  · exact .inl (head?_ofNat_ne_zero h)

/-- So has every single digit. -/
lemma lead_singleton (c : UInt16) : [c].head? ≠ some (unit '0') ∨ [c] = [unit '0'] := by
  by_cases h : c = unit '0'
  · exact .inr (by rw [h])
  · exact .inl (by simpa using h)

end Text

namespace Numeral

/-- Are all units of a text digits? -/
def AreDigits (t : Text) : Prop := ∀ c ∈ t, Text.isDigit c = true

lemma areDigits_ofNat (n : ℕ) : AreDigits (Text.ofNat n) := fun _ => Text.isDigit_of_mem_ofNat

lemma areDigits_zeros (k : ℕ) : AreDigits (List.replicate k (Text.unit '0')) := by
  intro c hc
  rw [List.eq_of_mem_replicate hc]
  rfl

lemma AreDigits.append {t u : Text} (ht : AreDigits t) (hu : AreDigits u) :
    AreDigits (t ++ u) := by
  intro c hc
  exact (List.mem_append.mp hc).elim (ht c) (hu c)

/-- The parts that the grammar allows: a whole part is a zero alone or starts with no zero,
and a point has digits after it. -/
structure Proper (n : Numeral) : Prop where
  whole_ne : n.whole ≠ []
  whole : AreDigits n.whole
  lead : n.whole.head? ≠ some (Text.unit '0') ∨ n.whole = [Text.unit '0']
  fraction : ∀ t ∈ n.fraction, t ≠ [] ∧ AreDigits t

def signText (negative : Bool) : Text := if negative then [Text.unit '-'] else []

def fractionText : Option Text → Text
  | none => []
  | some t => Text.unit '.' :: t

def exponentText : Option ℤ → Text
  | none => []
  | some e => Text.unit 'e' :: (if e < 0 then Text.unit '-' else Text.unit '+') ::
    Text.ofNat e.natAbs

/-- A numeral as it is written. -/
def text (n : Numeral) : Text :=
  signText n.negative ++ n.whole ++ fractionText n.fraction ++ exponentText n.exponent

/-- How an exponent is spelled: a letter of either case, perhaps a sign, and digits. -/
inductive SpellsExponent : Text → Option ℤ → Prop
  | none : SpellsExponent [] none
  | unsigned {e : UInt16} {t : Text} (letter : e = Text.unit 'e' ∨ e = Text.unit 'E')
      (ne : t ≠ []) (digits : AreDigits t) :
      SpellsExponent (e :: t) (some (Text.digitsValue t))
  | plus {e : UInt16} {t : Text} (letter : e = Text.unit 'e' ∨ e = Text.unit 'E')
      (ne : t ≠ []) (digits : AreDigits t) :
      SpellsExponent (e :: Text.unit '+' :: t) (some (Text.digitsValue t))
  | minus {e : UInt16} {t : Text} (letter : e = Text.unit 'e' ∨ e = Text.unit 'E')
      (ne : t ≠ []) (digits : AreDigits t) :
      SpellsExponent (e :: Text.unit '-' :: t) (some (-Text.digitsValue t))

/-- How a numeral is spelled: all its parts are there in the text, its exponent in one of its
spellings. -/
structure Spells (t : Text) (n : Numeral) : Prop where
  proper : n.Proper
  exponent : ∃ e, SpellsExponent e n.exponent ∧
    t = signText n.negative ++ n.whole ++ fractionText n.fraction ++ e

lemma spellsExponent_text (e : Option ℤ) : SpellsExponent (exponentText e) e := by
  cases e with
  | none => exact .none
  | some e =>
    have hne := Text.ofNat_ne_nil e.natAbs
    have hdigits := areDigits_ofNat e.natAbs
    have hvalue := Text.digitsValue_ofNat e.natAbs
    by_cases hneg : e < 0
    · have he : e = -(Text.digitsValue (Text.ofNat e.natAbs) : ℤ) := by omega
      rw [exponentText, if_pos hneg]
      nth_rewrite 2 [he]
      exact .minus (.inl rfl) hne hdigits
    · have he : e = Text.digitsValue (Text.ofNat e.natAbs) := by omega
      rw [exponentText, if_neg hneg]
      nth_rewrite 2 [he]
      exact .plus (.inl rfl) hne hdigits

theorem spells_text {n : Numeral} (h : n.Proper) : Spells n.text n :=
  ⟨h, _, spellsExponent_text n.exponent, rfl⟩

/-- What stands behind a numeral and cannot belong to it. -/
def Over (t : Text) : Prop :=
  ∀ c ∈ t.head?, Text.isDigit c = false ∧ c ≠ Text.unit '.' ∧ c ≠ Text.unit 'e' ∧
    c ≠ Text.unit 'E'

lemma spanDigits_append {t u : Text} (ht : AreDigits t)
    (hu : ∀ c ∈ u.head?, Text.isDigit c = false) : spanDigits (t ++ u) = (t, u) := by
  have hnone : u.takeWhile Text.isDigit = [] ∧ u.dropWhile Text.isDigit = u := by
    cases u with
    | nil => exact ⟨rfl, rfl⟩
    | cons c u => simp [hu c rfl]
  rw [spanDigits, List.span_eq_takeWhile_dropWhile, List.takeWhile_append_of_pos ht,
    List.dropWhile_append_of_pos ht, hnone.1, hnone.2, List.append_nil]

lemma readWhole_append {t u : Text} (hne : t ≠ []) (ht : AreDigits t)
    (hlead : t.head? ≠ some (Text.unit '0') ∨ t = [Text.unit '0'])
    (hu : ∀ c ∈ u.head?, Text.isDigit c = false) : readWhole (t ++ u) = some (t, u) := by
  rcases hlead with hlead | rfl
  · cases t with
    | nil => exact absurd rfl hne
    | cons c t =>
      have hc : c ≠ Text.unit '0' := fun h => hlead (by rw [h]; rfl)
      have hspan := spanDigits_append ht hu
      rw [List.cons_append] at hspan ⊢
      rw [readWhole, if_neg hc, if_pos (ht c List.mem_cons_self), hspan]
  · rw [List.singleton_append, readWhole, if_pos rfl]

lemma readFraction_append {f : Option Text} {u : Text}
    (hf : ∀ t ∈ f, t ≠ [] ∧ AreDigits t)
    (hu : ∀ c ∈ u.head?, Text.isDigit c = false ∧ c ≠ Text.unit '.') :
    readFraction (fractionText f ++ u) = (f, u) := by
  cases f with
  | none =>
    cases u with
    | nil => rfl
    | cons c u => rw [fractionText, List.nil_append, readFraction, if_neg (hu c rfl).2]
  | some t =>
    obtain ⟨hne, ht⟩ := hf t rfl
    have hspan := spanDigits_append ht fun c hc => (hu c hc).1
    rw [fractionText, List.cons_append, readFraction, if_pos rfl, hspan]
    cases t with
    | nil => exact absurd rfl hne
    | cons c t => rfl

lemma readExponent_append {t : Text} {e : Option ℤ} (h : SpellsExponent t e) {u : Text}
    (hu : Over u) : readExponent (t ++ u) = (e, u) := by
  have hspan : ∀ {digits : Text}, AreDigits digits → spanDigits (digits ++ u) = (digits, u) :=
    fun hdigits => spanDigits_append hdigits fun c hc => (hu c hc).1
  have hletter : ∀ {c : UInt16}, c = Text.unit 'e' ∨ c = Text.unit 'E' →
      (decide (c = Text.unit 'e') || decide (c = Text.unit 'E')) = true := fun hc => by
    simpa using hc
  cases h with
  | none =>
    cases u with
    | nil => rfl
    | cons c u =>
      obtain ⟨-, -, hlower, hupper⟩ := hu c rfl
      simp [readExponent, hlower, hupper]
  | @unsigned c digits hc hne hdigits =>
    obtain ⟨a, rest, rfl⟩ := List.exists_cons_of_ne_nil hne
    have hdigit := hdigits a List.mem_cons_self
    have hminus : a ≠ Text.unit '-' := by rintro rfl; exact absurd hdigit (by decide)
    have hplus : a ≠ Text.unit '+' := by rintro rfl; exact absurd hdigit (by decide)
    have hread := hspan hdigits
    rw [List.cons_append] at hread
    simp only [List.cons_append, readExponent, hletter hc, if_true, hminus, hplus, if_false, hread,
      Bool.false_eq_true]
  | @plus c digits hc hne hdigits =>
    obtain ⟨a, rest, rfl⟩ := List.exists_cons_of_ne_nil hne
    have hsign : Text.unit '+' ≠ Text.unit '-' := by decide
    simp only [List.cons_append, readExponent, hletter hc, if_true, hsign, if_false,
      Bool.false_eq_true]
    rw [← List.cons_append, hspan hdigits]
  | @minus c digits hc hne hdigits =>
    obtain ⟨a, rest, rfl⟩ := List.exists_cons_of_ne_nil hne
    simp only [List.cons_append, readExponent, hletter hc, if_true]
    rw [← List.cons_append, hspan hdigits]

lemma head_exponent_append {t : Text} {e : Option ℤ} (h : SpellsExponent t e) {u : Text}
    (hu : Over u) : ∀ c ∈ (t ++ u).head?, Text.isDigit c = false ∧ c ≠ Text.unit '.' := by
  have hletter : ∀ {c : UInt16}, c = Text.unit 'e' ∨ c = Text.unit 'E' → ∀ v : Text,
      ∀ d ∈ (c :: v).head?, Text.isDigit d = false ∧ d ≠ Text.unit '.' := by
    rintro c (rfl | rfl) v d ⟨⟩ <;> decide
  cases h with
  | none => exact fun c hc => ⟨(hu c hc).1, (hu c hc).2.1⟩
  | unsigned hc => exact hletter hc _
  | plus hc => exact hletter hc _
  | minus hc => exact hletter hc _

lemma head_fractionText_append {f : Option Text} {u : Text}
    (hu : ∀ c ∈ u.head?, Text.isDigit c = false) :
    ∀ c ∈ (fractionText f ++ u).head?, Text.isDigit c = false := by
  cases f with
  | none => exact hu
  | some t =>
    intro c hc
    obtain rfl : Text.unit '.' = c := Option.some_inj.mp hc
    decide

/-- The whole part starts with a digit, which no sign is. -/
lemma Proper.exists_digit {n : Numeral} (h : n.Proper) :
    ∃ c t, n.whole = c :: t ∧ Text.isDigit c = true ∧ c ≠ Text.unit '-' := by
  have hne := h.whole_ne
  have hdigits := h.whole
  cases hw : n.whole with
  | nil => exact absurd hw hne
  | cons c t =>
    rw [hw] at hdigits
    have hdigit := hdigits c List.mem_cons_self
    refine ⟨c, t, rfl, hdigit, ?_⟩
    rintro rfl
    exact absurd hdigit (by decide)

/-- A numeral starts with a digit or with a minus sign. -/
lemma Spells.exists_head {t : Text} {n : Numeral} (h : Spells t n) :
    ∃ c u, t = c :: u ∧ (Text.isDigit c = true ∨ c = Text.unit '-') := by
  obtain ⟨hproper, e, -, rfl⟩ := h
  obtain ⟨c, u, hc, hdigit, -⟩ := hproper.exists_digit
  rw [hc]
  cases n.negative with
  | true => exact ⟨_, _, rfl, .inr rfl⟩
  | false => exact ⟨_, _, rfl, .inl hdigit⟩

/-- A spelled numeral is read as its parts, up to where it is over. -/
theorem read?_append {t : Text} {n : Numeral} (h : Spells t n) {u : Text} (hu : Over u) :
    read? (t ++ u) = some (n, u) := by
  obtain ⟨h, e, he, rfl⟩ := h
  have hexponent := readExponent_append he hu
  have hfraction := readFraction_append h.fraction (head_exponent_append he hu)
  have hhead := head_fractionText_append (f := n.fraction) fun c hc =>
    (head_exponent_append he hu c hc).1
  have hwhole := readWhole_append h.whole_ne h.whole h.lead hhead
  obtain ⟨c, t, hc, -, hminus⟩ := h.exists_digit
  obtain ⟨negative, whole, fraction, exponent⟩ := n
  simp only at hexponent hfraction hhead hwhole hc
  simp only [List.append_assoc]
  cases negative with
  | true =>
    simp only [signText, if_true, List.singleton_append, read?, hwhole, Option.map_some, hfraction,
      hexponent]
  | false =>
    subst hc
    simp only [List.cons_append] at hwhole
    simp only [signText, Bool.false_eq_true, if_false, List.nil_append, List.cons_append, read?,
      hminus, hwhole, Option.map_some, hfraction, hexponent]

lemma spanDigits_spec {t digits rest : Text} (h : spanDigits t = (digits, rest)) :
    AreDigits digits ∧ t = digits ++ rest := by
  rw [spanDigits, List.span_eq_takeWhile_dropWhile] at h
  obtain ⟨rfl, rfl⟩ := Prod.mk.inj h
  exact ⟨fun c hc => List.mem_takeWhile_imp hc, List.takeWhile_append_dropWhile.symm⟩

lemma readWhole_spec {t whole rest : Text} (h : readWhole t = some (whole, rest)) :
    whole ≠ [] ∧ AreDigits whole ∧
      (whole.head? ≠ some (Text.unit '0') ∨ whole = [Text.unit '0']) ∧ t = whole ++ rest := by
  cases t with
  | nil => cases h
  | cons c t =>
    rw [readWhole] at h
    split_ifs at h with hzero hdigit
    · obtain ⟨rfl, rfl⟩ := Prod.mk.inj (Option.some_inj.mp h)
      subst hzero
      exact ⟨by simp, by simp [AreDigits]; decide, .inr rfl, rfl⟩
    · obtain ⟨hdigits, htext⟩ := spanDigits_spec (Option.some_inj.mp h)
      cases whole with
      | nil =>
        have hspan : spanDigits (c :: t) = _ := Option.some_inj.mp h
        rw [spanDigits, List.span_eq_takeWhile_dropWhile,
          List.takeWhile_cons_of_pos hdigit] at hspan
        cases hspan
      | cons d whole =>
        obtain ⟨rfl, -⟩ := List.cons.inj htext
        exact ⟨List.cons_ne_nil _ _, hdigits, .inl (by simpa using hzero), htext⟩

lemma readFraction_spec {t rest : Text} {fraction : Option Text}
    (h : readFraction t = (fraction, rest)) :
    (∀ digits ∈ fraction, digits ≠ [] ∧ AreDigits digits) ∧
      t = fractionText fraction ++ rest := by
  unfold readFraction at h
  split at h
  · obtain ⟨rfl, rfl⟩ := Prod.mk.inj h
    exact ⟨by simp, rfl⟩
  · rename_i p u
    split_ifs at h with hpoint
    · split at h
      · obtain ⟨rfl, rfl⟩ := Prod.mk.inj h
        exact ⟨by simp, rfl⟩
      · rename_i digits after hne hspan
        obtain ⟨rfl, rfl⟩ := Prod.mk.inj h
        obtain ⟨hdigits, rfl⟩ := spanDigits_spec hspan
        refine ⟨?_, by rw [hpoint]; rfl⟩
        rintro _ ⟨⟩
        exact ⟨hne, hdigits⟩
    · obtain ⟨rfl, rfl⟩ := Prod.mk.inj h
      exact ⟨by simp, rfl⟩

lemma readExponent_spec {t rest : Text} {e : Option ℤ} (h : readExponent t = (e, rest)) :
    ∃ u, SpellsExponent u e ∧ t = u ++ rest := by
  have habsent : ∀ {t}, (none, t) = (e, rest) → ∃ u, SpellsExponent u e ∧ t = u ++ rest := by
    rintro t ⟨⟩
    exact ⟨[], .none, rfl⟩
  unfold readExponent at h
  split at h
  · exact habsent h
  · rename_i c u
    split_ifs at h with hletter
    · have hc : c = Text.unit 'e' ∨ c = Text.unit 'E' := by simpa using hletter
      cases u with
      | nil => exact habsent h
      | cons s more =>
        dsimp only at h
        have hsign : Text.unit '+' ≠ Text.unit '-' := by decide
        by_cases hminus : s = Text.unit '-'
        · subst hminus
          simp only [if_true] at h
          split at h
          · exact habsent h
          · rename_i digits after hne hspan
            obtain ⟨rfl, rfl⟩ := Prod.mk.inj h
            obtain ⟨hdigits, rfl⟩ := spanDigits_spec hspan
            exact ⟨_, .minus hc hne hdigits, rfl⟩
        · by_cases hplus : s = Text.unit '+'
          · subst hplus
            simp only [hsign, if_true, if_false, Bool.false_eq_true] at h
            split at h
            · exact habsent h
            · rename_i digits after hne hspan
              obtain ⟨rfl, rfl⟩ := Prod.mk.inj h
              obtain ⟨hdigits, rfl⟩ := spanDigits_spec hspan
              exact ⟨_, .plus hc hne hdigits, rfl⟩
          · simp only [hminus, hplus, if_false, Bool.false_eq_true] at h
            split at h
            · exact habsent h
            · rename_i digits after hne hspan
              obtain ⟨rfl, rfl⟩ := Prod.mk.inj h
              obtain ⟨hdigits, htext⟩ := spanDigits_spec hspan
              exact ⟨_, .unsigned hc hne hdigits, by rw [htext]; rfl⟩
    · exact habsent h

/-- What is read of a text is a spelling of the numeral. -/
theorem spells_of_read? {t rest : Text} {n : Numeral} (h : read? t = some (n, rest)) :
    ∃ u, Spells u n ∧ t = u ++ rest := by
  unfold read? at h
  split at h
  rename_i negative unsigned hsign
  have htext : t = signText negative ++ unsigned := by
    split at hsign
    · split_ifs at hsign with hminus
      · obtain ⟨rfl, rfl⟩ := Prod.mk.inj hsign
        rw [hminus]
        rfl
      · obtain ⟨rfl, rfl⟩ := Prod.mk.inj hsign
        rfl
    · obtain ⟨rfl, rfl⟩ := Prod.mk.inj hsign
      rfl
  obtain ⟨⟨whole, afterWhole⟩, hwhole, hparts⟩ := Option.map_eq_some_iff.mp h
  obtain ⟨⟨fraction, afterFraction⟩, hpair⟩ :
      ∃ parts, readFraction afterWhole = parts := ⟨_, rfl⟩
  obtain ⟨⟨exponent, rest'⟩, hlast⟩ : ∃ parts, readExponent afterFraction = parts := ⟨_, rfl⟩
  obtain ⟨hne, hdigits, hlead, rfl⟩ := readWhole_spec hwhole
  obtain ⟨hfraction, rfl⟩ := readFraction_spec hpair
  obtain ⟨e, hexponent, rfl⟩ := readExponent_spec hlast
  dsimp only at hparts
  rw [hpair] at hparts
  dsimp only at hparts
  rw [hlast] at hparts
  obtain ⟨rfl, rfl⟩ := Prod.mk.inj hparts
  refine ⟨_, ⟨⟨hne, hdigits, hlead, hfraction⟩, e, hexponent, rfl⟩, ?_⟩
  rw [htext]
  simp only [List.append_assoc]

/-- What a numeral is written with. -/
lemma Proper.mem_text {n : Numeral} (h : n.Proper) {c : UInt16} (hc : c ∈ n.text) :
    Text.isDigit c = true ∨ c = Text.unit '-' ∨ c = Text.unit '.' ∨ c = Text.unit 'e' ∨
      c = Text.unit '+' := by
  have hwhole := h.whole
  have hfraction := h.fraction
  obtain ⟨negative, whole, fraction, exponent⟩ := n
  simp only [text, List.mem_append] at hc
  rcases hc with ((hc | hc) | hc) | hc
  · cases negative with
    | true => exact .inr (.inl (List.mem_singleton.mp hc))
    | false => exact absurd hc List.not_mem_nil
  · exact .inl (hwhole c hc)
  · cases fraction with
    | none => exact absurd hc List.not_mem_nil
    | some t =>
      rcases List.mem_cons.mp hc with rfl | hc
      · exact .inr (.inr (.inl rfl))
      · exact .inl ((hfraction t rfl).2 c hc)
  · cases exponent with
    | none => exact absurd hc List.not_mem_nil
    | some e =>
      rcases List.mem_cons.mp hc with rfl | hc
      · exact .inr (.inr (.inr (.inl rfl)))
      · rcases List.mem_cons.mp hc with rfl | hc
        · split_ifs
          · exact .inr (.inl rfl)
          · exact .inr (.inr (.inr (.inr rfl)))
        · exact .inl (Text.isDigit_of_mem_ofNat hc)

end Numeral
end BoundSql
