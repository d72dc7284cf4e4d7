import BoundSql.Text.Quoted
import BoundSql.Proofs.Text.Utf8

/-!
# Quoted strings, spelled and read

How a text may be spelled between double quotes is stated without a reader, and
the reader takes from the front of a text what is spelled there. A unit is written
as a short escape, as four hexadecimal digits or as itself, so the quoted form of a
text spells it. Half a surrogate pair is always escaped: the written form is a text
of whole characters although the text it quotes need not be one.
-/
namespace BoundSql.Text.Quoted

/-- The letters that may follow a backslash, each with the unit that it stands for. -/
def escapes : List (UInt16 × UInt16) :=
  [(unit '"', unit '"'), (unit '\\', unit '\\'), (unit '/', unit '/'), (unit 'b', 0x08),
    (unit 'f', 0x0C), (unit 'n', 0x0A), (unit 'r', 0x0D), (unit 't', 0x09)]

/-- How one unit is spelled in a string. -/
inductive SpellsUnit : Text → UInt16 → Prop
  | plain {c : UInt16} (quote : c ≠ unit '"') (backslash : c ≠ unit '\\')
      (control : 0x20 ≤ c.toNat) : SpellsUnit [c] c
  | escaped {e c : UInt16} (h : (e, c) ∈ escapes) : SpellsUnit [unit '\\', e] c
  | digits {h₁ h₂ h₃ h₄ : UInt16} {n₁ n₂ n₃ n₄ : ℕ} (first : hexValue? h₁ = some n₁)
      (second : hexValue? h₂ = some n₂) (third : hexValue? h₃ = some n₃)
      (fourth : hexValue? h₄ = some n₄) : SpellsUnit [unit '\\', unit 'u', h₁, h₂, h₃, h₄]
        (UInt16.ofNat (((n₁ * 16 + n₂) * 16 + n₃) * 16 + n₄))

/-- How a text is spelled between quotes. -/
inductive SpellsBody : Text → Text → Prop
  | nil : SpellsBody [] []
  | cons {t u s : Text} {c : UInt16} (first : SpellsUnit t c) (rest : SpellsBody u s) :
      SpellsBody (t ++ u) (c :: s)

inductive Spells : Text → Text → Prop
  | quoted {t s : Text} (body : SpellsBody t s) : Spells (unit '"' :: (t ++ [unit '"'])) s

lemma hexUnit?_eq_some_iff {h₁ h₂ h₃ h₄ u : UInt16} : hexUnit? h₁ h₂ h₃ h₄ = some u ↔
    ∃ n₁ n₂ n₃ n₄, hexValue? h₁ = some n₁ ∧ hexValue? h₂ = some n₂ ∧ hexValue? h₃ = some n₃ ∧
      hexValue? h₄ = some n₄ ∧ u = UInt16.ofNat (((n₁ * 16 + n₂) * 16 + n₃) * 16 + n₄) := by
  have hsum : ∀ a b c d : ℕ, a * 0x1000 + b * 0x100 + c * 0x10 + d =
      ((a * 16 + b) * 16 + c) * 16 + d := fun a b c d => by ring
  simp only [hexUnit?, Option.bind_eq_bind, Option.bind_eq_some_iff, Option.some_inj, hsum]
  constructor
  · rintro ⟨n₁, h₁, n₂, h₂, n₃, h₃, n₄, h₄, rfl⟩
    exact ⟨n₁, n₂, n₃, n₄, h₁, h₂, h₃, h₄, rfl⟩
  · rintro ⟨n₁, n₂, n₃, n₄, h₁, h₂, h₃, h₄, rfl⟩
    exact ⟨n₁, h₁, n₂, h₂, n₃, h₃, n₄, h₄, rfl⟩

lemma unescape?_eq_some_iff {e c : UInt16} : unescape? e = some c ↔ (e, c) ∈ escapes := by
  constructor
  · intro h
    unfold unescape? at h
    split_ifs at h <;> (obtain rfl := Option.some_inj.mp h; subst e; decide)
  · intro h
    have hall : ∀ p ∈ escapes, unescape? p.1 = some p.2 := by
      rw [← List.forall_iff_forall_mem]
      decide
    exact hall (e, c) h

lemma readBody_quote (done t : Text) : readBody done (quote :: t) = some (done.reverse, t) := by
  rw [readBody.eq_def]
  simp only [if_true]

lemma readBody_plain {c : UInt16} (hquote : c ≠ quote) (hslash : c ≠ backslash)
    (hcontrol : ¬ c < 0x20) (done t : Text) :
    readBody done (c :: t) = readBody (c :: done) t := by
  rw [readBody.eq_def]
  simp only [if_neg hquote, if_neg hslash, if_neg hcontrol]

/-- A unit is read from its spelling, whatever follows. -/
lemma readBody_spelled {t : Text} {c : UInt16} (h : SpellsUnit t c) (done rest : Text) :
    readBody done (t ++ rest) = readBody (c :: done) rest := by
  have hquote : backslash ≠ quote := by decide
  have hslash : unit '\\' = backslash := rfl
  cases h with
  | plain hquote hslash hcontrol =>
    refine readBody_plain hquote hslash (fun hlt => ?_) done rest
    have : c.toNat < 0x20 := UInt16.lt_iff_toNat_lt.mp hlt
    omega
  | @escaped e _ h =>
    have hletter : ∀ p ∈ escapes, p.1 ≠ unit 'u' := by
      rw [← List.forall_iff_forall_mem]
      decide
    rw [readBody.eq_def]
    simp only [List.cons_append, List.nil_append, if_neg hquote, hslash, if_true,
      if_neg (hletter _ h), unescape?_eq_some_iff.mpr h]
  | digits h₁ h₂ h₃ h₄ =>
    have hunit := hexUnit?_eq_some_iff.mpr ⟨_, _, _, _, h₁, h₂, h₃, h₄, rfl⟩
    rw [readBody.eq_def]
    simp only [List.cons_append, List.nil_append, if_neg hquote, hslash, if_true, hunit]

lemma readBody_append {t s : Text} (h : SpellsBody t s) (done rest : Text) :
    readBody done (t ++ unit '"' :: rest) = some (done.reverse ++ s, rest) := by
  induction h generalizing done with
  | nil => rw [List.nil_append, List.append_nil]; exact readBody_quote done rest
  | cons first _ ih =>
    rw [List.append_assoc, readBody_spelled first, ih, List.reverse_cons, List.append_assoc]
    rfl

/-- One more unit in front of what is spelled up to a quote. -/
lemma spells_cons {u t s done rest : Text} {c : UInt16} (hu : SpellsUnit u c)
    (h : ∃ v w, SpellsBody v w ∧ t = v ++ unit '"' :: rest ∧ s = (c :: done).reverse ++ w) :
    ∃ v w, SpellsBody v w ∧ u ++ t = v ++ unit '"' :: rest ∧ s = done.reverse ++ w := by
  obtain ⟨v, w, hv, rfl, rfl⟩ := h
  refine ⟨u ++ v, c :: w, .cons hu hv, by rw [List.append_assoc], ?_⟩
  rw [List.reverse_cons, List.append_assoc]
  rfl

/-- What is read up to a quote is a spelling. -/
lemma spells_of_readBody {done t s rest : Text} (h : readBody done t = some (s, rest)) :
    ∃ u v, SpellsBody u v ∧ t = u ++ unit '"' :: rest ∧ s = done.reverse ++ v := by
  fun_induction readBody done t with
  | case2 done t =>
    obtain ⟨rfl, rfl⟩ := Prod.mk.inj (Option.some_inj.mp h)
    exact ⟨[], [], .nil, rfl, (List.append_nil _).symm⟩
  | case4 done h₁ h₂ h₃ h₄ t c hunit hslash ih =>
    obtain ⟨n₁, n₂, n₃, n₄, hn₁, hn₂, hn₃, hn₄, rfl⟩ := hexUnit?_eq_some_iff.mp hunit
    exact spells_cons (.digits hn₁ hn₂ hn₃ hn₄) (ih h)
  | case7 done e t hletter c hunescape hslash ih =>
    exact spells_cons (.escaped (unescape?_eq_some_iff.mp hunescape)) (ih h)
  | case10 done c t hquote hslash hcontrol ih =>
    have hplain : 0x20 ≤ c.toNat := by
      rw [UInt16.lt_iff_toNat_lt] at hcontrol
      simpa using hcontrol
    exact spells_cons (.plain hquote hslash hplain) (ih h)
  | _ => cases h

/-- A string at the front of a text is one that is spelled there. -/
theorem read?_eq_some_iff {t s rest : Text} :
    read? t = some (s, rest) ↔ ∃ u, Spells u s ∧ t = u ++ rest := by
  constructor
  · intro h
    cases t with
    | nil => cases h
    | cons c t =>
      rw [read?] at h
      split_ifs at h with hc
      obtain ⟨u, v, hu, rfl, rfl⟩ := spells_of_readBody h
      exact ⟨_, .quoted hu, by simp [hc, quote]⟩
  · rintro ⟨_, ⟨hbody⟩, rfl⟩
    have hquote : unit '"' = quote := rfl
    have hread := readBody_append hbody [] rest
    rw [List.cons_append, List.append_assoc, read?, if_pos hquote]
    exact hread

lemma hexValue?_hexDigit : ∀ n < 0x10, hexValue? (hexDigit n) = some n := by decide

lemma hexDigit_lt : ∀ n < 0x10, (hexDigit n).toNat < 0x80 := by decide

/-- The four digits of a unit spell it. -/
lemma spellsUnit_hexEscape (c : UInt16) : SpellsUnit (hexEscape c) c := by
  have hc := c.toNat_lt
  have hvalue : ((c.toNat / 0x1000 * 16 + c.toNat / 0x100 % 0x10) * 16 +
      c.toNat / 0x10 % 0x10) * 16 + c.toNat % 0x10 = c.toNat := by omega
  have hspelled := SpellsUnit.digits (hexValue?_hexDigit (c.toNat / 0x1000) (by omega))
    (hexValue?_hexDigit (c.toNat / 0x100 % 0x10) (by omega))
    (hexValue?_hexDigit (c.toNat / 0x10 % 0x10) (by omega))
    (hexValue?_hexDigit (c.toNat % 0x10) (by omega))
  rwa [hvalue, UInt16.ofNat_toNat] at hspelled

/-- The short escapes are among those of the grammar. -/
lemma mem_escapes_of_shortEscape {c e : UInt16} (h : shortEscape? c = some e) :
    (e, c) ∈ escapes ∧ e.toNat < 0x80 := by
  unfold shortEscape? at h
  split_ifs at h <;> (obtain rfl := Option.some_inj.mp h; subst c; decide)

/-- A unit without a short escape is neither the quote nor the backslash. -/
lemma ne_of_shortEscape_none {c : UInt16} (h : shortEscape? c = none) :
    c ≠ quote ∧ c ≠ backslash := by
  constructor
  · rintro rfl
    exact absurd h (by decide)
  · rintro rfl
    exact absurd h (by decide)

/-- Half a pair may stand for itself. -/
lemma spellsUnit_of_le {c : UInt16} (h : 0xD800 ≤ c.toNat) :
    SpellsUnit [c] c := by
  refine .plain ?_ ?_ (by omega)
  · rintro rfl
    exact absurd h (by decide)
  · rintro rfl
    exact absurd h (by decide)

lemma spellsUnit_writeUnit (c : UInt16) : SpellsUnit (writeUnit c) c := by
  rw [writeUnit]
  split
  next e he => exact .escaped (mem_escapes_of_shortEscape he).1
  next hnone =>
    obtain ⟨hquote, hslash⟩ := ne_of_shortEscape_none hnone
    split_ifs with hescape
    · exact spellsUnit_hexEscape c
    · have hcontrol : ¬ c < 0x20 := by
        intro hlt
        simp [hlt] at hescape
      exact .plain hquote hslash (by simpa [UInt16.lt_iff_toNat_lt] using hcontrol)

lemma spellsBody_writeBody (t : Text) : SpellsBody (writeBody t) t := by
  induction t using writeBody.induct with
  | case1 => exact .nil
  | case2 c => simpa [writeBody] using SpellsBody.cons (spellsUnit_writeUnit c) .nil
  | case3 c d t hpair ih =>
    obtain ⟨hc, hd⟩ := Bool.and_eq_true_iff.mp hpair
    have hhigh := (isHighSurrogate_iff.mp hc).1
    have hlow := (isLowSurrogate_iff.mp hd).1
    rw [writeBody, if_pos hpair]
    exact .cons (spellsUnit_of_le hhigh) (.cons (spellsUnit_of_le (by omega)) ih)
  | case4 c d t hpair ih =>
    rw [writeBody, if_neg hpair]
    exact .cons (spellsUnit_writeUnit c) ih

/-- The quoted form of a text spells it. -/
theorem spells_write (t : Text) : Spells (write t) t :=
  .quoted (spellsBody_writeBody t)

lemma paired_writeUnit (c : UInt16) : Paired (writeUnit c) := by
  have hc := c.toNat_lt
  rw [writeUnit]
  split
  next e he =>
    have hslash : backslash.toNat < 0x80 := by decide
    have he' := (mem_escapes_of_shortEscape he).2
    apply paired_of_ascii
    simp only [List.forall_mem_cons, List.not_mem_nil, false_imp_iff, implies_true, and_true]
    omega
  next =>
    split_ifs with hescape
    · have hfirst := hexDigit_lt (c.toNat / 0x1000) (by omega)
      have hsecond := hexDigit_lt (c.toNat / 0x100 % 0x10) (by omega)
      have hthird := hexDigit_lt (c.toNat / 0x10 % 0x10) (by omega)
      have hlast := hexDigit_lt (c.toNat % 0x10) (by omega)
      have hlead : backslash.toNat < 0x80 ∧ (unit 'u').toNat < 0x80 := by decide
      apply paired_of_ascii
      simp only [hexEscape, List.forall_mem_cons, List.not_mem_nil, false_imp_iff, implies_true,
        and_true]
      omega
    · simp only [Bool.or_eq_true, not_or, Bool.not_eq_true] at hescape
      exact paired_unit hescape.1.2 hescape.2

lemma paired_writeBody (t : Text) : Paired (writeBody t) := by
  induction t using writeBody.induct with
  | case1 => exact paired_nil
  | case2 c => exact paired_writeUnit c
  | case3 c d t hpair ih =>
    obtain ⟨hc, hd⟩ := Bool.and_eq_true_iff.mp hpair
    rw [writeBody, if_pos hpair]
    exact (paired_pair hc hd).append ih
  | case4 c d t hpair ih =>
    rw [writeBody, if_neg hpair]
    exact (paired_writeUnit c).append ih

/-- The quoted form of any text is a text of whole characters. -/
theorem paired_write (t : Text) : Paired (write t) := by
  have hquote : Paired [quote] := paired_unit (by decide) (by decide)
  exact hquote.append ((paired_writeBody t).append hquote)

end BoundSql.Text.Quoted
