import BoundSql.Proofs.Sql.Tokens

/-!
# What a statement is spelled with

The written form of vetted tokens cuts into pieces that are listed here, with a
break between any two of them that could run together. Where no expression is
among them, quotes and comments have one fixed spelling each, so an occurrence
of either can be traced to the token it stands in.
-/
namespace BoundSql.Sql

/-- The texts that vetted tokens may have. -/
inductive Piece (d : Dialect) (expressions : List Text) : Text → Prop
  | keyword (w : Word) : Piece d expressions w.text
  | punctuation (s : Symbol) : Piece d expressions s.text
  | identifier (n : Text) (valid : Identifier.isValid n = true) : Piece d expressions n
  | placeholder (index : Double) (positive : Double.AtLeastOne index) :
    Piece d expressions (placeholderText d index)
  | rows (n : ℕ) (bound : n ≤ 2 ^ 32 - 1) : Piece d expressions (Text.ofNat n)
  | wildcard : Piece d expressions "'%'"
  | noRange (length : ℕ) : Piece d expressions
      ("1=0 /* BETWEEN requires 2 values, got " ++ Text.ofNat length ++ " */")
  | expression (e : Text) (given : e ∈ expressions) (valid : Expression.isValid e = true) :
    Piece d expressions e

/-- The pieces after and before which any other piece may follow. -/
def breaks : List Text := [" ", ",", "(", ")"]

theorem piece_text {d : Dialect} {xs : List Text} {t : Token}
    (h : t.Vetted d xs Double.AtLeastOne) :
    Piece d xs t.text := by
  cases t with
  | word w => exact .keyword w
  | symbol s => exact .punctuation s
  | name n => exact .identifier n h
  | placeholder e index =>
    obtain ⟨rfl, hi⟩ := h
    exact .placeholder index hi
  | rows n =>
    have hn := n.toNat_lt
    exact .rows n.toNat (by omega)
  | wildcard => exact .wildcard
  | noRange length => exact .noRange length
  | expression e => exact .expression e h.1 h.2

theorem text_mem_breaks {t : Token} (h : t.isBreak = true) : t.text ∈ breaks := by
  unfold Token.isBreak at h
  split at h
  · exact List.mem_of_elem_eq_true rfl
  · exact List.mem_of_elem_eq_true rfl
  · exact List.mem_of_elem_eq_true rfl
  · exact List.mem_of_elem_eq_true rfl
  · exact absurd h Bool.false_ne_true

/-- The written form of vetted tokens, cut into pieces. -/
theorem pieces_render {d : Dialect} {xs : List Text} {ts : List Token}
    (hspaced : Spaced ts) (hvetted : AllVetted d xs Double.AtLeastOne ts) :
    ∃ pieces : List Text, render ts = pieces.flatten ∧ (∀ p ∈ pieces, Piece d xs p) ∧
      pieces.IsChain fun p q => p ∈ breaks ∨ q ∈ breaks := by
  refine ⟨ts.map Token.text, by rw [render, List.flatMap_def], fun p hp => ?_, ?_⟩
  · obtain ⟨t, ht, rfl⟩ := List.mem_map.mp hp
    exact piece_text (hvetted t ht)
  · rw [List.isChain_map]
    refine hspaced.imp fun t u htu => ?_
    exact htu.imp text_mem_breaks text_mem_breaks

/-- The quotation mark of SQL strings. -/
def quote : UInt16 := Text.unit '\''

/-- The unit that a comment starts with. -/
def slash : UInt16 := Text.unit '/'

/-- Printable ASCII without the terminator, the minus sign, the other quotes and the
backslash. -/
def isPlain (c : UInt16) : Bool :=
  0x20 ≤ c && c < 0x7F && !(Text.ofString ";-\x22\x60\x5C").contains c

/-- Plain and part of neither quotes nor comments. -/
def isSafe (c : UInt16) : Bool := isPlain c && c ≠ quote && c ≠ slash

/-- What holds of all units of names by inspection. -/
lemma of_isPart {p : UInt16 → Bool} (hall : (List.range 128).all (fun n =>
    !Identifier.isPart (UInt16.ofNat n) || p (UInt16.ofNat n)) = true) {c : UInt16}
    (h : Identifier.isPart c = true) : p c = true := by
  have hlt : c.toNat < 128 := by
    have hc := h
    simp only [Identifier.isPart, Identifier.isStart, Text.isUpper, Text.isLower, Text.isDigit,
      Bool.or_eq_true, Bool.and_eq_true, decide_eq_true_eq, UInt16.le_iff_toNat_le] at hc
    have hz : (Text.unit 'z').toNat = 122 := rfl
    have hZ : (Text.unit 'Z').toNat = 90 := rfl
    have h9 : (Text.unit '9').toNat = 57 := rfl
    rcases hc with ((hc | hc) | rfl) | hc
    · omega
    · omega
    · decide
    · omega
  have hunit : UInt16.ofNat c.toNat = c := UInt16.ofNat_toNat
  have hp := List.all_eq_true.mp hall c.toNat (List.mem_range.mpr hlt)
  rw [hunit, h] at hp
  simpa using hp

lemma isSafe_of_isPart {c : UInt16} (h : Identifier.isPart c = true) : isSafe c = true :=
  of_isPart (by decide) h

lemma isSafe_of_mem_ofNat {n : ℕ} {c : UInt16} (h : c ∈ Text.ofNat n) : isSafe c = true :=
  isSafe_of_isPart (Double.isPart_of_isDigit (Text.isDigit_of_mem_ofNat h))

lemma isSafe_word (w : Word) : w.text.all isSafe = true := by
  cases w <;> decide

lemma isSafe_symbol (s : Symbol) : s.text.all isSafe = true := by
  cases s <;> decide

lemma isSafe_placeholder {d : Dialect} {index : Double} (hi : Double.AtLeastOne index)
    {c : UInt16} (h : c ∈ placeholderText d index) : isSafe c = true := by
  have hnumber : ∀ {c}, c ∈ index.toText → isSafe c = true := by
    intro c hc
    rcases Double.mem_toText_of_one_le hi hc with h | rfl | rfl
    · exact isSafe_of_isPart h
    · decide
    · decide
  cases d with
  | postgres =>
    rcases List.mem_cons.mp h with rfl | h
    · decide
    · exact hnumber h
  | sqlite =>
    rcases List.mem_cons.mp h with rfl | h
    · decide
    · exact hnumber h

lemma isSafe_plain {c : UInt16} (h : isSafe c = true) :
    isPlain c = true ∧ c ≠ quote ∧ c ≠ slash := by
  simpa [isSafe, and_assoc] using h

/-- Only the wildcard and the condition of a bad range are spelled with other units. -/
theorem text_cases {d : Dialect} {t : Token} (ht : t.Vetted d [] Double.AtLeastOne) :
    t = .wildcard ∨ (∃ n, t = .noRange n) ∨ ∀ c ∈ t.text, isSafe c = true := by
  cases t with
  | word w => exact .inr (.inr fun c hc => List.all_eq_true.mp (isSafe_word w) c hc)
  | symbol s => exact .inr (.inr fun c hc => List.all_eq_true.mp (isSafe_symbol s) c hc)
  | name n => exact .inr (.inr fun c hc => isSafe_of_isPart (Identifier.isPart_of_mem ht hc))
  | placeholder e index => exact .inr (.inr fun c hc => isSafe_placeholder ht.2 hc)
  | rows n => exact .inr (.inr fun c hc => isSafe_of_mem_ofNat hc)
  | wildcard => exact .inl rfl
  | noRange n => exact .inr (.inl ⟨n, rfl⟩)
  | expression e => exact absurd ht.1 (by simp)

/-- The condition of a bad range has no quotation mark. -/
lemma isPlain_noRange {n : ℕ} {c : UInt16} (h : c ∈ (Token.noRange n).text) :
    isPlain c = true ∧ c ≠ quote := by
  have hfront : (Text.ofString "1=0 /* BETWEEN requires 2 values, got ").all
      (fun a => isPlain a && decide (a ≠ quote)) = true := by decide
  have hback : (Text.ofString " */").all (fun a => isPlain a && decide (a ≠ quote)) = true := by
    decide
  simp only [List.all_eq_true, Bool.and_eq_true, decide_eq_true_eq] at hfront hback
  simp only [Token.text, List.mem_append] at h
  rcases h with (h | h) | h
  · exact hfront c h
  · have hdigit := isSafe_plain (isSafe_of_mem_ofNat h)
    exact ⟨hdigit.1, hdigit.2.1⟩
  · exact hback c h

/-- Where a unit stands in a text of two parts. -/
lemma append_eq_append_cons {α : Type*} {as bs us vs : List α} {c : α}
    (h : as ++ bs = us ++ c :: vs) :
    (∃ ws, as = us ++ c :: ws ∧ vs = ws ++ bs) ∨ (∃ ws, bs = ws ++ c :: vs ∧ us = as ++ ws) := by
  rcases List.append_eq_append_iff.mp h with ⟨ws, hus, hbs⟩ | ⟨ws, has, hc⟩
  · exact .inr ⟨ws, hbs, hus⟩
  · cases ws with
    | nil => exact .inr ⟨[], by simpa using hc.symm, by simpa using has.symm⟩
    | cons w ws =>
      obtain ⟨rfl, rfl⟩ := List.cons_eq_cons.mp hc
      exact .inl ⟨ws, has, rfl⟩

/-- A unit of a statement stands in one of its tokens. -/
theorem render_eq_append_cons {ts : List Token} {us vs : Text} {c : UInt16}
    (h : render ts = us ++ c :: vs) :
    ∃ before t after front back, ts = before ++ t :: after ∧ t.text = front ++ c :: back ∧
      us = render before ++ front ∧ vs = back ++ render after := by
  induction ts generalizing us with
  | nil => simp at h
  | cons t ts ih =>
    rw [render_cons] at h
    rcases append_eq_append_cons h with ⟨ws, ht, rfl⟩ | ⟨ws, hts, rfl⟩
    · exact ⟨[], t, ts, us, ws, rfl, ht, rfl, rfl⟩
    · obtain ⟨before, u, after, front, back, rfl, hu, rfl, rfl⟩ := ih hts
      exact ⟨t :: before, u, after, front, back, rfl, hu, by simp, rfl⟩

/-- Where a unit stands in a text that has it in one place and at its end. -/
lemma two_places {as bs us vs : Text} {c : UInt16} (ha : c ∉ as) (hb : c ∉ bs)
    (h : as ++ c :: bs ++ [c] = us ++ c :: vs) :
    (us = as ∧ vs = bs ++ [c]) ∨ (us = as ++ c :: bs ∧ vs = []) := by
  rcases append_eq_append_cons h with ⟨ws, hfront, rfl⟩ | ⟨ws, hend, rfl⟩
  · rcases append_eq_append_cons hfront with ⟨ws', rfl, -⟩ | ⟨ws', hmid, rfl⟩
    · exact absurd (by simp) ha
    · cases ws' with
      | nil => exact .inl ⟨by simp, by simp at hmid; simp [hmid]⟩
      | cons w ws' =>
        obtain ⟨rfl, rfl⟩ := List.cons_eq_cons.mp hmid
        exact absurd (by simp) hb
  · rcases List.append_eq_singleton_iff.mp hend.symm with ⟨rfl, hc⟩ | ⟨-, hc⟩
    · exact .inr ⟨by simp, (List.cons_eq_cons.mp hc).2⟩
    · simp at hc

/-- The texts around the slashes of a bad range. -/
lemma noRange_text (n : ℕ) : (Token.noRange n).text = Text.ofString "1=0 " ++ slash ::
    (Text.ofString "* BETWEEN requires 2 values, got " ++ Text.ofNat n ++ Text.ofString " *") ++
      [slash] := by
  have hfront : Text.ofString "1=0 /* BETWEEN requires 2 values, got " =
      Text.ofString "1=0 " ++ slash :: Text.ofString "* BETWEEN requires 2 values, got " := rfl
  have hback : Text.ofString " */" = Text.ofString " *" ++ [slash] := rfl
  simp only [Token.text, hfront, hback, List.append_assoc, List.cons_append]

variable {d : Dialect} {ts : List Token}

/-- Every unit of a statement without expressions is plain. -/
theorem isPlain_render (h : AllVetted d [] Double.AtLeastOne ts) :
    ∀ c ∈ render ts, isPlain c = true := by
  intro c hc
  obtain ⟨t, ht, hc⟩ := List.mem_flatMap.mp hc
  rcases text_cases (h t ht) with rfl | ⟨n, rfl⟩ | hsafe
  · have hall : Token.wildcard.text.all isPlain = true := by decide
    exact List.all_eq_true.mp hall c hc
  · exact (isPlain_noRange hc).1
  · exact (isSafe_plain (hsafe c hc)).1

/-- Every quotation mark of a statement without expressions is one of a wildcard. -/
theorem quote_of_render (h : AllVetted d [] Double.AtLeastOne ts) {us vs : Text}
    (hts : render ts = us ++ quote :: vs) :
    Text.ofString "%'" <+: vs ∨ Text.ofString "'%" <:+ us := by
  obtain ⟨before, t, after, front, back, rfl, ht, rfl, rfl⟩ := render_eq_append_cons hts
  have hmem : quote ∈ t.text := by rw [ht]; simp
  have hwild : t = .wildcard := by
    rcases text_cases (h t (by simp)) with hwild | ⟨n, rfl⟩ | hsafe
    · exact hwild
    · exact absurd rfl (isPlain_noRange hmem).2
    · exact absurd rfl (isSafe_plain (hsafe quote hmem)).2.1
  subst hwild
  have htext : Token.wildcard.text = [] ++ quote :: [Text.unit '%'] ++ [quote] := rfl
  rw [htext] at ht
  rcases two_places (by simp) (by decide) ht with ⟨rfl, rfl⟩ | ⟨rfl, rfl⟩
  · exact .inl ⟨render after, rfl⟩
  · exact .inr ⟨render before, rfl⟩

/-- What goes on after any token starts with one of four units. -/
lemma render_ne_cons_of_led {us : List Token} (h : Led us) {c : UInt16} {vs : Text}
    (hc : c ∉ breaks.flatten) : render us ≠ c :: vs := by
  intro hus
  cases us with
  | nil => simp at hus
  | cons u us =>
    have hbreak := text_mem_breaks ((led_cons u us).mp h)
    rw [render_cons] at hus
    simp only [breaks, List.mem_cons, List.not_mem_nil, or_false] at hbreak
    refine hc ?_
    rcases hbreak with hu | hu | hu | hu <;> rw [hu] at hus <;>
      rw [← (List.cons_eq_cons.mp hus).1] <;> decide

/-- Every comment of a statement without expressions is the one of a bad range. -/
theorem comment_of_render (h : AllVetted d [] Double.AtLeastOne ts) (hspaced : Spaced ts)
    {us vs : Text}
    (hts : render ts = us ++ Text.ofString "/*" ++ vs) :
    ∃ n, Text.ofString "1=0 " <:+ us ∧
      Text.ofString " BETWEEN requires 2 values, got " ++ Text.ofNat n ++ Text.ofString " */" <+:
        vs := by
  have hcut : us ++ Text.ofString "/*" ++ vs = us ++ slash :: (Text.unit '*' :: vs) := by
    rw [List.append_assoc]
    rfl
  rw [hcut] at hts
  obtain ⟨before, t, after, front, back, rfl, ht, rfl, hback⟩ := render_eq_append_cons hts
  have hmem : slash ∈ t.text := by rw [ht]; simp
  have hrange : ∃ n, t = .noRange n := by
    rcases text_cases (h t (by simp)) with rfl | hrange | hsafe
    · have hnot : slash ∉ Token.wildcard.text := by decide
      exact absurd hmem hnot
    · exact hrange
    · exact absurd rfl (isSafe_plain (hsafe slash hmem)).2.2
  obtain ⟨n, rfl⟩ := hrange
  rw [noRange_text] at ht
  have hfront : slash ∉ Text.ofString "1=0 " := by decide
  have hmid : slash ∉ Text.ofString "* BETWEEN requires 2 values, got " ++ Text.ofNat n ++
      Text.ofString " *" := by
    have hleft : slash ∉ Text.ofString "* BETWEEN requires 2 values, got " := by decide
    have hright : slash ∉ Text.ofString " *" := by decide
    simp only [List.mem_append, not_or]
    exact ⟨⟨hleft, fun hn => (isSafe_plain (isSafe_of_mem_ofNat hn)).2.2 rfl⟩, hright⟩
  rcases two_places hfront hmid ht with ⟨rfl, rfl⟩ | ⟨rfl, rfl⟩
  · refine ⟨n, ⟨render before, rfl⟩, ⟨render after, ?_⟩⟩
    have hstar : Text.ofString "* BETWEEN requires 2 values, got " =
        Text.unit '*' :: Text.ofString " BETWEEN requires 2 values, got " := rfl
    have hend : Text.ofString " */" = Text.ofString " *" ++ [slash] := rfl
    rw [hstar] at hback
    simp only [List.cons_append, List.cons.injEq, true_and] at hback
    rw [hback, hend]
    simp
  · -- the last slash is followed by a break or by nothing
    rw [List.nil_append] at hback
    have hspaced' : Spaced (.noRange n :: after) := (List.isChain_append.mp hspaced).2.1
    have hlater : Led after := hspaced'.of_cons.1.resolve_left (by simp [Token.isBreak])
    exact absurd hback.symm (render_ne_cons_of_led hlater (by decide))

end BoundSql.Sql
