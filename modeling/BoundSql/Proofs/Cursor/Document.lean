import BoundSql.Proofs.Cursor.Grammar
import BoundSql.Proofs.Sql.Tokens

/-!
# Reading cursor documents back

Each value is written in a form of its own: words, integers without a point,
floats with a point or an exponent, and quoted strings. Each form spells a phrase
that the value is taken of again, so a document spells an object whose members have
the entries that it was written for, and is read as those.
-/
namespace BoundSql.Cursor
open Numeral

/-- What a document keeps of a value: nothing of a list or of a number that is not finite. -/
def keptValue? : Value → Option Value
  | .float x => if x.isFinite then some (.float x.plusZero) else none
  | .array _ => none
  | v => some v

def keptField? (entry : Text × Value) : Option (Text × Value) :=
  (keptValue? entry.2).map fun v => (entry.1, v)

/-- The only numerals that look like integers are those without point and exponent. -/
lemma looksIntegral_text {n : Numeral} (h : n.Proper) : looksIntegral n.text = n.isIntegral := by
  have hwhole : n.whole.all Text.isDigit = true := List.all_eq_true.mpr h.whole
  have hparts : (n.whole ++ fractionText n.fraction ++ exponentText n.exponent).all Text.isDigit =
      n.isIntegral := by
    have hpoint : Text.isDigit (Text.unit '.') = false := by decide
    have hexp : Text.isDigit (Text.unit 'e') = false := by decide
    rw [List.all_append, List.all_append, hwhole, isIntegral]
    cases n.fraction <;> cases n.exponent <;> simp [fractionText, exponentText, hpoint, hexp]
  obtain ⟨c, t, hc, -, hminus⟩ := h.exists_digit
  rw [text, List.append_assoc, List.append_assoc, ← List.append_assoc n.whole]
  rw [hc] at hparts ⊢
  simp only [List.cons_append] at hparts ⊢
  cases n.negative with
  | true => simpa [signText, looksIntegral] using hparts
  | false => simpa [signText, looksIntegral, hminus] using hparts

/-- A point and a zero behind an integer keep its value. -/
lemma exists_numeral_pointed {n : Numeral} (h : n.Proper) (hintegral : n.isIntegral = true) :
    ∃ m : Numeral, m.Proper ∧ m.text = n.text ++ ".0" ∧ m.isIntegral = false ∧
      m.toDouble = n.toDouble := by
  obtain ⟨negative, whole, fraction, exponent⟩ := n
  obtain ⟨rfl, rfl⟩ : fraction = none ∧ exponent = none := by simpa [isIntegral] using hintegral
  have hdigit : AreDigits [Text.unit '0'] := by
    intro c hc
    rw [List.mem_singleton.mp hc]
    rfl
  refine ⟨⟨negative, whole, some [Text.unit '0'], none⟩, ⟨h.whole_ne, h.whole, h.lead, ?_⟩, ?_, rfl,
    ?_⟩
  · rintro t ⟨⟩
    exact ⟨by simp, hdigit⟩
  · have hpoint : Text.ofString ".0" = [Text.unit '.', Text.unit '0'] := rfl
    simp [text, fractionText, exponentText, hpoint]
  · have hzero : Text.digitsValue [Text.unit '0'] = 0 := rfl
    have hshift := Decimal.rounded_shifts negative (Text.digitsValue whole) 1 (-1)
    simp only [Decimal.toDouble_parts, Option.getD_some, Option.getD_none, Text.digitsValue_append,
      hzero, List.append_nil, List.length_singleton, List.length_nil, Nat.add_zero, Nat.cast_one,
      Nat.cast_zero, zero_sub, sub_zero, hshift, neg_add_cancel]

/-- A finite float is written as a numeral that is no integer. -/
lemma exists_numeral_float {x : Double} (hx : x.isFinite = true) : ∃ n : Numeral, n.Proper ∧
    n.text = floatText x ∧ Takes (.number n) (.float x.plusZero) := by
  cases x with
  | nan => exact absurd hx Bool.false_ne_true
  | infinite s => exact absurd hx Bool.false_ne_true
  | finite s r =>
    obtain ⟨n, hn, htext, hvalue⟩ := Double.exists_numeral s r
    have hfinite : (Double.plusZero (.finite s r)).isFinite = true := by
      rw [Double.plusZero_finite]
      rfl
    have hlooks := looksIntegral_text hn
    rw [htext] at hlooks
    rw [floatText, hlooks]
    by_cases hintegral : n.isIntegral = true
    · obtain ⟨m, hm, hpointed, hfloat, hsame⟩ := exists_numeral_pointed hn hintegral
      have hrounded : m.toDouble = (Double.finite s r).plusZero := hsame.trans hvalue
      rw [Decimal.toDouble_parts] at hrounded
      refine ⟨m, hm, by rw [if_pos hintegral, hpointed, htext], ?_⟩
      exact .float hfloat hrounded.symm hfinite
    · rw [Decimal.toDouble_parts] at hvalue
      refine ⟨n, hn, by rw [if_neg hintegral, htext], ?_⟩
      exact .float (by simpa using hintegral) hvalue.symm hfinite

/-- An integer is written as a numeral without point and exponent. -/
lemma exists_numeral_int (i : Int64) : ∃ n : Numeral, n.Proper ∧
    n.text = Text.ofInt i.toInt ∧ Takes (.number n) (.int i) := by
  obtain ⟨z, hz⟩ : ∃ z, i.toInt = z := ⟨_, rfl⟩
  have hdigits := areDigits_ofNat z.natAbs
  have hvalue := Text.digitsValue_ofNat z.natAbs
  refine ⟨⟨z < 0, Text.ofNat z.natAbs, none, none⟩,
    ⟨Text.ofNat_ne_nil _, hdigits, Text.lead_ofNat _, by simp⟩, ?_, ?_⟩
  · rw [hz, Text.ofInt]
    by_cases hneg : z < 0
    · simp [text, signText, fractionText, exponentText, hneg]
    · simp [text, signText, fractionText, exponentText, hneg]
  · have hint : toInt ⟨z < 0, Text.ofNat z.natAbs, none, none⟩ = z := by
      simp only [toInt, hvalue, decide_eq_true_eq]
      split_ifs <;> omega
    exact .int rfl (hz.trans hint.symm)

/-- A form of a value: a text of whole characters that spells a phrase with that value. -/
structure Writes (t : Text) (v : Value) : Prop where
  paired : Text.Paired t
  spells : ∃ p, Json.Spells t p ∧ Takes p v

lemma writes_numeral {n : Numeral} {v : Value} (h : n.Proper) (hv : Takes (.number n) v) :
    Writes n.text v := by
  refine ⟨Text.paired_of_ascii fun d hd => ?_, _, .number (spells_text h), hv⟩
  rcases h.mem_text hd with hdigit | rfl | rfl | rfl | rfl
  · simp only [Text.isDigit, Bool.and_eq_true, decide_eq_true_eq, UInt16.le_iff_toNat_le] at hdigit
    have hnine : (Text.unit '9').toNat = 57 := rfl
    omega
  all_goals decide

lemma writes_word (word : Option Bool) : Writes (Json.wordText word) (word.elim .null .bool) := by
  have hascii : (Json.wordText word).all (fun c => c.toNat < 0x80) = true := by
    cases word with
    | none => decide
    | some b => cases b <;> decide
  have htakes : Takes (word.elim .null .bool) (word.elim .null .bool) := by
    cases word with
    | none => exact .null
    | some b => exact .bool b
  exact ⟨Text.paired_of_ascii (by simpa using hascii), _, Json.spells_word word, htakes⟩

lemma writes_quoted (s : Text) : Writes (Text.Quoted.write s) (.string s) :=
  ⟨Text.Quoted.paired_write s, _, .string (Text.Quoted.spells_write s), .string s⟩

/-- What is written of a value is a form of what is kept of it, and nothing else is kept. -/
theorem writes_scalarText (v : Value) :
    scalarText? v = none ∧ keptValue? v = none ∨
      ∃ t w, scalarText? v = some t ∧ keptValue? v = some w ∧ Writes t w := by
  cases v with
  | null => exact .inr ⟨_, _, rfl, rfl, writes_word none⟩
  | bool b =>
    have htext : scalarText? (.bool b) = some (Json.wordText (some b)) := by cases b <;> rfl
    exact .inr ⟨_, _, htext, rfl, writes_word (some b)⟩
  | int i =>
    obtain ⟨n, hn, htext, hvalue⟩ := exists_numeral_int i
    exact .inr ⟨_, _, rfl, rfl, htext ▸ writes_numeral hn hvalue⟩
  | float x =>
    by_cases hx : x.isFinite = true
    · obtain ⟨n, hn, htext, hvalue⟩ := exists_numeral_float hx
      refine .inr ⟨floatText x, .float x.plusZero, if_pos hx, if_pos hx, ?_⟩
      exact htext ▸ writes_numeral hn hvalue
    · exact .inl ⟨if_neg hx, if_neg hx⟩
  | string s => exact .inr ⟨_, _, rfl, rfl, writes_quoted s⟩
  | array items => exact .inl ⟨rfl, rfl⟩

/-- A form of an entry: a text of whole characters that spells a member with that entry. -/
structure WritesMember (t : Text) (entry : Text × Value) : Prop where
  paired : Text.Paired t
  spells : ∃ m, Json.Named Json.Spells t m ∧ EntryOf m entry

lemma writes_member {t : Text} {v : Value} (h : Writes t v) (name : Text) :
    WritesMember (Text.Quoted.write name ++ Text.unit ':' :: t) (name, v) := by
  have hcolon : Text.Paired [Text.unit ':'] := Text.paired_unit (by decide) (by decide)
  obtain ⟨hpaired, p, hp, hv⟩ := h
  refine ⟨(Text.Quoted.paired_write name).append (hcolon.append hpaired), (name, p), ?_, rfl, hv⟩
  have hnamed := Json.Named.intro (Text.Quoted.spells_write name) Json.blank_nil Json.blank_nil hp
  rwa [List.append_nil, List.nil_append] at hnamed

/-- Members and entries of a list, in order. -/
theorem forall₂_members (entries : List (Text × Value)) :
    List.Forall₂ WritesMember (entries.filterMap memberText?) (entries.filterMap keptField?) := by
  induction entries with
  | nil => exact List.Forall₂.nil
  | cons entry entries ih =>
    rcases writes_scalarText entry.2 with ⟨htext, hkept⟩ | ⟨t, w, htext, hkept, hwrites⟩
    · have hmember : memberText? entry = none := by rw [memberText?, htext, Option.map_none]
      have hentry : keptField? entry = none := by rw [keptField?, hkept, Option.map_none]
      rwa [List.filterMap_cons_none hmember, List.filterMap_cons_none hentry]
    · have hmember : memberText? entry =
          some (Text.Quoted.write entry.1 ++ Text.unit ':' :: t) := by
        rw [memberText?, htext, Option.map_some]
      have hentry : keptField? entry = some (entry.1, w) := by
        rw [keptField?, hkept, Option.map_some]
      rw [List.filterMap_cons_some hmember, List.filterMap_cons_some hentry]
      exact .cons (writes_member hwrites entry.1) ih

/-- The members that texts spell, in order. -/
lemma exists_members {texts : List Text} {entries : List (Text × Value)}
    (h : List.Forall₂ WritesMember texts entries) :
    ∃ members, List.Forall₂ (Json.Named Json.Spells) texts members ∧
      List.Forall₂ EntryOf members entries := by
  induction h with
  | nil => exact ⟨[], .nil, .nil⟩
  | cons hm _ ih =>
    obtain ⟨m, hspells, hentry⟩ := hm.spells
    obtain ⟨members, hall, hentries⟩ := ih
    exact ⟨m :: members, .cons hspells hall, .cons hentry hentries⟩

/-- A document spells an object whose members have the entries that are kept. -/
theorem spells_write (entries : List (Text × Value)) :
    ∃ members, Json.Spells (write entries) (.object members) ∧
      List.Forall₂ EntryOf members (entries.filterMap keptField?) := by
  obtain ⟨members, hall, hentries⟩ := exists_members (forall₂_members entries)
  refine ⟨members, ?_, hentries⟩
  rw [write]
  by_cases hnone : entries.filterMap memberText? = []
  · rw [hnone] at hall ⊢
    obtain rfl := List.forall₂_nil_left_iff.mp hall
    exact .emptyObject Json.blank_nil
  · exact .object (Json.separated_join hall hnone)

/-- The document of a list of entries is read as the entries that are kept, unless there are
more of them than a token may hold. -/
theorem read_write (entries : List (Text × Value)) :
    read (write entries) =
      if maxFields < (entries.filterMap keptField?).length then .error .tooManyFields
      else .ok (entries.filterMap keptField?) := by
  obtain ⟨members, hspells, hentries⟩ := spells_write entries
  have htext : Json.SpellsText (write entries) (.object members) :=
    ⟨[], write entries, [], Json.blank_nil, hspells, Json.blank_nil, (List.append_nil _).symm⟩
  rw [read_spelled htext hentries, hentries.length_eq]

/-- A document is a text of whole characters, whatever its names and strings are. -/
theorem paired_write (entries : List (Text × Value)) : Text.Paired (write entries) := by
  have hopen : Text.Paired [Text.unit '{'] := Text.paired_unit (by decide) (by decide)
  have hclose : Text.Paired [Text.unit '}'] := Text.paired_unit (by decide) (by decide)
  have hcomma : Text.Paired ("," : Text) := Text.paired_unit (by decide) (by decide)
  have hboth := (forall₂_members entries).imp fun m _ hm => And.intro hm.paired hm
  have hmembers : ∀ m ∈ entries.filterMap memberText?, Text.Paired m :=
    ((List.forall₂_and_left _ _).mp hboth).1
  have hjoin : Text.Paired (Text.join "," (entries.filterMap memberText?)) := by
    refine Sql.intercalate_induction Text.paired_nil hmembers fun m hm rest hrest => ?_
    exact ((hmembers m hm).append hcomma).append hrest
  exact hopen.append (hjoin.append hclose)

end BoundSql.Cursor
