import BoundSql.Cursor.Document
import BoundSql.Proofs.Json.Grammar
import BoundSql.Proofs.Number.ReadBack
import BoundSql.Proofs.Values

/-!
# The texts that are cursors

A text is read as entries exactly when it is a JSON text of one flat object with few
enough members, whose integers fit and whose other numbers have a finite neighbour.
The reader stops as soon as a part cannot go on, so both directions keep what is left
of the text open: what is read of its front is spelled there, and what is spelled
there is read up to a unit that cannot belong to it, or refused for its members alone.
-/
namespace BoundSql

/-- The exact value of a numeral without its sign. -/
def Numeral.decimal (n : Numeral) : Decimal :=
  ⟨Text.digitsValue (n.whole ++ n.fraction.getD []),
    n.exponent.getD 0 - ((n.fraction.getD []).length : ℤ)⟩

namespace Cursor
open Numeral (Over)
open Json (Phrase Blank Separated Named)

/-- The value of a phrase: an integer of 64 bits for a numeral without fraction and exponent, for
any other the finite number that its exact value is rounded to. -/
inductive Takes : Phrase → Value → Prop
  | null : Takes .null .null
  | bool (b : Bool) : Takes (.bool b) (.bool b)
  | string (s : Text) : Takes (.string s) (.string s)
  | int {n : Numeral} {i : Int64} (integral : n.isIntegral = true) (value : i.toInt = n.toInt) :
      Takes (.number n) (.int i)
  | float {n : Numeral} {x : Double} (other : n.isIntegral = false)
      (value : x = n.decimal.rounded n.negative) (finite : x.isFinite = true) :
      Takes (.number n) (.float x)

/-- The entry of a member: its name and the value of its phrase. -/
def EntryOf (member : Text × Phrase) (entry : Text × Value) : Prop :=
  entry.1 = member.1 ∧ Takes member.2 entry.2

lemma numeralValue_eq_ok_iff {n : Numeral} {v : Value} :
    numeralValue n = .ok v ↔ Takes (.number n) v := by
  have hvalue : n.toDouble = n.decimal.rounded n.negative := Decimal.toDouble_parts n
  rw [numeralValue]
  by_cases hintegral : n.isIntegral = true
  · rw [if_pos hintegral]
    constructor
    · intro h
      split at h
      · rename_i w hw
        obtain rfl := Except.ok.inj h
        obtain ⟨i, rfl, hi⟩ := Value.ofInt_eq_ok_iff.mp hw
        exact .int hintegral hi
      · cases h
    · rintro (_ | _ | _ | ⟨-, hi⟩ | ⟨hother, -, -⟩)
      · rw [Value.ofInt_eq_ok_iff.mpr ⟨_, rfl, hi⟩]
      · exact absurd hintegral (by simp [hother])
  · rw [if_neg hintegral]
    constructor
    · intro h
      split_ifs at h with hfinite
      · obtain rfl := Except.ok.inj h
        exact .float (by simpa using hintegral) hvalue hfinite
      · cases h
    · intro h
      cases h with
      | int hother => exact absurd hother hintegral
      | float _ hx hfinite =>
        rw [← hvalue] at hx
        subst hx
        rw [if_pos hfinite]

lemma readName_eq_ok_iff {t s rest : Text} :
    readName t = .ok (s, rest) ↔ ∃ u, Text.Quoted.Spells u s ∧ t = u ++ rest := by
  rw [← Text.Quoted.read?_eq_some_iff, readName]
  cases Text.Quoted.read? t with
  | none => simp [fail]
  | some found => simp

lemma expect_eq_ok_iff {c : UInt16} {defect : FormatDefect} {t rest : Text} :
    expect c defect t = .ok rest ↔ t = c :: rest := by
  cases t with
  | nil => simp [expect, fail]
  | cons d t =>
    rw [expect]
    by_cases h : d = c
    · simp [h]
    · simp [h, fail]

/-- A scalar that is read is spelled at the front of the text. -/
theorem spells_of_readScalar {t rest : Text} {v : Value} (h : readScalar t = .ok (v, rest)) :
    ∃ u p, Json.Spells u p ∧ Takes p v ∧ t = u ++ rest := by
  unfold readScalar at h
  split_ifs at h with hquote
  · obtain ⟨⟨s, rest'⟩, hname, ⟨⟩⟩ := bind_eq_ok_iff.mp h
    obtain ⟨u, hu, rfl⟩ := readName_eq_ok_iff.mp hname
    exact ⟨u, _, .string hu, .string s, rfl⟩
  · split at h
    · rename_i b rest' hword
      obtain ⟨rfl, rfl⟩ := Prod.mk.inj (Except.ok.inj h)
      exact ⟨_, _, Json.spells_word (some b), .bool b, Json.readWord?_eq_some_iff.mp hword⟩
    · rename_i rest' hword
      obtain ⟨rfl, rfl⟩ := Prod.mk.inj (Except.ok.inj h)
      exact ⟨_, _, .null, .null, Json.readWord?_eq_some_iff.mp hword⟩
    · split at h
      · rename_i n rest' hnumeral
        obtain ⟨w, hvalue, ⟨⟩⟩ := bind_eq_ok_iff.mp h
        obtain ⟨u, hu, rfl⟩ := Numeral.spells_of_read? hnumeral
        exact ⟨u, _, .number hu, numeralValue_eq_ok_iff.mp hvalue, rfl⟩
      · cases h

/-- A spelled numeral is read as its value. -/
lemma readScalar_numeral {t : Text} {n : Numeral} {v : Value} (h : Numeral.Spells t n)
    (hv : Takes (.number n) v) {rest : Text} (hrest : Over rest) :
    readScalar (t ++ rest) = .ok (v, rest) := by
  have hread := Numeral.read?_append h hrest
  obtain ⟨c, t, rfl, hc⟩ := h.exists_head
  have hquote : some c ≠ some Text.Quoted.quote := by
    rw [Ne, Option.some_inj]
    rcases hc with hdigit | rfl
    · rintro rfl
      exact absurd hdigit (by decide)
    · decide
  rw [List.cons_append] at hread ⊢
  rw [readScalar, List.head?_cons, if_neg hquote, Json.readWord?_eq_none hc, hread]
  simp only [numeralValue_eq_ok_iff.mpr hv]
  rfl

lemma readScalar_word (word : Option Bool) (rest : Text) :
    readScalar (Json.wordText word ++ rest) = .ok (word.elim .null .bool, rest) := by
  obtain ⟨c, t, hword, hne, -⟩ := Json.exists_head_wordText word
  have hquote : (Json.wordText word ++ rest).head? ≠ some Text.Quoted.quote := by
    rw [hword, List.cons_append, List.head?_cons, Ne, Option.some_inj]
    exact hne
  rw [readScalar, if_neg hquote, Json.readWord?_word]
  cases word <;> rfl

/-- A scalar that is spelled is read, up to where it is over. -/
theorem readScalar_append {u rest : Text} {p : Phrase} {v : Value} (h : Json.Spells u p)
    (hv : Takes p v) (hrest : Over rest) : readScalar (u ++ rest) = .ok (v, rest) := by
  have hnumber : ∀ {n : Numeral} {v : Value}, Json.Spells u (.number n) → Takes (.number n) v →
      readScalar (u ++ rest) = .ok (v, rest) := fun hn hv => by
    cases hn with
    | number hn => exact readScalar_numeral hn hv hrest
  cases hv with
  | null => cases h; exact readScalar_word none rest
  | bool b =>
    cases h with
    | true => exact readScalar_word (some true) rest
    | false => exact readScalar_word (some false) rest
  | string s =>
    cases h with
    | string hs =>
      have hname : readName (u ++ rest) = .ok (s, rest) := readName_eq_ok_iff.mpr ⟨u, hs, rfl⟩
      have hquote : (u ++ rest).head? = some Text.Quoted.quote := by
        cases hs
        rfl
      rw [readScalar, if_pos hquote, hname]
      rfl
  | int hn hi => exact hnumber h (.int hn hi)
  | float hn hx hfinite => exact hnumber h (.float hn hx hfinite)

/-- A phrase of which a value is taken is spelled without a blank at its front. -/
lemma skipSpace_spelled {u : Text} {p : Phrase} {v : Value} (h : Json.Spells u p)
    (hv : Takes p v) (rest : Text) : Json.skipSpace (u ++ rest) = u ++ rest := by
  have hhead : ∃ c t, u = c :: t ∧ Json.isSpace c = false := by
    cases h with
    | null => exact ⟨_, _, rfl, by decide⟩
    | true => exact ⟨_, _, rfl, by decide⟩
    | false => exact ⟨_, _, rfl, by decide⟩
    | number h =>
      obtain ⟨c, t, rfl, hc⟩ := h.exists_head
      exact ⟨c, t, rfl, Json.isSpace_eq_false hc⟩
    | string h =>
      cases h
      exact ⟨_, _, rfl, by decide⟩
    | _ => cases hv
  obtain ⟨c, t, rfl, hc⟩ := hhead
  exact Json.skipSpace_of_ne hc (t ++ rest)

/-- A member that is read is spelled at the front of the text, behind blanks. -/
theorem spells_of_readMember {t rest : Text} {entry : Text × Value}
    (h : readMember t = .ok (entry, rest)) : ∃ before u m, Blank before ∧
      Named Json.Spells u m ∧ EntryOf m entry ∧ t = before ++ u ++ rest := by
  unfold readMember at h
  obtain ⟨⟨name, t₁⟩, hname, h⟩ := bind_eq_ok_iff.mp h
  obtain ⟨t₂, hcolon, h⟩ := bind_eq_ok_iff.mp h
  obtain ⟨⟨value, t₃⟩, hvalue, ⟨⟩⟩ := bind_eq_ok_iff.mp h
  obtain ⟨b₀, hb₀, ht⟩ := Json.exists_blank t
  obtain ⟨b₁, hb₁, ht₁⟩ := Json.exists_blank t₁
  obtain ⟨b₂, hb₂, ht₂⟩ := Json.exists_blank t₂
  obtain ⟨n, hn, hname⟩ := readName_eq_ok_iff.mp hname
  have hcolon := expect_eq_ok_iff.mp hcolon
  obtain ⟨u, p, hu, hp, hvalue⟩ := spells_of_readScalar hvalue
  refine ⟨b₀, _, (name, p), hb₀, .intro hn hb₁ hb₂ hu, ⟨rfl, hp⟩, ?_⟩
  rw [ht, hname, ht₁, hcolon, ht₂, hvalue]
  simp only [List.append_assoc, List.cons_append]

lemma skipSpace_quoted {u s : Text} (h : Text.Quoted.Spells u s) (rest : Text) :
    Json.skipSpace (u ++ rest) = u ++ rest := by
  cases h
  exact Json.skipSpace_of_ne (by decide) _

/-- A member that is spelled is read, up to where its value is over. -/
theorem readMember_append {before u rest : Text} {m : Text × Phrase} {entry : Text × Value}
    (hbefore : Blank before) (h : Named Json.Spells u m) (hentry : EntryOf m entry)
    (hrest : Over rest) : readMember (before ++ u ++ rest) = .ok (entry, rest) := by
  obtain ⟨name, value⟩ := entry
  cases h with
  | @intro n b₁ b₂ t s p hn hb₁ hb₂ ht =>
    obtain ⟨hname, hvalue⟩ := hentry
    obtain rfl : name = s := hname
    have htext : before ++ (n ++ b₁ ++ Text.unit ':' :: (b₂ ++ t)) ++ rest =
        before ++ (n ++ (b₁ ++ Text.unit ':' :: (b₂ ++ (t ++ rest)))) := by
      simp only [List.append_assoc, List.cons_append]
    have hread : readName (Json.skipSpace (before ++ (n ++ (b₁ ++ Text.unit ':' ::
        (b₂ ++ (t ++ rest)))))) = .ok (name, b₁ ++ Text.unit ':' :: (b₂ ++ (t ++ rest))) := by
      rw [Json.skipSpace_append hbefore, skipSpace_quoted hn]
      exact readName_eq_ok_iff.mpr ⟨n, hn, rfl⟩
    have hcolon : expect (Text.unit ':') .noColon (Json.skipSpace (b₁ ++ Text.unit ':' ::
        (b₂ ++ (t ++ rest)))) = .ok (b₂ ++ (t ++ rest)) := by
      rw [Json.skipSpace_append hb₁, Json.skipSpace_of_ne (by decide)]
      exact expect_eq_ok_iff.mpr rfl
    have hscalar : readScalar (Json.skipSpace (b₂ ++ (t ++ rest))) = .ok (value, rest) := by
      rw [Json.skipSpace_append hb₂, skipSpace_spelled ht hvalue]
      exact readScalar_append ht hvalue hrest
    rw [htext, readMember]
    exact bind_eq_ok_iff.mpr ⟨_, hread, bind_eq_ok_iff.mpr ⟨_, hcolon,
      bind_eq_ok_iff.mpr ⟨_, hscalar, rfl⟩⟩⟩

/-- Behind a value stand blanks and a comma or a brace, which no numeral goes on with. -/
lemma over_append {after : Text} {c : UInt16} (h : Blank after)
    (hc : c = Text.unit ',' ∨ c = Text.unit '}') (rest : Text) : Over (after ++ c :: rest) := by
  cases after with
  | nil =>
    rintro d ⟨⟩
    rcases hc with rfl | rfl <;> decide
  | cons b after =>
    rintro d ⟨⟩
    rcases h _ List.mem_cons_self with rfl | rfl | rfl | rfl <;> decide

section Members

variable {room : ℕ} {t t₁ rest : Text} {entry : Text × Value}

/-- The member behind the last one that there is room for is refused, whatever comes after it. -/
lemma readMembers_full (h : readMember t = .ok (entry, t₁)) :
    readMembers 0 t = .error .tooManyFields := by
  rw [readMembers, h]
  rfl

lemma readMembers_last (h : readMember t = .ok (entry, t₁))
    (hclose : Json.skipSpace t₁ = Text.unit '}' :: rest) :
    readMembers (room + 1) t = .ok ([entry], rest) := by
  rw [readMembers, h]
  simp only [bind, Except.bind, hclose, if_true]

lemma readMembers_more (h : readMember t = .ok (entry, t₁))
    (hcomma : Json.skipSpace t₁ = Text.unit ',' :: rest) :
    readMembers (room + 1) t =
      (readMembers room rest).map fun found => (entry :: found.1, found.2) := by
  have hother : Text.unit ',' ≠ Text.unit '}' := by decide
  rw [readMembers, h]
  simp only [bind, Except.bind, hcomma, hother, if_false, if_true]
  cases readMembers room rest <;> rfl

/-- After a member that is read comes the closing brace, or a comma and more members. -/
lemma exists_of_readMembers {entries : List (Text × Value)}
    (h : readMembers (room + 1) t = .ok (entries, rest)) : ∃ entry t₁,
      readMember t = .ok (entry, t₁) ∧
        (Json.skipSpace t₁ = Text.unit '}' :: rest ∧ entries = [entry] ∨
          ∃ t₂ more, Json.skipSpace t₁ = Text.unit ',' :: t₂ ∧
            readMembers room t₂ = .ok (more, rest) ∧ entries = entry :: more) := by
  rw [readMembers] at h
  obtain ⟨⟨entry, t₁⟩, hmember, h⟩ := bind_eq_ok_iff.mp h
  refine ⟨entry, t₁, hmember, ?_⟩
  dsimp only at h
  split at h
  · cases h
  · rename_i c t₂ hskip
    split_ifs at h with hclose hcomma
    · obtain ⟨rfl, rfl⟩ := Prod.mk.inj (Except.ok.inj h)
      exact .inl ⟨by rw [hskip, hclose], rfl⟩
    · obtain ⟨⟨more, rest'⟩, hmore, ⟨⟩⟩ := bind_eq_ok_iff.mp h
      exact .inr ⟨t₂, more, by rw [hskip, hcomma], hmore, rfl⟩
    · cases h

/-- Members that are read are spelled up to a closing brace, and there is room for them. -/
theorem spells_of_readMembers {entries : List (Text × Value)}
    (h : readMembers room t = .ok (entries, rest)) : ∃ u members,
      Separated (Named Json.Spells) u members ∧ List.Forall₂ EntryOf members entries ∧
      members.length ≤ room ∧ t = u ++ Text.unit '}' :: rest := by
  induction room generalizing t entries with
  | zero =>
    rw [readMembers] at h
    obtain ⟨found, -, h⟩ := bind_eq_ok_iff.mp h
    cases h
  | succ room ih =>
    obtain ⟨entry, t₁, hmember, hnext⟩ := exists_of_readMembers h
    obtain ⟨before, u, m, hbefore, hu, hm, rfl⟩ := spells_of_readMember hmember
    obtain ⟨after, hafter, ht₁⟩ := Json.exists_blank t₁
    rcases hnext with ⟨hskip, rfl⟩ | ⟨t₂, more, hskip, hmore, rfl⟩
    · refine ⟨_, [m], .one hbefore hu hafter, .cons hm .nil, Nat.succ_le_succ (Nat.zero_le _), ?_⟩
      rw [ht₁, hskip]
      simp only [List.append_assoc]
    · obtain ⟨v, members, hv, hms, hroom, rfl⟩ := ih hmore
      refine ⟨_, m :: members, .more hbefore hu hafter hv, .cons hm hms, Nat.succ_le_succ hroom, ?_⟩
      rw [ht₁, hskip]
      simp only [List.append_assoc, List.cons_append]

/-- Members that are spelled up to a closing brace are read, as far as there is room for them. -/
theorem readMembers_append {u : Text} {members : List (Text × Phrase)}
    {entries : List (Text × Value)} (h : Separated (Named Json.Spells) u members)
    (hentries : List.Forall₂ EntryOf members entries) (room : ℕ) (rest : Text) :
    readMembers room (u ++ Text.unit '}' :: rest) =
      if room < members.length then .error .tooManyFields else .ok (entries, rest) := by
  have hskip : ∀ {after v : Text} {c : UInt16}, Blank after → Json.isSpace c = false →
      Json.skipSpace (after ++ c :: v) = c :: v := fun hafter hc => by
    rw [Json.skipSpace_append hafter, Json.skipSpace_of_ne hc]
  induction h generalizing entries room with
  | @one before t after m hbefore ht hafter =>
    obtain ⟨entry, entries, hentry, hnil, rfl⟩ := List.forall₂_cons_left_iff.mp hentries
    obtain rfl := List.forall₂_nil_left_iff.mp hnil
    have hmember := readMember_append hbefore ht hentry (over_append hafter (.inr rfl) rest)
    rw [List.append_assoc]
    cases room with
    | zero => exact readMembers_full hmember
    | succ room =>
      have hroom : ¬ room + 1 < [m].length := Nat.not_lt.mpr (Nat.succ_le_succ (Nat.zero_le room))
      rw [if_neg hroom]
      exact readMembers_last hmember (hskip hafter (by decide))
  | @more before t after u m members hbefore ht hafter hrest ih =>
    obtain ⟨entry, more, hentry, hmore, rfl⟩ := List.forall₂_cons_left_iff.mp hentries
    have hmember := readMember_append hbefore ht hentry
      (over_append hafter (.inl rfl) (u ++ Text.unit '}' :: rest))
    rw [List.append_assoc, List.append_assoc, List.cons_append]
    cases room with
    | zero => exact readMembers_full hmember
    | succ room =>
      rw [readMembers_more hmember (hskip hafter (by decide)), ih hmore, List.length_cons]
      simp only [Nat.add_lt_add_iff_right]
      split_ifs <;> rfl

end Members

section Objects

variable {u rest : Text} {members : List (Text × Phrase)}

/-- An object that is read is a brace in which there is nothing or there are members. -/
lemma exists_of_readObject {t : Text} {entries : List (Text × Value)}
    (h : readObject t = .ok (entries, rest)) : ∃ t₁, Json.skipSpace t = Text.unit '{' :: t₁ ∧
      (Json.skipSpace t₁ = Text.unit '}' :: rest ∧ entries = [] ∨
        readMembers maxFields (Json.skipSpace t₁) = .ok (entries, rest)) := by
  obtain ⟨t₁, hopen, h⟩ := bind_eq_ok_iff.mp h
  refine ⟨t₁, expect_eq_ok_iff.mp hopen, ?_⟩
  split at h
  · rename_i c t₂ hskip
    split_ifs at h with hclose
    · obtain ⟨rfl, rfl⟩ := Prod.mk.inj (Except.ok.inj h)
      exact .inl ⟨by rw [hskip, hclose], rfl⟩
    · exact .inr (by rw [hskip]; exact h)
  · rename_i hskip
    exact .inr (by rw [hskip]; exact h)

lemma readObject_empty {t t₁ : Text} (hopen : Json.skipSpace t = Text.unit '{' :: t₁)
    (hclose : Json.skipSpace t₁ = Text.unit '}' :: rest) : readObject t = .ok ([], rest) := by
  rw [readObject, hopen, expect, if_pos rfl]
  simp only [bind, Except.bind, hclose, if_true]

/-- What begins with a quote is no closing brace. -/
lemma readObject_members {t t₁ t₂ : Text} (hopen : Json.skipSpace t = Text.unit '{' :: t₁)
    (hquote : Json.skipSpace t₁ = Text.Quoted.quote :: t₂) :
    readObject t = readMembers maxFields (Json.skipSpace t₁) := by
  have hother : Text.Quoted.quote ≠ Text.unit '}' := by decide
  rw [readObject, hopen, expect, if_pos rfl]
  simp only [bind, Except.bind, hquote, if_neg hother]

/-- An object that is read is spelled at the front of the text, behind blanks. -/
theorem spells_of_readObject {t : Text} {entries : List (Text × Value)}
    (h : readObject t = .ok (entries, rest)) : ∃ before u members, Blank before ∧
      Json.Spells u (.object members) ∧ t = before ++ u ++ rest ∧
      members.length ≤ maxFields ∧ List.Forall₂ EntryOf members entries := by
  obtain ⟨t₁, hopen, hbody⟩ := exists_of_readObject h
  obtain ⟨before, hbefore, ht⟩ := Json.exists_blank t
  obtain ⟨b, hb, ht₁⟩ := Json.exists_blank t₁
  rcases hbody with ⟨hclose, rfl⟩ | hmembers
  · refine ⟨before, _, [], hbefore, .emptyObject hb, ?_, Nat.zero_le _, .nil⟩
    rw [ht, hopen, ht₁, hclose]
    simp only [List.append_assoc, List.cons_append, List.nil_append]
  · obtain ⟨u, members, hu, hms, hroom, htext⟩ := spells_of_readMembers hmembers
    refine ⟨before, _, members, hbefore, .object (hu.blank_append hb), ?_, hroom, hms⟩
    rw [ht, hopen, ht₁, htext]
    simp only [List.append_assoc, List.cons_append, List.nil_append]

/-- An object that is spelled is read, whatever follows, unless it has too many members. -/
theorem readObject_append {before : Text} {entries : List (Text × Value)}
    (hbefore : Blank before) (h : Json.Spells u (.object members))
    (hms : List.Forall₂ EntryOf members entries) (after : Text) :
    readObject (before ++ u ++ after) =
      if maxFields < members.length then .error .tooManyFields else .ok (entries, after) := by
  have hopen : ∀ t, Json.skipSpace (before ++ Text.unit '{' :: t) = Text.unit '{' :: t := by
    intro t
    rw [Json.skipSpace_append hbefore, Json.skipSpace_of_ne (by decide)]
  rw [List.append_assoc]
  cases h with
  | @emptyObject b hb =>
    obtain rfl := List.forall₂_nil_left_iff.mp hms
    have hbrace : Json.skipSpace (before ++ (Text.unit '{' :: (b ++ [Text.unit '}']) ++ after)) =
        Text.unit '{' :: (b ++ Text.unit '}' :: after) := by
      rw [List.cons_append, hopen, List.append_assoc, List.singleton_append]
    refine readObject_empty hbrace ?_
    rw [Json.skipSpace_append hb, Json.skipSpace_of_ne (by decide)]
  | @object v _ hv =>
    obtain ⟨b, n, m, w, hb, hn, rfl, hw⟩ := hv.exists_front
    obtain ⟨x, hx⟩ := hn.exists_quote
    have hskip : Json.skipSpace (b ++ (n ++ w ++ Text.unit '}' :: after)) =
        n ++ w ++ Text.unit '}' :: after := by
      rw [Json.skipSpace_append hb, hx]
      exact Json.skipSpace_of_ne (by decide) _
    have hbrace : Json.skipSpace (before ++ (Text.unit '{' :: (b ++ (n ++ w) ++ [Text.unit '}']) ++
        after)) = Text.unit '{' :: (b ++ (n ++ w ++ Text.unit '}' :: after)) := by
      rw [List.cons_append, hopen]
      simp only [List.append_assoc, List.cons_append, List.nil_append]
    rw [readObject_members hbrace (hskip.trans (by rw [hx]; rfl)), hskip]
    exact readMembers_append hw hms maxFields after

end Objects

/-- An object that a text spells is read, unless it has too many members. -/
theorem read_spelled {t : Text} {members : List (Text × Phrase)} {entries : List (Text × Value)}
    (h : Json.SpellsText t (.object members)) (hms : List.Forall₂ EntryOf members entries) :
    read t = if maxFields < members.length then .error .tooManyFields else .ok entries := by
  obtain ⟨before, u, after, hbefore, hu, hafter, rfl⟩ := h
  have hend : Json.skipSpace after = [] := by
    have hskip := Json.skipSpace_append hafter []
    rwa [List.append_nil] at hskip
  rw [read, readObject_append hbefore hu hms after]
  split_ifs with hfull
  · rfl
  · simp only [bind, Except.bind, hend, List.isEmpty_nil, if_true]

/-- A text is read as entries exactly when it is a JSON text of an object with at most 16
members, each with a value that an entry can have, and the entries are those of the members in
the order of the text. -/
theorem read_eq_ok_iff {t : Text} {entries : List (Text × Value)} :
    read t = .ok entries ↔ ∃ members, Json.SpellsText t (.object members) ∧
      members.length ≤ 16 ∧ List.Forall₂ EntryOf members entries := by
  constructor
  · intro h
    obtain ⟨⟨found, rest⟩, hobject, h⟩ := bind_eq_ok_iff.mp h
    dsimp only at h
    split_ifs at h with hrest
    · obtain rfl := Except.ok.inj h
      have hafter := Json.blank_of_skipSpace (List.isEmpty_iff.mp hrest)
      obtain ⟨before, u, members, hbefore, hu, ht, hroom, hms⟩ := spells_of_readObject hobject
      exact ⟨members, ⟨before, u, rest, hbefore, hu, hafter, ht⟩, hroom, hms⟩
    · cases h
  · rintro ⟨members, hspelled, hroom, hms⟩
    have hnot : ¬ maxFields < members.length := Nat.not_lt.mpr hroom
    rw [read_spelled hspelled hms, if_neg hnot]

end Cursor
end BoundSql
