import BoundSql.Expression
import BoundSql.Identifier
import BoundSql.Proofs.Text.LetterCase

/-!
# Denied words and fragments of expressions

A denied word is found exactly if it is one of the words of a text, the maximal
runs of letters, digits and underscores: the search goes on through the text with
what the splitting into runs would see there. An ASCII expression is therefore
accepted by its length, its marks, its words and its fragments, the last two
without regard to case, so it is accepted in any case or in none.
-/
namespace BoundSql

namespace Text

/-- The maximal runs of units of a class, from left to right. -/
def runs (part : UInt16 → Bool) (t : Text) : List Text :=
  (t.splitOnP fun c => !part c).filter fun r => !r.isEmpty

/-- The first piece of a split text is the run that it starts with, perhaps empty. -/
lemma splitOnP_eq_cons (part : UInt16 → Bool) (t : Text) :
    ∃ pieces, t.splitOnP (fun c => !part c) = t.takeWhile part :: pieces := by
  induction t with
  | nil => exact ⟨[], rfl⟩
  | cons c rest ih =>
    obtain ⟨pieces, hpieces⟩ := ih
    rw [List.splitOnP_cons_eq_if_modifyHead]
    by_cases hc : part c = true
    · exact ⟨pieces, by simp [hc, hpieces]⟩
    · exact ⟨rest.splitOnP fun c => !part c, by simp [hc]⟩

lemma splitOnP_map {f : UInt16 → UInt16} {p : UInt16 → Bool} (t : Text) :
    (t.map f).splitOnP p = (t.splitOnP (p ∘ f)).map (List.map f) := by
  induction t with
  | nil => rfl
  | cons c rest ih =>
    rw [List.map_cons, List.splitOnP_cons_eq_if_modifyHead, List.splitOnP_cons_eq_if_modifyHead, ih,
      Function.comp_apply]
    obtain ⟨piece, pieces, hpieces⟩ := List.exists_cons_of_ne_nil
      (List.splitOnP_ne_nil (p ∘ f) rest)
    by_cases hc : p (f c) = true <;> simp [hc, hpieces]

/-- Units that keep to their class keep the runs of a text. -/
theorem runs_map {f : UInt16 → UInt16} {part part' : UInt16 → Bool}
    (hf : ∀ c, part (f c) = part' c) (t : Text) :
    runs part (t.map f) = (runs part' t).map (List.map f) := by
  have hclass : (fun c => !part c) ∘ f = fun c => !part' c := funext fun c => by
    rw [Function.comp_apply, hf]
  rw [runs, splitOnP_map, hclass, runs, List.filter_map]
  congr 1
  refine List.filter_congr fun r _ => ?_
  rw [Function.comp_apply, List.isEmpty_map]

end Text

namespace Expression

open Text

/-- A text starts with a word and no more of it if that word is the run it starts with. -/
lemma starts_iff {word t : Text} (hword : ∀ c ∈ word, isWordUnit c = true) :
    (word.isPrefixOf t && startsApart (t.drop word.length)) = true ↔
      word = t.takeWhile isWordUnit := by
  rw [Bool.and_eq_true, List.isPrefixOf_iff_prefix]
  constructor
  · rintro ⟨⟨after, rfl⟩, hafter⟩
    rw [List.drop_left] at hafter
    rw [List.takeWhile_append_of_pos hword]
    cases after with
    | nil => simp
    | cons c after =>
      have hc : isWordUnit c = false := by simpa [startsApart] using hafter
      simp [hc]
  · intro h
    have hdrop : t.drop word.length = t.dropWhile isWordUnit := by
      calc t.drop word.length
          = (t.takeWhile isWordUnit ++ t.dropWhile isWordUnit).drop word.length := by
            rw [List.takeWhile_append_dropWhile]
        _ = t.dropWhile isWordUnit := by rw [← h, List.drop_left]
    refine ⟨h ▸ List.takeWhile_prefix _, ?_⟩
    rw [hdrop]
    cases hrest : t.dropWhile isWordUnit with
    | nil => rfl
    | cons c rest =>
      have hc := List.head_dropWhile_not isWordUnit (l := t) (by simp [hrest])
      simpa [startsApart, hrest] using hc

/-- The search finds what splitting finds. Within a word the first piece does not count. -/
theorem findsWord_iff {word : Text} (hne : word ≠ [])
    (hword : ∀ c ∈ word, isWordUnit c = true) (inWord : Bool) (t : Text) :
    findsWord word inWord t = true ↔
      word ∈ (t.splitOnP fun c => !isWordUnit c).drop inWord.toNat := by
  induction t generalizing inWord with
  | nil => cases inWord <;> simp [findsWord, hne]
  | cons c rest ih =>
    have hstarts := starts_iff (t := c :: rest) hword
    rw [findsWord, Bool.or_eq_true, Bool.and_assoc, Bool.and_eq_true, hstarts, ih,
      List.splitOnP_cons_eq_if_modifyHead]
    by_cases hc : isWordUnit c = true
    · obtain ⟨pieces, hpieces⟩ := splitOnP_eq_cons isWordUnit rest
      cases inWord <;> simp [hc, hpieces]
    · cases inWord <;> simp [hc, hne]

/-- A word is found exactly if it is one of the words of the text. -/
theorem containsWord_iff {word : Text} (hword : ∀ c ∈ word, isWordUnit c = true) (t : Text) :
    containsWord t word = true ↔ word ∈ t.runs isWordUnit := by
  rw [containsWord, runs, List.mem_filter, Bool.and_eq_true, and_comm]
  refine and_congr_left fun hne => ?_
  exact findsWord_iff (by simpa using hne) hword false t

lemma lowerUnit_of_ascii {c : UInt16} (h : c < 128) : lowerUnit c = [lowerLetter c] := by
  have hdot : c ≠ 0x0130 := by rintro rfl; exact absurd h (by decide)
  have hkelvin : c ≠ 0x212A := by rintro rfl; exact absurd h (by decide)
  rw [lowerUnit, lowerLetter, if_neg hdot, if_neg hkelvin]
  split_ifs <;> rfl

lemma lower_of_ascii {t : Text} (h : t.IsAscii) : lower t = t.map lowerLetter := by
  induction t with
  | nil => rfl
  | cons c rest ih =>
    rw [lower, List.flatMap_cons, lowerUnit_of_ascii (h c List.mem_cons_self), ← lower,
      ih fun d hd => h d (List.mem_cons_of_mem c hd)]
    rfl

/-- The words of the lower-case form are made of letters in any case. -/
lemma isWordUnit_lowerLetter (c : UInt16) : isWordUnit (lowerLetter c) = Identifier.isPart c := by
  by_cases h : isUpper c = true
  · rw [isWordUnit, isLower_lowerLetter h, Identifier.isPart, Identifier.isStart, h]
    rfl
  · rw [lowerLetter_of_not_isUpper h, isWordUnit, Identifier.isPart, Identifier.isStart,
      Bool.eq_false_iff.mpr h, Bool.false_or, Bool.or_right_comm]

lemma isWordUnit_of_denied {word : Text} (h : word ∈ deniedWords) :
    ∀ c ∈ word, isWordUnit c = true := by
  have hall : (deniedWords.all fun w => w.all isWordUnit) = true := by decide
  exact List.all_eq_true.mp (List.all_eq_true.mp hall word h)

/-- Denied words and fragments are written in lower case. -/
lemma map_lowerLetter_of_denied {t : Text} (h : t ∈ deniedWords ++ deniedFragments) :
    t.map lowerLetter = t := by
  have hall : ((deniedWords ++ deniedFragments).all fun t => t.all fun c => !isUpper c) = true := by
    decide
  refine map_lowerLetter fun c hc => ?_
  have hc := List.all_eq_true.mp (List.all_eq_true.mp hall t h) c hc
  simpa using hc

lemma not_letter_of_mark {mark : Text} (h : mark ∈ deniedMarks) :
    ∀ c ∈ mark, isUpper c = false ∧ isLower c = false := by
  have hall : (deniedMarks.all fun m => m.all fun c => !isUpper c && !isLower c) = true := by
    decide
  intro c hc
  have hc := List.all_eq_true.mp (List.all_eq_true.mp hall mark h) c hc
  simpa using hc

/-- A text without letters stands where it stands in the lower-case form. -/
lemma infix_map_lowerLetter_iff {mark t : Text}
    (hmark : ∀ c ∈ mark, isUpper c = false ∧ isLower c = false) :
    mark <:+: t.map lowerLetter ↔ mark <:+: t := by
  rw [List.infix_map_iff]
  constructor
  · rintro ⟨piece, hpiece, rfl⟩
    have hsame : piece.map lowerLetter = piece := by
      refine map_lowerLetter fun c hc => Bool.eq_false_iff.mpr fun hupper => ?_
      obtain ⟨-, hlower⟩ := hmark _ (List.mem_map_of_mem hc)
      rw [isLower_lowerLetter hupper] at hlower
      cases hlower
    rwa [hsame]
  · exact fun h => ⟨mark, h, (map_lowerLetter fun c hc => (hmark c hc).1).symm⟩

/-- An ASCII expression is judged by its lower-case form alone. -/
lemma isValid_iff_lower {e : Text} (h : e.IsAscii) :
    isValid e = true ↔
      1 ≤ (e.map lowerLetter).length ∧ (e.map lowerLetter).length ≤ maxLength ∧
      (∀ mark ∈ deniedMarks, ¬mark <:+: e.map lowerLetter) ∧
      (∀ word ∈ deniedWords, word ∉ runs isWordUnit (e.map lowerLetter)) ∧
      ∀ fragment ∈ deniedFragments, ¬fragment <:+: e.map lowerLetter := by
  have hmarks : (deniedMarks.any fun mark => mark.occursIn e) = false ↔
      ∀ mark ∈ deniedMarks, ¬mark <:+: e.map lowerLetter := by
    rw [List.any_eq_false]
    refine forall₂_congr fun mark hmark => ?_
    rw [occursIn_iff, infix_map_lowerLetter_iff (not_letter_of_mark hmark)]
  have hwords : (deniedWords.any fun word => containsWord (e.map lowerLetter) word) = false ↔
      ∀ word ∈ deniedWords, word ∉ runs isWordUnit (e.map lowerLetter) := by
    rw [List.any_eq_false]
    refine forall₂_congr fun word hword => ?_
    rw [containsWord_iff (isWordUnit_of_denied hword)]
  have hfragments : (deniedFragments.any fun fragment =>
      fragment.occursIn (e.map lowerLetter)) = false ↔
      ∀ fragment ∈ deniedFragments, ¬fragment <:+: e.map lowerLetter := by
    rw [List.any_eq_false]
    exact forall₂_congr fun fragment _ => by rw [occursIn_iff]
  have hlength : 1 ≤ e.length ↔ e.isEmpty = false := by
    rw [Nat.one_le_iff_ne_zero, ne_eq, List.length_eq_zero_iff, List.isEmpty_eq_false_iff]
  rw [isValid, lower_of_ascii h, ← hmarks, ← hwords, ← hfragments, List.length_map, hlength]
  simp only [Bool.and_eq_true, Bool.not_eq_true', decide_eq_true_eq, and_assoc]

/-- An ASCII expression is accepted by its length, its marks, its words and its fragments. -/
theorem isValid_iff {e : Text} (h : e.IsAscii) :
    isValid e = true ↔
      1 ≤ e.length ∧ e.length ≤ maxLength ∧ (∀ mark ∈ deniedMarks, ¬mark <:+: e) ∧
      (∀ word ∈ deniedWords, ∀ run ∈ e.runs Identifier.isPart, ¬run.SameButCase word) ∧
      ∀ fragment ∈ deniedFragments, ∀ piece : Text, piece <:+: e →
        ¬piece.SameButCase fragment := by
  have hmarks : (∀ mark ∈ deniedMarks, ¬mark <:+: e.map lowerLetter) ↔
      ∀ mark ∈ deniedMarks, ¬mark <:+: e :=
    forall₂_congr fun mark hmark => by
      rw [infix_map_lowerLetter_iff (not_letter_of_mark hmark)]
  have hwords : (∀ word ∈ deniedWords, word ∉ runs isWordUnit (e.map lowerLetter)) ↔
      ∀ word ∈ deniedWords, ∀ run ∈ e.runs Identifier.isPart, ¬run.SameButCase word :=
    forall₂_congr fun word hword => by
      have hlower := map_lowerLetter_of_denied (List.mem_append_left deniedFragments hword)
      simp only [runs_map isWordUnit_lowerLetter, List.mem_map, sameButCase_iff, hlower,
        not_exists, not_and]
  have hfragments : (∀ fragment ∈ deniedFragments, ¬fragment <:+: e.map lowerLetter) ↔
      ∀ fragment ∈ deniedFragments, ∀ piece : Text, piece <:+: e →
        ¬piece.SameButCase fragment :=
    forall₂_congr fun fragment hfragment => by
      have hlower := map_lowerLetter_of_denied (List.mem_append_right deniedWords hfragment)
      simp only [List.infix_map_iff, sameButCase_iff, hlower, not_exists, not_and, eq_comm]
  rw [isValid_iff_lower h, hmarks, hwords, hfragments, List.length_map]

/-- The case of letters does not decide whether an expression is accepted. -/
theorem isValid_congr {e e' : Text} (h : e.IsAscii) (hcase : e.SameButCase e') :
    isValid e = isValid e' := by
  have hlower := sameButCase_iff.mp hcase
  have h' : e'.IsAscii := isAscii_of_sameButCase h hcase
  rw [Bool.eq_iff_iff, isValid_iff_lower h, isValid_iff_lower h', hlower]

/-- The search for a word is the splitting into words, whatever the text and whatever word it looks
for. So an ASCII expression is accepted if and only if it has one to a thousand units, no denied
mark in it, no denied word among its words and no denied fragment, the last two whatever their case;
and it is accepted in one case if it is in another. -/
theorem isValid_spec :
    (∀ t word : Text, (∀ c ∈ word, isWordUnit c = true) →
      (containsWord t word = true ↔ word ∈ t.runs isWordUnit)) ∧
    (∀ e : Text, e.IsAscii →
      (isValid e = true ↔
        1 ≤ e.length ∧ e.length ≤ 1000 ∧ (∀ mark ∈ deniedMarks, ¬mark <:+: e) ∧
        (∀ word ∈ deniedWords, ∀ run ∈ e.runs Identifier.isPart, ¬run.SameButCase word) ∧
        ∀ fragment ∈ deniedFragments, ∀ piece : Text, piece <:+: e →
          ¬piece.SameButCase fragment)) ∧
    ∀ e e' : Text, e.IsAscii → e.SameButCase e' → isValid e = isValid e' :=
  ⟨fun t _ hword => containsWord_iff hword t, fun _ => isValid_iff, fun _ _ => isValid_congr⟩

/-- A denied word is found behind one that only looks like it, and not within one; a column whose
name holds a denied word is accepted in either case. -/
theorem isValid_spec_of_lookalike :
    let t : Text := "last_update+update"
    let e : Text := "Last_Update * 2"
    let e' : Text := "LAST_UPDATE * 2"
    (containsWord t "update" = true ∧ Text.ofString "update" ∈ t.runs isWordUnit) ∧
      e.IsAscii ∧ isValid e = true ∧ e.SameButCase e' ∧ isValid e' = true := by
  intro t e e'
  obtain ⟨hsearch, -, hcases⟩ := isValid_spec
  have hword : ∀ c ∈ Text.ofString "update", isWordUnit c = true :=
    isWordUnit_of_denied (by decide +kernel)
  have hrun : Text.ofString "update" ∈ t.runs isWordUnit := by decide +kernel
  have hascii : e.IsAscii := by
    have hall : (e.all fun c => c < 128) = true := by decide +kernel
    exact fun c hc => by simpa using List.all_eq_true.mp hall c hc
  have hcase : e.SameButCase e' := sameButCase_iff.mpr (by decide +kernel)
  have hvalid : isValid e = true := by decide +kernel
  exact ⟨⟨(hsearch t _ hword).mpr hrun, hrun⟩, hascii, hvalid, hcase,
    (hcases e e' hascii hcase).symm.trans hvalid⟩

end Expression
end BoundSql
