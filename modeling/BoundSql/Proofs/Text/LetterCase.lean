import BoundSql.Text.Basic
import Mathlib

/-!
# Letters in two cases

The ASCII letters have two cases, 32 apart. Two texts differ in nothing but case
exactly if they are the same once all letters are in lower case.
-/
namespace BoundSql.Text

/-- Are two units the same, or the same letter in two cases? -/
def SameLetter (c d : UInt16) : Prop :=
  c = d ∨ isUpper c = true ∧ d = c + 32 ∨ isUpper d = true ∧ c = d + 32

/-- Are two texts the same but for the case of letters? -/
def SameButCase (t u : Text) : Prop := List.Forall₂ SameLetter t u

def IsAscii (t : Text) : Prop := ∀ c ∈ t, c < 128

/-- A letter in lower case, and every other unit as it is. -/
def lowerLetter (c : UInt16) : UInt16 := if isUpper c then c + 32 else c

lemma isUpper_iff {c : UInt16} : isUpper c = true ↔ 65 ≤ c.toNat ∧ c.toNat ≤ 90 := by
  rw [isUpper, Bool.and_eq_true, decide_eq_true_eq, decide_eq_true_eq, UInt16.le_iff_toNat_le,
    UInt16.le_iff_toNat_le]
  rfl

lemma isLower_iff {c : UInt16} : isLower c = true ↔ 97 ≤ c.toNat ∧ c.toNat ≤ 122 := by
  rw [isLower, Bool.and_eq_true, decide_eq_true_eq, decide_eq_true_eq, UInt16.le_iff_toNat_le,
    UInt16.le_iff_toNat_le]
  rfl

/-- The two cases of a letter are 32 apart. -/
lemma toNat_lowerLetter_of_isUpper {c : UInt16} (h : isUpper c = true) :
    (lowerLetter c).toNat = c.toNat + 32 := by
  obtain ⟨-, hmost⟩ := isUpper_iff.mp h
  rw [lowerLetter, if_pos h, UInt16.toNat_add, Nat.mod_eq_of_lt (by simp; omega)]
  rfl

lemma lowerLetter_of_not_isUpper {c : UInt16} (h : ¬isUpper c = true) : lowerLetter c = c :=
  if_neg h

lemma isLower_lowerLetter {c : UInt16} (h : isUpper c = true) : isLower (lowerLetter c) = true := by
  obtain ⟨hleast, hmost⟩ := isUpper_iff.mp h
  rw [isLower_iff, toNat_lowerLetter_of_isUpper h]
  omega

lemma not_isUpper_of_isLower {c : UInt16} (h : isLower c = true) : ¬isUpper c = true := by
  rw [isUpper_iff]
  have := isLower_iff.mp h
  omega

@[simp] lemma lowerLetter_lowerLetter (c : UInt16) :
    lowerLetter (lowerLetter c) = lowerLetter c := by
  by_cases h : isUpper c = true
  · exact lowerLetter_of_not_isUpper (not_isUpper_of_isLower (isLower_lowerLetter h))
  · rw [lowerLetter_of_not_isUpper h, lowerLetter_of_not_isUpper h]

/-- A text without letters in upper case is its own lower-case form. -/
lemma map_lowerLetter {t : Text} (h : ∀ c ∈ t, isUpper c = false) : t.map lowerLetter = t := by
  induction t with
  | nil => rfl
  | cons c rest ih =>
    obtain ⟨hc, hrest⟩ := List.forall_mem_cons.mp h
    rw [List.map_cons, ih hrest, lowerLetter_of_not_isUpper (by simp [hc])]

lemma sameLetter_iff {c d : UInt16} : SameLetter c d ↔ lowerLetter c = lowerLetter d := by
  constructor
  · rintro (rfl | ⟨h, rfl⟩ | ⟨h, rfl⟩)
    · rfl
    · have hlower : c + 32 = lowerLetter c := (if_pos h).symm
      rw [hlower, lowerLetter_lowerLetter]
    · have hlower : d + 32 = lowerLetter d := (if_pos h).symm
      rw [hlower, lowerLetter_lowerLetter]
  · intro h
    by_cases hc : isUpper c = true <;> by_cases hd : isUpper d = true
    · refine .inl (UInt16.toNat_inj.mp ?_)
      have hsum := congrArg UInt16.toNat h
      rw [toNat_lowerLetter_of_isUpper hc, toNat_lowerLetter_of_isUpper hd] at hsum
      omega
    · rw [lowerLetter_of_not_isUpper hd] at h
      exact .inr (.inl ⟨hc, h.symm.trans (if_pos hc)⟩)
    · rw [lowerLetter_of_not_isUpper hc] at h
      exact .inr (.inr ⟨hd, h.trans (if_pos hd)⟩)
    · rw [lowerLetter_of_not_isUpper hc, lowerLetter_of_not_isUpper hd] at h
      exact .inl h

/-- Texts are the same but for case if their lower-case forms are the same. -/
theorem sameButCase_iff {t u : Text} :
    SameButCase t u ↔ t.map lowerLetter = u.map lowerLetter := by
  have hletters : SameLetter = fun c d => lowerLetter c = lowerLetter d :=
    funext fun c => funext fun d => propext sameLetter_iff
  rw [SameButCase, hletters, ← List.forall₂_eq_eq_eq, List.forall₂_map_left_iff,
    List.forall₂_map_right_iff]

/-- Changing the case of letters stays within ASCII. -/
lemma isAscii_of_sameButCase {t u : Text} (h : t.IsAscii) (hcase : t.SameButCase u) :
    u.IsAscii := by
  induction hcase with
  | nil => exact h
  | @cons c d t u hletter _ ih =>
    obtain ⟨hc, ht⟩ := List.forall_mem_cons.mp h
    refine List.forall_mem_cons.mpr ⟨?_, ih ht⟩
    rcases hletter with rfl | ⟨hupper, rfl⟩ | ⟨hupper, -⟩
    · exact hc
    · have hsum := toNat_lowerLetter_of_isUpper hupper
      rw [lowerLetter, if_pos hupper] at hsum
      have hmost := (isUpper_iff.mp hupper).2
      rw [UInt16.lt_iff_toNat_lt, hsum]
      exact Nat.lt_of_le_of_lt (Nat.add_le_add_right hmost 32) (by decide)
    · exact UInt16.lt_iff_toNat_lt.mpr ((isUpper_iff.mp hupper).2.trans_lt (by decide))

end BoundSql.Text
