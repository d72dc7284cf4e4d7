import BoundSql.Text.Utf8
import Mathlib

/-!
# Reading UTF-8 back

A text whose surrogates stand in pairs is the spelling of a list of scalar
values. Such a text loses nothing when it is written as bytes: each scalar value
has one form that the strict reader takes, and the forms follow one another
without marks between them.
-/
namespace BoundSql.Text

lemma isHighSurrogate_iff {c : UInt16} :
    isHighSurrogate c = true ↔ 0xD800 ≤ c.toNat ∧ c.toNat ≤ 0xDBFF := by
  simp [isHighSurrogate, UInt16.le_iff_toNat_le]

lemma isLowSurrogate_iff {c : UInt16} :
    isLowSurrogate c = true ↔ 0xDC00 ≤ c.toNat ∧ c.toNat ≤ 0xDFFF := by
  simp [isLowSurrogate, UInt16.le_iff_toNat_le]

lemma surrogate_of_lt {c : UInt16} (h : c.toNat < 0xD800) :
    isHighSurrogate c = false ∧ isLowSurrogate c = false := by
  rw [← Bool.not_eq_true, ← Bool.not_eq_true, isHighSurrogate_iff, isLowSurrogate_iff]
  omega

/-- A code point that is no surrogate. -/
def IsScalar (n : ℕ) : Prop := n < 0xD800 ∨ 0xDFFF < n ∧ n < 0x110000

/-- A text without half a surrogate pair. -/
def Paired (t : Text) : Prop := ∃ ns : List ℕ, (∀ n ∈ ns, IsScalar n) ∧ t = ns.flatMap ofScalar

lemma paired_nil : Paired [] := ⟨[], by simp, rfl⟩

lemma Paired.append {t u : Text} (ht : Paired t) (hu : Paired u) : Paired (t ++ u) := by
  obtain ⟨ns, hns, rfl⟩ := ht
  obtain ⟨ms, hms, rfl⟩ := hu
  refine ⟨ns ++ ms, ?_, List.flatMap_append.symm⟩
  intro n hn
  exact (List.mem_append.mp hn).elim (hns n) (hms n)

lemma ofScalar_toNat (c : UInt16) : ofScalar c.toNat = [c] := by
  rw [ofScalar, if_pos c.toNat_lt, UInt16.ofNat_toNat]

lemma ofScalar_pair {c d : UInt16} (hc : isHighSurrogate c = true) (hd : isLowSurrogate d = true) :
    ofScalar (0x10000 + (c.toNat - 0xD800) * 0x400 + (d.toNat - 0xDC00)) = [c, d] := by
  rw [isHighSurrogate_iff] at hc
  rw [isLowSurrogate_iff] at hd
  obtain ⟨n, hn⟩ : ∃ n, 0x10000 + (c.toNat - 0xD800) * 0x400 + (d.toNat - 0xDC00) = n := ⟨_, rfl⟩
  have hfirst : 0xD800 + (n - 0x10000) / 0x400 = c.toNat := by omega
  have hsecond : 0xDC00 + (n - 0x10000) % 0x400 = d.toNat := by omega
  rw [hn, ofScalar, if_neg (show ¬ n < 0x10000 by omega), hfirst, hsecond, UInt16.ofNat_toNat,
    UInt16.ofNat_toNat]

lemma isScalar_unit {c : UInt16} (h : (isHighSurrogate c || isLowSurrogate c) = false) :
    IsScalar c.toNat := by
  rw [Bool.or_eq_false_iff, ← Bool.not_eq_true, ← Bool.not_eq_true, isHighSurrogate_iff,
    isLowSurrogate_iff] at h
  have hc := c.toNat_lt
  unfold IsScalar
  omega

lemma isScalar_pair {c d : UInt16} (hc : isHighSurrogate c = true) (hd : isLowSurrogate d = true) :
    IsScalar (0x10000 + (c.toNat - 0xD800) * 0x400 + (d.toNat - 0xDC00)) := by
  rw [isHighSurrogate_iff] at hc
  rw [isLowSurrogate_iff] at hd
  unfold IsScalar
  omega

lemma paired_unit {c : UInt16} (hhigh : isHighSurrogate c = false)
    (hlow : isLowSurrogate c = false) : Paired [c] := by
  refine ⟨[c.toNat], List.forall_mem_singleton.mpr (isScalar_unit (by rw [hhigh, hlow]; rfl)), ?_⟩
  rw [List.flatMap_singleton, ofScalar_toNat]

lemma paired_pair {c d : UInt16} (hc : isHighSurrogate c = true) (hd : isLowSurrogate d = true) :
    Paired [c, d] := by
  refine ⟨[_], List.forall_mem_singleton.mpr (isScalar_pair hc hd), ?_⟩
  rw [List.flatMap_singleton, ofScalar_pair hc hd]

lemma paired_of_ascii {t : Text} (h : ∀ c ∈ t, c.toNat < 0x80) : Paired t := by
  induction t with
  | nil => exact paired_nil
  | cons c t ih =>
    have hc := h c List.mem_cons_self
    obtain ⟨hhigh, hlow⟩ := surrogate_of_lt (show c.toNat < 0xD800 by omega)
    exact (paired_unit hhigh hlow).append (ih fun d hd => h d (List.mem_cons_of_mem c hd))

lemma scalars_cons {c : UInt16} (hhigh : isHighSurrogate c = false)
    (hlow : isLowSurrogate c = false) (t : Text) : scalars (c :: t) = c.toNat :: scalars t := by
  cases t with
  | nil => simp [scalars, hhigh, hlow]
  | cons d t => simp [scalars, hhigh, hlow]

/-- The spelling of a scalar value is read as that value. -/
lemma scalars_ofScalar_append {n : ℕ} (hn : IsScalar n) (t : Text) :
    scalars (ofScalar n ++ t) = n :: scalars t := by
  unfold IsScalar at hn
  by_cases hplane : n < 0x10000
  · have hunit : (UInt16.ofNat n).toNat = n := by
      rw [UInt16.toNat_ofNat']
      omega
    have hhigh : isHighSurrogate (UInt16.ofNat n) = false := by
      rw [← Bool.not_eq_true, isHighSurrogate_iff, hunit]
      omega
    have hlow : isLowSurrogate (UInt16.ofNat n) = false := by
      rw [← Bool.not_eq_true, isLowSurrogate_iff, hunit]
      omega
    rw [ofScalar, if_pos hplane, List.singleton_append, scalars_cons hhigh hlow, hunit]
  · have hfirst : (UInt16.ofNat (0xD800 + (n - 0x10000) / 0x400)).toNat =
        0xD800 + (n - 0x10000) / 0x400 := by
      rw [UInt16.toNat_ofNat']
      omega
    have hsecond : (UInt16.ofNat (0xDC00 + (n - 0x10000) % 0x400)).toNat =
        0xDC00 + (n - 0x10000) % 0x400 := by
      rw [UInt16.toNat_ofNat']
      omega
    have hhigh : isHighSurrogate (UInt16.ofNat (0xD800 + (n - 0x10000) / 0x400)) = true := by
      rw [isHighSurrogate_iff, hfirst]
      omega
    have hlow : isLowSurrogate (UInt16.ofNat (0xDC00 + (n - 0x10000) % 0x400)) = true := by
      rw [isLowSurrogate_iff, hsecond]
      omega
    have hvalue : 0x10000 + (0xD800 + (n - 0x10000) / 0x400 - 0xD800) * 0x400 +
        (0xDC00 + (n - 0x10000) % 0x400 - 0xDC00) = n := by omega
    rw [ofScalar, if_neg hplane, List.cons_append, List.singleton_append, scalars, hhigh, hlow,
      hfirst, hsecond, hvalue, Bool.and_self, if_pos rfl]

theorem scalars_spelled {ns : List ℕ} (h : ∀ n ∈ ns, IsScalar n) :
    scalars (ns.flatMap ofScalar) = ns := by
  induction ns with
  | nil => rfl
  | cons n ns ih =>
    rw [List.flatMap_cons, scalars_ofScalar_append (h n List.mem_cons_self),
      ih fun m hm => h m (List.mem_cons_of_mem n hm)]

namespace Utf8

lemma toNat_byte {n : ℕ} (h : n < 256) : (UInt8.ofNat n).toNat = n := by
  rw [UInt8.toNat_ofNat']
  omega

lemma isTail_byte {n : ℕ} (hlo : 0x80 ≤ n) (hhi : n < 0xC0) : isTail (UInt8.ofNat n) = true := by
  simp only [isTail, Bool.and_eq_true, decide_eq_true_eq, UInt8.le_iff_toNat_le,
    toNat_byte (show n < 256 by omega), UInt8.reduceToNat]
  omega

lemma decodeScalar_one {a : UInt8} (ha : a.toNat < 0x80) (rest : List UInt8) :
    decodeScalar (a :: rest) = some (a.toNat, rest) := by
  have h : a < 0x80 := UInt8.lt_iff_toNat_lt.mpr ha
  simp only [decodeScalar, h, if_true]

lemma decodeScalar_two {a b : UInt8} (hlo : 0xC2 ≤ a.toNat) (hhi : a.toNat ≤ 0xDF)
    (hb : isTail b = true) (rest : List UInt8) : decodeScalar (a :: b :: rest) =
      some ((a.toNat - 0xC0) * 0x40 + (b.toNat - 0x80), rest) := by
  have h₁ : ¬ a < 0x80 := fun h => by
    have : a.toNat < 0x80 := UInt8.lt_iff_toNat_lt.mp h
    omega
  have h₂ : 0xC2 ≤ a := UInt8.le_iff_toNat_le.mpr hlo
  have h₃ : a ≤ 0xDF := UInt8.le_iff_toNat_le.mpr hhi
  simp only [decodeScalar, h₁, h₂, h₃, hb, if_false, if_true, decide_true, Bool.and_self]

lemma decodeScalar_three {a b c : UInt8} {n : ℕ} (hlo : 0xE0 ≤ a.toNat) (hhi : a.toNat ≤ 0xEF)
    (hb : isTail b = true) (hc : isTail c = true) (hshort : 0x800 ≤ n) (hn : IsScalar n)
    (hvalue : (a.toNat - 0xE0) * 0x1000 + (b.toNat - 0x80) * 0x40 + (c.toNat - 0x80) = n)
    (rest : List UInt8) : decodeScalar (a :: b :: c :: rest) = some (n, rest) := by
  unfold IsScalar at hn
  have h₁ : ¬ a < 0x80 := fun h => by
    have : a.toNat < 0x80 := UInt8.lt_iff_toNat_lt.mp h
    omega
  have h₂ : ¬ a ≤ 0xDF := fun h => by
    have : a.toNat ≤ 0xDF := UInt8.le_iff_toNat_le.mp h
    omega
  have h₃ : 0xE0 ≤ a := UInt8.le_iff_toNat_le.mpr hlo
  have h₄ : a ≤ 0xEF := UInt8.le_iff_toNat_le.mpr hhi
  have h₅ : ¬ (0xD800 ≤ n ∧ n ≤ 0xDFFF) := by omega
  simp only [decodeScalar, h₁, h₂, h₃, h₄, hb, hc, hvalue, hshort, if_false, if_true, decide_true,
    decide_false, Bool.and_false, Bool.and_self, Bool.true_and, Bool.false_eq_true]
  simp [← Bool.decide_and, h₅]

lemma decodeScalar_four {a b c d : UInt8} {n : ℕ} (hlo : 0xF0 ≤ a.toNat) (hhi : a.toNat ≤ 0xF4)
    (hb : isTail b = true) (hc : isTail c = true) (hd : isTail d = true) (hshort : 0x10000 ≤ n)
    (hn : IsScalar n) (hvalue : (a.toNat - 0xF0) * 0x40000 + (b.toNat - 0x80) * 0x1000 +
      (c.toNat - 0x80) * 0x40 + (d.toNat - 0x80) = n)
    (rest : List UInt8) : decodeScalar (a :: b :: c :: d :: rest) = some (n, rest) := by
  unfold IsScalar at hn
  have h₁ : ¬ a < 0x80 := fun h => by
    have : a.toNat < 0x80 := UInt8.lt_iff_toNat_lt.mp h
    omega
  have h₂ : ¬ a ≤ 0xDF := fun h => by
    have : a.toNat ≤ 0xDF := UInt8.le_iff_toNat_le.mp h
    omega
  have h₃ : ¬ a ≤ 0xEF := fun h => by
    have : a.toNat ≤ 0xEF := UInt8.le_iff_toNat_le.mp h
    omega
  have h₄ : 0xF0 ≤ a := UInt8.le_iff_toNat_le.mpr hlo
  have h₅ : a ≤ 0xF4 := UInt8.le_iff_toNat_le.mpr hhi
  have h₆ : n ≤ 0x10FFFF := by omega
  simp only [decodeScalar, h₁, h₂, h₃, h₄, h₅, h₆, hb, hc, hd, hvalue, hshort, if_false, if_true,
    decide_true, decide_false, Bool.and_false, Bool.and_self, Bool.false_eq_true]

/-- The strict reader takes the bytes of a scalar value, and nothing that follows them. -/
lemma decodeScalar_encodeScalar {n : ℕ} (hn : IsScalar n) (rest : List UInt8) :
    decodeScalar (encodeScalar n ++ rest) = some (n, rest) := by
  have htop : n < 0x110000 := by
    unfold IsScalar at hn
    omega
  unfold encodeScalar
  split_ifs with h₁ h₂ h₃
  · have hone := toNat_byte (show n < 256 by omega)
    rw [List.singleton_append, decodeScalar_one (by omega), hone]
  · have hlead := toNat_byte (show 0xC0 + n / 0x40 < 256 by omega)
    have hlast := toNat_byte (show 0x80 + n % 0x40 < 256 by omega)
    have hvalue : (0xC0 + n / 0x40 - 0xC0) * 0x40 + (0x80 + n % 0x40 - 0x80) = n := by omega
    rw [List.cons_append, List.singleton_append, decodeScalar_two (by omega) (by omega)
      (isTail_byte (by omega) (by omega)), hlead, hlast, hvalue]
  · have hlead := toNat_byte (show 0xE0 + n / 0x1000 < 256 by omega)
    have hmid := toNat_byte (show 0x80 + n / 0x40 % 0x40 < 256 by omega)
    have hlast := toNat_byte (show 0x80 + n % 0x40 < 256 by omega)
    apply decodeScalar_three (n := n)
    · omega
    · omega
    · exact isTail_byte (by omega) (by omega)
    · exact isTail_byte (by omega) (by omega)
    · omega
    · exact hn
    · rw [hlead, hmid, hlast]
      omega
  · have hlead := toNat_byte (show 0xF0 + n / 0x40000 < 256 by omega)
    have hsecond := toNat_byte (show 0x80 + n / 0x1000 % 0x40 < 256 by omega)
    have hthird := toNat_byte (show 0x80 + n / 0x40 % 0x40 < 256 by omega)
    have hlast := toNat_byte (show 0x80 + n % 0x40 < 256 by omega)
    apply decodeScalar_four (n := n)
    · omega
    · omega
    · exact isTail_byte (by omega) (by omega)
    · exact isTail_byte (by omega) (by omega)
    · exact isTail_byte (by omega) (by omega)
    · omega
    · exact hn
    · rw [hlead, hsecond, hthird, hlast]
      omega

theorem decodeScalars_encoded {ns : List ℕ} (h : ∀ n ∈ ns, IsScalar n) :
    decodeScalars (ns.flatMap encodeScalar) = some ns := by
  induction ns with
  | nil => rw [List.flatMap_nil, decodeScalars]; rfl
  | cons n ns ih =>
    have hread := decodeScalar_encodeScalar (h n List.mem_cons_self) (ns.flatMap encodeScalar)
    have hrest := ih fun m hm => h m (List.mem_cons_of_mem n hm)
    have hlen := length_of_decodeScalar hread
    have hsome : (encodeScalar n ++ ns.flatMap encodeScalar).isEmpty = false := by
      rw [List.isEmpty_eq_false_iff, ← List.length_pos_iff]
      omega
    rw [List.flatMap_cons, decodeScalars, hsome, if_neg Bool.false_ne_true]
    split
    next hnone => simp [hread] at hnone
    next m rest hsome =>
      obtain ⟨rfl, rfl⟩ : n = m ∧ ns.flatMap encodeScalar = rest := by simpa [hread] using hsome
      rw [hrest, Option.map_some]

/-- A text of whole characters comes back, unless a byte order mark stands at its front. -/
theorem decode?_encode {c : UInt16} {t : Text} (h : Paired (c :: t)) (hmark : c ≠ 0xFEFF) :
    decode? (encode (c :: t)) = some (c :: t) := by
  obtain ⟨ns, hns, ht⟩ := h
  have hfirst : ∀ ms, ns ≠ 0xFEFF :: ms := by
    rintro ms rfl
    have hc : c = 0xFEFF ∧ t = ms.flatMap ofScalar := by simpa [ofScalar] using ht
    exact hmark hc.1
  rw [decode?, encode, ht, scalars_spelled hns, decodeScalars_encoded hns, Option.map_some]
  split
  next ms => exact absurd rfl (hfirst ms)
  next => rfl

/-- A text of single-byte units has as many bytes as units. -/
theorem size_of_ascii {t : Text} (h : ∀ c ∈ t, c.toNat < 0x80) : size t = t.length := by
  induction t with
  | nil => rfl
  | cons c t ih =>
    have hc := h c List.mem_cons_self
    have ht := ih fun d hd => h d (List.mem_cons_of_mem c hd)
    obtain ⟨hhigh, hlow⟩ := surrogate_of_lt (show c.toNat < 0xD800 by omega)
    rw [size, encode] at ht ⊢
    rw [scalars_cons hhigh hlow, List.flatMap_cons, List.length_append, ht, encodeScalar,
      if_pos hc, List.length_singleton, List.length_cons, Nat.add_comm]

end Utf8

end BoundSql.Text
