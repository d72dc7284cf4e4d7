import BoundSql.Proofs.Text.Utf8

/-!
# Well-formed UTF-8

The byte sequences of UTF-8 by ranges of bytes. After four first bytes the range
of the second is narrower, and that is all it takes to leave out overlong forms,
surrogates and values above U+10FFFF, so no value is mentioned here. The strict
reader, which computes a value first and checks it afterwards, takes exactly
these sequences.
-/
namespace BoundSql.Text.Utf8

/-- A byte between two bounds, both included. -/
def Within (low high : ℕ) (b : UInt8) : Prop := low ≤ b.toNat ∧ b.toNat ≤ high

/-- A byte that is not the first of its character. -/
def Tail (b : UInt8) : Prop := Within 0x80 0xBF b

/-- The second byte of a character of three or four bytes, given the first. -/
structure Second (a b : UInt8) : Prop where
  tail : Tail b
  noShorterThanThree : a.toNat = 0xE0 → 0xA0 ≤ b.toNat
  noSurrogate : a.toNat = 0xED → b.toNat ≤ 0x9F
  noShorterThanFour : a.toNat = 0xF0 → 0x90 ≤ b.toNat
  notAbove : a.toNat = 0xF4 → b.toNat ≤ 0x8F

/-- The bytes of one character. -/
inductive Form : List UInt8 → Prop
  | one {a : UInt8} (ha : Within 0x00 0x7F a) : Form [a]
  | two {a b : UInt8} (ha : Within 0xC2 0xDF a) (hb : Tail b) : Form [a, b]
  | three {a b c : UInt8} (ha : Within 0xE0 0xEF a) (hb : Second a b) (hc : Tail c) :
    Form [a, b, c]
  | four {a b c d : UInt8} (ha : Within 0xF0 0xF4 a) (hb : Second a b) (hc : Tail c)
    (hd : Tail d) : Form [a, b, c, d]

/-- Bytes that are those of characters, one after another. -/
inductive WellFormed : List UInt8 → Prop
  | nil : WellFormed []
  | cons {front rest : List UInt8} (first : Form front) (others : WellFormed rest) :
    WellFormed (front ++ rest)

lemma isTail_iff {b : UInt8} : isTail b = true ↔ Tail b := by
  simp [isTail, Tail, Within, UInt8.le_iff_toNat_le]

/-- A value that needs three bytes and is no surrogate leaves the second byte its range. -/
lemma second_of_three {a b c : UInt8} (ha : Within 0xE0 0xEF a) (hb : Tail b) (hc : Tail c)
    {n : ℕ} (hn : (a.toNat - 0xE0) * 0x1000 + (b.toNat - 0x80) * 0x40 + (c.toNat - 0x80) = n) :
    Second a b ↔ 0x800 ≤ n ∧ IsScalar n := by
  unfold IsScalar
  have hb' := hb
  unfold Within at ha
  unfold Tail Within at hb' hc
  constructor
  · rintro ⟨-, h₁, h₂, -, -⟩
    omega
  · rintro ⟨hlow, hscalar⟩
    exact ⟨hb, by omega, by omega, by omega, by omega⟩

/-- A value that needs four bytes and is not too large leaves the second byte its range. -/
lemma second_of_four {a b c d : UInt8} (ha : Within 0xF0 0xF4 a) (hb : Tail b) (hc : Tail c)
    (hd : Tail d) {n : ℕ} (hn : (a.toNat - 0xF0) * 0x40000 + (b.toNat - 0x80) * 0x1000 +
      (c.toNat - 0x80) * 0x40 + (d.toNat - 0x80) = n) :
    Second a b ↔ 0x10000 ≤ n ∧ n ≤ 0x10FFFF := by
  have hb' := hb
  unfold Within at ha
  unfold Tail Within at hb' hc hd
  constructor
  · rintro ⟨-, -, -, h₁, h₂⟩
    omega
  · rintro ⟨hlow, hhigh⟩
    exact ⟨hb, by omega, by omega, by omega, by omega⟩

/-- What the reader takes from the front of some bytes are the bytes of a character. -/
theorem form_of_decodeScalar {bytes rest : List UInt8} {n : ℕ}
    (h : decodeScalar bytes = some (n, rest)) : ∃ front, Form front ∧ bytes = front ++ rest := by
  unfold decodeScalar at h
  split at h
  · cases h
  next a more =>
    simp only [UInt8.lt_iff_toNat_lt, UInt8.le_iff_toNat_le, UInt8.reduceToNat, Bool.and_eq_true,
      decide_eq_true_eq] at h
    split_ifs at h with h₁ h₂ h₃ h₄
    · obtain ⟨-, rfl⟩ := Prod.mk.inj (Option.some.inj h)
      exact ⟨[a], .one ⟨Nat.zero_le _, Nat.le_of_lt_succ h₁⟩, rfl⟩
    · split at h
      next b more =>
        split_ifs at h with hb
        obtain ⟨-, rfl⟩ := Prod.mk.inj (Option.some.inj h)
        exact ⟨[a, b], .two h₂ (isTail_iff.mp hb), rfl⟩
      next => cases h
    · split at h
      next b c more =>
        split_ifs at h with hvalue
        obtain ⟨-, rfl⟩ := Prod.mk.inj (Option.some.inj h)
        simp only [isTail_iff, Bool.not_eq_true', Bool.and_eq_false_iff,
          decide_eq_false_iff_not] at hvalue
        obtain ⟨⟨⟨hb, hc⟩, hlow⟩, hscalar⟩ := hvalue
        refine ⟨[a, b, c], .three h₃ ((second_of_three h₃ hb hc rfl).mpr ⟨hlow, ?_⟩) hc, rfl⟩
        unfold IsScalar
        unfold Tail Within at hb hc
        omega
      next => cases h
    · split at h
      next b c d more =>
        split_ifs at h with hvalue
        obtain ⟨-, rfl⟩ := Prod.mk.inj (Option.some.inj h)
        simp only [isTail_iff] at hvalue
        obtain ⟨⟨⟨⟨hb, hc⟩, hd⟩, hlow⟩, hhigh⟩ := hvalue
        exact ⟨[a, b, c, d],
          .four h₄ ((second_of_four h₄ hb hc hd rfl).mpr ⟨hlow, hhigh⟩) hc hd, rfl⟩
      next => cases h

/-- The bytes of a character are taken, and nothing that follows them. -/
theorem exists_of_form {front : List UInt8} (h : Form front) (rest : List UInt8) :
    ∃ n, decodeScalar (front ++ rest) = some (n, rest) := by
  cases h with
  | one ha => exact ⟨_, decodeScalar_one (Nat.lt_succ_of_le ha.2) rest⟩
  | two ha hb => exact ⟨_, decodeScalar_two ha.1 ha.2 (isTail_iff.mpr hb) rest⟩
  | three ha hb hc =>
    obtain ⟨hlow, hscalar⟩ := (second_of_three ha hb.tail hc rfl).mp hb
    exact ⟨_, decodeScalar_three ha.1 ha.2 (isTail_iff.mpr hb.tail) (isTail_iff.mpr hc) hlow hscalar
      rfl rest⟩
  | @four a b c d ha hb hc hd =>
    obtain ⟨n, hn⟩ : ∃ n, (a.toNat - 0xF0) * 0x40000 + (b.toNat - 0x80) * 0x1000 +
      (c.toNat - 0x80) * 0x40 + (d.toNat - 0x80) = n := ⟨_, rfl⟩
    obtain ⟨hlow, hhigh⟩ := (second_of_four ha hb.tail hc hd hn).mp hb
    have hscalar : IsScalar n := by
      unfold IsScalar
      omega
    exact ⟨n, decodeScalar_four ha.1 ha.2 (isTail_iff.mpr hb.tail) (isTail_iff.mpr hc)
      (isTail_iff.mpr hd) hlow hscalar hn rest⟩

lemma Form.ne_nil {front : List UInt8} (h : Form front) : front ≠ [] := by
  cases h <;> exact List.cons_ne_nil _ _

lemma decodeScalars_of_ne_nil {bytes : List UInt8} (h : bytes ≠ []) :
    decodeScalars bytes =
      (decodeScalar bytes).bind fun read => (decodeScalars read.2).map (read.1 :: ·) := by
  rw [decodeScalars, if_neg (by simpa using h)]
  split
  next hread => rw [hread, Option.bind_none]
  next n rest hread =>
    have hbind : ∀ f : ℕ × List UInt8 → Option (List ℕ),
        (decodeScalar bytes).bind f = f (n, rest) := fun f => by rw [hread, Option.bind_some]
    rw [hbind]

/-- The strict reader takes a byte sequence if and only if it is well-formed. -/
theorem isSome_decodeScalars_iff {bytes : List UInt8} :
    (decodeScalars bytes).isSome = true ↔ WellFormed bytes := by
  constructor
  · intro h
    induction hlength : bytes.length using Nat.strong_induction_on generalizing bytes with
    | _ length ih =>
      subst hlength
      by_cases hempty : bytes = []
      · exact hempty ▸ .nil
      rw [decodeScalars_of_ne_nil hempty] at h
      cases hread : decodeScalar bytes with
      | none => simp [hread] at h
      | some read =>
        obtain ⟨n, rest⟩ := read
        rw [hread, Option.bind_some, Option.isSome_map] at h
        have hothers := ih rest.length (length_of_decodeScalar hread) h rfl
        obtain ⟨front, hfront, rfl⟩ := form_of_decodeScalar hread
        exact .cons hfront hothers
  · intro h
    induction h with
    | nil => rw [decodeScalars]; rfl
    | @cons front rest first _ ih =>
      obtain ⟨n, hread⟩ := exists_of_form first rest
      have hne : front ++ rest ≠ [] := List.append_ne_nil_of_left_ne_nil first.ne_nil rest
      rw [decodeScalars_of_ne_nil hne, hread, Option.bind_some, Option.isSome_map]
      exact ih

end BoundSql.Text.Utf8
