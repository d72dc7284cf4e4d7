import BoundSql.Number.Decimal
import Mathlib

/-!
# Integers among binary64 numbers

Parameter numbers are counted in binary64. The integers up to 2^53 are exact
there: rounding meets a multiple of its own step, so sums of small integers are
the integers themselves and their texts are plain numerals. A rank is split into
the power of two of its step and a mantissa, which is where both directions of
rounding are computed.
-/
namespace BoundSql.Double

theorem roundDiv_mul (m : ℕ) {d : ℕ} (hd : 0 < d) : roundDiv (m * d) d = m := by
  have hq : m * d / d = m := Nat.mul_div_cancel m hd
  have hr : m * d % d = 0 := Nat.mul_mod_left m d
  simp [roundDiv, hq, hr, hd]

/-- The exponent of the units in one, kept apart so that nothing computes the power. -/
def unitExponent : ℕ := 1074

theorem unitsPerOne_eq : unitsPerOne = 2 ^ unitExponent := Nat.one_shiftLeft unitExponent

theorem unitsPerOne_pos : 0 < unitsPerOne := by
  rw [unitsPerOne_eq]
  exact Nat.two_pow_pos unitExponent

lemma log2_mul_two_pow {m : ℕ} (hm : m ≠ 0) (e : ℕ) : (m * 2 ^ e).log2 = m.log2 + e := by
  induction e with
  | zero => simp
  | succ e ih =>
    have hne : m * 2 ^ e ≠ 0 := Nat.mul_ne_zero hm (Nat.two_pow_pos e).ne'
    rw [pow_succ, ← mul_assoc, mul_comm (m * 2 ^ e) 2, Nat.log2_two_mul hne, ih, add_assoc]

lemma log2_of_normal {m : ℕ} (hlo : binadeSize ≤ m) (hhi : m < 2 * binadeSize) :
    m.log2 = 52 := by
  have hm : m ≠ 0 := by simp only [binadeSize] at hlo; omega
  rw [Nat.log2_eq_iff hm]
  simp only [binadeSize] at hlo hhi
  omega

lemma log2_of_small {m : ℕ} (hhi : m < 2 * binadeSize) : m.log2 - 52 = 0 := by
  by_cases hm : m = 0
  · simp [hm]
  · have h : m.log2 < 53 := (Nat.log2_lt hm).mpr (by simp only [binadeSize] at hhi; omega)
    omega

/-- A mantissa and the exponent of its step: only the least exponent goes with a small
mantissa. -/
structure Normal (e m : ℕ) : Prop where
  lt : m < 2 * binadeSize
  least : e = 0 ∨ binadeSize ≤ m

/-- Every rank has such parts. -/
theorem exists_normal (r : ℕ) : ∃ e m, Normal e m ∧ r = e * binadeSize + m := by
  refine ⟨r / binadeSize - 1, r - (r / binadeSize - 1) * binadeSize, ⟨?_, ?_⟩, ?_⟩
  · simp only [binadeSize]; omega
  · simp only [binadeSize]; omega
  · simp only [binadeSize]; omega

theorem unitsAt_normal {e m : ℕ} (h : Normal e m) :
    unitsAt (e * binadeSize + m) = m * 2 ^ e := by
  have hlt := h.lt
  have hshift : (e * binadeSize + m) / binadeSize - 1 = e := by
    rcases h.least with he | hm
    · subst he; simp only [binadeSize] at *; omega
    · simp only [binadeSize] at *; omega
  simp only [unitsAt, hshift, Nat.add_sub_cancel_left, Nat.shiftLeft_eq]

theorem rankOf_normal {e m : ℕ} (h : Normal e m) :
    rankOf (m * 2 ^ e) 1 = e * binadeSize + m := by
  have hshift : (m * 2 ^ e).log2 - 52 = e := by
    rcases h.least with he | hm
    · subst he; simpa using log2_of_small h.lt
    · have hne : m ≠ 0 := by simp only [binadeSize] at hm; omega
      rw [log2_mul_two_pow hne, log2_of_normal hm h.lt]
      omega
  have hd : 1 <<< e = 2 ^ e := Nat.one_shiftLeft e
  simp only [rankOf, Nat.div_one, hshift, hd, roundDiv_mul m (Nat.two_pow_pos e)]

/-- Rounding gives a number back from its own value. -/
theorem rankOf_unitsAt (r : ℕ) : rankOf (unitsAt r) 1 = r := by
  obtain ⟨e, m, h, rfl⟩ := exists_normal r
  rw [unitsAt_normal h, rankOf_normal h]

/-- An integer up to 2^53 has a mantissa of its own. -/
lemma exists_normal_nat {n : ℕ} (h0 : n ≠ 0) (hn : n ≤ safeBound) :
    ∃ e m, Normal e m ∧ e ≤ unitExponent + 1 ∧ n * unitsPerOne = m * 2 ^ e := by
  rw [unitsPerOne_eq]
  by_cases htop : n = safeBound
  · refine ⟨unitExponent + 1, binadeSize, ⟨by simp [binadeSize], .inr le_rfl⟩, le_rfl, ?_⟩
    rw [htop, safeBound, pow_succ]
    ring
  · have hlt : n < 2 ^ 53 := by simp only [safeBound, binadeSize] at *; omega
    have hlog : n.log2 < 53 := (Nat.log2_lt h0).mpr hlt
    have hlo : 2 ^ n.log2 ≤ n := Nat.log2_self_le h0
    have hhi : n < 2 ^ (n.log2 + 1) := Nat.lt_log2_self
    have hlo' : 2 ^ n.log2 * 2 ^ (52 - n.log2) ≤ n * 2 ^ (52 - n.log2) :=
      Nat.mul_le_mul_right _ hlo
    have hhi' : n * 2 ^ (52 - n.log2) < 2 ^ (n.log2 + 1) * 2 ^ (52 - n.log2) :=
      (Nat.mul_lt_mul_right (Nat.two_pow_pos _)).mpr hhi
    rw [← pow_add, show n.log2 + (52 - n.log2) = 52 by omega] at hlo'
    rw [← pow_add, show n.log2 + 1 + (52 - n.log2) = 53 by omega] at hhi'
    refine ⟨unitExponent - 52 + n.log2, n * 2 ^ (52 - n.log2), ⟨?_, .inr ?_⟩, ?_, ?_⟩
    · simp only [binadeSize]; omega
    · simp only [binadeSize]; omega
    · simp only [unitExponent]; omega
    · rw [mul_assoc, ← pow_add]
      congr 2
      simp only [unitExponent]
      omega

/-- Integers up to 2^53 are numbers without rounding. -/
theorem ofNat_exact {n : ℕ} (hn : n ≤ safeBound) :
    ∃ r : Fin rankCount, ofNat n = .finite false r ∧ unitsAt r = n * unitsPerOne := by
  by_cases h0 : n = 0
  · subst h0
    exact ⟨⟨0, by simp [rankCount, binadeSize]⟩, by decide, by decide⟩
  · obtain ⟨e, m, h, he, hval⟩ := exists_normal_nat h0 hn
    have hlt : e * binadeSize + m < rankCount := by
      have := h.lt
      simp only [rankCount, binadeSize, unitExponent] at *
      omega
    refine ⟨⟨e * binadeSize + m, hlt⟩, ?_, ?_⟩
    · rw [ofNat, ofUnits, hval]
      simp only [rankOf_normal h, hlt, dite_true]
    · rw [hval]
      exact unitsAt_normal h

theorem ofNat_inj {a b : ℕ} (ha : a ≤ safeBound) (hb : b ≤ safeBound) (h : ofNat a = ofNat b) :
    a = b := by
  obtain ⟨r, hr, hunits⟩ := ofNat_exact ha
  obtain ⟨q, hq, hunits'⟩ := ofNat_exact hb
  rw [hr, hq, finite.injEq] at h
  rw [h.2] at hunits
  exact Nat.eq_of_mul_eq_mul_right (Nat.pos_of_ne_zero (by simp)) (hunits.symm.trans hunits')

/-- A sum of integers up to 2^53 is rounded once. -/
theorem ofNat_add_rounded {a b : ℕ} (ha : a ≤ safeBound) (hb : b ≤ safeBound) :
    (ofNat a).add (ofNat b) = ofNat (a + b) := by
  obtain ⟨r, hr, hru⟩ := ofNat_exact ha
  obtain ⟨q, hq, hqu⟩ := ofNat_exact hb
  rw [hr, hq]
  simp only [add, if_true, hru, hqu, ← Nat.add_mul]
  rfl

theorem ofNat_add {a b : ℕ} (h : a + b ≤ safeBound) :
    (ofNat a).add (ofNat b) = ofNat (a + b) := ofNat_add_rounded (by omega) (by omega)

/-- One past 2^53 is a tie, which goes to 2^53. -/
theorem ofNat_succ_safeBound : ofNat (safeBound + 1) = ofNat safeBound := by decide +kernel

/-- Up to one past 2^53 a sum does not show that its terms were rounded. -/
theorem ofNat_add_of_le_succ {a b : ℕ} (h : a + b ≤ safeBound + 1) :
    (ofNat a).add (ofNat b) = ofNat (a + b) := by
  by_cases ha : a ≤ safeBound
  · by_cases hb : b ≤ safeBound
    · exact ofNat_add_rounded ha hb
    · obtain ⟨rfl, rfl⟩ : a = 0 ∧ b = safeBound + 1 := by omega
      rw [Nat.zero_add, ofNat_succ_safeBound, ofNat_add (Nat.zero_add safeBound).le,
        Nat.zero_add]
  · obtain ⟨rfl, rfl⟩ : a = safeBound + 1 ∧ b = 0 := by omega
    rw [Nat.add_zero, ofNat_succ_safeBound, ofNat_add (Nat.add_zero safeBound).le, Nat.add_zero]

/-- An integer up to 2^53 is written as its numeral. -/
lemma rankText_of_units {r : Fin rankCount} {n : ℕ} (hn : n ≤ safeBound)
    (h : unitsAt r = n * unitsPerOne) : rankText r = Text.ofNat n := by
  have hpos := unitsPerOne_pos
  rw [rankText]
  generalize unitsPerOne = u at h hpos
  have hdiv : unitsAt r / u = n := by rw [h, Nat.mul_div_cancel _ hpos]
  have hmod : unitsAt r % u = 0 := by rw [h, Nat.mul_mod_left]
  simp only [hdiv, hmod, hn, and_self, if_true]

theorem toText_ofNat {n : ℕ} (hn : n ≤ safeBound) : (ofNat n).toText = Text.ofNat n := by
  obtain ⟨r, hr, hru⟩ := ofNat_exact hn
  rw [hr, toText, Bool.false_and, if_neg Bool.false_ne_true, rankText_of_units hn hru]

/-- A number is the rounding of the integer that it is. -/
lemma finite_eq_ofNat {r : Fin rankCount} {n : ℕ} (h : unitsAt r = n * unitsPerOne) :
    .finite false r = ofNat n := by
  have hr : rankOf (n * unitsPerOne) 1 = r := by rw [← h, rankOf_unitsAt]
  simp only [ofNat, ofUnits, hr, r.isLt, dite_true]

@[simp] theorem units?_finite (r : Fin rankCount) :
    units? (.finite false r) = some (unitsAt r : ℤ) := rfl

lemma exact_quotient (u a : ℕ) :
    (if (a : ℤ) % u = 0 then some ((a : ℤ) / u) else none) =
      if a % u = 0 then some ((a / u : ℕ) : ℤ) else none := by
  have h : (a : ℤ) % u = 0 ↔ a % u = 0 := by exact_mod_cast Iff.rfl
  simp only [h, Int.natCast_ediv]

/-- Which numbers that are not negative are integers, and which. -/
theorem toInt?_finite (r : Fin rankCount) :
    toInt? (.finite false r) =
      if unitsAt r % unitsPerOne = 0 then some ((unitsAt r / unitsPerOne : ℕ) : ℤ) else none := by
  rw [toInt?, units?_finite, Option.bind_some]
  exact exact_quotient unitsPerOne (unitsAt r)

/-- An integer up to 2^53 has itself as its exact value. -/
theorem toInt?_ofNat {n : ℕ} (hn : n ≤ safeBound) : (ofNat n).toInt? = some (n : ℤ) := by
  obtain ⟨r, hr, hru⟩ := ofNat_exact hn
  have hpos := unitsPerOne_pos
  rw [hr, toInt?_finite]
  generalize unitsPerOne = one at hru hpos ⊢
  rw [hru, Nat.mul_mod_left, Nat.mul_div_cancel _ hpos, if_pos rfl]

lemma eq_of_toInt?_ofNat {k n : ℕ} (hk : k ≤ safeBound)
    (h : (ofNat k).toInt? = some (n : ℤ)) : n = k := by
  rw [toInt?_ofNat hk, Option.some_inj, Nat.cast_inj] at h
  exact h.symm

/-- Integers up to 2^53 in absolute value are numbers without rounding. -/
theorem ofInt_exact {z : ℤ} (hz : z.natAbs ≤ safeBound) :
    ∃ r : Fin rankCount, ofInt z = .finite (z < 0) r ∧ unitsAt r = z.natAbs * unitsPerOne := by
  obtain ⟨r, hr, hru⟩ := ofNat_exact hz
  have hrank : rankOf (z.natAbs * unitsPerOne) 1 = r := by rw [← hru, rankOf_unitsAt]
  refine ⟨r, ?_, hru⟩
  simp only [ofInt, ofUnits, hrank, r.isLt, dite_true]

theorem toInt?_ofInt {z : ℤ} (hz : z.natAbs ≤ safeBound) : (ofInt z).toInt? = some z := by
  obtain ⟨r, hr, hru⟩ := ofInt_exact hz
  have hpos : (unitsPerOne : ℤ) ≠ 0 := by exact_mod_cast unitsPerOne_pos.ne'
  have hunits : (ofInt z).units? = some (z * unitsPerOne) := by
    rw [hr, units?, hru]
    generalize unitsPerOne = one
    by_cases hneg : z < 0
    · simp only [hneg, decide_true, if_true, Nat.cast_mul, Int.natCast_natAbs, abs_of_neg hneg]
      rw [neg_mul, neg_neg]
    · simp only [hneg, decide_false, Bool.false_eq_true, if_false, Nat.cast_mul,
        Int.natCast_natAbs, abs_of_nonneg (not_lt.mp hneg)]
  rw [toInt?, hunits]
  generalize (unitsPerOne : ℤ) = one at hpos ⊢
  rw [Option.bind_some, Int.mul_emod_left, if_pos rfl, Int.mul_ediv_cancel _ hpos]

lemma unitsAt_rank_one : unitsAt (1023 * binadeSize) = unitsPerOne := by decide

lemma finite_rank_one : finite false ⟨1023 * binadeSize, by decide⟩ = 1 :=
  finite_eq_ofNat (unitsAt_rank_one.trans (Nat.one_mul unitsPerOne).symm)

lemma place_of_one : place? 1 = some (1023 * (binadeSize : ℤ)) := by
  rw [← finite_rank_one]
  rfl

lemma rankOf_zero : rankOf 0 1 = 0 := by decide

/-- The numbers that statements may start to count from. -/
theorem exists_ofNat_of_start {x : Double} (hsafe : x.isSafeInteger = true)
    (hone : le 1 x = true) : ∃ n, 1 ≤ n ∧ n < safeBound ∧ x = ofNat n := by
  cases x with
  | nan => simp [isSafeInteger, toSafeInt?, toInt?, units?] at hsafe
  | infinite s => simp [isSafeInteger, toSafeInt?, toInt?, units?] at hsafe
  | finite s r =>
    rw [le, place_of_one] at hone
    cases s with
    | true =>
      simp only [place?, if_true, decide_eq_true_eq, binadeSize] at hone
      omega
    | false =>
      simp only [place?, Bool.false_eq_true, if_false, decide_eq_true_eq] at hone
      rw [isSafeInteger, toSafeInt?, toInt?_finite] at hsafe
      by_cases hmod : unitsAt r % unitsPerOne = 0
      · rw [if_pos hmod] at hsafe
        obtain ⟨n, hn⟩ : ∃ n, unitsAt r / unitsPerOne = n := ⟨_, rfl⟩
        have hval : unitsAt r = n * unitsPerOne := by
          rw [← hn, Nat.div_mul_cancel (Nat.dvd_of_mod_eq_zero hmod)]
        have hlt : n < safeBound := by simpa [hn, Option.filter] using hsafe
        refine ⟨n, ?_, hlt, finite_eq_ofNat hval⟩
        -- the rank of zero is below that of one
        by_contra hzero
        have hr : r.val = 0 := by
          rw [← rankOf_unitsAt r, hval, show n = 0 by omega, Nat.zero_mul, rankOf_zero]
        simp only [hr, binadeSize] at hone
        omega
      · rw [if_neg hmod] at hsafe
        simp at hsafe

/-- The numbers from one on, by their rank. -/
lemma cases_of_one_le {x : Double} (h : le 1 x = true) :
    x = infinite false ∨ ∃ r : Fin rankCount, x = finite false r ∧ 1023 * binadeSize ≤ r := by
  rw [le, place_of_one] at h
  cases x with
  | nan => simp [place?] at h
  | infinite s =>
    cases s with
    | false => exact .inl rfl
    | true =>
      simp only [place?, if_true, decide_eq_true_eq, rankCount, binadeSize] at h
      omega
  | finite s r =>
    cases s with
    | false =>
      simp only [place?, Bool.false_eq_true, if_false, decide_eq_true_eq] at h
      exact .inr ⟨r, rfl, by exact_mod_cast h⟩
    | true =>
      simp only [place?, if_true, decide_eq_true_eq, binadeSize] at h
      omega

lemma unitsPerOne_le_unitsAt {r : ℕ} (h : 1023 * binadeSize ≤ r) :
    unitsPerOne ≤ unitsAt r := by
  obtain ⟨e, m, hn, rfl⟩ := exists_normal r
  have hlt := hn.lt
  have he : unitExponent - 52 ≤ e := by simp only [binadeSize, unitExponent] at *; omega
  have hm : binadeSize ≤ m := by
    rcases hn.least with h0 | hm
    · simp only [unitExponent] at he; omega
    · exact hm
  have hone : unitsPerOne = binadeSize * 2 ^ (unitExponent - 52) := by
    rw [unitsPerOne_eq, show binadeSize = 2 ^ 52 from rfl, ← pow_add,
      show 52 + (unitExponent - 52) = unitExponent from rfl]
  rw [unitsAt_normal hn, hone]
  exact Nat.mul_le_mul hm (Nat.pow_le_pow_right (by decide) he)

lemma le_one_infinite : le 1 (infinite false) = true := by
  rw [le, place_of_one]
  decide

lemma le_roundDiv (n d : ℕ) : n / d ≤ roundDiv n d := by
  unfold roundDiv
  dsimp only
  split_ifs <;> omega

lemma add_le_log2 {n e m : ℕ} (hm : binadeSize ≤ m) (h : m * 2 ^ e ≤ n) : e + 52 ≤ n.log2 := by
  have hpow : 2 ^ (e + 52) ≤ n := by
    calc 2 ^ (e + 52) = binadeSize * 2 ^ e := by
          rw [show binadeSize = 2 ^ 52 from rfl, ← pow_add, Nat.add_comm]
      _ ≤ m * 2 ^ e := Nat.mul_le_mul_right _ hm
      _ ≤ n := h
  exact (Nat.le_log2 ((Nat.two_pow_pos _).trans_le hpow).ne').mpr hpow

lemma binadeSize_le_div {n shift : ℕ} (h : n.log2 = shift + 52) (hn : n ≠ 0) :
    binadeSize ≤ n / 2 ^ shift := by
  rw [Nat.le_div_iff_mul_le (Nat.two_pow_pos _), show binadeSize = 2 ^ 52 from rfl, ← pow_add,
    Nat.add_comm, ← h]
  exact Nat.log2_self_le hn

/-- Rounding takes nothing below a number that it is not below. -/
theorem le_rankOf {r n : ℕ} (h : unitsAt r ≤ n) : r ≤ rankOf n 1 := by
  obtain ⟨e, m, hnormal, rfl⟩ := exists_normal r
  rw [unitsAt_normal hnormal] at h
  obtain ⟨shift, hshift⟩ : ∃ shift, n.log2 - 52 = shift := ⟨_, rfl⟩
  have hround := le_roundDiv n (2 ^ shift)
  rw [rankOf, Nat.div_one, hshift, Nat.one_shiftLeft]
  rcases lt_trichotomy e shift with hlow | rfl | hhigh
  · -- the binade of the number is above that of the rank
    have hlog : n.log2 = shift + 52 := by omega
    have hn : n ≠ 0 := by
      rintro rfl
      rw [Nat.log2_zero] at hlog
      omega
    have hquot := binadeSize_le_div hlog hn
    have hlt := hnormal.lt
    simp only [binadeSize] at *
    omega
  · have hm : m ≤ n / 2 ^ e := (Nat.le_div_iff_mul_le (Nat.two_pow_pos _)).mpr h
    omega
  · have hlog := add_le_log2 (hnormal.least.resolve_left (by omega)) h
    omega

/-- Rounding takes nothing from one on below one. -/
lemma one_le_rankOf {n : ℕ} (h : unitsPerOne ≤ n) : 1023 * binadeSize ≤ rankOf n 1 :=
  le_rankOf (unitsAt_rank_one.trans_le h)

lemma le_one_finite {r : Fin rankCount} (h : 1023 * binadeSize ≤ r) :
    le 1 (finite false r) = true := by
  rw [le, place_of_one]
  simp only [place?, Bool.false_eq_true, if_false, decide_eq_true_eq]
  exact_mod_cast h

lemma ofUnits_cases (s : Bool) (n d : ℕ) :
    ofUnits s n d = infinite s ∨ ∃ h : rankOf n d < rankCount, ofUnits s n d = finite s ⟨_, h⟩ := by
  rw [ofUnits]
  split_ifs with h
  · exact .inr ⟨h, rfl⟩
  · exact .inl rfl

/-- Counting on never leads below one, however far it goes. -/
theorem le_one_add {x : Double} (h : le 1 x = true) (n : ℕ) :
    le 1 (x.add (ofNat n)) = true := by
  rcases cases_of_one_le h with rfl | ⟨r, rfl, hr⟩
  · rcases ofUnits_cases false (n * unitsPerOne) 1 with hn | ⟨_, hn⟩ <;>
      · rw [ofNat, hn]
        exact le_one_infinite
  · rcases ofUnits_cases false (n * unitsPerOne) 1 with hn | ⟨hlt, hn⟩
    · rw [ofNat, hn]
      exact le_one_infinite
    · rw [ofNat, hn, add, if_pos rfl]
      have hone := (unitsPerOne_le_unitsAt hr).trans
        (Nat.le_add_right (unitsAt r) (unitsAt (rankOf (n * unitsPerOne) 1)))
      rcases ofUnits_cases false (unitsAt r + unitsAt (rankOf (n * unitsPerOne) 1)) 1 with
        hs | ⟨hlt', hs⟩
      · rw [hs]
        exact le_one_infinite
      · rw [hs]
        exact le_one_finite (one_le_rankOf hone)

/-- From one on; NaN is not. -/
def AtLeastOne (x : Double) : Prop := le 1 x = true

theorem AtLeastOne.add {x : Double} (h : AtLeastOne x) (n : ℕ) : AtLeastOne (x.add (ofNat n)) :=
  le_one_add h n

end BoundSql.Double
