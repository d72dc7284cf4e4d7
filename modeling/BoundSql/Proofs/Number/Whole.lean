import BoundSql.Proofs.Number.Order
import BoundSql.Proofs.Number.Rounding

/-!
# Whole numbers

The numbers that are exactly a natural number are compared, cut and bounded like
it. Counts and sizes that come in as any number at all are cut to their integral
part and brought between one and a bound, which makes them whole; a product of
such numbers that is rounded still saturates as the exact product does.
-/
namespace BoundSql.Double

/-- Is a number exactly a natural number? Minus zero is none. -/
def Whole (x : Double) (n : ℕ) : Prop :=
  ∃ r : Fin rankCount, x = finite false r ∧ unitsAt r = n * unitsPerOne

variable {x y : Double} {m n : ℕ}

theorem whole_ofNat (h : n ≤ safeBound) : (ofNat n).Whole n := ofNat_exact h

theorem whole_one : Whole 1 1 := whole_ofNat (by decide)

theorem Whole.toInt?_eq (h : x.Whole n) : x.toInt? = some (n : ℤ) := by
  obtain ⟨r, rfl, hr⟩ := h
  rw [toInt?_finite, hr, if_pos (Nat.mul_mod_left n unitsPerOne),
    Nat.mul_div_cancel n unitsPerOne_pos]

/-- Whole numbers have their ranks in their own order. -/
lemma Whole.rank_le_iff {r q : Fin rankCount} (hr : unitsAt r = m * unitsPerOne)
    (hq : unitsAt q = n * unitsPerOne) : (r : ℕ) ≤ q ↔ m ≤ n := by
  rw [← unitsAt_strictMono.le_iff_le, hr, hq, Nat.mul_le_mul_right_iff unitsPerOne_pos]

theorem Whole.le_iff (hx : x.Whole m) (hy : y.Whole n) : x.le y = true ↔ m ≤ n := by
  obtain ⟨r, rfl, hr⟩ := hx
  obtain ⟨q, rfl, hq⟩ := hy
  rw [← rank_le_iff hr hq]
  simp [le, place?]

theorem Whole.lt_iff (hx : x.Whole m) (hy : y.Whole n) : x.lt y = true ↔ m < n := by
  obtain ⟨r, rfl, hr⟩ := hx
  obtain ⟨q, rfl, hq⟩ := hy
  rw [← not_le, ← rank_le_iff hq hr]
  simp [lt, place?]

theorem Whole.max (hx : x.Whole m) (hy : y.Whole n) : (x.max y).Whole (Max.max m n) := by
  have hxy := hx.lt_iff hy
  have hyx := hy.lt_iff hx
  obtain ⟨r, rfl, hr⟩ := hx
  obtain ⟨q, rfl, hq⟩ := hy
  simp only [lt, place?, decide_eq_true_eq] at hxy hyx
  simp only [Double.max, place?, hxy, hyx]
  split_ifs with hlt hgt
  · rw [Nat.max_eq_right hlt.le]
    exact ⟨q, rfl, hq⟩
  · rw [Nat.max_eq_left hgt.le]
    exact ⟨r, rfl, hr⟩
  · rw [Nat.max_eq_left (Nat.le_of_not_lt hlt)]
    exact ⟨r, rfl, hr⟩

theorem Whole.min (hx : x.Whole m) (hy : y.Whole n) : (x.min y).Whole (Min.min m n) := by
  have hxy := hx.lt_iff hy
  have hyx := hy.lt_iff hx
  obtain ⟨r, rfl, hr⟩ := hx
  obtain ⟨q, rfl, hq⟩ := hy
  simp only [lt, place?, decide_eq_true_eq] at hxy hyx
  simp only [Double.min, place?, hxy, hyx]
  split_ifs with hlt hgt
  · rw [Nat.min_eq_left hlt.le]
    exact ⟨r, rfl, hr⟩
  · rw [Nat.min_eq_right hgt.le]
    exact ⟨q, rfl, hq⟩
  · rw [Nat.min_eq_right (Nat.le_of_not_lt hlt)]
    exact ⟨q, rfl, hq⟩

/-- Plus infinity is above every bound. -/
theorem Whole.infinite_min (hy : y.Whole n) : (infinite false).min y = y := by
  obtain ⟨q, rfl, -⟩ := hy
  have hlt := q.isLt
  simp only [Double.min, place?, Bool.false_eq_true, if_false]
  rw [if_neg (by omega), if_pos (by omega)]

/-- One number for each natural number. -/
theorem Whole.eq (hx : x.Whole n) (hy : y.Whole n) : x = y := by
  obtain ⟨r, rfl, hr⟩ := hx
  obtain ⟨q, rfl, hq⟩ := hy
  exact congrArg (finite false) (Fin.ext (unitsAt_strictMono.injective (hr.trans hq.symm)))

theorem Whole.isInteger (hx : x.Whole n) : x.isInteger = true := by
  rw [Double.isInteger, hx.toInt?_eq, Option.isSome_some]

theorem Whole.isFinite (hx : x.Whole n) : x.isFinite = true := by
  obtain ⟨r, rfl, -⟩ := hx
  rfl

theorem Whole.isNaN (hx : x.Whole n) : x.isNaN = false := by
  obtain ⟨r, rfl, -⟩ := hx
  rfl

theorem Whole.isBelow_iff (hx : x.Whole m) : x.IsBelow n ↔ m < n := by
  obtain ⟨r, rfl, hr⟩ := hx
  rw [IsBelow, signedUnits, if_neg Bool.false_ne_true, hr, Int.ofNat_lt,
    Nat.mul_lt_mul_right unitsPerOne_pos]

/-- An integer from one on is whole. -/
theorem exists_whole (hint : x.isInteger = true) (hone : le 1 x = true) :
    ∃ n, 1 ≤ n ∧ x.Whole n := by
  obtain rfl | ⟨r, rfl, hr⟩ := cases_of_one_le hone
  · simp [isInteger, toInt?, units?] at hint
  · have hmod : unitsAt r % unitsPerOne = 0 := by
      by_contra hne
      rw [isInteger, toInt?_finite, if_neg hne] at hint
      exact Bool.false_ne_true hint
    have hvalue : unitsAt r = unitsAt r / unitsPerOne * unitsPerOne :=
      (Nat.div_mul_cancel (Nat.dvd_of_mod_eq_zero hmod)).symm
    have hleast := Nat.div_le_div_right (c := unitsPerOne) (unitsPerOne_le_unitsAt hr)
    rw [Nat.div_self unitsPerOne_pos] at hleast
    exact ⟨_, hleast, r, rfl, hvalue⟩

lemma units?_negative (r : Fin rankCount) :
    units? (finite true r) = some (-(unitsAt r : ℤ)) := by
  rw [units?, if_pos rfl]

/-- Of the numbers that are not positive only zero is a natural number. -/
lemma eq_zero_of_neg_quotient {one u : ℕ} (hone : 0 < one)
    (h : (if -(u : ℤ) % one = 0 then some (-(u : ℤ) / one) else none) = some (n : ℤ)) :
    n = 0 ∧ u = 0 := by
  split_ifs at h with hmod
  have hvalue : -(u : ℤ) = n * one := by
    rw [← Option.some.inj h, Int.ediv_mul_cancel (Int.dvd_of_emod_eq_zero hmod)]
  have hle : n ≤ n * one := Nat.le_mul_of_pos_right n hone
  zify at hle ⊢
  omega

/-- A number whose exact value is a natural number is whole, or it is minus zero. -/
theorem whole_or_eq_negativeZero (h : x.toInt? = some (n : ℤ)) :
    x.Whole n ∨ n = 0 ∧ x = finite true ⟨0, by decide⟩ := by
  have hpos := unitsPerOne_pos
  rcases x with _ | _ | ⟨_ | _, r⟩
  · simp [toInt?, units?] at h
  · simp [toInt?, units?] at h
  · rw [toInt?_finite] at h
    refine .inl ⟨r, rfl, ?_⟩
    generalize unitsPerOne = one at h hpos ⊢
    split_ifs at h with hmod
    have hn : unitsAt r / one = n := by exact_mod_cast Option.some.inj h
    rw [← hn, Nat.div_mul_cancel (Nat.dvd_of_mod_eq_zero hmod)]
  · rw [toInt?, units?_negative, Option.bind_some] at h
    obtain ⟨hn, hzero⟩ := eq_zero_of_neg_quotient hpos h
    have hrank : (r : ℕ) = 0 := unitsAt_strictMono.injective (hzero.trans unitsAt_zero.symm)
    exact .inr ⟨hn, congrArg (finite true) (Fin.ext hrank)⟩

/-- From 2^53 on all numbers are integers. -/
lemma unitsPerOne_dvd_unitsAt {r : ℕ} (h : safeBound * unitsPerOne ≤ unitsAt r) :
    unitsPerOne ∣ unitsAt r := by
  obtain ⟨e, m, hnormal, rfl⟩ := exists_normal r
  rw [unitsAt_normal hnormal, unitsPerOne_eq] at *
  have hexponent : unitExponent ≤ e := by
    by_contra hsmall
    have hpow : 2 ^ e ≤ 2 ^ unitExponent := Nat.pow_le_pow_right (by decide) (by omega)
    have hbelow : m * 2 ^ e < safeBound * 2 ^ unitExponent :=
      Nat.mul_lt_mul_of_lt_of_le hnormal.lt hpow (Nat.two_pow_pos _)
    omega
  exact Dvd.dvd.mul_left (Nat.pow_dvd_pow 2 hexponent) m

/-- The integral part of a number that is not negative is whole. -/
theorem trunc_whole (r : Fin rankCount) :
    (finite false r).trunc.Whole (unitsAt r / unitsPerOne) := by
  have htrunc : (finite false r).trunc = ofNat (unitsAt r / unitsPerOne) := rfl
  rw [htrunc]
  by_cases hsmall : unitsAt r / unitsPerOne ≤ safeBound
  · exact whole_ofNat hsmall
  · have hlarge : safeBound * unitsPerOne ≤ unitsAt r :=
      (Nat.le_div_iff_mul_le unitsPerOne_pos).mp (Nat.le_of_not_le hsmall)
    have hvalue : unitsAt r = unitsAt r / unitsPerOne * unitsPerOne :=
      (Nat.div_mul_cancel (unitsPerOne_dvd_unitsAt hlarge)).symm
    exact ⟨r, (finite_eq_ofNat hvalue).symm, hvalue⟩

/-- Nothing negative is above one. -/
lemma max_one_of_negative (h : x = infinite true ∨ ∃ r, x = finite true r) : max 1 x = 1 := by
  have hplace : ∃ p : ℤ, p ≤ 0 ∧ x.place? = some p := by
    rcases h with rfl | ⟨r, rfl⟩
    · exact ⟨_, by simp, rfl⟩
    · exact ⟨_, by simp, rfl⟩
  obtain ⟨p, hp, hplace⟩ := hplace
  have hbelow : p < 1023 * (binadeSize : ℤ) := by
    simp only [binadeSize]
    omega
  unfold Double.max
  rw [place_of_one, hplace]
  dsimp only
  rw [if_neg (not_lt_of_gt hbelow), if_pos hbelow]

lemma trunc_of_negative (h : x = infinite true ∨ ∃ r, x = finite true r) :
    x.trunc = infinite true ∨ ∃ r, x.trunc = finite true r := by
  rcases h with rfl | ⟨r, rfl⟩
  · exact .inl rfl
  · rw [trunc]
    exact (ofUnits_cases _ _ _).imp_right fun ⟨hr, heq⟩ => ⟨⟨_, hr⟩, heq⟩

/-- The integral part of a number, brought between one and a bound. -/
def wholeWithin (bound : ℕ) : Double → ℕ
  | .infinite false => bound
  | .finite false r => Min.min (Max.max 1 (unitsAt r / unitsPerOne)) bound
  | _ => 1

lemma wholeWithin_bounds {bound : ℕ} (h : 1 ≤ bound) (x : Double) :
    1 ≤ x.wholeWithin bound ∧ x.wholeWithin bound ≤ bound := by
  rcases x with _ | (_ | _) | ⟨_ | _, _⟩ <;> simp only [wholeWithin] <;> omega

/-- A whole number in range stays what it is. -/
lemma Whole.wholeWithin_eq {bound : ℕ} (hx : x.Whole n) (hone : 1 ≤ n) (hn : n ≤ bound) :
    x.wholeWithin bound = n := by
  obtain ⟨r, rfl, hr⟩ := hx
  rw [wholeWithin, hr, Nat.mul_div_cancel n unitsPerOne_pos, Nat.max_eq_right hone,
    Nat.min_eq_left hn]

/-- NaN is not compared. -/
lemma isNaN_of_le (h : x.le y = true) : x.isNaN = false ∧ y.isNaN = false := by
  cases x with
  | nan => simp [le, place?] at h
  | _ => cases y <;> first | exact ⟨rfl, rfl⟩ | simp [le, place?] at h

lemma le_infinite_iff : (infinite false).le y = true ↔ y = infinite false := by
  rcases y with _ | (_ | _) | ⟨_ | _, q⟩
  · simp [le, place?]
  · simp [le, place?]
  · simp [le, place?]
  · have hlt := q.isLt
    simp only [le, place?, Bool.false_eq_true, if_false, decide_eq_true_eq, reduceCtorEq,
      iff_false]
    omega
  · have hlt := q.isLt
    simp only [le, place?, Bool.false_eq_true, if_false, if_true, decide_eq_true_eq, reduceCtorEq,
      iff_false]
    omega

/-- Above a number that is not negative there are such numbers only, infinity, and minus zero. -/
lemma cases_of_finite_le {r : Fin rankCount} (h : (finite false r).le y = true) :
    y = infinite false ∨ (∃ q : Fin rankCount, y = finite false q ∧ (r : ℕ) ≤ q) ∨
      (r : ℕ) = 0 := by
  rcases y with _ | (_ | _) | ⟨_ | _, q⟩ <;>
    simp only [le, place?, Bool.false_eq_true, if_false, if_true, decide_eq_true_eq] at h
  · exact .inl rfl
  · omega
  · exact .inr (.inl ⟨q, rfl, by exact_mod_cast h⟩)
  · exact .inr (.inr (by omega))

/-- A larger number is not cut to less. -/
theorem wholeWithin_mono {bound : ℕ} (hone : 1 ≤ bound) (h : x.le y = true) :
    x.wholeWithin bound ≤ y.wholeWithin bound := by
  obtain ⟨hleast, -⟩ := wholeWithin_bounds hone y
  rcases x with _ | (_ | _) | ⟨_ | _, r⟩
  · simp [le, place?] at h
  · rw [le_infinite_iff.mp h]
  · exact hleast
  · rcases cases_of_finite_le h with rfl | ⟨q, rfl, hrank⟩ | hzero
    · exact Nat.min_le_right _ _
    · have hunits := Nat.div_le_div_right (c := unitsPerOne) (unitsAt_strictMono.monotone hrank)
      exact min_le_min_right bound (max_le_max_left 1 hunits)
    · rw [wholeWithin, hzero, unitsAt_zero, Nat.zero_div]
      exact (Nat.min_le_left _ _).trans hleast
  · exact hleast

/-- A number that is cut and brought between one and a whole bound is whole. -/
theorem whole_within {bound : ℕ} (hy : y.Whole bound) (hone : 1 ≤ bound)
    (hx : x.isNaN = false) : ((max 1 x.trunc).min y).Whole (x.wholeWithin bound) := by
  have hnegative : (x = infinite true ∨ ∃ r, x = finite true r) →
      ((max 1 x.trunc).min y).Whole 1 := by
    intro h
    rw [max_one_of_negative (trunc_of_negative h)]
    simpa only [Nat.min_eq_left hone] using whole_one.min hy
  rcases x with _ | (_ | _) | ⟨_ | _, r⟩
  · exact absurd hx (by decide)
  · have htrunc : (infinite false).trunc = infinite false := rfl
    have hmax : max 1 (infinite false) = infinite false := by
      rw [← finite_rank_one]
      rfl
    rw [htrunc, hmax, hy.infinite_min]
    exact hy
  · exact hnegative (.inl rfl)
  · exact (whole_one.max (trunc_whole r)).min hy
  · exact hnegative (.inr ⟨r, rfl⟩)

/-- An integer that is not negative fits 32 bits if it does. -/
theorem toUInt32?_eq (h : x.toInt? = some (n : ℤ)) :
    x.toUInt32? = if n < UInt32.size then some (UInt32.ofNat n) else none := by
  rw [toUInt32?, h, Option.bind_some]
  simp only [Int.natCast_nonneg, true_and, Int.toNat_natCast, Nat.cast_lt]

theorem Whole.saturate32_toNat (h : x.Whole n) :
    x.saturate32.toNat = Min.min n (UInt32.size - 1) := by
  rw [saturate32, h.toInt?_eq]
  simp only [Nat.cast_lt, Int.toNat_natCast]
  split_ifs with hn
  · rw [UInt32.toNat_ofNat_of_lt' hn]
    omega
  · rw [Nat.min_eq_right (by omega)]
    rfl

/-- Rounding leaves what is large large. -/
lemma ofNat_large (h : safeBound ≤ n) :
    ofNat n = infinite false ∨ ∃ k, safeBound ≤ k ∧ (ofNat n).Whole k := by
  refine (ofUnits_cases false (n * unitsPerOne) 1).imp_right fun ⟨hr, heq⟩ => ?_
  obtain ⟨b, -, hb⟩ := ofNat_exact (le_refl safeBound)
  have hrank : (b : ℕ) ≤ rankOf (n * unitsPerOne) 1 :=
    le_rankOf (hb.trans_le (Nat.mul_le_mul_right unitsPerOne h))
  have hunits : safeBound * unitsPerOne ≤ unitsAt (rankOf (n * unitsPerOne) 1) :=
    hb.symm.trans_le (unitsAt_strictMono.monotone hrank)
  refine ⟨unitsAt (rankOf (n * unitsPerOne) 1) / unitsPerOne,
    (Nat.le_div_iff_mul_le unitsPerOne_pos).mpr hunits, ⟨_, hr⟩, heq, ?_⟩
  exact (Nat.div_mul_cancel (unitsPerOne_dvd_unitsAt hunits)).symm

/-- A natural number saturates as itself, although it may be rounded before. -/
theorem saturate32_ofNat (n : ℕ) :
    (ofNat n).saturate32.toNat = Min.min n (UInt32.size - 1) := by
  by_cases hsmall : n ≤ safeBound
  · exact (whole_ofNat hsmall).saturate32_toNat
  · have hfit : UInt32.size ≤ safeBound := by decide
    rw [Nat.min_eq_right (by omega)]
    obtain hinf | ⟨k, hk, hwhole⟩ := ofNat_large (Nat.le_of_not_le hsmall)
    · rw [hinf]
      decide
    · rw [hwhole.saturate32_toNat, Nat.min_eq_right (by omega)]

/-- A natural number that is cut at the last 32-bit number is exact, although it may be rounded
before. -/
theorem whole_min_ofNat (n : ℕ) :
    ((ofNat n).min (ofNat (UInt32.size - 1))).Whole (Min.min n (UInt32.size - 1)) := by
  have hlast : (ofNat (UInt32.size - 1)).Whole (UInt32.size - 1) := whole_ofNat (by decide)
  have hfit : UInt32.size ≤ safeBound := by decide
  by_cases hsmall : n ≤ safeBound
  · exact (whole_ofNat hsmall).min hlast
  · rw [Nat.min_eq_right (by omega)]
    obtain hinf | ⟨k, hk, hwhole⟩ := ofNat_large (Nat.le_of_not_le hsmall)
    · rw [hinf, hlast.infinite_min]
      exact hlast
    · simpa only [Nat.min_eq_right (show UInt32.size - 1 ≤ k by omega)] using hwhole.min hlast

/-- Integers up to 2^53 are multiplied exactly and rounded once. -/
theorem ofNat_mul (hm : m ≤ safeBound) (hn : n ≤ safeBound) :
    (ofNat m).mul (ofNat n) = ofNat (m * n) := by
  obtain ⟨r, hr, hru⟩ := ofNat_exact hm
  obtain ⟨q, hq, hqu⟩ := ofNat_exact hn
  rw [hr, hq, mul, hru, hqu, ofNat]
  refine ofUnits_eq_of_mul_eq unitsPerOne_pos Nat.one_pos ?_ _
  ring

/-- A product with minus zero is minus zero. -/
lemma ofNat_mul_negativeZero (hm : m ≤ safeBound) :
    (ofNat m).mul (finite true ⟨0, by decide⟩) = finite true ⟨0, by decide⟩ := by
  obtain ⟨r, hr, -⟩ := ofNat_exact hm
  rw [hr, mul, unitsAt_zero, Nat.mul_zero]
  decide

/-- One less than an integer from one on. -/
theorem ofNat_pred (hone : 1 ≤ n) (hn : n ≤ safeBound) :
    (ofNat n).add (ofInt (-1)) = ofNat (n - 1) := by
  obtain ⟨r, hr, hru⟩ := ofNat_exact hn
  obtain ⟨q, hq, hqu⟩ := ofInt_exact (z := -1) (by decide)
  have hpos := unitsPerOne_pos
  have hunit : unitsAt q = unitsPerOne := by rw [hqu]; exact Nat.one_mul _
  rw [hr, hq, add, if_neg (by decide), hru, hunit, ofNat]
  obtain ⟨k, rfl⟩ := Nat.exists_eq_add_of_le' hone
  rw [Nat.add_sub_cancel, Nat.succ_mul]
  generalize unitsPerOne = one at hpos ⊢
  rcases Nat.eq_zero_or_pos k with rfl | hk
  · rw [if_pos (by simp), Nat.zero_mul]
  · have hk : 0 < k * one := Nat.mul_pos hk hpos
    rw [if_neg (by omega), if_pos (by omega), Nat.add_sub_cancel]

end BoundSql.Double
