import BoundSql.Proofs.Number.Texts

/-!
# Rounding decimals

A decimal is rounded by its value alone: fractions of the same value have the
same rank, the bounds on large and small exponents change nothing, and zeros at
the end of the digits do not count. So the shortest decimal of a number, which
was chosen because it reads back, is still one after its zeros are cut off.
-/
namespace BoundSql

namespace Double

lemma roundDiv_mul_right {k : ℕ} (hk : 0 < k) (n d : ℕ) :
    roundDiv (n * k) (d * k) = roundDiv n d := by
  have hquot : n * k / (d * k) = n / d := Nat.mul_div_mul_right n d hk
  have hrest : 2 * (n * k % (d * k)) = 2 * (n % d) * k := by rw [Nat.mul_mod_mul_right]; ring
  have hbelow : 2 * (n % d) * k < d * k ↔ 2 * (n % d) < d := Nat.mul_lt_mul_right hk
  have habove : d * k < 2 * (n % d) * k ↔ d < 2 * (n % d) := Nat.mul_lt_mul_right hk
  simp only [roundDiv, hquot, hrest, hbelow, habove]

lemma rankOf_mul_right {k : ℕ} (hk : 0 < k) (n d : ℕ) : rankOf (n * k) (d * k) = rankOf n d := by
  have hquot : n * k / (d * k) = n / d := Nat.mul_div_mul_right n d hk
  have hshift : ∀ s, (d * k) <<< s = (d <<< s) * k := by
    intro s
    rw [Nat.shiftLeft_eq, Nat.shiftLeft_eq]
    ring
  simp only [rankOf, hquot, hshift, roundDiv_mul_right hk]

/-- The rank of a fraction is that of its value. -/
theorem rankOf_eq_of_mul_eq {n d m e : ℕ} (hd : 0 < d) (he : 0 < e) (h : n * e = m * d) :
    rankOf n d = rankOf m e := by
  rw [← rankOf_mul_right he n d, h, Nat.mul_comm d e, rankOf_mul_right hd]

lemma ofUnits_eq_of_mul_eq {n d m e : ℕ} (hd : 0 < d) (he : 0 < e) (h : n * e = m * d)
    (s : Bool) : ofUnits s n d = ofUnits s m e := by
  simp only [ofUnits, rankOf_eq_of_mul_eq hd he h]

/-- What is less than half a unit rounds to zero. -/
lemma rankOf_eq_zero {n d : ℕ} (h : 2 * n < d) : rankOf n d = 0 := by
  have hquot : n / d = 0 := Nat.div_eq_of_lt (by omega)
  have hrest : n % d = n := Nat.mod_eq_of_lt (by omega)
  simp [rankOf, roundDiv, hquot, hrest, h]

/-- What has too many binary digits is beyond the finite numbers. -/
lemma rankCount_le_rankOf {n : ℕ} (h : 2099 ≤ n.log2) : rankCount ≤ rankOf n 1 := by
  have hshift : 2047 ≤ n.log2 - 52 := by omega
  have hbinades := Nat.mul_le_mul_right binadeSize hshift
  rw [rankOf, Nat.div_one]
  exact hbinades.trans (Nat.le_add_right _ _)

end Double

namespace Decimal
open Double

lemma tenPow_succ (n : ℕ) : tenPow (n + 1) = tenPow n * 10 := Nat.pow_succ 10 n

lemma two_pow_le_tenPow (n : ℕ) : 2 ^ (3 * n) ≤ tenPow n := by
  rw [pow_mul]
  exact Nat.pow_le_pow_left (by decide) n

/-- A decimal rounded by its value, whatever its exponent. -/
def rounded (negative : Bool) (d : Decimal) : Double :=
  .ofUnits negative (d.digits * tenPow d.exponent.toNat * unitsPerOne)
    (tenPow (-d.exponent).toNat)

lemma rounded_of_isHuge {d : Decimal} (h : d.isHuge = true) (s : Bool) :
    d.rounded s = .infinite s := by
  simp only [isHuge, Bool.and_eq_true, decide_eq_true_eq] at h
  obtain ⟨hne, hexp⟩ := h
  obtain ⟨e, he, hlarge⟩ : ∃ e : ℕ, d.exponent.toNat = e ∧ 400 < e := ⟨_, rfl, by omega⟩
  have hden : tenPow (-d.exponent).toNat = 1 := by
    rw [show (-d.exponent).toNat = 0 by omega]
    rfl
  have hunits : 2 ^ (3 * e + unitExponent) ≤ d.digits * tenPow e * unitsPerOne := by
    rw [pow_add, unitsPerOne_eq]
    calc 2 ^ (3 * e) * 2 ^ unitExponent ≤ tenPow e * 2 ^ unitExponent :=
          Nat.mul_le_mul_right _ (two_pow_le_tenPow e)
      _ ≤ d.digits * tenPow e * 2 ^ unitExponent :=
          Nat.mul_le_mul_right _ (Nat.le_mul_of_pos_left _ (Nat.pos_of_ne_zero hne))
  have hpos : d.digits * tenPow e * unitsPerOne ≠ 0 := ((Nat.two_pow_pos _).trans_le hunits).ne'
  have hlog := (Nat.le_log2 hpos).mpr hunits
  have hbeyond : rankCount ≤ rankOf (d.digits * tenPow e * unitsPerOne) 1 := by
    apply rankCount_le_rankOf
    simp only [unitExponent] at hlog
    omega
  rw [rounded, he, hden, ofUnits, dif_neg (Nat.not_lt.mpr hbeyond)]

lemma rounded_of_isTiny {d : Decimal} (h : d.isTiny = true) (s : Bool) :
    d.rounded s = .ofUnits s 0 1 := by
  have hsmall : 2 * (d.digits * tenPow d.exponent.toNat * unitsPerOne) <
      tenPow (-d.exponent).toNat := by
    by_cases hzero : d.digits = 0
    · rw [hzero, Nat.zero_mul, Nat.zero_mul]
      exact tenPow_pos _
    · simp only [isTiny, hzero, decide_false, Bool.false_or, decide_eq_true_eq] at h
      obtain ⟨e, he, hlarge⟩ : ∃ e : ℕ, (-d.exponent).toNat = e ∧ 400 + d.digits.log2 < e :=
        ⟨_, rfl, by omega⟩
      have hone : tenPow d.exponent.toNat = 1 := by
        rw [show d.exponent.toNat = 0 by omega]
        rfl
      have hdigits : d.digits < 2 ^ (d.digits.log2 + 1) := Nat.lt_log2_self
      rw [he, hone, Nat.mul_one, unitsPerOne_eq]
      calc 2 * (d.digits * 2 ^ unitExponent)
          < 2 * (2 ^ (d.digits.log2 + 1) * 2 ^ unitExponent) := by
            have := (Nat.mul_lt_mul_right (Nat.two_pow_pos unitExponent)).mpr hdigits
            omega
        _ = 2 ^ (d.digits.log2 + 2 + unitExponent) := by ring
        _ ≤ 2 ^ (3 * e) := Nat.pow_le_pow_right (by decide) (by simp only [unitExponent]; omega)
        _ ≤ tenPow e := two_pow_le_tenPow e
  rw [rounded, ofUnits, ofUnits]
  simp only [rankOf_eq_zero hsmall, rankOf_zero]

/-- The two bounds only spare work: a decimal is rounded by its value. -/
theorem toDouble_eq (s : Bool) (d : Decimal) : d.toDouble s = d.rounded s := by
  rw [toDouble]
  split_ifs with hhuge htiny
  · exact (rounded_of_isHuge hhuge s).symm
  · exact (rounded_of_isTiny htiny s).symm
  · rfl

/-- A zero more at the end of the digits is one less in the exponent. -/
lemma rounded_shift (s : Bool) (n : ℕ) (e : ℤ) :
    rounded s ⟨10 * n, e⟩ = rounded s ⟨n, e + 1⟩ := by
  apply ofUnits_eq_of_mul_eq (tenPow_pos _) (tenPow_pos _)
  by_cases he : 0 ≤ e
  · have hup : (e + 1).toNat = e.toNat + 1 := by omega
    have hdown : (-(e + 1)).toNat = 0 ∧ (-e).toNat = 0 := by omega
    simp only [hup, hdown.1, hdown.2, tenPow_succ]
    ring
  · have hup : (e + 1).toNat = 0 ∧ e.toNat = 0 := by omega
    have hdown : (-e).toNat = (-(e + 1)).toNat + 1 := by omega
    simp only [hup.1, hup.2, hdown, tenPow_succ]
    ring

lemma rounded_shifts (s : Bool) (n k : ℕ) (e : ℤ) :
    rounded s ⟨n * tenPow k, e⟩ = rounded s ⟨n, e + k⟩ := by
  induction k generalizing e with
  | zero => simp [tenPow]
  | succ k ih =>
    have hdigits : n * tenPow (k + 1) = 10 * (n * tenPow k) := by rw [tenPow_succ]; ring
    have hexp : e + 1 + k = e + (k + 1 : ℕ) := by push_cast; ring
    rw [hdigits, rounded_shift, ih, hexp]

/-- Cutting off zeros changes no value. -/
theorem rounded_trimZeros (s : Bool) (d : Decimal) : d.trimZeros.rounded s = d.rounded s := by
  suffices h : ∀ fuel d, (trimZeros.go fuel d).rounded s = d.rounded s from h d.digits d
  intro fuel
  induction fuel with
  | zero => intro d; rfl
  | succ fuel ih =>
    intro d
    rw [trimZeros.go]
    split_ifs with hzero
    · simp only [Bool.and_eq_true, decide_eq_true_eq] at hzero
      have hdigits : 10 * (d.digits / 10) = d.digits := by omega
      rw [ih, ← rounded_shift, hdigits]
    · rfl

/-- The sign goes through. -/
lemma rounded_of_rounded {d : Decimal} {r : Fin rankCount}
    (h : d.rounded false = .finite false r) (s : Bool) : d.rounded s = .finite s r := by
  rw [rounded, ofUnits] at h ⊢
  split_ifs at h ⊢ with hlt
  · rw [finite.injEq] at h ⊢
    exact ⟨rfl, h.2⟩

lemma rounded_of_readsBack {r : Fin rankCount} {d : Decimal} (h : readsBack r d = true) :
    d.rounded false = .finite false r := by
  rw [readsBack, decide_eq_true_eq, toDouble_eq] at h
  exact h

lemma rounded_of_ofLength {r : Fin rankCount} {length : ℕ} {d : Decimal}
    (h : ofLength? r length = some d) : d.rounded false = .finite false r := by
  unfold ofLength? at h
  rcases reads_of_choose h with ⟨rfl, hreads⟩ | ⟨rfl, hreads⟩
  · exact rounded_of_readsBack hreads
  · exact rounded_of_readsBack hreads

/-- All digits of a number are its units over the power of two that is one. -/
lemma rounded_exact (r : Fin rankCount) : (exact r).rounded false = .finite false r := by
  obtain ⟨k, hk⟩ : ∃ k, k = unitExponent := ⟨_, rfl⟩
  have hone : unitsPerOne = 2 ^ k := by rw [unitsPerOne_eq, hk]
  rw [exact_eq hk]
  have hup : (-(k : ℤ)).toNat = 0 := by omega
  have hdown : (-(-(k : ℤ))).toNat = k := by omega
  have hvalue : unitsAt r * Nat.pow 5 k * tenPow 0 * unitsPerOne * 1 = unitsAt r * tenPow k := by
    rw [hone, show tenPow k = 2 ^ k * 5 ^ k from Nat.mul_pow 2 5 k,
      show Nat.pow 5 k = 5 ^ k from rfl, show tenPow 0 = 1 from rfl]
    ring
  have hrank : rankOf (unitsAt r * Nat.pow 5 k * tenPow 0 * unitsPerOne) (tenPow k) = r := by
    rw [rankOf_eq_of_mul_eq (tenPow_pos k) Nat.one_pos hvalue, rankOf_unitsAt]
  simp only [rounded, hup, hdown, ofUnits, hrank, r.isLt, dite_true]

/-- The shortest decimal of a number reads back. -/
theorem rounded_shortest (r : Fin rankCount) : (shortest r).rounded false = .finite false r := by
  rw [shortest, rounded_trimZeros]
  cases hfind : (List.range' 1 17).findSome? (ofLength? r) with
  | none => exact rounded_exact r
  | some d =>
    obtain ⟨length, -, hd⟩ := List.exists_of_findSome?_eq_some hfind
    exact rounded_of_ofLength hd

end Decimal
end BoundSql
