import BoundSql.Identifier
import BoundSql.Proofs.Number.Integers

/-!
# The units of number texts

Whatever number a statement is counted from, the text of a parameter number is
made of digits, letters, a point and signs. From one on there is no minus sign:
the point of the shortest decimal then stands behind its first digit, since
cutting the digits off rounds downwards but never below a power of ten.
-/
namespace BoundSql

namespace Text

theorem isDigit_of_mem_ofNat {n : ℕ} {c : UInt16} (h : c ∈ ofNat n) : isDigit c = true := by
  simp only [ofNat, List.mem_map] at h
  obtain ⟨a, ha, rfl⟩ := h
  have hd : a.isDigit = true := Nat.isDigit_of_mem_toDigits (by decide) (by decide) ha
  have hlo : 48 ≤ a.toNat := by simpa [Char.isDigit] using (Char.isDigit_iff_toNat.mp hd).1
  have hhi : a.toNat ≤ 57 := by simpa [Char.isDigit] using (Char.isDigit_iff_toNat.mp hd).2
  have hval : (unit a).toNat = a.toNat := by
    rw [unit, UInt16.toNat_ofNat']
    omega
  have h0 : (unit '0').toNat = 48 := rfl
  have h9 : (unit '9').toNat = 57 := rfl
  simp only [isDigit, Bool.and_eq_true, decide_eq_true_eq, UInt16.le_iff_toNat_le, hval, h0, h9]
  exact ⟨hlo, hhi⟩

theorem ofNat_ne_nil (n : ℕ) : ofNat n ≠ [] := by
  simp [ofNat, Nat.toDigits_ne_nil]

end Text

namespace Decimal

/-- How many digits of the positional form stand before the point. -/
def point (d : Decimal) : ℤ := d.exponent + numeralLength d.digits

lemma numeralLength_gt_iff {n k : ℕ} (hk : 0 < k) :
    k < numeralLength n ↔ tenPow k ≤ n := by
  have h := Nat.length_toDigits_le_iff (b := 10) (n := n) (by decide) hk
  have htp : tenPow k = 10 ^ k := rfl
  rw [numeralLength, htp]
  omega

lemma numeralLength_pos (n : ℕ) : 0 < numeralLength n := Nat.length_toDigits_pos

lemma length_ofNat (n : ℕ) : (Text.ofNat n).length = numeralLength n := by
  simp [Text.ofNat, numeralLength]

lemma mem_pointed {n : ℕ} {first second c : UInt16} {rest : Text}
    (heq : Text.ofNat n = first :: second :: rest)
    (h : c ∈ first :: Text.unit '.' :: second :: rest) :
    Text.isDigit c = true ∨ c = Text.unit '.' := by
  rw [List.mem_cons, List.mem_cons, ← or_assoc, or_comm (a := c = first), or_assoc] at h
  rcases h with rfl | h
  · exact .inr rfl
  · exact .inl (Text.isDigit_of_mem_ofNat (by rw [heq]; exact List.mem_cons.mpr h))

/-- The units of a decimal's text; a minus sign only belongs to a negative exponent. -/
theorem mem_toText {d : Decimal} {c : UInt16} (h : c ∈ d.toText) :
    Text.isDigit c = true ∨ c = Text.unit '.' ∨ c = Text.unit 'e' ∨ c = Text.unit '+' ∨
      (c = Text.unit '-' ∧ d.point ≤ 0) := by
  have hdigit : ∀ x ∈ Text.ofNat d.digits, Text.isDigit x = true := fun _ =>
    Text.isDigit_of_mem_ofNat
  have hzero : ∀ k, ∀ x ∈ List.replicate k (Text.unit '0'), Text.isDigit x = true := by
    intro k x hx
    rw [List.eq_of_mem_replicate hx]
    rfl
  simp only [toText, length_ofNat] at h
  split_ifs at h with hwhole hinside hbelow hneg
  · rcases List.mem_append.mp h with h | h
    · exact .inl (hdigit c h)
    · exact .inl (hzero _ c h)
  · rcases List.mem_append.mp h with h | h
    · exact .inl (hdigit c (List.mem_of_mem_take h))
    · rcases List.mem_cons.mp h with rfl | h
      · exact .inr (.inl rfl)
      · exact .inl (hdigit c (List.mem_of_mem_drop h))
  · rcases List.mem_append.mp h with h | h
    · rcases List.mem_append.mp h with h | h
      · have hlead : c = Text.unit '0' ∨ c = Text.unit '.' := by
          rw [show Text.ofString "0." = [Text.unit '0', Text.unit '.'] from rfl] at h
          simpa using h
        rcases hlead with rfl | rfl
        · exact .inl rfl
        · exact .inr (.inl rfl)
      · exact .inl (hzero _ c h)
    · exact .inl (hdigit c h)
  · rcases List.mem_append.mp h with h | h
    · split at h
      · rename_i heq
        exact (mem_pointed heq h).imp_right .inl
      · exact .inl (hdigit c h)
    · simp only [List.mem_cons] at h
      rcases h with rfl | rfl | h
      · exact .inr (.inr (.inl rfl))
      · refine .inr (.inr (.inr (.inr ⟨rfl, ?_⟩)))
        rw [point]
        omega
      · exact .inl (Text.isDigit_of_mem_ofNat h)
  · rcases List.mem_append.mp h with h | h
    · split at h
      · rename_i heq
        exact (mem_pointed heq h).imp_right .inl
      · exact .inl (hdigit c h)
    · simp only [List.mem_cons] at h
      rcases h with rfl | rfl | h
      · exact .inr (.inr (.inl rfl))
      · exact .inr (.inr (.inr (.inl rfl)))
      · exact .inl (Text.isDigit_of_mem_ofNat h)

/-- Cutting off zeros moves no point. -/
theorem point_trimZeros (d : Decimal) : d.trimZeros.point = d.point := by
  suffices h : ∀ fuel d, (trimZeros.go fuel d).point = d.point from h d.digits d
  intro fuel
  induction fuel with
  | zero => intro d; rfl
  | succ fuel ih =>
    intro d
    rw [trimZeros.go]
    split_ifs with hzero
    · rw [ih]
      simp only [Bool.and_eq_true, decide_eq_true_eq] at hzero
      obtain ⟨hne, hmod⟩ := hzero
      have hpos : 0 < d.digits / 10 := by omega
      have hstep : numeralLength d.digits = numeralLength (d.digits / 10) + 1 := by
        have h := Nat.toDigits_append_toDigits (b := 10) (n := d.digits / 10) (d := 0)
          (by decide) hpos (by decide)
        rw [show 10 * (d.digits / 10) + 0 = d.digits by omega] at h
        rw [numeralLength, numeralLength, ← h]
        simp
      simp only [point, hstep]
      push_cast
      ring
    · rfl

lemma tenPow_add (a b : ℕ) : tenPow (a + b) = tenPow a * tenPow b := Nat.pow_add 10 a b

lemma tenPow_pos (n : ℕ) : 0 < tenPow n := Nat.pow_pos (by decide)

lemma numeralLength_mono {m n : ℕ} (h : m ≤ n) : numeralLength m ≤ numeralLength n := by
  by_contra hlt
  have hle := (numeralLength_gt_iff (numeralLength_pos n)).mp (Nat.lt_of_not_le hlt)
  have hgt := (numeralLength_gt_iff (numeralLength_pos n)).mpr (hle.trans h)
  omega

/-- The magnitude of a number from one on, read off its units. -/
lemma magnitude_spec {r : ℕ} (h : Double.unitsPerOne ≤ Double.unitsAt r) :
    ∃ m : ℕ, magnitude r = m + 1 ∧
      tenPow m * Double.unitsPerOne ≤ Double.unitsAt r := by
  have hpos := Double.unitsPerOne_pos
  rw [magnitude]
  generalize Double.unitsPerOne = one at h hpos
  generalize Double.unitsAt r = u at h
  have hlow : tenPow 324 ≤ u * tenPow 324 / one := by
    rw [Nat.le_div_iff_mul_le hpos, Nat.mul_comm]
    exact Nat.mul_le_mul_right _ h
  have hlong := (numeralLength_gt_iff (by decide)).mpr hlow
  obtain ⟨m, hm⟩ : ∃ m, numeralLength (u * tenPow 324 / one) = m + 324 + 1 :=
    ⟨numeralLength (u * tenPow 324 / one) - 325, by omega⟩
  refine ⟨m, by rw [hm]; push_cast; ring, ?_⟩
  have hle := (numeralLength_gt_iff (k := m + 324) (by omega)).mp (by rw [hm]; omega)
  rw [Nat.le_div_iff_mul_le hpos, tenPow_add, Nat.mul_right_comm] at hle
  exact Nat.le_of_mul_le_mul_right hle (tenPow_pos 324)

/-- As many digits as were asked for are left when a number from one on is cut off. -/
lemma le_numeralLength_below {r length : ℕ} (h : Double.unitsPerOne ≤ Double.unitsAt r)
    (hlength : 0 < length) :
    length ≤ numeralLength (neighbours r (magnitude r - length)).1.digits := by
  obtain ⟨m, hm, hle⟩ := magnitude_spec h
  have hpos := Double.unitsPerOne_pos
  rw [neighbours, hm]
  generalize Double.unitsPerOne = one at h hle hpos
  generalize Double.unitsAt r = u at h hle
  obtain ⟨up, hup⟩ : ∃ up, (((m : ℤ) + 1) - length).toNat = up := ⟨_, rfl⟩
  obtain ⟨down, hdown⟩ : ∃ down, (-(((m : ℤ) + 1) - length)).toNat = down := ⟨_, rfl⟩
  simp only [hup, hdown]
  have hsum : (length - 1) + up = m + down := by omega
  have hcut : tenPow (length - 1) ≤ u * tenPow down / (one * tenPow up) := by
    rw [Nat.le_div_iff_mul_le (Nat.mul_pos hpos (tenPow_pos up))]
    calc tenPow (length - 1) * (one * tenPow up)
        = tenPow (length - 1 + up) * one := by rw [tenPow_add]; ring
      _ = tenPow m * one * tenPow down := by rw [hsum, tenPow_add]; ring
      _ ≤ u * tenPow down := Nat.mul_le_mul_right _ hle
  by_cases hone : length = 1
  · rw [hone]
    exact numeralLength_pos _
  · have := (numeralLength_gt_iff (by omega)).mpr hcut
    omega

/-- Only a decimal that reads back is chosen. -/
lemma reads_of_choose {below above d : Decimal} {x y p : Bool}
    (h : choose? below above x y p = some d) : d = below ∧ x = true ∨ d = above ∧ y = true := by
  cases x <;> cases y <;> cases p <;> simp_all [choose?]

/-- A decimal of some length is one of the two neighbours of that length. -/
lemma ofLength_eq {r : Fin Double.rankCount} {length : ℕ} {d : Decimal}
    (hd : ofLength? r length = some d) :
    d = (neighbours r (magnitude r - length)).1 ∨
      d = (neighbours r (magnitude r - length)).2 := by
  unfold ofLength? at hd
  exact (reads_of_choose hd).imp And.left And.left

lemma one_le_point_ofLength {r : Fin Double.rankCount} {length : ℕ} {d : Decimal}
    (h : Double.unitsPerOne ≤ Double.unitsAt r) (hlength : 0 < length)
    (hd : ofLength? r length = some d) : 1 ≤ d.point := by
  obtain ⟨m, hm, -⟩ := magnitude_spec h
  have hbelow := le_numeralLength_below h hlength
  have habove : numeralLength (neighbours r (magnitude r - length)).1.digits ≤
      numeralLength (neighbours r (magnitude r - length)).2.digits :=
    numeralLength_mono (Nat.le_succ _)
  have hfst : (neighbours r (magnitude r - length)).1.exponent = magnitude r - length := rfl
  have hsnd : (neighbours r (magnitude r - length)).2.exponent = magnitude r - length := rfl
  rcases ofLength_eq hd with rfl | rfl
  · rw [point, hfst]
    omega
  · rw [point, hsnd]
    omega

/-- All digits of a value, with its exponent named so that nothing computes the power. -/
lemma exact_eq {k : ℕ} (hk : k = Double.unitExponent) (r : ℕ) :
    exact r = ⟨Double.unitsAt r * Nat.pow 5 k, -(k : ℤ)⟩ := by
  have hnum : k = 1074 := hk
  have hexp : (-1074 : ℤ) = -(k : ℤ) := by rw [hnum, Nat.cast_ofNat]
  rw [exact.eq_1, ← hexp, ← hnum]

lemma one_le_point_exact {r : ℕ} (h : Double.unitsPerOne ≤ Double.unitsAt r) :
    1 ≤ (exact r).point := by
  obtain ⟨k, hk⟩ : ∃ k, k = Double.unitExponent := ⟨_, rfl⟩
  have hpos : 0 < k := by
    rw [hk]
    decide
  have hle : tenPow k ≤ Double.unitsAt r * Nat.pow 5 k := by
    rw [Double.unitsPerOne_eq, ← hk] at h
    calc tenPow k = 2 ^ k * 5 ^ k := Nat.mul_pow 2 5 k
      _ ≤ _ := Nat.mul_le_mul_right _ h
  have hlong := (numeralLength_gt_iff hpos).mpr hle
  rw [exact_eq hk, point]
  simp only
  omega

/-- The shortest decimal of a number from one on has a digit before its point. -/
theorem one_le_point_shortest {r : Fin Double.rankCount}
    (h : Double.unitsPerOne ≤ Double.unitsAt r) : 1 ≤ (shortest r).point := by
  rw [shortest, point_trimZeros]
  cases hfind : (List.range' 1 17).findSome? (ofLength? r) with
  | none => exact one_le_point_exact h
  | some d =>
    obtain ⟨length, hmem, hd⟩ := List.exists_of_findSome?_eq_some hfind
    have hlength : 0 < length := by
      rw [List.mem_range'_1] at hmem
      omega
    exact one_le_point_ofLength h hlength hd

end Decimal

namespace Double

lemma rankText_cases (r : Fin rankCount) :
    (∃ n, rankText r = Text.ofNat n) ∨ rankText r = (Decimal.shortest r).toText := by
  rw [rankText]
  generalize unitsPerOne = one
  split_ifs with h
  · exact .inl ⟨_, rfl⟩
  · exact .inr rfl

/-- The units of names, of which digits and letters are the most common in numbers too. -/
lemma isPart_of_isDigit {c : UInt16} (h : Text.isDigit c = true) :
    Identifier.isPart c = true := by
  simp [Identifier.isPart, h]

lemma mem_rankText {r : Fin rankCount} {c : UInt16} (h : c ∈ rankText r) :
    Identifier.isPart c = true ∨ c = Text.unit '.' ∨ c = Text.unit '+' ∨
      (c = Text.unit '-' ∧ (Decimal.shortest r).point ≤ 0) := by
  rcases rankText_cases r with ⟨n, hn⟩ | hs
  · rw [hn] at h
    exact .inl (isPart_of_isDigit (Text.isDigit_of_mem_ofNat h))
  · rw [hs] at h
    rcases Decimal.mem_toText h with h | rfl | rfl | rfl | h
    · exact .inl (isPart_of_isDigit h)
    · exact .inr (.inl rfl)
    · exact .inl rfl
    · exact .inr (.inr (.inl rfl))
    · exact .inr (.inr (.inr h))

lemma mem_toText_infinite {s : Bool} {c : UInt16} (h : c ∈ (infinite s).toText) :
    Identifier.isPart c = true ∨ (c = Text.unit '-' ∧ s = true) := by
  have hall : (infinite false).toText.all Identifier.isPart = true := by decide
  rw [List.all_eq_true] at hall
  cases s with
  | false => exact .inl (hall c h)
  | true =>
    rw [show (infinite true).toText = Text.unit '-' :: (infinite false).toText by
      decide] at h
    rcases List.mem_cons.mp h with rfl | h
    · exact .inr ⟨rfl, rfl⟩
    · exact .inl (hall c h)

/-- What the text of any number is made of. -/
theorem mem_toText {x : Double} {c : UInt16} (h : c ∈ x.toText) :
    Identifier.isPart c = true ∨ c = Text.unit '.' ∨ c = Text.unit '+' ∨ c = Text.unit '-' := by
  cases x with
  | nan =>
    have hall : nan.toText.all Identifier.isPart = true := by decide
    exact .inl (List.all_eq_true.mp hall c h)
  | infinite s => exact (mem_toText_infinite h).imp_right fun h => .inr (.inr h.1)
  | finite s r =>
    have hrank : ∀ {c}, c ∈ rankText r → Identifier.isPart c = true ∨ c = Text.unit '.' ∨
        c = Text.unit '+' ∨ c = Text.unit '-' := by
      intro c hc
      rcases mem_rankText hc with h | h | h | h
      · exact .inl h
      · exact .inr (.inl h)
      · exact .inr (.inr (.inl h))
      · exact .inr (.inr (.inr h.1))
    rw [toText] at h
    split_ifs at h with hneg
    · rcases List.mem_cons.mp h with rfl | h
      · exact .inr (.inr (.inr rfl))
      · exact hrank h
    · exact hrank h

/-- A number from one on is written without a minus sign. -/
theorem mem_toText_of_one_le {x : Double} (hx : le 1 x = true) {c : UInt16}
    (h : c ∈ x.toText) :
    Identifier.isPart c = true ∨ c = Text.unit '.' ∨ c = Text.unit '+' := by
  rcases cases_of_one_le hx with rfl | ⟨r, rfl, hr⟩
  · exact .inl ((mem_toText_infinite h).resolve_right (by simp))
  · have hpoint := Decimal.one_le_point_shortest (unitsPerOne_le_unitsAt hr)
    rw [toText, Bool.false_and, if_neg Bool.false_ne_true] at h
    rcases mem_rankText h with h | h | h | ⟨-, h⟩
    · exact .inl h
    · exact .inr (.inl h)
    · exact .inr (.inr h)
    · omega

end Double
end BoundSql
