import BoundSql.Proofs.Number.Numerals
import BoundSql.Proofs.Number.Order

/-!
# Numbers and their texts

Each of the layouts of a decimal is a numeral, and its parts spell the decimal
up to zeros at its end. A finite number therefore comes back from its text.
-/
namespace BoundSql

namespace Decimal
open Numeral

lemma toDouble_parts (n : Numeral) : n.toDouble = rounded n.negative
    ⟨Text.digitsValue (n.whole ++ n.fraction.getD []),
      n.exponent.getD 0 - ((n.fraction.getD []).length : ℤ)⟩ := by
  rw [Numeral.toDouble, toDouble_eq]

/-- An integer with its zeros written out. -/
lemma exists_numeral_whole {n k : ℕ} (h : n ≠ 0 ∨ k = 0) (s : Bool) : ∃ m : Numeral, m.Proper ∧
    m.text = signText s ++ (Text.ofNat n ++ List.replicate k (Text.unit '0')) ∧
      m.toDouble = rounded s ⟨n, k⟩ := by
  have hne := Text.ofNat_ne_nil n
  refine ⟨⟨s, Text.ofNat n ++ List.replicate k (Text.unit '0'), none, none⟩,
    ⟨?_, ?_, ?_, ?_⟩, ?_, ?_⟩
  · simp [hne]
  · exact (areDigits_ofNat n).append (areDigits_zeros k)
  · rcases h with hn | rfl
    · left
      rw [List.head?_append_of_ne_nil _ hne]
      exact Text.head?_ofNat_ne_zero hn
    · rw [List.replicate_zero, List.append_nil]
      exact Text.lead_ofNat n
  · simp
  · simp [text, fractionText, exponentText]
  · simp only [toDouble_parts, Option.getD_none, List.append_nil, Text.digitsValue_append,
      Text.digitsValue_ofNat, Text.digitsValue_zeros, List.length_replicate, Nat.add_zero,
      List.length_nil, Nat.cast_zero, sub_zero]
    rw [rounded_shifts, zero_add]

/-- Digits with a point among them. -/
lemma exists_numeral_pointed {n p : ℕ} (hn : n ≠ 0) (hpos : 0 < p)
    (hlt : p < (Text.ofNat n).length) (s : Bool) : ∃ m : Numeral, m.Proper ∧
      m.text = signText s ++
        ((Text.ofNat n).take p ++ Text.unit '.' :: (Text.ofNat n).drop p) ∧
      m.toDouble = rounded s ⟨n, p - (Text.ofNat n).length⟩ := by
  have hdigits := areDigits_ofNat n
  have hlead := Text.head?_ofNat_ne_zero hn
  have hvalue := Text.digitsValue_ofNat n
  generalize Text.ofNat n = digits at *
  refine ⟨⟨s, digits.take p, some (digits.drop p), none⟩, ⟨?_, ?_, .inl ?_, ?_⟩, ?_, ?_⟩
  · rw [Ne, List.take_eq_nil_iff, not_or, ← List.length_eq_zero_iff]
    omega
  · exact fun c hc => hdigits c (List.mem_of_mem_take hc)
  · rwa [List.head?_take, if_neg hpos.ne']
  · rintro t ⟨⟩
    refine ⟨?_, fun c hc => hdigits c (List.mem_of_mem_drop hc)⟩
    rw [Ne, List.drop_eq_nil_iff]
    omega
  · simp [text, fractionText, exponentText]
  · have hexp : (0 : ℤ) - (digits.length - p : ℕ) = p - digits.length := by omega
    simp only [toDouble_parts, Option.getD_some, Option.getD_none, List.take_append_drop, hvalue,
      List.length_drop, hexp]

/-- Digits behind the point, after zeros. -/
lemma exists_numeral_small (n k : ℕ) (s : Bool) : ∃ m : Numeral, m.Proper ∧
    m.text = signText s ++
      (Text.unit '0' :: Text.unit '.' :: (List.replicate k (Text.unit '0') ++ Text.ofNat n)) ∧
    m.toDouble = rounded s ⟨n, -(k : ℤ) - (Text.ofNat n).length⟩ := by
  have hne := Text.ofNat_ne_nil n
  refine ⟨⟨s, [Text.unit '0'], some (List.replicate k (Text.unit '0') ++ Text.ofNat n), none⟩,
    ⟨by simp, ?_, .inr rfl, ?_⟩, ?_, ?_⟩
  · intro c hc
    rw [List.mem_singleton.mp hc]
    rfl
  · rintro t ⟨⟩
    exact ⟨by simp [hne], (areDigits_zeros k).append (areDigits_ofNat n)⟩
  · simp [text, fractionText, exponentText]
  · have hzeros : Text.unit '0' :: (List.replicate k (Text.unit '0') ++ Text.ofNat n) =
        List.replicate (k + 1) (Text.unit '0') ++ Text.ofNat n := rfl
    have hexp : (0 : ℤ) - ((k + (Text.ofNat n).length : ℕ) : ℤ) =
        -(k : ℤ) - (Text.ofNat n).length := by
      push_cast
      ring
    simp only [toDouble_parts, Option.getD_some, Option.getD_none, List.singleton_append, hzeros,
      Text.digitsValue_append, Text.digitsValue_zeros, Text.digitsValue_ofNat, Nat.zero_mul,
      Nat.zero_add, List.length_append, List.length_replicate, hexp]

/-- The digits of the scientific form, with a point after the first. -/
def mantissaText (digits : Text) : Text :=
  match digits with
  | first :: second :: rest => first :: Text.unit '.' :: second :: rest
  | _ => digits

/-- One digit before the point, and an exponent. -/
lemma exists_numeral_scientific (n : ℕ) (e : ℤ) (s : Bool) : ∃ m : Numeral, m.Proper ∧
    m.text = signText s ++ (mantissaText (Text.ofNat n) ++ exponentText (some e)) ∧
    m.toDouble = rounded s ⟨n, e + 1 - (Text.ofNat n).length⟩ := by
  have hdigits := areDigits_ofNat n
  have hvalue := Text.digitsValue_ofNat n
  have hne := Text.ofNat_ne_nil n
  generalize Text.ofNat n = digits at *
  match digits with
  | [] => exact absurd rfl hne
  | [first] =>
    refine ⟨⟨s, [first], none, some e⟩,
      ⟨by simp, hdigits, Text.lead_singleton first, by simp⟩, ?_, ?_⟩
    · simp [text, mantissaText, fractionText]
    · simp [toDouble_parts, hvalue]
  | first :: second :: rest =>
    have hfirst : AreDigits [first] := fun c hc =>
      hdigits c (List.mem_cons.mpr (.inl (List.mem_singleton.mp hc)))
    refine ⟨⟨s, [first], some (second :: rest), some e⟩,
      ⟨by simp, hfirst, Text.lead_singleton first, ?_⟩, ?_, ?_⟩
    · rintro t ⟨⟩
      exact ⟨by simp, fun c hc => hdigits c (List.mem_cons_of_mem first hc)⟩
    · simp [text, mantissaText, fractionText]
    · have hexp : e - ((rest.length + 1 : ℕ) : ℤ) = e + 1 - ((rest.length + 1 + 1 : ℕ) : ℤ) := by
        push_cast
        ring
      simp only [toDouble_parts, Option.getD_some, List.singleton_append, hvalue, List.length_cons,
        hexp]

/-- The text of a decimal is a numeral with its value. -/
theorem exists_numeral {d : Decimal} (h : d.digits ≠ 0 ∨ d.exponent = 0) (s : Bool) :
    ∃ n : Numeral, n.Proper ∧ n.text = signText s ++ d.toText ∧ n.toDouble = d.rounded s := by
  obtain ⟨n, e⟩ := d
  simp only at h
  obtain ⟨count, hcount⟩ : ∃ count, (Text.ofNat n).length = count := ⟨_, rfl⟩
  simp only [toText, hcount]
  by_cases hwhole : 0 ≤ e ∧ e + count ≤ 21
  · obtain ⟨k, rfl⟩ : ∃ k : ℕ, e = k := ⟨e.toNat, by omega⟩
    rw [if_pos hwhole]
    exact exists_numeral_whole (by simpa using h) s
  rw [if_neg hwhole]
  by_cases hinside : 0 < e + count ∧ e + count ≤ 21
  · have hn : n ≠ 0 := h.resolve_right (by omega)
    obtain ⟨p, hp⟩ : ∃ p : ℕ, e + count = p := ⟨(e + count).toNat, by omega⟩
    obtain rfl : e = p - count := by omega
    rw [if_pos hinside, hp, Int.toNat_natCast]
    have hpointed := exists_numeral_pointed (n := n) (p := p) hn (by omega) (by omega) s
    rwa [hcount] at hpointed
  rw [if_neg hinside]
  by_cases hsmall : -6 < e + count ∧ e + count ≤ 0
  · obtain ⟨k, hk⟩ : ∃ k : ℕ, -(e + count) = k := ⟨(-(e + count)).toNat, by omega⟩
    obtain rfl : e = -(k : ℤ) - count := by omega
    rw [if_pos hsmall, hk, Int.toNat_natCast]
    have hzeros := exists_numeral_small n k s
    rwa [hcount] at hzeros
  · rw [if_neg hsmall]
    have hscientific := exists_numeral_scientific n (e + count - 1) s
    rw [hcount, show e + count - 1 + 1 - count = e by ring] at hscientific
    exact hscientific

end Decimal

namespace Double
open Decimal Numeral

/-- A safe integer is written with all its digits. -/
lemma toText_of_safe {n : ℕ} (hn : n ≤ safeBound) : Decimal.toText ⟨n, 0⟩ = Text.ofNat n := by
  have hshort : numeralLength n ≤ 21 := by
    by_contra hlong
    have hlarge := (numeralLength_gt_iff (by decide)).mp (Nat.lt_of_not_le hlong)
    have hbound : safeBound < tenPow 21 := by decide
    omega
  have hwhole : (0 : ℤ) ≤ 0 ∧ 0 + ((Text.ofNat n).length : ℤ) ≤ 21 := by
    rw [length_ofNat]
    omega
  rw [Decimal.toText]
  simp only [hwhole, and_self, if_true]
  exact List.append_nil _

lemma rounded_whole (n : ℕ) : rounded false ⟨n, 0⟩ = ofNat n := by
  have hone : tenPow 0 = 1 := rfl
  rw [rounded, ofNat]
  simp only [neg_zero, Int.toNat_zero, hone, Nat.mul_one]

lemma digits_ne_zero_of_rounded {d : Decimal} {r : Fin rankCount}
    (h : d.rounded false = .finite false r) (hr : r.val ≠ 0) : d.digits ≠ 0 := by
  intro hzero
  have hrank : rankOf (d.digits * tenPow d.exponent.toNat * unitsPerOne)
      (tenPow (-d.exponent).toNat) = 0 := by
    rw [hzero, Nat.zero_mul, Nat.zero_mul]
    exact rankOf_eq_zero (tenPow_pos _)
  rw [rounded, ofUnits] at h
  split_ifs at h with hlt
  · rw [finite.injEq, Fin.ext_iff] at h
    exact hr (h.2.symm.trans hrank)

/-- The text of a finite number is that of a decimal which rounds to it. -/
lemma exists_decimal (r : Fin rankCount) : ∃ d : Decimal, (d.digits ≠ 0 ∨ d.exponent = 0) ∧
    rankText r = d.toText ∧ d.rounded false = .finite false r := by
  by_cases hsafe : unitsAt r % unitsPerOne = 0 ∧ unitsAt r / unitsPerOne ≤ safeBound
  · obtain ⟨n, hn⟩ : ∃ n, unitsAt r / unitsPerOne = n := ⟨_, rfl⟩
    have hunits : unitsAt r = n * unitsPerOne := by
      rw [← hn, Nat.div_mul_cancel (Nat.dvd_of_mod_eq_zero hsafe.1)]
    rw [hn] at hsafe
    refine ⟨⟨n, 0⟩, .inr rfl, ?_, ?_⟩
    · rw [rankText_of_units hsafe.2 hunits, toText_of_safe hsafe.2]
    · rw [rounded_whole, ← finite_eq_ofNat hunits]
  · have hread := rounded_shortest r
    have hr : r.val ≠ 0 := by
      intro hzero
      rw [hzero, unitsAt_zero, Nat.zero_mod, Nat.zero_div] at hsafe
      exact hsafe ⟨rfl, Nat.zero_le _⟩
    refine ⟨shortest r, .inl (digits_ne_zero_of_rounded hread hr), ?_, hread⟩
    rw [rankText]
    exact if_neg hsafe

/-- Minus zero as zero, and every other number as it is. -/
def plusZero (x : Double) : Double := if x = neg 0 then 0 else x

lemma plusZero_ne (x : Double) : plusZero x ≠ neg 0 := by
  rw [plusZero]
  split_ifs with h
  · decide
  · exact h

lemma isFinite_plusZero (x : Double) : (plusZero x).isFinite = x.isFinite := by
  rw [plusZero]
  split_ifs with h
  · rw [h]
    rfl
  · rfl

lemma zero_lt_rankCount : 0 < rankCount := by simp [rankCount, binadeSize]

lemma zero_eq : (0 : Double) = .finite false ⟨0, zero_lt_rankCount⟩ := by decide

lemma plusZero_finite (s : Bool) (r : Fin rankCount) :
    plusZero (.finite s r) = .finite (s && r.val ≠ 0) r := by
  rw [plusZero, zero_eq, neg]
  by_cases hr : r.val = 0
  · obtain rfl : r = ⟨0, zero_lt_rankCount⟩ := Fin.ext hr
    cases s <;> simp
  · have hne : r ≠ ⟨0, zero_lt_rankCount⟩ := fun h => hr (Fin.ext_iff.mp h)
    have hnegative : finite s r ≠ finite (!false) ⟨0, zero_lt_rankCount⟩ := by
      rw [Ne, finite.injEq, not_and]
      exact fun _ => hne
    rw [if_neg hnegative, decide_eq_true hr, Bool.and_true]

/-- Reading the text of a finite number gives that number, but for the sign of zero. -/
theorem exists_numeral (s : Bool) (r : Fin rankCount) : ∃ n : Numeral, n.Proper ∧
    n.text = toText (.finite s r) ∧ n.toDouble = plusZero (.finite s r) := by
  obtain ⟨d, hd, htext, hround⟩ := exists_decimal r
  obtain ⟨n, hn, hparts, hvalue⟩ := Decimal.exists_numeral hd (s && r.val ≠ 0)
  refine ⟨n, hn, ?_, ?_⟩
  · rw [hparts, toText, ← htext, signText]
    generalize rankText r = t
    by_cases hminus : (s && decide (r.val ≠ 0)) = true
    · rw [if_pos hminus, if_pos hminus, List.singleton_append]
    · rw [if_neg hminus, if_neg hminus, List.nil_append]
  · rw [hvalue, plusZero_finite]
    exact rounded_of_rounded hround _

end Double
end BoundSql
