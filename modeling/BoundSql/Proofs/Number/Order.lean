import BoundSql.Proofs.Number.Integers

/-!
# The order of binary64 numbers

Numbers are compared by rank and sign, which is their order by exact value.
Integers up to 2^53 are exact, so a count and a bound that are compared as
numbers are compared as the integers they are.
-/
namespace BoundSql.Double

theorem unitsAt_strictMono : StrictMono unitsAt := by
  refine strictMono_nat_of_lt_succ fun r => ?_
  obtain ⟨e, m, h, rfl⟩ := exists_normal r
  have hlt := h.lt
  by_cases htop : m + 1 = 2 * binadeSize
  · -- the greatest mantissa of a binade: the next rank starts the binade above
    have hnext : Normal (e + 1) binadeSize := ⟨by simp only [binadeSize]; omega, .inr le_rfl⟩
    have hrank : e * binadeSize + m + 1 = (e + 1) * binadeSize + binadeSize := by
      simp only [binadeSize] at *
      omega
    rw [hrank, unitsAt_normal h, unitsAt_normal hnext, pow_succ]
    have hpos : 0 < 2 ^ e := Nat.two_pow_pos e
    calc m * 2 ^ e < (m + 1) * 2 ^ e := (Nat.mul_lt_mul_right hpos).mpr (Nat.lt_succ_self m)
      _ = binadeSize * (2 ^ e * 2) := by rw [htop]; ring
  · have hnext : Normal e (m + 1) := by
      refine ⟨by omega, h.least.imp_right fun hm => ?_⟩
      omega
    rw [add_assoc, unitsAt_normal h, unitsAt_normal hnext]
    exact (Nat.mul_lt_mul_right (Nat.two_pow_pos e)).mpr (Nat.lt_succ_self m)

@[simp] theorem unitsAt_zero : unitsAt 0 = 0 := by decide

/-- The exact value in units of a sign and a rank. -/
def signedUnits (negative : Bool) (rank : ℕ) : ℤ :=
  if negative then -(unitsAt rank : ℤ) else unitsAt rank

/-- Finite numbers stand in the order of their exact values. -/
theorem lt_finite_iff {s t : Bool} {r q : Fin rankCount} :
    lt (.finite s r) (.finite t q) = true ↔ signedUnits s r < signedUnits t q := by
  have hmono : ∀ {a b : ℕ}, unitsAt a < unitsAt b ↔ a < b := unitsAt_strictMono.lt_iff_lt
  have hzero : ∀ {a : ℕ}, 0 < unitsAt a ↔ 0 < a := by
    intro a
    simpa using hmono (a := 0) (b := a)
  have hr := hzero (a := r)
  have hq := hzero (a := q)
  have hrq := hmono (a := r) (b := q)
  have hqr := hmono (a := q) (b := r)
  cases s <;> cases t <;>
    simp only [lt, place?, signedUnits, if_true, if_false, Bool.false_eq_true, decide_eq_true_eq] <;>
    omega

/-- Is the exact value of a number below an integer? -/
def IsBelow (x : Double) (n : ℕ) : Prop :=
  match x with
  | .nan => False
  | .infinite negative => negative = true
  | .finite negative rank => signedUnits negative rank < (n * unitsPerOne : ℕ)

theorem IsBelow.mono {x : Double} {m n : ℕ} (h : x.IsBelow m) (hmn : m ≤ n) : x.IsBelow n := by
  cases x with
  | nan => exact h
  | infinite negative => exact h
  | finite negative rank => exact lt_of_lt_of_le h (by exact_mod_cast Nat.mul_le_mul_right _ hmn)

/-- To be less than an integer up to 2^53 is to be below it. -/
theorem lt_ofNat_iff {x : Double} {n : ℕ} (hn : n ≤ safeBound) :
    x.lt (ofNat n) = true ↔ x.IsBelow n := by
  obtain ⟨r, hr, hru⟩ := ofNat_exact hn
  rw [hr]
  cases x with
  | nan => simp [lt, place?, IsBelow]
  | infinite negative =>
    have hlt := r.isLt
    cases negative <;>
      simp only [lt, place?, IsBelow, if_true, if_false, Bool.false_eq_true, decide_eq_true_eq,
        iff_true, iff_false] <;>
      omega
  | finite negative rank =>
    have hvalue : signedUnits false r = (n * unitsPerOne : ℕ) := by
      rw [signedUnits, if_neg Bool.false_ne_true, hru]
    rw [lt_finite_iff, hvalue]
    rfl

end BoundSql.Double
