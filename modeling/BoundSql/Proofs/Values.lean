import BoundSql.Proofs.Outcomes
import BoundSql.Value
import Mathlib

/-!
# Values on their way to the driver

Plain data becomes values, and values become the data that the driver receives.
The way there and back changes one thing only: a number that is a safe integer
comes out as an exact integer, and so loses the sign of zero.
-/
namespace BoundSql

namespace Datum

mutual

/-- Is every number in the data finite? -/
def isFinite : Datum → Bool
  | .number x => x.isFinite
  | .list items => allFinite items
  | _ => true

def allFinite : List Datum → Bool
  | [] => true
  | d :: rest => d.isFinite && allFinite rest

end

/-- A number as the integer that it is, if no other integer rounds to it. -/
def exactNumber (x : Double) : Datum :=
  match x.toInt? with
  | some n => if n.natAbs ≤ 2 ^ 53 - 1 then .integer n else .number x
  | none => .number x

mutual

/-- The data with an exact integer in the place of each safe one. -/
def exact : Datum → Datum
  | .number x => exactNumber x
  | .list items => .list (exactAll items)
  | d => d

def exactAll : List Datum → List Datum
  | [] => []
  | d :: rest => d.exact :: exactAll rest

end

end Datum

namespace Value

lemma ofInt_eq_ok_iff {z : ℤ} {v : Value} :
    ofInt z = .ok v ↔ ∃ i : Int64, v = .int i ∧ i.toInt = z := by
  rw [ofInt]
  constructor
  · intro h
    split_ifs at h with hrange
    obtain rfl := Except.ok.inj h
    have hmin : Int64.minValue.toInt = -2 ^ 63 := rfl
    have hmax : Int64.maxValue.toInt = 2 ^ 63 - 1 := rfl
    rw [hmin, hmax] at hrange
    exact ⟨_, rfl, Int64.toInt_ofInt_of_le (by omega) (by omega)⟩
  · rintro ⟨i, rfl, rfl⟩
    rw [if_pos ⟨i.minValue_le_toInt, i.toInt_le⟩, i.ofInt_toInt]

/-- A number becomes an integer value where it is a safe integer, and comes out as that integer. -/
lemma toDatum_ofNumber (x : Double) : (ofNumber x).toDatum = Datum.exactNumber x := by
  rw [ofNumber, Datum.exactNumber, Double.toSafeInt?]
  cases hx : x.toInt? with
  | none => rfl
  | some n =>
    by_cases hn : n.natAbs < Double.safeBound
    · have hle : n.natAbs ≤ 2 ^ 53 - 1 := by
        simp only [Double.safeBound, Double.binadeSize] at hn
        omega
      have hback : (Int64.ofInt n).toInt = n :=
        Int64.toInt_ofInt_of_le (by omega) (by omega)
      rw [Option.filter_some, if_pos (by simpa using hn)]
      simp only [hle, if_true, toDatum, hback]
    · have hgt : ¬ n.natAbs ≤ 2 ^ 53 - 1 := by
        simp only [Double.safeBound, Double.binadeSize] at hn
        omega
      rw [Option.filter_some, if_neg (by simpa using hn)]
      simp only [hgt, if_false, toDatum]

mutual

/-- What the driver receives for plain data is the data with its safe integers made exact. -/
theorem toDatum_ofDatum : ∀ {d : Datum} {v : Value}, ofDatum d = .ok v → v.toDatum = d.exact
  | .null, _, h => by cases h; rfl
  | .bool _, _, h => by cases h; rfl
  | .integer n, v, h => by
    obtain ⟨i, rfl, rfl⟩ := ofInt_eq_ok_iff.mp h
    rfl
  | .number x, v, h => by
    obtain rfl := Except.ok.inj h
    exact toDatum_ofNumber x
  | .string _, _, h => by cases h; rfl
  | .list items, v, h => by
    rw [ofDatum] at h
    obtain ⟨vs, hvs, rfl⟩ := map_eq_ok_iff.mp h
    rw [toDatum, toData_ofData hvs, Datum.exact]

theorem toData_ofData : ∀ {ds : List Datum} {vs : List Value}, ofData ds = .ok vs →
    toData vs = Datum.exactAll ds
  | [], _, h => by cases h; rfl
  | d :: rest, vs, h => by
    rw [ofData] at h
    obtain ⟨v, hv, hrest⟩ := bind_eq_ok_iff.mp h
    obtain ⟨vs', hvs, hall⟩ := bind_eq_ok_iff.mp hrest
    obtain rfl := Except.ok.inj hall
    rw [toData, toDatum_ofDatum hv, toData_ofData hvs, Datum.exactAll]

end

end Value

end BoundSql
