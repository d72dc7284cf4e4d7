import BoundSql.Sql.Condition
import Mathlib

/-!
# Induction over filter trees

The children of a group come as a list, so what holds of them is an assumption
about each member; so it is with the elements of a value. Conditions of several
trees are one series, numbered from left to right like any other series of pieces.
-/
namespace BoundSql

/-- Values are built from scalars by lists of values. -/
@[elab_as_elim]
theorem Value.induct {motive : Value → Prop} (scalar : ∀ v, v.isScalar = true → motive v)
    (array : ∀ items, (∀ v ∈ items, motive v) → motive (.array items)) (v : Value) :
    motive v := by
  match v with
  | .array items => exact array items fun v _ => induct scalar array v
  | .null => exact scalar _ rfl
  | .bool _ => exact scalar _ rfl
  | .int _ => exact scalar _ rfl
  | .float _ => exact scalar _ rfl
  | .string _ => exact scalar _ rfl

namespace FilterTree

/-- A tree has a property if filters have it and groups get it from their children. -/
@[elab_as_elim, induction_eliminator]
theorem induct {motive : FilterTree → Prop} (leaf : ∀ f, motive (.leaf f))
    (group : ∀ op children, (∀ e ∈ children, motive e) → motive (.group op children))
    (e : FilterTree) : motive e := by
  match e with
  | .leaf f => exact leaf f
  | .group op children => exact group op children fun e _ => induct leaf group e

mutual

/-- Does a test of connective and number of children hold at every group? -/
def everyGroup (p : Connective → ℕ → Bool) : FilterTree → Bool
  | .leaf _ => true
  | .group op children => p op children.length && everyGroupOf p children

def everyGroupOf (p : Connective → ℕ → Bool) : List FilterTree → Bool
  | [] => true
  | e :: rest => e.everyGroup p && everyGroupOf p rest

end

theorem everyGroupOf_eq_all (p : Connective → ℕ → Bool) (es : List FilterTree) :
    everyGroupOf p es = es.all (everyGroup p) := by
  induction es with
  | nil => rfl
  | cons e es ih => simp [everyGroupOf, ih]

@[simp] theorem everyGroup_leaf (p : Connective → ℕ → Bool) (f : Filter) :
    everyGroup p (.leaf f) = true := by simp [everyGroup]

@[simp] theorem everyGroup_group {p : Connective → ℕ → Bool} {op : Connective}
    {es : List FilterTree} : everyGroup p (.group op es) = true ↔
      p op es.length = true ∧ ∀ e ∈ es, everyGroup p e = true := by
  simp [everyGroup, everyGroupOf_eq_all]

/-- No negation has more than one child, so no condition is left out when it is written. -/
def hidesNothing : FilterTree → Bool := everyGroup fun op n => op ≠ .not || n ≤ 1

/-- Every negation has one child, and no other group is empty. -/
def isProper : FilterTree → Bool := everyGroup fun op n => if op = .not then n = 1 else 1 ≤ n

@[simp] theorem hidesNothing_leaf (f : Filter) : hidesNothing (.leaf f) = true :=
  everyGroup_leaf _ f

@[simp] theorem hidesNothing_group {op : Connective} {es : List FilterTree} :
    hidesNothing (.group op es) = true ↔
      (op = .not → es.length ≤ 1) ∧ ∀ e ∈ es, hidesNothing e = true := by
  simp [hidesNothing, or_iff_not_imp_left]

@[simp] theorem isProper_leaf (f : Filter) : isProper (.leaf f) = true := everyGroup_leaf _ f

@[simp] theorem isProper_group {op : Connective} {es : List FilterTree} :
    isProper (.group op es) = true ↔
      (if op = .not then es.length = 1 else 1 ≤ es.length) ∧ ∀ e ∈ es, isProper e = true := by
  cases op <;> simp [isProper]

end FilterTree

namespace Series

variable {α : Type} {piece : α → Double → Condition}

/-- What every piece keeps of the number it starts from holds at the end, and what it says
of its own text holds of all parts. -/
theorem ofList_induction {I : Double → Prop} {Q : List Sql.Token → Prop} {as : List α}
    (step : ∀ a ∈ as, ∀ i, I i → Q (piece a i).tokens ∧ I (piece a i).next)
    {index : Double} (start : I index) :
    (∀ p ∈ (ofList piece as index).parts, Q p) ∧ I (ofList piece as index).next := by
  induction as generalizing index with
  | nil => exact ⟨by simp [ofList, empty], start⟩
  | cons a as ih =>
    obtain ⟨htext, hnext⟩ := step a (by simp) index start
    obtain ⟨hparts, hend⟩ := ih (fun b hb => step b (List.mem_cons_of_mem a hb)) hnext
    refine ⟨fun p hp => ?_, hend⟩
    rcases List.mem_cons.mp hp with rfl | hp
    · exact htext
    · exact hparts p hp

/-- What every piece says of its own text, whatever its number. -/
theorem forall_parts {Q : List Sql.Token → Prop} {as : List α}
    (h : ∀ a ∈ as, ∀ i, Q (piece a i).tokens) (index : Double) :
    ∀ p ∈ (ofList piece as index).parts, Q p := by
  have hstep : ∀ a ∈ as, ∀ i, True → Q (piece a i).tokens ∧ True := fun a ha i _ =>
    ⟨h a ha i, trivial⟩
  exact (ofList_induction hstep trivial).1

@[simp] theorem length_parts (as : List α) (index : Double) :
    (ofList piece as index).parts.length = as.length := by
  induction as generalizing index with
  | nil => rfl
  | cons a as ih => simp [ofList, cons, ih]

end Series

/-- A list of placeholders has one for each place in the list of values. -/
theorem Dialect.placeholderList_eq_range (d : Dialect) (vs : List Value) (start : Double) :
    d.placeholderList vs start = Sql.commaList
      ((List.range vs.length).map fun i => [.placeholder d (start.add (.ofNat i))]) := by
  have hparts : vs.mapIdx (fun i _ => [Sql.Token.placeholder d (start.add (.ofNat i))]) =
      (List.range vs.length).map fun i => [.placeholder d (start.add (.ofNat i))] := by
    refine List.ext_getElem (by simp) fun i hi hj => ?_
    simp
  rw [placeholderList, hparts]

namespace Condition

/-- The conditions of trees are a series. -/
theorem ofTrees_eq_ofList (d : Dialect) (es : List FilterTree) (index : Double) :
    ofTrees d es index = Series.ofList (ofTree d) es index := by
  induction es generalizing index with
  | nil => simp [ofTrees, Series.ofList]
  | cons e es ih => simp [ofTrees, Series.ofList, ih]

theorem ofTree_leaf (d : Dialect) (f : Filter) (index : Double) :
    ofTree d (.leaf f) index = ofFilter d f index := by simp [ofTree]

theorem ofTree_group (d : Dialect) (op : Connective) (es : List FilterTree) (index : Double) :
    ofTree d (.group op es) index =
      ⟨groupTokens op (Series.ofList (ofTree d) es index).parts,
        (Series.ofList (ofTree d) es index).params,
        (Series.ofList (ofTree d) es index).next⟩ := by
  simp [ofTree, ofTrees_eq_ofList]

end Condition
end BoundSql
