import BoundSql.Proofs.Number.Whole
import BoundSql.Settings

/-!
# Settings that were read

What the settings of an environment can be relied on for: listed fields have the
form of identifiers, though not their length, the depth is between 1 and 32, and
both page sizes are positive integers, of any size, the default not above the
maximum.
-/
namespace BoundSql

/-- The page sizes are these numbers, and in order. -/
structure PageSizes.Are (sizes : PageSizes) (usual most : ℕ) : Prop where
  default : sizes.default.Whole usual
  max : sizes.max.Whole most
  positive : 1 ≤ usual
  ordered : usual ≤ most

namespace Settings

/-- What holds of all settings that an environment can lead to. -/
structure WellFormed (s : Settings) : Prop where
  names : ∀ name ∈ s.allowedFields, Identifier.isWellFormed name = true
  depth : 1 ≤ s.maxDepth ∧ s.maxDepth ≤ 32
  sizes : ∃ usual most, s.pageSizes.Are usual most

lemma mem_of_readItems {α : Type} {name problem : Text} {read : Text → Option α} {ts : List Text}
    {i : ℕ} {l : List α} (h : readItems name problem read i ts = .ok l) {a : α} (ha : a ∈ l) :
    ∃ t ∈ ts, read t = some a := by
  induction ts generalizing i l with
  | nil =>
    obtain rfl := Except.ok.inj h
    exact absurd ha List.not_mem_nil
  | cons t rest ih =>
    rw [readItems] at h
    split at h
    · next first more hread hrest =>
      obtain rfl := Except.ok.inj h
      rcases List.mem_cons.mp ha with rfl | ha
      · exact ⟨t, List.mem_cons_self, hread⟩
      · obtain ⟨u, hu, hval⟩ := ih hrest ha
        exact ⟨u, List.mem_cons_of_mem t hu, hval⟩
    · exact absurd h (by simp)
    · exact absurd h (by simp)

/-- Every item of a list that is set was read; a list that is not set is the fallback. -/
lemma mem_of_list {α : Type} {env : Environment} {name problem : Text} {fallback : List α}
    {read : Text → Option α} {l : List α}
    (h : list env name problem fallback read = .ok l) {a : α} (ha : a ∈ l) :
    a ∈ fallback ∨ ∃ t, read t = some a := by
  unfold list at h
  split at h
  · obtain rfl := Except.ok.inj h
    exact .inl ha
  · obtain ⟨t, -, ht⟩ := mem_of_readItems h ha
    exact .inr ⟨t, ht⟩

lemma integerProblems_eq_nil {least : ℕ} {most : Option ℕ} {n : Double}
    (h : integerProblems least most n = []) :
    n.isInteger = true ∧ Double.le (.ofNat least) n = true ∧
      ∀ m, most = some m → n.le (.ofNat m) = true := by
  have hint : n.isInteger = true := by
    by_contra hfraction
    rw [Bool.not_eq_true] at hfraction
    simp [integerProblems, hfraction] at h
  unfold integerProblems at h
  rw [hint, Bool.not_true, if_neg Bool.false_ne_true, List.append_eq_nil_iff] at h
  refine ⟨hint, by simpa using h.2, ?_⟩
  rintro m rfl
  simpa using h.1

lemma integer_eq_ok {env : Environment} {name : Text} {fallback least : ℕ} {most : Option ℕ}
    {n : Double} (h : integer env name fallback least most = .ok n) :
    n.isInteger = true ∧ Double.le (.ofNat least) n = true ∧
      ∀ m, most = some m → n.le (.ofNat m) = true := by
  unfold integer at h
  dsimp only at h
  split at h
  · next hnone =>
    obtain rfl := Except.ok.inj h
    exact integerProblems_eq_nil hnone
  · exact absurd h (by simp)

/-- A setting of at least one is a positive integer. -/
lemma whole_of_integer {env : Environment} {name : Text} {fallback : ℕ} {most : Option ℕ}
    {n : Double} (h : integer env name fallback 1 most = .ok n) : ∃ k, 1 ≤ k ∧ n.Whole k := by
  obtain ⟨hint, hone, -⟩ := integer_eq_ok h
  exact Double.exists_whole hint hone

lemma toNat_eq {n : Double} {k : ℕ} (h : n.Whole k) : toNat n = k := by
  rw [toNat, h.toInt?_eq, Option.getD_some, Int.toNat_natCast]

lemma isWellFormed_of_fieldName {t name : Text} (h : fieldName? t = some name) :
    Identifier.isWellFormed name = true := by
  unfold fieldName? at h
  split_ifs at h with hform
  obtain rfl := Option.some_inj.mp h
  exact hform

theorem wellFormed_of_read {env : Environment} {s : Settings} (h : read env = .ok s) :
    s.WellFormed := by
  unfold read at h
  dsimp only at h
  split at h
  · next hmode hlevel hdialect hdepth hfields hdenied hdefault hmost =>
    split_ifs at h with hcrossed
    obtain rfl := Except.ok.inj h
    obtain ⟨depth, hpositive, hdepthWhole⟩ := whole_of_integer hdepth
    obtain ⟨-, -, hbound⟩ := integer_eq_ok hdepth
    obtain ⟨usual, hone, hdefaultWhole⟩ := whole_of_integer hdefault
    obtain ⟨most, -, hmostWhole⟩ := whole_of_integer hmost
    refine ⟨fun name hname => ?_, ?_, usual, most, hdefaultWhole, hmostWhole, hone, ?_⟩
    · rcases mem_of_list hfields hname with hnil | ⟨t, ht⟩
      · exact absurd hnil List.not_mem_nil
      · exact isWellFormed_of_fieldName ht
    · have hle := (hdepthWhole.le_iff (Double.whole_ofNat (by decide))).mp (hbound 32 rfl)
      rw [toNat_eq hdepthWhole]
      exact ⟨hpositive, hle⟩
    · rw [hmostWhole.lt_iff hdefaultWhole] at hcrossed
      exact Nat.le_of_not_lt hcrossed
  · exact absurd h (by simp)

/-- The policy has the depth of the settings, exactly. -/
lemma WellFormed.whole_maxDepth {s : Settings} (h : s.WellFormed) :
    s.policy.maxDepth.Whole s.maxDepth := by
  have hpolicy : s.policy.maxDepth = .ofNat s.maxDepth := rfl
  rw [hpolicy]
  exact Double.whole_ofNat (h.depth.2.trans (by decide))

end Settings
end BoundSql
