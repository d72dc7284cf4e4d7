import BoundSql.Proofs.Text.Utf8

/-!
# Texts that went through UTF-8

Half a surrogate pair has no bytes of its own, so a text is mended when it is
written: each unit is looked at with its two neighbours, and a surrogate without
a partner is replaced. Reading drops one byte order mark. Nothing else changes.
-/
namespace BoundSql.Text

/-- A high surrogate before no low one, or a low one after no high one. -/
def isLone (before : Option UInt16) (c : UInt16) (after : Option UInt16) : Bool :=
  isHighSurrogate c && !after.any isLowSurrogate || isLowSurrogate c && !before.any isHighSurrogate

/-- The text with U+FFFD for each surrogate without a partner, after the given unit. -/
def mendedAfter (before : Option UInt16) : Text → Text
  | [] => []
  | c :: rest =>
    (if isLone before c rest.head? then 0xFFFD else c) :: mendedAfter (some c) rest

def mended (t : Text) : Text := mendedAfter none t

/-- The text without the byte order mark at its front, if there is one. -/
def withoutMark : Text → Text
  | [] => []
  | c :: rest => if c = 0xFEFF then rest else c :: rest

lemma not_low_of_high {c : UInt16} (h : isHighSurrogate c = true) : isLowSurrogate c = false := by
  rw [isHighSurrogate_iff] at h
  rw [← Bool.not_eq_true, isLowSurrogate_iff]
  omega

lemma not_high_of_low {c : UInt16} (h : isLowSurrogate c = true) : isHighSurrogate c = false := by
  by_contra hhigh
  rw [Bool.not_eq_false] at hhigh
  rw [not_low_of_high hhigh] at h
  exact Bool.false_ne_true h

lemma isScalar_replacement : IsScalar 0xFFFD := by
  unfold IsScalar
  omega

/-- What a text is written as are scalar values. -/
theorem isScalar_of_mem_scalars {t : Text} : ∀ n ∈ scalars t, IsScalar n := by
  induction t using scalars.induct with
  | case1 => simp [scalars]
  | case2 c =>
    rw [scalars, List.forall_mem_singleton]
    split_ifs with h
    · exact isScalar_replacement
    · exact isScalar_unit (by simpa using h)
  | case3 c d rest hpair ih =>
    rw [Bool.and_eq_true] at hpair
    rw [scalars, if_pos (by simpa using hpair), List.forall_mem_cons]
    exact ⟨isScalar_pair hpair.1 hpair.2, ih⟩
  | case4 c d rest hpair hlone ih =>
    rw [scalars, if_neg hpair, if_pos hlone, List.forall_mem_cons]
    exact ⟨isScalar_replacement, ih⟩
  | case5 c d rest hpair hplain ih =>
    rw [scalars, if_neg hpair, if_neg hplain, List.forall_mem_cons]
    exact ⟨isScalar_unit (by simpa using hplain), ih⟩

/-- Apart from pairs every surrogate is alone. -/
lemma isLone_of_apart {before after : Option UInt16} {c : UInt16}
    (hbefore : isLowSurrogate c = true → before.any isHighSurrogate = false)
    (hafter : isHighSurrogate c = true → after.any isLowSurrogate = false) :
    isLone before c after = (isHighSurrogate c || isLowSurrogate c) := by
  rw [isLone]
  congr 1
  · by_cases hc : isHighSurrogate c = true
    · rw [hc, hafter hc]
      rfl
    · rw [Bool.eq_false_of_not_eq_true hc, Bool.false_and]
  · by_cases hc : isLowSurrogate c = true
    · rw [hc, hbefore hc]
      rfl
    · rw [Bool.eq_false_of_not_eq_true hc, Bool.false_and]

/-- Neither half of a pair is alone. -/
lemma isLone_pair {c d : UInt16} (hc : isHighSurrogate c = true) (hd : isLowSurrogate d = true)
    (before after : Option UInt16) :
    isLone before c (some d) = false ∧ isLone (some c) d after = false := by
  have hnotLow : isLowSurrogate c = false := not_low_of_high hc
  have hnotHigh : isHighSurrogate d = false := not_high_of_low hd
  constructor
  · simp [isLone, hc, hd, hnotLow]
  · simp [isLone, hc, hd, hnotHigh]

/-- A unit that starts no pair is read by itself. -/
lemma scalars_apart {c : UInt16} {t : Text}
    (hafter : isHighSurrogate c = true → t.head?.any isLowSurrogate = false) :
    scalars (c :: t) =
      (if isHighSurrogate c || isLowSurrogate c then 0xFFFD else c.toNat) :: scalars t := by
  cases t with
  | nil => rw [scalars, scalars]
  | cons d t =>
    have hpair : ¬ (isHighSurrogate c && isLowSurrogate d) = true := by
      rw [Bool.and_eq_true]
      rintro ⟨hc, hd⟩
      have hnotLow : isLowSurrogate d = false := hafter hc
      rw [hnotLow] at hd
      exact Bool.false_ne_true hd
    rw [scalars, if_neg hpair]
    split_ifs <;> rfl

lemma flatMap_scalars_apart {before : Option UInt16} {c : UInt16} {t : Text}
    (hbefore : isLowSurrogate c = true → before.any isHighSurrogate = false)
    (hafter : isHighSurrogate c = true → t.head?.any isLowSurrogate = false)
    (hrest : (scalars t).flatMap ofScalar = mendedAfter (some c) t) :
    (scalars (c :: t)).flatMap ofScalar = mendedAfter before (c :: t) := by
  have hreplacement : ofScalar 0xFFFD = [0xFFFD] := by decide
  rw [scalars_apart hafter, List.flatMap_cons, hrest, mendedAfter, isLone_of_apart hbefore hafter]
  split_ifs
  · rw [hreplacement]
    rfl
  · rw [ofScalar_toNat]
    rfl

/-- The units of the scalar values of a text are those of the mended text, where the text does not
start with the second half of a pair. -/
theorem flatMap_scalars {before : Option UInt16} {t : Text}
    (h : ∀ c ∈ t.head?, isLowSurrogate c = true → before.any isHighSurrogate = false) :
    (scalars t).flatMap ofScalar = mendedAfter before t := by
  -- pairs take two units at once, so the induction follows the reading of scalar values
  induction t using scalars.induct generalizing before with
  | case1 => rfl
  | case2 c => exact flatMap_scalars_apart (h c rfl) (fun _ => rfl) rfl
  | case3 c d rest hpair ih =>
    rw [Bool.and_eq_true] at hpair
    obtain ⟨hc, hd⟩ := hpair
    obtain ⟨hfirst, hsecond⟩ := isLone_pair hc hd before rest.head?
    have hnotHigh : isHighSurrogate d = false := not_high_of_low hd
    have hrest : (scalars rest).flatMap ofScalar = mendedAfter (some d) rest :=
      ih fun _ _ _ => hnotHigh
    rw [scalars, if_pos (by simp [hc, hd]), List.flatMap_cons, ofScalar_pair hc hd, hrest,
      mendedAfter, mendedAfter, List.head?_cons, hfirst, hsecond]
    rfl
  | case4 c d rest hpair _ ih =>
    have hafter : isHighSurrogate c = true → isLowSurrogate d = false := by
      intro hc
      simpa [hc] using hpair
    refine flatMap_scalars_apart (h c rfl) hafter (ih fun e he hlow => ?_)
    obtain rfl : d = e := Option.some.inj he
    by_contra hhigh
    rw [Bool.not_eq_false, Option.any_some] at hhigh
    rw [hafter hhigh] at hlow
    exact Bool.false_ne_true hlow
  | case5 c d rest _ hplain ih =>
    rw [Bool.or_eq_true, not_or] at hplain
    have hnotHigh : isHighSurrogate c = false := Bool.eq_false_of_not_eq_true hplain.1
    refine flatMap_scalars_apart (h c rfl) (fun hc => absurd hc hplain.1) (ih fun _ _ _ => hnotHigh)

/-- Only the mark itself is spelled with its unit at the front. -/
lemma exists_front {n : ℕ} (hn : IsScalar n) (hmark : n ≠ 0xFEFF) :
    ∃ c units, ofScalar n = c :: units ∧ c ≠ 0xFEFF := by
  unfold IsScalar at hn
  have htoNat : UInt16.toNat 0xFEFF = 0xFEFF := rfl
  by_cases hplane : n < 0x10000
  · refine ⟨_, _, by rw [ofScalar, if_pos hplane], fun hc => hmark ?_⟩
    rw [← UInt16.toNat_inj, UInt16.toNat_ofNat', Nat.mod_eq_of_lt hplane] at hc
    exact hc
  · refine ⟨_, _, by rw [ofScalar, if_neg hplane], fun hc => ?_⟩
    rw [← UInt16.toNat_inj, UInt16.toNat_ofNat', htoNat] at hc
    omega

/-- What comes back from the bytes of a text is the mended text without a mark at its front. -/
theorem Utf8.decode?_encode_eq (t : Text) :
    Utf8.decode? (Utf8.encode t) = some (withoutMark (mended t)) := by
  have hscalars : ∀ n ∈ scalars t, IsScalar n := isScalar_of_mem_scalars
  have hunits : mended t = (scalars t).flatMap ofScalar := (flatMap_scalars fun _ _ _ => rfl).symm
  rw [Utf8.decode?, Utf8.encode, Utf8.decodeScalars_encoded hscalars, Option.map_some, hunits]
  congr 1
  split
  next rest hmark =>
    rw [hmark]
    rfl
  next hnone =>
    cases hns : scalars t with
    | nil => rfl
    | cons n ns =>
      have hn : n ≠ 0xFEFF := fun hn => hnone ns (by rw [hns, hn])
      obtain ⟨c, units, hfront, hc⟩ := exists_front (hscalars n (by simp [hns])) hn
      rw [List.flatMap_cons, hfront, List.cons_append, withoutMark, if_neg hc]

end BoundSql.Text
