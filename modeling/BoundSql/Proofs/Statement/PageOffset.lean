import BoundSql.Proofs.Number.Whole
import BoundSql.Proofs.Statement.Runs

/-!
# Offsets of pages

The rows before a page are counted in binary64: the page less one, but not less
than zero, times the limit, cut at the last 32-bit number. The product of two
32-bit numbers may be rounded. A product below 2^53 is exact, though, and a
larger one is not rounded to less, so the cut gives what it would give on the
exact product.
-/
namespace BoundSql

namespace SelectDraft

lemma rowCount_eq (what : Text) {x : Double} {n : ℕ} (h : x.toInt? = some (n : ℤ)) :
    rowCount what x =
      if n < UInt32.size then .ok (UInt32.ofNat n) else .error (.notUInt32 what) := by
  rw [rowCount, Double.toUInt32?_eq h]
  split_ifs <;> rfl

/-- The offset is that of unbounded integers, cut at the last 32-bit number, although the product
is rounded. -/
theorem pageOffset_toNat (page limit : UInt32) :
    (pageOffset page limit).toNat =
      min ((page.toNat - 1) * limit.toNat) (UInt32.size - 1) := by
  have hfit : ∀ n : UInt32, n.toNat ≤ Double.safeBound := fun n =>
    n.toNat_lt.le.trans (by decide)
  rw [pageOffset, Double.ofNat_mul ((Nat.sub_le _ _).trans (hfit page)) (hfit limit),
    Double.saturate32_ofNat]

/-- The offset of a page with every step in binary64. Minus zero may come in as zero and be
handed on. -/
def roundedOffset (page limit : Double) : Double :=
  (((page.add (.ofInt (-1))).max 0).mul limit).min (.ofNat (UInt32.size - 1))

variable {page limit : Double} {p l : ℕ}

/-- Page zero counts as page one. -/
lemma whole_pagesBefore (h : page.toInt? = some (p : ℤ)) (hp : p ≤ Double.safeBound) :
    ((page.add (.ofInt (-1))).max 0).Whole (p - 1) := by
  have hzero : Double.Whole 0 0 := Double.whole_ofNat (by decide)
  obtain hwhole | ⟨rfl, rfl⟩ := Double.whole_or_eq_negativeZero h
  · obtain rfl := hwhole.eq (Double.whole_ofNat hp)
    rcases Nat.eq_zero_or_pos p with rfl | hpos
    · rw [show ((Double.ofNat 0).add (.ofInt (-1))).max 0 = 0 by decide +kernel]
      exact hzero
    · have hpred : (Double.ofNat (p - 1)).Whole (p - 1) :=
        Double.whole_ofNat ((Nat.sub_le p 1).trans hp)
      rw [Double.ofNat_pred hpos hp]
      simpa only [Nat.max_zero] using hpred.max hzero
  · rw [show ((Double.finite true ⟨0, by decide⟩).add (.ofInt (-1))).max 0 = 0 by decide +kernel]
    exact hzero

/-- The computed offset is exact. -/
theorem roundedOffset_toInt? (hpage : page.toInt? = some (p : ℤ))
    (hlimit : limit.toInt? = some (l : ℤ)) (hp : p ≤ Double.safeBound)
    (hl : l ≤ Double.safeBound) :
    (roundedOffset page limit).toInt? =
      some ((min ((p - 1) * l) (UInt32.size - 1) : ℕ) : ℤ) := by
  have hbefore : p - 1 ≤ Double.safeBound := (Nat.sub_le p 1).trans hp
  rw [roundedOffset, (whole_pagesBefore hpage hp).eq (Double.whole_ofNat hbefore)]
  obtain hwhole | ⟨rfl, rfl⟩ := Double.whole_or_eq_negativeZero hlimit
  · rw [hwhole.eq (Double.whole_ofNat hl), Double.ofNat_mul hbefore hl]
    exact (Double.whole_min_ofNat _).toInt?_eq
  · rw [Double.ofNat_mul_negativeZero hbefore, Nat.mul_zero, Nat.zero_min]
    decide +kernel

end SelectDraft

namespace Builder

/-- The builder with row counts. -/
def paged (b : Builder SelectDraft) (limit offset : UInt32) : Builder SelectDraft :=
  { b with draft := { b.draft with limit := some limit, offset := some offset } }

variable {b : Builder SelectDraft} {page limit : Double} {p l : ℕ}

/-- A call that reports nothing leaves the outcome to the draft. -/
lemma configure_quiet {call : SelectCall} (hb : b.built = false)
    (hargs : call.checkArguments = .ok ()) (hquiet : b.draft.reports call = []) :
    b.configure call = (b.draft.fill call).map fun draft => ({ b with draft }, []) := by
  rw [configure_of_unbuilt hb hargs]
  change (Except.map _ (b.draft.fill call)).map _ = _
  rw [hquiet]
  cases b.draft.fill call <;> rfl

lemma configure_page_eq (hb : b.built = false) (hpage : page.toInt? = some (p : ℤ))
    (hlimit : limit.toInt? = some (l : ℤ)) (hp : p < UInt32.size) (hl : l < UInt32.size) :
    b.configure (.page page limit) =
      .ok (b.paged (.ofNat l) (SelectDraft.pageOffset (.ofNat p) (.ofNat l)), []) := by
  rw [configure_quiet hb rfl rfl, SelectDraft.fill, SelectDraft.rowCount_eq "page" hpage,
    if_pos hp, SelectDraft.rowCount_eq "limit" hlimit, if_pos hl]
  rfl

lemma configure_limitOffset_eq (hb : b.built = false) {offset : Double} {o : ℕ}
    (hlimit : limit.toInt? = some (l : ℤ)) (hoffset : offset.toInt? = some (o : ℤ))
    (hl : l < UInt32.size) (ho : o < UInt32.size) :
    b.configure (.limitOffset limit offset) = .ok (b.paged (.ofNat l) (.ofNat o), []) := by
  rw [configure_quiet hb rfl rfl, SelectDraft.fill, SelectDraft.rowCount_eq "limit" hlimit,
    if_pos hl, SelectDraft.rowCount_eq "offset" hoffset, if_pos ho]
  rfl

/-- A page and a limit that are integers of 32 bits give exactly the offset of unbounded integers,
cut at the last 32-bit number. It is the value of the computation in binary64, in which the product
may be rounded, and setting this value as the offset is accepted and does the same. A larger page
or limit does not give a smaller offset. -/
theorem configure_page (hb : b.built = false) (hpage : page.toInt? = some (p : ℤ))
    (hlimit : limit.toInt? = some (l : ℤ)) (hp : p ≤ 2 ^ 32 - 1) (hl : l ≤ 2 ^ 32 - 1) :
    ∃ offset : UInt32,
      (offset.toNat : ℤ) = min (max ((p : ℤ) - 1) 0 * l) (2 ^ 32 - 1) ∧
      (SelectDraft.roundedOffset page limit).toInt? = some (offset.toNat : ℤ) ∧
      b.configure (.page page limit) = .ok (b.paged (.ofNat l) offset, []) ∧
      b.configure (.limitOffset limit (SelectDraft.roundedOffset page limit)) =
        .ok (b.paged (.ofNat l) offset, []) ∧
      ∀ (page' limit' : Double) (p' l' : ℕ), page'.toInt? = some (p' : ℤ) →
        limit'.toInt? = some (l' : ℤ) → p' ≤ 2 ^ 32 - 1 → l' ≤ 2 ^ 32 - 1 → p ≤ p' → l ≤ l' →
        ∃ offset' : UInt32, b.configure (.page page' limit') =
          .ok (b.paged (.ofNat l') offset', []) ∧ offset ≤ offset' := by
  have hsize : UInt32.size = 2 ^ 32 := rfl
  have hsafe : UInt32.size ≤ Double.safeBound := by decide
  have hvalue : ∀ {p l : ℕ}, p ≤ 2 ^ 32 - 1 → l ≤ 2 ^ 32 - 1 →
      (SelectDraft.pageOffset (.ofNat p) (.ofNat l)).toNat =
        min ((p - 1) * l) (UInt32.size - 1) := fun hp hl => by
    rw [SelectDraft.pageOffset_toNat, UInt32.toNat_ofNat_of_lt' (by omega),
      UInt32.toNat_ofNat_of_lt' (by omega)]
  have hrounded := SelectDraft.roundedOffset_toInt? hpage hlimit (by omega) (by omega)
  rw [← hvalue hp hl] at hrounded
  refine ⟨SelectDraft.pageOffset (.ofNat p) (.ofNat l), ?_, hrounded,
    configure_page_eq hb hpage hlimit (by omega) (by omega), ?_, ?_⟩
  · have hbefore : max ((p : ℤ) - 1) 0 = ((p - 1 : ℕ) : ℤ) := by omega
    rw [hvalue hp hl, hbefore, hsize]
    push_cast
    rfl
  · rw [configure_limitOffset_eq hb hlimit hrounded (by omega) (UInt32.toNat_lt_size _),
      UInt32.ofNat_toNat]
  · intro page' limit' p' l' hpage' hlimit' hp' hl' hpp hll
    refine ⟨_, configure_page_eq hb hpage' hlimit' (by omega) (by omega), ?_⟩
    rw [UInt32.le_iff_toNat_le, hvalue hp hl, hvalue hp' hl']
    have hproduct : (p - 1) * l ≤ (p' - 1) * l' := Nat.mul_le_mul (by omega) hll
    exact min_le_min_right _ hproduct

/-- A product that is just the last 32-bit number, and the largest product that there is, which
binary64 rounds. -/
theorem configure_page_at_bound :
    let b : Builder SelectDraft := ⟨.postgres, "t", {}, false⟩
    b.configure (.page 65536 65537) = .ok (b.paged 65537 4294967295, []) ∧
      ∃ offset : UInt32, b.configure (.page 4294967295 4294967295) =
        .ok (b.paged 4294967295 offset, []) ∧ 4294967295 ≤ offset := by
  intro b
  have hexact : ∀ n : ℕ, n ≤ Double.safeBound → (Double.ofNat n).toInt? = some (n : ℤ) :=
    fun n hn => Double.toInt?_ofNat hn
  obtain ⟨offset, hoffset, -, hconfigure, -, hmono⟩ := configure_page (b := b) rfl
    (hexact 65536 (by decide)) (hexact 65537 (by decide)) (by norm_num) (by norm_num)
  have hvalue : offset.toNat = 4294967295 := by
    norm_num at hoffset
    omega
  obtain rfl : offset = 4294967295 := UInt32.toNat_inj.mp hvalue
  exact ⟨hconfigure, hmono 4294967295 4294967295 4294967295 4294967295 (hexact _ (by decide))
    (hexact _ (by decide)) (by norm_num) (by norm_num) (by norm_num) (by norm_num)⟩

end Builder
end BoundSql
